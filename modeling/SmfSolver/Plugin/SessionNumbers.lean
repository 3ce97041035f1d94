/-
  SmfSolver.Plugin.SessionNumbers

  Which numbers the session's factor holds: those of an engine run that ran to the end on
  the values of the last `factor` call, as long as no indefinite factorization follows one
  on the banded path (`Backed`).

  `Numbers` are the fields this depends on; each member of the session is described by what
  it does to them.
-/
import SmfSolver.Plugin.Ma97Plugin
import SmfSolver.Session.AnalysisHistory

namespace SmfSolver
namespace Plugin

open Session Lib

variable {ρ Φ : Type}

structure Numbers (Φ : Type) where
  mat : CscLower ℚ
  entryMap : List ℕ
  inputNnz : ℕ
  type : MatrixType
  banded : Bool
  used : Option Φ
  solvable : Bool
  aborted : Bool

def numbers (s : IpmSession ρ Φ) : Numbers Φ where
  mat := s.mat
  entryMap := s.entryMap
  inputNnz := s.inputNnz
  type := s.factorCtrl.matrixType
  banded := s.fk.useBandedSpd
  used := used s.fk
  solvable := s.solvable
  aborted := s.aborted

/-- A factor that can be solved with holds the numbers of the last of `runs`, of the values
    `v`; one that is to be completed reads no band factor. -/
structure Backed (s : IpmSession ρ Φ) (v : List ℚ) (runs : List (EngineRun ρ Φ)) : Prop where
  values : s.mat.values = v
  solvable : s.solvable = true → ∃ e, runs.getLast? = some e ∧
    e.outcome.ending.runsToEnd = true ∧ e.outcome.numeric = used s.fk ∧ e.request.values = v
  aborted : s.aborted = true → s.factorCtrl.matrixType = .indefinite ∧ s.fk.useBandedSpd = false

section Sessions

variable {s t : IpmSession ρ Φ} {v values : List ℚ} {runs runs' : List (EngineRun ρ Φ)}
  {ak : AnalysisKeep} {o : Outcome Φ} {e : EngineRun ρ Φ} {limit : ℤ}

theorem Backed.congr (h : Backed s v runs) (ht : numbers t = numbers s) : Backed t v runs := by
  have hmat : t.mat = s.mat := congrArg Numbers.mat ht
  have htype : t.factorCtrl.matrixType = s.factorCtrl.matrixType := congrArg Numbers.type ht
  have hband : t.fk.useBandedSpd = s.fk.useBandedSpd := congrArg Numbers.banded ht
  have hused : used t.fk = used s.fk := congrArg Numbers.used ht
  have hsolvable : t.solvable = s.solvable := congrArg Numbers.solvable ht
  have haborted : t.aborted = s.aborted := congrArg Numbers.aborted ht
  refine ⟨hmat ▸ h.values, fun hs => ?_, fun ha => ?_⟩
  · rw [hused]
    exact h.solvable (hsolvable ▸ hs)
  · rw [htype, hband]
    exact h.aborted (haborted ▸ ha)

/-- Only the last of the runs matters. -/
theorem Backed.append (h : Backed s v [e]) (runs : List (EngineRun ρ Φ)) :
    Backed s v (runs ++ [e]) where
  values := h.values
  solvable := fun hs => by
    obtain ⟨e', he, hrest⟩ := h.solvable hs
    obtain rfl : e = e' := Option.some.inj he
    exact ⟨e, List.getLast?_concat, hrest⟩
  aborted := h.aborted

/-! ## Loading the values -/

theorem length_placed (h : s.entryMap ≠ []) : (s.placed values).length = s.mat.values.length := by
  have hfold : ∀ (l : List (ℕ × ℚ)) (m : List ℚ),
      (l.foldl (fun m e => m.set e.1 e.2) m).length = m.length := by
    intro l
    induction l with
    | nil => exact fun m => rfl
    | cons a l ih => exact fun m => (ih _).trans List.length_set
  unfold IpmSession.placed
  rw [if_neg h]
  exact (hfold _ _).trans List.length_replicate

/-- Placing values a second time gives the same. -/
theorem placed_of_mat (hmap : t.entryMap = s.entryMap)
    (hmat : t.mat = { s.mat with values := s.placed values }) :
    t.placed values = s.placed values := by
  unfold IpmSession.placed
  rw [hmap]
  split
  next => rfl
  next h =>
    have hlen : t.mat.values.length = s.mat.values.length := by
      rw [hmat]
      exact length_placed h
    rw [hlen]

theorem load_numbers : numbers (s.load values) =
    { numbers s with
      mat := { s.mat with values := s.placed values }
      type := s.ctrl.matrixType
      solvable := false
      aborted := false } := by
  have hcopy : numbers (s.invalidate.loadValues values).copyControl =
      { numbers s with
        mat := { s.mat with values := s.placed values }
        type := s.ctrl.matrixType
        solvable := false
        aborted := false } := by
    unfold IpmSession.copyControl
    split <;> rfl
  have hdrop : ∀ s : IpmSession ρ Φ, numbers s.dropScaleOnce = numbers s := by
    intro s
    unfold IpmSession.dropScaleOnce
    split <;> rfl
  have hmode : ∀ s : IpmSession ρ Φ, numbers s.setStaticMode = numbers s := by
    intro s
    have htype : s.staticControl.matrixType = s.factorCtrl.matrixType := by
      unfold IpmSession.staticControl
      dsimp only
      split <;> split <;> rfl
    unfold IpmSession.setStaticMode numbers
    dsimp only
    split <;> simp only [htype]
  exact (hmode _).trans ((hdrop _).trans hcopy)

theorem ensureAnalysis_numbers (a : Option Analysed) (status : ErrorCode) :
    numbers (s.ensureAnalysis a status) = numbers s := by
  unfold IpmSession.ensureAnalysis IpmSession.runAnalysis
  split
  · rfl
  · split <;> rfl

theorem prepareAnalysis_numbers (a : Option Analysed) :
    numbers (s.prepareAnalysis a) = numbers s := by
  unfold IpmSession.prepareAnalysis
  split
  next => rfl
  next =>
    split
    next => rfl
    next =>
      split
      next => rfl
      next =>
        split
        next => rfl
        next => split <;> rfl

/-! ## Factoring -/

theorem runFactor_numbers : numbers (s.runFactor ak o) = numbers (s.factored ak o) := by
  unfold IpmSession.runFactor
  dsimp only
  split
  next =>
    unfold IpmSession.judge
    dsimp only
    split
    next => rfl
    next =>
      unfold IpmSession.dropPreviousAnalysis
      split <;> rfl
  next => rfl

theorem runFactor_ak : (s.runFactor ak o).ak = s.ak := by
  unfold IpmSession.runFactor
  dsimp only
  split
  next =>
    unfold IpmSession.judge
    dsimp only
    split
    next => rfl
    next =>
      unfold IpmSession.dropPreviousAnalysis
      split <;> rfl
  next => rfl

/-- No indefinite factorization turns the band factor on. -/
theorem after_banded {fk : FactorKeep Φ} {ctrl : Control ρ} (ho : o.Fits ak ctrl)
    (htype : ctrl.matrixType = .indefinite) (hband : fk.useBandedSpd = false) :
    (fk.after ak .indefinite o).useBandedSpd = false := by
  unfold Outcome.Fits at ho
  unfold FactorKeep.after
  cases he : o.ending <;> rw [he] at ho
  case banded => exact absurd (ho.2.1.symm.trans htype) nofun
  all_goals exact hband

/-- A factorization that ran to the end left its numbers where a solve reads them. -/
theorem after_used {fk : FactorKeep Φ} {ctrl : Control ρ} {type : MatrixType}
    (ho : o.Fits ak ctrl) (htype : ctrl.matrixType = type)
    (hband : type = .indefinite → fk.useBandedSpd = false) (hrun : o.ending.runsToEnd = true) :
    o.numeric = used (fk.after ak type o) := by
  unfold Outcome.Fits at ho
  unfold FactorKeep.after used
  cases he : o.ending <;> rw [he] at hrun ho
  case early => cases hrun
  case earlyReduced => cases hrun
  case stopped => cases hrun
  case complete =>
    cases type with
    | positiveDefinite => rfl
    | indefinite =>
      show o.numeric = if fk.useBandedSpd = true then fk.band else o.numeric
      rw [hband rfl]
      rfl
  case banded => rfl
  case slack =>
    obtain rfl : type = .indefinite := htype.symm.trans ho.2.2.1
    show o.numeric = if fk.useBandedSpd = true then fk.band else o.numeric
    rw [hband rfl]
    rfl

/-- A factorization leaves a session whose factor is backed by it. -/
theorem backed_factors (hrun : IpmSession.Factors limit s e t)
    (hband : s.factorCtrl.matrixType = .indefinite → s.fk.useBandedSpd = false) :
    Backed t s.mat.values [e] ∧ t.ak.isSome = true ∧
      (s.factorCtrl.matrixType = .indefinite → t.fk.useBandedSpd = false) := by
  cases hrun with
  | run ak o hak ho =>
    have hreq : (s.request limit).ctrl.matrixType = s.factorCtrl.matrixType := rfl
    have hend : (s.factored ak o).solvable = true → o.ending.runsToEnd = true := by
      intro hs
      rcases Bool.or_eq_true_iff.mp hs with hok | hsing
      · -- an accepted status is one of a run to the end
        rcases status_of_ok (of_decide_eq_true hok) with hst | hst <;>
          unfold Outcome.Fits at ho <;> cases he : o.ending <;> rw [he] at ho <;>
          first
          | rfl
          | simp [hst] at ho
      · exact runsToEnd_of_ran (Bool.and_eq_true_iff.mp hsing).2
    have habort : (s.factored ak o).aborted = true → s.factorCtrl.matrixType = .indefinite := by
      intro ha
      have hres : IpmSession.resultOf o = .wrongInertia := of_decide_eq_true ha
      have hst : o.status = .inertiaExceeded := by
        unfold IpmSession.resultOf at hres
        split at hres
        next => cases hres
        next => cases hres
        next => split at hres <;> cases hres
        next h => exact h
        next => cases hres
      unfold Outcome.Fits at ho
      cases he : o.ending <;> rw [he] at ho <;> simp only [hst, reduceCtorEq, false_and, or_self,
        false_or, and_false] at ho
      exact ho.2.1
    have hfactored : Backed (s.factored ak o) s.mat.values [⟨s.request limit, o⟩] :=
      { values := rfl
        solvable := fun hs => ⟨_, rfl, hend hs, after_used ho hreq hband (hend hs), rfl⟩
        aborted := fun ha => ⟨habort ha, by
          show (s.fk.after ak s.factorCtrl.matrixType o).useBandedSpd = false
          rw [habort ha]
          exact after_banded ho (habort ha) (hband (habort ha))⟩ }
    -- judging the analysis afterwards leaves the factor as it is
    have hnum : numbers (s.runFactor ak o) = numbers (s.factored ak o) := runFactor_numbers
    refine ⟨hfactored.congr hnum, ?_, fun hi => ?_⟩
    · rw [runFactor_ak, hak]
      rfl
    · refine (congrArg Numbers.banded hnum).trans ?_
      show (s.fk.after ak s.factorCtrl.matrixType o).useBandedSpd = false
      rw [hi]
      exact after_banded ho hi (hband hi)

/-! ## Calls of the session -/

/-- The pattern stays; the values are those of the last `factor` call. -/
structure SamePattern (s t : IpmSession ρ Φ) : Prop where
  n : t.mat.n = s.mat.n
  entryMap : t.entryMap = s.entryMap
  inputNnz : t.inputNnz = s.inputNnz

theorem SamePattern.trans {u : IpmSession ρ Φ} (h : SamePattern s t) (h' : SamePattern t u) :
    SamePattern s u :=
  ⟨h'.n.trans h.n, h'.entryMap.trans h.entryMap, h'.inputNnz.trans h.inputNnz⟩

theorem SamePattern.of_numbers (h : numbers t = numbers s) : SamePattern s t :=
  ⟨congrArg (fun x => x.mat.n) h, congrArg Numbers.entryMap h, congrArg Numbers.inputNnz h⟩

theorem factors_frame (hrun : IpmSession.Factors limit s e t) :
    t.mat = s.mat ∧ t.entryMap = s.entryMap ∧ t.inputNnz = s.inputNnz := by
  cases hrun with
  | run ak o hak ho =>
    have hnum : numbers (s.runFactor ak o) = numbers (s.factored ak o) := runFactor_numbers
    exact ⟨congrArg Numbers.mat hnum, congrArg Numbers.entryMap hnum,
      congrArg Numbers.inputNnz hnum⟩

/-- A `factor` call that gets to no factorization has no analysis to factor with. -/
theorem factor_none {status : IpmFactorStatus}
    (h : IpmSession.Step s (.factor values none, .factored status none) t) (hn : 0 < s.mat.n)
    (hlen : values.length = s.inputNnz) :
    status = .error ∧ s.ak = none ∧ t.ak = none ∧ SamePattern s t := by
  cases h with
  | factorUninitialised h => exact absurd hn (not_lt.mpr h)
  | factorIllegal _ h => exact absurd hlen h
  | @factorUnanalysed _ _ a status _ _ hfail =>
    have hload : numbers (s.load values) = _ := load_numbers
    have hnum := (ensureAnalysis_numbers (s := s.load values) a status).trans hload
    refine ⟨rfl, ?_, hfail, congrArg (fun x => x.mat.n) hnum, congrArg Numbers.entryMap hnum,
      congrArg Numbers.inputNnz hnum⟩
    have hak : (s.load values).ak = s.ak := congrArg Core.ak (load_frame values).1
    cases hs : s.ak with
    | none => rfl
    | some ak =>
      unfold IpmSession.ensureAnalysis at hfail
      rw [hak, hs] at hfail
      exact absurd (hak.symm.trans hfail) (hs ▸ nofun)

/-- A `factor` call of a session with a pattern, given as many values as it takes: either
    there is no analysis to be had, or the engine ran and backs the factor. -/
theorem factor_spec {status : IpmFactorStatus} {run : Option (EngineRun ρ Φ)}
    (h : IpmSession.Step s (.factor values none, .factored status run) t) (hn : 0 < s.mat.n)
    (hlen : values.length = s.inputNnz)
    (hband : s.ctrl.matrixType = .indefinite → s.fk.useBandedSpd = false) :
    t.mat = { s.mat with values := s.placed values } ∧ SamePattern s t ∧
      (run = none ∨
        ∃ e, run = some e ∧ t.ak.isSome = true ∧ Backed t (s.placed values) [e] ∧
          (s.ctrl.matrixType = .indefinite → t.fk.useBandedSpd = false)) := by
  have hload : numbers (s.load values) = _ := load_numbers
  cases h with
  | factorUninitialised h => exact absurd hn (not_lt.mpr h)
  | factorIllegal _ h => exact absurd hlen h
  | @factorUnanalysed _ _ a status _ _ hfail =>
    have hnum := (ensureAnalysis_numbers (s := s.load values) a status).trans hload
    exact ⟨congrArg Numbers.mat hnum, ⟨congrArg (fun x => x.mat.n) hnum,
      congrArg Numbers.entryMap hnum, congrArg Numbers.inputNnz hnum⟩, .inl rfl⟩
  | @factor _ u e _ _ a a' status _ _ hready hak hrun =>
    subst hready
    have hnum := (prepareAnalysis_numbers (s := (s.load values).ensureAnalysis a status) a').trans
      ((ensureAnalysis_numbers (s := s.load values) a status).trans hload)
    have htype := congrArg Numbers.type hnum
    have hbanded := congrArg Numbers.banded hnum
    have hmat := congrArg Numbers.mat hnum
    obtain ⟨hback, hsome, hclean⟩ := backed_factors hrun fun hi =>
      hbanded.trans (hband (htype.symm.trans hi))
    obtain ⟨hmat', hmap', hnnz'⟩ := factors_frame hrun
    -- counting an aborted factorization changes no number of the factor
    have hcount : numbers (u.countAbort (IpmSession.resultOf e.outcome)) = numbers u := by
      unfold IpmSession.countAbort
      split <;> rfl
    have hak' : (u.countAbort (IpmSession.resultOf e.outcome)).ak = u.ak := by
      unfold IpmSession.countAbort
      split <;> rfl
    have hvalues : (s.placed values) = ((((s.load values).ensureAnalysis a status).prepareAnalysis
        a').countFactorization).mat.values := (congrArg CscLower.values hmat).symm
    have hfull : (u.countAbort (IpmSession.resultOf e.outcome)).mat =
        { s.mat with values := s.placed values } :=
      (congrArg Numbers.mat hcount).trans (hmat'.trans hmat)
    refine ⟨hfull, ⟨by rw [hfull], ?_, ?_⟩, .inr ⟨e, rfl, hak' ▸ hsome,
      hvalues ▸ hback.congr hcount, fun hi => ?_⟩⟩
    · exact (congrArg Numbers.entryMap hcount).trans (hmap'.trans (congrArg Numbers.entryMap hnum))
    · exact (congrArg Numbers.inputNnz hcount).trans (hnnz'.trans (congrArg Numbers.inputNnz hnum))
    · exact (congrArg Numbers.banded hcount).trans (hclean (htype.trans hi))

/-- Completing an aborted factorization. -/
theorem completes_spec {run : Option (EngineRun ρ Φ)} (h : Backed s v runs)
    (hdone : IpmSession.Completes s run t) :
    Backed t v (runs ++ run.toList) ∧ SamePattern s t ∧
      (s.ak.isSome = true → t.ak.isSome = true) := by
  cases hdone with
  | skip =>
    rw [Option.toList_none, List.append_nil]
    exact ⟨h, ⟨rfl, rfl, rfl⟩, id⟩
  | @run _ e ha hrun =>
    obtain ⟨htype, hband⟩ := h.aborted ha.1
    obtain ⟨hback, hsome, -⟩ := backed_factors hrun fun _ => hband
    obtain ⟨hmat, hmap, hnnz⟩ := factors_frame hrun
    rw [h.values] at hback
    exact ⟨hback.append runs, ⟨congrArg CscLower.n hmat, hmap, hnnz⟩, fun _ => hsome⟩

theorem afterSolve_frame (rc : ℤ) (perm pairs : List ℕ) :
    numbers (s.afterSolve rc perm pairs) = numbers s ∧ (s.afterSolve rc perm pairs).ak = s.ak := by
  have hconsider : ∀ s : IpmSession ρ Φ,
      numbers (s.considerReanalysis perm pairs) = numbers s ∧
        (s.considerReanalysis perm pairs).ak = s.ak := by
    intro s
    unfold IpmSession.considerReanalysis
    split_ifs <;> exact ⟨rfl, rfl⟩
  unfold IpmSession.afterSolve
  split
  next => exact ⟨(hconsider _).1, (hconsider _).2⟩
  next => exact ⟨rfl, rfl⟩

/-- A `solve` call: the factor is completed first, and a factor that cannot be solved with
    leaves the right-hand side as it is. -/
theorem solve_spec {b x : Option (List ℚ)} {n nrhs rc : ℤ} {job : SolveJob}
    {run : Option (EngineRun ρ Φ)} (h : Backed s v runs)
    (hs : IpmSession.Step s (.solve b n nrhs job, .solved rc x run) t) :
    Backed t v (runs ++ run.toList) ∧ SamePattern s t ∧ (s.ak.isSome = true → t.ak.isSome = true) ∧
      (t.solvable = false → rc ≠ 0 ∧ x = b) := by
  cases hs with
  | @solveRefused u _ _ _ _ _ hdone hno =>
    obtain ⟨hback, hsame, hak⟩ := completes_spec h hdone
    exact ⟨hback.congr rfl, hsame.trans ⟨rfl, rfl, rfl⟩, hak, fun _ => ⟨nofun, rfl⟩⟩
  | @solve u _ _ _ _ _ _ _ code perm pairs hdone hyes =>
    obtain ⟨hback, hsame, hak⟩ := completes_spec h hdone
    obtain ⟨hnum, hak'⟩ := afterSolve_frame (s := { u with solveStatus := code }) rc perm pairs
    have hsolvable : (IpmSession.afterSolve { u with solveStatus := code } rc perm pairs).solvable =
        u.solvable := congrArg Numbers.solvable hnum
    refine ⟨hback.congr hnum, hsame.trans (.of_numbers hnum), fun h => hak'.symm ▸ hak h,
      fun hsolv => ?_⟩
    exact absurd (hsolvable.symm.trans hsolv) (hyes ▸ nofun)

end Sessions

end Plugin
end SmfSolver
