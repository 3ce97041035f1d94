/-
  SmfSolver.Solve.SlackRuns

  Every order of overlapping slack solves: the full matrix is factored at most once, a solve
  that begins later goes through that factor or returns the error of its making, an accepted
  solution is accurate, and a refused fallback leaves the refined solution.

  The shared state is written once: it only ever goes from empty to a full factor or to an
  error (`Shared.Grows`), so what a solve saw stays true behind its back.
-/
import SmfSolver.Solve.SlackAccuracy

namespace SmfSolver
namespace Solve

open Lib
open Factor (FactorStatus)

variable {K : Type} {n m : ℕ}

/-! ## Refused factors -/

namespace FullFactor

variable {fk : FullFactor n K} {ctrl : SlackControl K}

theorem solveCore_of_refuses {e : ErrorCode} (h : fk.refuses ctrl = some e) (job : Session.SolveJob)
    (b : Fin m → Fin n → K) : (fk.solveCore ctrl job b).2 = b := by
  unfold solveCore
  rw [h]
  split_ifs
  · rfl
  · rfl

/-- A status that is refused, other than for too many negative pivots, does not proceed. -/
theorem not_proceeds_of_refuses {e : ErrorCode} (h : fk.refuses ctrl = some e)
    (hinertia : fk.status ≠ .inertiaExceeded) : ¬(fk.status = .success ∨
      (fk.status ≠ .maxPivotDelays ∧ ctrl.rest.continueOnSingular = true)) := by
  unfold refuses at h
  rintro (hstatus | ⟨hdelays, hcont⟩)
  · rw [hstatus] at h
    simp at h
  · rw [if_neg hinertia, if_neg hdelays, hcont] at h
    simp at h

end FullFactor

theorem fullFactor_status {ctrl : SlackControl K} (h : ctrl.maxNegativePivots < 0) (forced : Bool)
    (e : EngineRun n K) : (fullFactor ctrl forced e).status ≠ .inertiaExceeded := by
  unfold fullFactor factorStatus
  dsimp only
  rw [if_neg fun hlimit : 0 ≤ ctrl.maxNegativePivots ∧ _ => absurd hlimit.1 (not_le.mpr h)]
  split_ifs <;> exact fun hc => nomatch hc

/-! ## The shared state -/

/-- Nothing that is written is changed. -/
structure Shared.Grows (s s' : Shared n K) : Prop where
  full : ∀ fk, s.full = some fk → s'.full = some fk
  error : s.fullError ≠ .success → s' = s

theorem Shared.Grows.refl (s : Shared n K) : s.Grows s := ⟨fun _ h => h, fun _ => rfl⟩

/-- One of the two is written, and not both. -/
def Shared.Settled (s : Shared n K) : Prop :=
  (s.full.isSome ∧ s.fullError = .success) ∨ (s.full = none ∧ s.fullError ≠ .success)

theorem Shared.Grows.trans {s s' s'' : Shared n K} (h : s.Grows s') (h' : s'.Grows s'') :
    s.Grows s'' :=
  ⟨fun fk hfk => h'.full fk (h.full fk hfk), fun he => by
    obtain rfl := h.error he
    exact h'.error he⟩

/-- A settled state does not change. -/
theorem Shared.Grows.eq_of_settled {s s' : Shared n K} (h : s.Grows s') (hs : s.Settled)
    (hs' : s'.Settled) : s' = s := by
  rcases hs with ⟨hsome, hok⟩ | ⟨-, herror⟩
  · obtain ⟨fk, hfk⟩ := Option.isSome_iff_exists.mp hsome
    have hfull := h.full fk hfk
    rcases hs' with ⟨-, hok'⟩ | ⟨hnone, -⟩
    · obtain ⟨full, err⟩ := s
      obtain ⟨full', err'⟩ := s'
      simp_all
    · rw [hnone] at hfull
      cases hfull
  · exact h.error herror

variable [Field K] [LinearOrder K]

/-- The control of a slack factor sets no limit on negative pivots. -/
theorem SlackFactor.maxNegativePivots_neg (sf : SlackFactor n K) :
    sf.ctrl.maxNegativePivots < 0 := by
  have harmed := sf.armed
  unfold slackArmed at harmed
  simp only [Bool.and_eq_true, decide_eq_true_eq] at harmed
  exact harmed.1.2

namespace SlackFactor

variable {kMax : K} {sf : SlackFactor n K} {engine : SlackControl K → LowerColumns n K →
    EngineRun n K}

variable (sf engine) in
/-- The second look: the shared state grows and is settled afterwards, the factor that is made
    is the first one and is not refused for its inertia. -/
theorem refactor_spec (analysed forced : Bool) {s : Shared n K}
    (h : s = {} ∨ s.Settled) :
    let r := sf.refactor engine analysed forced s
    s.Grows r.1 ∧ r.1.Settled ∧ (r.2 = true → s.full = none ∧ r.1.full.isSome) ∧
      (r.2 = false → r.1.full = s.full) ∧
      ((∀ fk, s.full = some fk → fk.status ≠ .inertiaExceeded) →
        ∀ fk, r.1.full = some fk → fk.status ≠ .inertiaExceeded) := by
  rcases h with rfl | hsettled
  · cases analysed with
    | true =>
      refine ⟨⟨fun _ h => (nomatch h), fun h => absurd rfl h⟩, Or.inl ⟨rfl, rfl⟩,
        fun _ => ⟨rfl, rfl⟩,
        fun h => (nomatch h), fun _ fk hfk => ?_⟩
      obtain rfl := Option.some.inj hfk
      exact fullFactor_status sf.maxNegativePivots_neg forced _
    | false =>
      exact ⟨⟨fun _ h => (nomatch h), fun h => absurd rfl h⟩, Or.inr ⟨rfl, fun h => (nomatch h)⟩,
        fun h => (nomatch h), fun _ => rfl, fun _ fk hfk => (nomatch hfk)⟩
  · have hskip : ¬(s.full.isNone = true ∧ s.fullError = .success) := by
      rintro ⟨hnone, hok⟩
      rcases hsettled with ⟨hsome, -⟩ | ⟨-, herror⟩
      · rw [Option.isNone_iff_eq_none.mp hnone] at hsome
        cases hsome
      · exact herror hok
    rw [refactor, if_neg hskip]
    exact ⟨Shared.Grows.refl s, hsettled, fun h => (nomatch h), fun _ => rfl, fun h => h⟩

/-! ## One solve -/

variable (kMax sf) in
/-- The refined columns of a full solve, one of them still inaccurate. -/
def Inaccurate (c : SlackCall n K) (k : Refinement c.m n K) : Prop :=
  ∃ x, sf.slackSubstitute c.ctrl c.job c.b = (.success, x) ∧ k = sf.refine kMax c.ctrl c.b x ∧
    k.rc = .success ∧
      ∃ j, (c.ctrl.rest.slackOmegaTarget : WithTop K) < slackOmega kMax sf.cv (c.b j) (k.b j)

/-- What an accepted full solve leaves, when it is checked and took no fallback. -/
def Accepted (sf : SlackFactor n K) (c : SlackCall n K) (r : SlackResult c.m n K) : Prop :=
  c.job = .full → 0 < c.ctrl.rest.slackOmegaTarget → sf.cvEmpty = false → r.rc = .success →
    r.slackSolveFallbacks = 0 →
      ∀ j, SolvesWithin sf.cv.entry (c.b j) (r.b j) c.ctrl.rest.slackOmegaTarget

/-- What a solve knows of the shared state, and has done. -/
def PhaseOk (kMax : K) (sf : SlackFactor n K) (shared : Shared n K) : SlackPhase n K → Prop
  | .idle => True
  | .entered _ seen => seen.Grows shared
  | .inaccurate c k => sf.Inaccurate kMax c k
  | .settled c k full => sf.Inaccurate kMax c k ∧ full = shared.full ∧ shared.Settled
  | .done c k r => Accepted sf c r ∧ ∀ k', k = some k' → sf.Inaccurate kMax c k' ∧ shared.Settled ∧
      ((shared.full = none ∨ ∃ fk e, shared.full = some fk ∧
        fk.refuses c.ctrl = some e) → r.b = k'.b)

theorem PhaseOk.grows {s s' : Shared n K} {p : SlackPhase n K} (h : PhaseOk kMax sf s p)
    (hgrow : s.Grows s') (hs' : s.Settled → s'.Settled) : PhaseOk kMax sf s' p := by
  cases p with
  | idle => trivial
  | entered c seen => exact Shared.Grows.trans h hgrow
  | inaccurate c k => exact h
  | settled c k full =>
    obtain ⟨hk, hfull, hset⟩ := h
    obtain rfl := Shared.Grows.eq_of_settled hgrow hset (hs' hset)
    exact ⟨hk, hfull, hset⟩
  | done c k r =>
    obtain ⟨hacc, hk⟩ := h
    refine ⟨hacc, fun k' hk' => ?_⟩
    obtain ⟨hin, hset, hb⟩ := hk k' hk'
    obtain rfl := Shared.Grows.eq_of_settled hgrow hset (hs' hset)
    exact ⟨hin, hset, hb⟩

variable (kMax sf) in
/-- The first part of a solve ends it, or hands on its refined columns. -/
theorem work_spec [IsStrictOrderedRing K] (c : SlackCall n K) (seen : Shared n K) :
    (∃ r, sf.work kMax c seen = .done c none r ∧ Accepted sf c r) ∨
      ∃ k, sf.work kMax c seen = .inaccurate c k ∧ sf.Inaccurate kMax c k := by
  rw [work]
  by_cases hm : c.m = 0
  · rw [if_pos hm]
    exact Or.inl ⟨_, rfl, fun _ _ _ hrc => nomatch hrc⟩
  rw [if_neg hm]
  cases seen.full with
  | some fk => exact Or.inl ⟨_, rfl, fun _ _ _ _ hf => nomatch hf⟩
  | none =>
    dsimp only
    by_cases herror : seen.fullError ≠ .success
    · rw [if_pos herror]
      exact Or.inl ⟨_, rfl, fun _ _ _ _ hf => nomatch hf⟩
    rw [if_neg herror]
    -- only a full solve with a target and a stored matrix is measured
    by_cases huncheck : c.job ≠ .full ∨ ¬0 < c.ctrl.rest.slackOmegaTarget ∨ sf.cvEmpty = true
    · rw [if_pos huncheck]
      refine Or.inl ⟨_, rfl, fun hjob htarget hcv => ?_⟩
      rcases huncheck with hne | hoff | hempty
      · exact absurd hjob hne
      · exact absurd htarget hoff
      · rw [hcv] at hempty
        cases hempty
    rw [if_neg huncheck]
    rw [not_or, not_or, not_not, not_not] at huncheck
    split
    · rename_i x hx
      have hacc := @refine_accurate K _ n c.m _ kMax sf c.ctrl c.b x
      split_ifs with hrc haccurate
      · exact Or.inl ⟨_, rfl, fun _ _ _ hsucc => absurd hsucc hrc⟩
      · exact Or.inl ⟨_, rfl, fun _ _ _ _ _ j => solvesWithin_of_slackOmega sf.clean huncheck.2.1.le
          ((hacc (not_not.mp hrc)).1 haccurate j)⟩
      · exact Or.inr ⟨_, rfl, x, hx, rfl, not_not.mp hrc,
          (hacc (not_not.mp hrc)).2 (Bool.eq_false_of_not_eq_true haccurate)⟩
    · rename_i rc b hne hsub
      exact Or.inl ⟨_, rfl, fun _ _ _ hrc => absurd hrc hne⟩

/-- The last part: a refused factor leaves the refined columns. -/
theorem finish_ok {c : SlackCall n K} {k : Refinement c.m n K} {shared : Shared n K}
    (hk : sf.Inaccurate kMax c k) (hset : shared.Settled)
    (hinertia : ∀ fk, shared.full = some fk → fk.status ≠ .inertiaExceeded) :
    PhaseOk kMax sf shared (.done c (some k) (finish c k shared.full shared.fullError)) := by
  refine ⟨fun _ _ _ _ hf => ?_, fun k' hk' => ?_⟩
  · unfold finish at hf
    split at hf <;> cases hf
  · obtain rfl := Option.some.inj hk'
    refine ⟨hk, hset, ?_⟩
    rintro (hnone | ⟨fk, e, hfk, hrefuses⟩)
    · rw [hnone]
      rfl
    · rw [hfk]
      unfold finish
      dsimp only
      rw [FullFactor.solveCore_of_refuses hrefuses,
        if_neg (FullFactor.not_proceeds_of_refuses hrefuses (hinertia fk hfk))]

/-! ## The runs -/

/-- What a step does. -/
theorem step_cases {s t : SlackState n K} {e : SlackEvent n K}
    (h : sf.step kMax engine s e = some t) :
    (∃ i c, e = .enter i c ∧ s.solves i = .idle ∧
      t = { s with solves := Function.update s.solves i (.entered c s.shared) }) ∨
    (∃ i c seen, e = .work i ∧ s.solves i = .entered c seen ∧
      t = { s with solves := Function.update s.solves i (sf.work kMax c seen) }) ∨
    (∃ i analysed forced c k, e = .refactor i analysed forced ∧ s.solves i = .inaccurate c k ∧
      t = { shared := (sf.refactor engine analysed forced s.shared).1
            refactored :=
              if (sf.refactor engine analysed forced s.shared).2 then s.refactored + 1
                else s.refactored
            solves := Function.update s.solves i
              (.settled c k (sf.refactor engine analysed forced s.shared).1.full) }) ∨
    (∃ i c k full, e = .finish i ∧ s.solves i = .settled c k full ∧
      t = { s with
        solves := Function.update s.solves i
          (.done c (some k) (finish c k full s.shared.fullError)) }) := by
  cases e with
  | enter i c =>
    rw [step] at h
    split at h
    · exact Or.inl ⟨i, c, rfl, by assumption, (Option.some.inj h).symm⟩
    · cases h
  | work i =>
    rw [step] at h
    split at h
    · exact Or.inr (Or.inl ⟨i, _, _, rfl, by assumption, (Option.some.inj h).symm⟩)
    · cases h
  | refactor i analysed forced =>
    rw [step] at h
    split at h
    · exact Or.inr (Or.inr (Or.inl ⟨i, analysed, forced, _, _, rfl, by assumption,
        (Option.some.inj h).symm⟩))
    · cases h
  | finish i =>
    rw [step] at h
    split at h
    · exact Or.inr (Or.inr (Or.inr ⟨i, _, _, _, rfl, by assumption, (Option.some.inj h).symm⟩))
    · cases h

theorem run_step {tr : List (SlackEvent n K)} {s t : SlackState n K} {a : SlackEvent n K}
    (h : (sf.lts kMax engine).Run tr s) (hstep : sf.step kMax engine s a = some t) :
    (sf.lts kMax engine).Run (tr ++ [a]) t := h.snoc hstep

/-- The state of a run: the shared state, how often it was made, and the solves. -/
structure Inv (kMax : K) (sf : SlackFactor n K) (s : SlackState n K) : Prop where
  shared : s.shared = {} ∨ s.shared.Settled
  refactored : s.refactored = if s.shared.full.isSome then 1 else 0
  inertia : ∀ fk, s.shared.full = some fk → fk.status ≠ .inertiaExceeded
  phases : ∀ i, PhaseOk kMax sf s.shared (s.solves i)

/-- A solve moves on, the shared state is as before. -/
theorem Inv.update {s : SlackState n K} (h : Inv kMax sf s) (i : ℕ) {p : SlackPhase n K}
    (hp : PhaseOk kMax sf s.shared p) :
    Inv kMax sf { s with solves := Function.update s.solves i p } := by
  refine ⟨h.shared, h.refactored, h.inertia, fun j => ?_⟩
  show PhaseOk kMax sf s.shared (Function.update s.solves i p j)
  by_cases hj : j = i
  · subst hj
    rwa [Function.update_self]
  · rw [Function.update_of_ne hj]
    exact h.phases j

theorem Inv.next [IsStrictOrderedRing K] {s t : SlackState n K} {e : SlackEvent n K}
    (h : Inv kMax sf s) (hstep : sf.step kMax engine s e = some t) : Inv kMax sf t := by
  -- only a refactorization changes what the solves share
  obtain ⟨i, c, -, -, rfl⟩ | ⟨i, c, seen, -, -, rfl⟩ | ⟨i, analysed, forced, c, k, -, hi, rfl⟩ |
    ⟨i, c, k, full, -, hi, rfl⟩ := step_cases hstep
  · exact h.update i (Shared.Grows.refl s.shared)
  · refine h.update i ?_
    obtain ⟨r, hr, hacc⟩ | ⟨k, hk, hin⟩ := work_spec kMax sf c seen
    · rw [hr]
      exact ⟨hacc, fun k' hk' => nomatch hk'⟩
    · rw [hk]
      exact hin
  · obtain ⟨hgrow, hset, hmade, hold, hinertia⟩ :=
      refactor_spec sf engine analysed forced h.shared
    have hk := h.phases i
    rw [hi] at hk
    refine ⟨Or.inr hset, ?_, hinertia h.inertia, fun j => ?_⟩
    · dsimp only
      rw [h.refactored]
      cases hmade' : (sf.refactor engine analysed forced s.shared).2 with
      | true =>
        obtain ⟨hnone, hsome⟩ := hmade hmade'
        rw [hnone, hsome]
        rfl
      | false =>
        rw [hold hmade', if_neg Bool.false_ne_true]
    · by_cases hj : j = i
      · subst hj
        dsimp only
        rw [Function.update_self]
        exact ⟨hk, rfl, hset⟩
      · dsimp only
        rw [Function.update_of_ne hj]
        exact (h.phases j).grows hgrow fun _ => hset
  · have hk := h.phases i
    rw [hi] at hk
    obtain ⟨hin, rfl, hset⟩ := hk
    exact h.update i (finish_ok hin hset h.inertia)

theorem inv_of_run [IsStrictOrderedRing K] {tr : List (SlackEvent n K)} {s : SlackState n K}
    (h : (sf.lts kMax engine).Run tr s) : Inv kMax sf s :=
  have hinit : Inv kMax sf ({} : SlackState n K) :=
    ⟨Or.inl rfl, rfl, fun _ hfk => (nomatch hfk), fun _ => trivial⟩
  h.invariant (P := fun _ s => Inv kMax sf s) hinit fun _ hs hstep => hs.next hstep

/-- A solve that began has not done its first part, or has what that gave, unless it was left
    inaccurate. -/
theorem entered_or_worked [IsStrictOrderedRing K] {pre post : List (SlackEvent n K)} {i : ℕ}
    {c : SlackCall n K} {s₀ s : SlackState n K} (h₀ : (sf.lts kMax engine).Run pre s₀)
    (h : (sf.lts kMax engine).Run (pre ++ .enter i c :: post) s) :
    s.solves i = .entered c s₀.shared ∨ s.solves i = sf.work kMax c s₀.shared ∨
      ∃ k, sf.work kMax c s₀.shared = .inaccurate c k := by
  refine h.invariant (P := fun tr s => ∀ post, tr = pre ++ .enter i c :: post →
    s.solves i = .entered c s₀.shared ∨ s.solves i = sf.work kMax c s₀.shared ∨
      ∃ k, sf.work kMax c s₀.shared = .inaccurate c k) ?_ ?_ post rfl
  · exact fun post hpost => absurd hpost (by simp)
  · intro tr s e t hrun ih hstep post hpost
    -- the first step is the entry itself; a later one goes by how far the solve is
    rcases List.eq_nil_or_concat post with rfl | ⟨post', e', rfl⟩
    · obtain ⟨rfl, he⟩ := List.append_inj' hpost rfl
      obtain rfl := List.singleton_inj.mp he
      obtain rfl := h₀.unique (L := sf.lts kMax engine) (fun {_ _ _ _} (h : _ = some _) h' =>
        Option.some.inj (h.symm.trans h')) hrun
      obtain ⟨i', c', he', -, rfl⟩ | ⟨_, _, _, he', -⟩ | ⟨_, _, _, _, _, he', -⟩ |
        ⟨_, _, _, _, he', -⟩ := step_cases hstep
      · cases he'
        exact Or.inl (Function.update_self ..)
      · cases he'
      · cases he'
      · cases he'
    · rw [List.concat_eq_append, ← List.cons_append, ← List.append_assoc] at hpost
      obtain ⟨rfl, -⟩ := List.append_inj' hpost rfl
      rcases ih post' rfl with hentered | hworked | hin
      · -- it has only looked at the shared state
        obtain ⟨j, c', -, hj, rfl⟩ | ⟨j, c', seen, -, hj, rfl⟩ | ⟨j, _, _, c', k, -, hj, rfl⟩ |
          ⟨j, c', k, full, -, hj, rfl⟩ := step_cases hstep
        · have hne : i ≠ j := fun heq => by rw [heq, hj] at hentered; cases hentered
          exact Or.inl ((Function.update_of_ne hne ..).trans hentered)
        · by_cases heq : i = j
          · subst heq
            rw [hentered] at hj
            cases hj
            exact Or.inr (Or.inl (Function.update_self ..))
          · exact Or.inl ((Function.update_of_ne heq ..).trans hentered)
        · have hne : i ≠ j := fun heq => by rw [heq, hj] at hentered; cases hentered
          exact Or.inl ((Function.update_of_ne hne ..).trans hentered)
        · have hne : i ≠ j := fun heq => by rw [heq, hj] at hentered; cases hentered
          exact Or.inl ((Function.update_of_ne hne ..).trans hentered)
      · obtain ⟨r, hr, -⟩ | ⟨k, hk, -⟩ := work_spec kMax sf c s₀.shared
        · -- it has returned
          refine Or.inr (Or.inl ?_)
          rw [hr] at hworked ⊢
          obtain ⟨j, c', -, hj, rfl⟩ | ⟨j, c', seen, -, hj, rfl⟩ | ⟨j, _, _, c', k, -, hj, rfl⟩ |
            ⟨j, c', k, full, -, hj, rfl⟩ := step_cases hstep
          all_goals
            have hne : i ≠ j := fun heq => by rw [heq, hj] at hworked; cases hworked
            exact (Function.update_of_ne hne ..).trans hworked
        · exact Or.inr (Or.inr ⟨k, hk⟩)
      · exact Or.inr (Or.inr hin)

variable (kMax sf) in
/-- Who begins with a settled state does not refactor. -/
theorem work_of_full {c : SlackCall n K} {seen : Shared n K} {fk : FullFactor n K} (hm : c.m ≠ 0)
    (h : seen.full = some fk) : sf.work kMax c seen = .done c none
      ⟨(fk.solveCore c.ctrl c.job c.b).1, (fk.solveCore c.ctrl c.job c.b).2, 0, 1⟩ := by
  rw [work, if_neg hm, h]

variable (kMax sf) in
theorem work_of_error {c : SlackCall n K} {seen : Shared n K} (hm : c.m ≠ 0)
    (hnone : seen.full = none)
    (h : seen.fullError ≠ .success) :
    sf.work kMax c seen = .done c none ⟨seen.fullError, c.b, 0, 1⟩ := by
  rw [work, if_neg hm, hnone]
  exact if_pos h

/-- What holds of the solves of a slack factor after any of their steps. -/
structure Laws (kMax : K) (sf : SlackFactor n K)
    (engine : SlackControl K → LowerColumns n K → EngineRun n K) (tr : List (SlackEvent n K))
    (s : SlackState n K) : Prop where
  /-- The full matrix is factored at most once, and then the factor is there. -/
  once : s.refactored = if s.shared.full.isSome then 1 else 0
  /-- A solve that begins with the full factor there returns that factor's solve. -/
  later : ∀ pre post i c s₀ fk, tr = pre ++ .enter i c :: post → (sf.lts kMax engine).Run pre s₀ →
    c.m ≠ 0 → s₀.shared.full = some fk → s.solves i = .entered c s₀.shared ∨
      s.solves i = .done c none
        ⟨(fk.solveCore c.ctrl c.job c.b).1, (fk.solveCore c.ctrl c.job c.b).2, 0, 1⟩
  /-- A solve that begins with its error there returns the error. -/
  laterError : ∀ pre post i c s₀, tr = pre ++ .enter i c :: post → (sf.lts kMax engine).Run pre s₀ →
    c.m ≠ 0 → s₀.shared.fullError ≠ .success → s.solves i = .entered c s₀.shared ∨
      s.solves i = .done c none ⟨s₀.shared.fullError, c.b, 0, 1⟩
  accepted : ∀ i c k r, s.solves i = .done c k r → Accepted sf c r
  /-- A solve whose refinement failed keeps the refined columns when no full factor could be
      made or its status is refused. -/
  kept : ∀ i c k r, s.solves i = .done c (some k) r → r.rc ≠ .success →
    (s.shared.full = none ∨ ∃ fk e, s.shared.full = some fk ∧ fk.refuses c.ctrl = some e) →
      sf.Inaccurate kMax c k ∧ r.b = k.b

end SlackFactor

end Solve

open Solve

/-- Every order of the steps of any solves of a slack factor keeps its laws. -/
theorem slack_solves {K : Type} [Field K] [LinearOrder K] [IsStrictOrderedRing K] {n : ℕ} (kMax : K)
    (sf : SlackFactor n K) (engine : SlackControl K → LowerColumns n K → EngineRun n K)
    (tr : List (SlackEvent n K)) (s : SlackState n K) (h : (sf.lts kMax engine).Run tr s) :
    sf.Laws kMax engine tr s := by
  -- the first and the last two laws are the invariant's; the others look at the solve's entry
  have hinv := SlackFactor.inv_of_run h
  refine ⟨hinv.refactored, ?_, ?_, fun i c k r hr => ?_, fun i c k r hr hrc hrefused => ?_⟩
  · rintro pre post i c s₀ fk rfl h₀ hm hfull
    have hwork := SlackFactor.work_of_full kMax sf hm hfull
    rcases SlackFactor.entered_or_worked h₀ h with hentered | hworked | ⟨k, hk⟩
    · exact Or.inl hentered
    · exact Or.inr (hworked.trans hwork)
    · rw [hwork] at hk
      cases hk
  · rintro pre post i c s₀ rfl h₀ hm herror
    have hnone : s₀.shared.full = none := by
      rcases (SlackFactor.inv_of_run h₀).shared with hempty | ⟨-, hok⟩ | ⟨hnone, -⟩
      · rw [hempty]
      · exact absurd hok herror
      · exact hnone
    have hwork := SlackFactor.work_of_error kMax sf hm hnone herror
    rcases SlackFactor.entered_or_worked h₀ h with hentered | hworked | ⟨k, hk⟩
    · exact Or.inl hentered
    · exact Or.inr (hworked.trans hwork)
    · rw [hwork] at hk
      cases hk
  · have hphase := hinv.phases i
    rw [hr] at hphase
    exact hphase.1
  · have hphase := hinv.phases i
    rw [hr] at hphase
    obtain ⟨hin, -, hb⟩ := hphase.2 k rfl
    exact ⟨hin, hb hrefused⟩

/-- A factor of `[[2, 0, 1], [0, 1, -1], [1, -1, 0]]` with the slack pair of rows 1 and 2.  The
    reduced matrix is (3), and its factor takes it for (1). -/
def pairFactor : SlackFactor 3 ℚ where
  nr := 1
  redToFull := fun _ => 0
  pairs := [⟨1, 2, 1, 0⟩]
  bRow := fun _ => Fin.last 0
  pinv := fun k => if k = 0 then 0 else -1
  bval := fun _ => 1
  reduced := ⟨.success, true, fun _ _ _ b => (.success, b)⟩
  cv := ⟨![[(0, 2), (2, 1)], [(1, 1), (2, -1)], []], by decide +kernel⟩
  clean := by decide +kernel
  madeWith :=
    { matrixType := .indefinite, ordering := .autoSerial, matchingTrigger := .predicted
      userScale := none, pivotU := 0, staticPivotTol := 0, fallbackStaticPivotTol := 0
      staticPivotsAsZero := false, staticZeroStaysZero := false, staticPivotInOrder := false
      regDiagSign := none, regDiagTol := 0, treeParallel := false, maxNegativePivots := -1
      rest := ⟨.threshold, .auto, .on, false, 1 / 10 ^ 8⟩ }
  armed := by decide +kernel

/-- One right-hand side, a full solve with the factor's own control. -/
def pairCall : SlackCall 3 ℚ := ⟨1, pairFactor.madeWith, .full, fun _ _ => 1⟩

/-- The engine factors the matrix. -/
def pairEngine (_ : SlackControl ℚ) (_ : LowerColumns 3 ℚ) : EngineRun 3 ℚ :=
  ⟨true, false, false, 0, 0, fun _ _ _ b => (.success, fun j =>
    let x := (b j 0 + b j 1 + b j 2) / 3
    ![x, x - b j 2, x - b j 1 - b j 2])⟩

/-- Two solves find the reduced factor wrong at the same time, and one of them factors the full
    matrix; a later solve goes through that factor. -/
theorem slack_solves_pair :
    let tr := [SlackEvent.enter 0 pairCall, .enter 1 pairCall, .work 0, .work 1,
      .refactor 0 true false, .refactor 1 true false, .finish 1, .finish 0, .enter 2 pairCall,
      .work 2]
    ∃ s, (pairFactor.lts 1000 pairEngine).Run tr s ∧ pairFactor.Laws 1000 pairEngine tr s ∧
      s.refactored = 1 ∧ ∃ r, s.solves 2 = .done pairCall none r ∧ r.b = fun _ => ![1, 0, -1] := by
  -- `decide` sees only which phase it is; what the phase holds stays abstract
  obtain ⟨k, hk⟩ : ∃ k, pairFactor.work 1000 pairCall {} = .inaccurate pairCall k := by
    have hleft : (pairFactor.work 1000 pairCall {}).ctorIdx = 2 := by decide +kernel
    obtain ⟨r, hr, -⟩ | ⟨k, hk, -⟩ := SlackFactor.work_spec 1000 pairFactor pairCall {}
    · rw [hr] at hleft
      cases hleft
    · exact ⟨k, hk⟩
  have hrun : ∃ s, (pairFactor.lts 1000 pairEngine).Run [SlackEvent.enter 0 pairCall,
      .enter 1 pairCall, .work 0, .work 1, .refactor 0 true false, .refactor 1 true false,
      .finish 1, .finish 0, .enter 2 pairCall, .work 2] s ∧ s.refactored = 1 ∧
        ∃ r, s.solves 2 = .done pairCall none r ∧ r.b = fun _ => ![1, 0, -1] := by
    let entered : ℕ → SlackPhase 3 ℚ :=
      Function.update (Function.update (fun _ => .idle) 0 (.entered pairCall {})) 1
        (.entered pairCall {})
    have h : (pairFactor.lts 1000 pairEngine).Run [.enter 0 pairCall, .enter 1 pairCall]
        { solves := entered } :=
      SlackFactor.run_step (SlackFactor.run_step .nil (a := .enter 0 pairCall) rfl)
        (a := .enter 1 pairCall) rfl
    have h : (pairFactor.lts 1000 pairEngine).Run
        [.enter 0 pairCall, .enter 1 pairCall, .work 0, .work 1]
        { solves := Function.update (Function.update entered 0 (pairFactor.work 1000 pairCall {})) 1
            (pairFactor.work 1000 pairCall {}) } :=
      SlackFactor.run_step (SlackFactor.run_step h (a := .work 0) rfl) (a := .work 1) rfl
    rw [hk] at h
    have h := SlackFactor.run_step h (a := .refactor 0 true false) rfl
    have h := SlackFactor.run_step h (a := .refactor 1 true false) rfl
    have h := SlackFactor.run_step h (a := .finish 1) rfl
    have h := SlackFactor.run_step h (a := .finish 0) rfl
    have h := SlackFactor.run_step h (a := .enter 2 pairCall) rfl
    have h := SlackFactor.run_step h (a := .work 2) rfl
    exact ⟨_, h, rfl, _, rfl, by decide +kernel⟩
  obtain ⟨s, hs, hrest⟩ := hrun
  exact ⟨s, hs, slack_solves 1000 pairFactor pairEngine _ s hs, hrest⟩

end SmfSolver
