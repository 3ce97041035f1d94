/-
  SmfSolver.Solve.RefinementRuns

  What refinement leaves in `x`: the best iterate it met, with its own metrics.  Both loops
  keep a best iterate beside the current one; `Keeps` is the invariant they share.  A block
  of columns is measured by its worst column, which joins the two.
-/
import SmfSolver.Solve.Refinement
import Mathlib.Algebra.Order.Field.Rat
import Mathlib.Tactic.NormNum

namespace SmfSolver
namespace Solve

variable {D L : Type*} [LinearOrder D] {n m : ℕ}

/-! ## The worst column -/

theorem foldl_max_le_iff {ι : Type*} {φ : D → D} (hφ : Monotone φ) (f : ι → D) (l : List ι)
    (a t : D) :
    φ (l.foldl (fun s c => max s (f c)) a) ≤ t ↔ φ a ≤ t ∧ ∀ c ∈ l, φ (f c) ≤ t := by
  induction l generalizing a with
  | nil => simp
  | cons c l ih =>
    rw [List.foldl_cons, ih, hφ.map_max, max_le_iff, List.forall_mem_cons, and_assoc]

section Worst

variable [Zero D]

/-- The largest of the columns' values, from zero up. -/
def worst (f : Fin m → D) : D := (List.finRange m).foldl (fun s c => max s (f c)) 0

theorem worst_le_iff (f : Fin m → D) (t : D) : worst f ≤ t ↔ 0 ≤ t ∧ ∀ c, f c ≤ t := by
  have h := foldl_max_le_iff monotone_id f (List.finRange m) 0 t
  simp only [id, List.mem_finRange, true_implies] at h
  exact h

theorem le_worst (f : Fin m → D) : 0 ≤ worst f ∧ ∀ c, f c ≤ worst f :=
  (worst_le_iff f _).mp le_rfl

theorem worst_mem (f : Fin m → D) : worst f = 0 ∨ ∃ c, worst f = f c := by
  unfold worst
  generalize (0 : D) = a
  induction List.finRange m generalizing a with
  | nil => exact Or.inl rfl
  | cons c l ih =>
    rw [List.foldl_cons]
    rcases ih (max a (f c)) with h | h
    · rcases max_choice a (f c) with hm | hm
      · exact Or.inl (h.trans hm)
      · exact Or.inr ⟨c, h.trans hm⟩
    · exact Or.inr h

theorem worst_max (f : Fin m → D) : worst (fun c => max 0 (f c)) = worst f := by
  refine eq_of_forall_ge_iff fun t => ?_
  rw [worst_le_iff, worst_le_iff]
  refine and_congr_right fun h0 => forall_congr' fun c => ?_
  rw [max_le_iff, and_iff_right h0]

end Worst

/-! ## The best iterate -/

section Kept

variable [Div D] [OfScientific D]

/-- The acceptance score of an iterate. -/
def Measure.score (e : Measure D n m) : D := metricScore e.eta e.omega

namespace Refining

/-- `x` is the best of the start and of the iterates in `kept`, and has the metrics beside
    it.  `meas` is the function the iterates are measured by. -/
structure Keeps {α : Type*} (meas : α → Measure D n m) (start : D) (x : α) (eta omega score : D)
    (kept : List α) : Prop where
  ok : (meas x).ok
  eta_eq : eta = (meas x).eta
  omega_eq : omega = (meas x).omega
  score_eq : score = metricScore eta omega
  start_le : score ≤ start
  kept_le : ∀ y ∈ kept, (meas y).ok ∧ score ≤ (meas y).score

namespace Keeps

variable {α : Type*} {meas : α → Measure D n m} {start eta omega score : D} {y y' : α}
  {kept : List α}

theorem init (h : (meas y).ok) :
    Keeps meas (meas y).score y (meas y).eta (meas y).omega
      (metricScore (meas y).eta (meas y).omega)
      [] :=
  ⟨h, rfl, rfl, rfl, le_refl _, fun _ hy => absurd hy List.not_mem_nil⟩

/-- A better iterate takes the place of the best one. -/
theorem improve (h : Keeps meas start y eta omega score kept) (hok : (meas y').ok)
    (hlt : metricScore (meas y').eta (meas y').omega < score) :
    Keeps meas start y' (meas y').eta (meas y').omega
      (metricScore (meas y').eta (meas y').omega) (y' :: kept) where
  ok := hok
  eta_eq := rfl
  omega_eq := rfl
  score_eq := rfl
  start_le := hlt.le.trans h.start_le
  kept_le z hz := by
    rcases List.mem_cons.mp hz with rfl | hz
    · exact ⟨hok, le_refl _⟩
    · exact ⟨(h.kept_le z hz).1, hlt.le.trans (h.kept_le z hz).2⟩

end Keeps

end Refining

end Kept

variable [Zero D] [OfScientific D]

theorem Refining.reached_meetsGate (P : Refining D L n) {eta om : D} (h : P.reached eta om) :
    meetsGate eta om := by
  have htarget : P.omegaTarget ≤ (1e-8 : D) := by
    unfold Refining.omegaTarget
    split_ifs
    · exact min_le_left _ _
    · exact le_refl _
  unfold Refining.reached at h
  unfold meetsGate
  rw [Bool.and_eq_true, decide_eq_true_eq, decide_eq_true_eq] at h ⊢
  exact ⟨h.1, h.2.trans htarget⟩

variable [Div D]

theorem score_worst_le_iff (F : Floats D L) (f g : Fin m → D) (t : D) :
    metricScore (worst f) (worst g) ≤ t ↔
      metricScore 0 (0 : D) ≤ t ∧ ∀ c, metricScore (f c) (g c) ≤ t := by
  have heta : Monotone fun a : D => a / 1e-10 := fun _ _ h => F.div_le_div F.eta_pos h
  have homega : Monotone fun a : D => a / 1e-8 := fun _ _ h => F.div_le_div F.omega_pos h
  have hf := foldl_max_le_iff heta f (List.finRange m) 0 t
  have hg := foldl_max_le_iff homega g (List.finRange m) 0 t
  unfold metricScore worst
  rw [max_le_iff, hf, hg]
  simp only [max_le_iff, List.mem_finRange, true_implies, forall_and]
  tauto

theorem meetsGate_worst (F : Floats D L) (f g : Fin m → D) :
    meetsGate (worst f) (worst g) = true ↔ ∀ c, meetsGate (f c) (g c) = true := by
  unfold meetsGate
  simp only [Bool.and_eq_true, decide_eq_true_eq, worst_le_iff, F.eta_pos.le, F.omega_pos.le,
    true_and, forall_and]

/-! ## The metrics of a block and of its columns -/

theorem mapM_none {α β : Type*} {f : α → Option β} {c : α} (h : f c = none) :
    ∀ {l : List α}, c ∈ l → l.mapM f = none := by
  intro l hc
  induction l with
  | nil => exact absurd hc List.not_mem_nil
  | cons a l ih =>
    rw [List.mapM_cons]
    rcases List.mem_cons.mp hc with rfl | hc
    · rw [h]
      rfl
    · rw [ih hc]
      cases f a <;> rfl

variable [LinearOrder L] [Zero L] [Add L] [Sub L] [Mul L] [Div L]
variable (F : Floats D L) (P : Refining D L n)

namespace Refining

variable {b x : Fin m → Fin n → D}

theorem compute_none {c : Fin m} (h : P.columnErrors F (b c) (x c) = none) :
    (P.computeResidualAndBackwardError F b x).ok = false := by
  have hnone : (List.finRange m).mapM (fun c => P.columnErrors F (b c) (x c)) = none :=
    mapM_none (f := fun c => P.columnErrors F (b c) (x c)) h (List.mem_finRange c)
  unfold computeResidualAndBackwardError
  rw [hnone]

theorem compute_some (err : Fin m → D × D)
    (h : ∀ c, P.columnErrors F (b c) (x c) = some (err c)) :
    (P.computeResidualAndBackwardError F b x).eta = worst (fun c => (err c).1) ∧
      (P.computeResidualAndBackwardError F b x).omega = worst (fun c => (err c).2) ∧
      (P.computeResidualAndBackwardError F b x).ok =
        (F.isfinite (worst fun c => (err c).1) && F.isfinite (worst fun c => (err c).2)) := by
  have hsome : (List.finRange m).mapM (fun c => P.columnErrors F (b c) (x c)) =
      some ((List.finRange m).map err) := by
    rw [funext h]
    exact List.mapM_pure
  unfold computeResidualAndBackwardError
  rw [hsome]
  simp only [List.foldl_map, worst, and_self]

/-- A column's own metrics. -/
theorem measureColumn_some {b x : Fin n → D} {err : D × D}
    (h : P.columnErrors F b x = some err) :
    (P.measureColumn F b x).eta = max 0 err.1 ∧ (P.measureColumn F b x).omega = max 0 err.2 ∧
      (P.measureColumn F b x).ok = (F.isfinite (max 0 err.1) && F.isfinite (max 0 err.2)) :=
  P.compute_some F (b := fun _ : Fin 1 => b) (x := fun _ => x) (fun _ => err) fun _ => h

theorem measureColumn_none {b x : Fin n → D} (h : P.columnErrors F b x = none) :
    (P.measureColumn F b x).ok = false :=
  P.compute_none F (b := fun _ : Fin 1 => b) (x := fun _ => x) (c := 0) h

/-- A block is measured when every column is, by the worst of them. -/
theorem compute_columns (h : ∀ c, (P.measureColumn F (b c) (x c)).ok) :
    (P.computeResidualAndBackwardError F b x).ok ∧
      (P.computeResidualAndBackwardError F b x).eta =
        worst (fun c => (P.measureColumn F (b c) (x c)).eta) ∧
      (P.computeResidualAndBackwardError F b x).omega =
        worst (fun c => (P.measureColumn F (b c) (x c)).omega) := by
  have hsome : ∀ c, ∃ err, P.columnErrors F (b c) (x c) = some err := fun c =>
    Option.ne_none_iff_exists'.mp fun hnone => by
      have := P.measureColumn_none F hnone
      rw [h c] at this
      exact nomatch this
  choose err herr using hsome
  obtain ⟨heta, homega, hok⟩ := P.compute_some F _ herr
  have hcol := fun c => P.measureColumn_some F (herr c)
  have hfin := fun c => (hcol c).2.2.symm.trans (h c)
  simp only [Bool.and_eq_true] at hfin
  -- the worst of finite errors is one of them, or zero
  have hfinite : ∀ f : Fin m → D, (∀ c, F.isfinite (max 0 (f c)) = true) →
      F.isfinite (worst f) = true := fun f hf => by
    rw [← worst_max]
    rcases worst_mem fun c => max 0 (f c) with h0 | ⟨c, hc⟩
    · rw [h0]
      exact F.finite_zero
    · rw [hc]
      exact hf c
  refine ⟨?_, ?_, ?_⟩
  · rw [hok, hfinite _ fun c => (hfin c).1, hfinite _ fun c => (hfin c).2]
    rfl
  · rw [heta, ← worst_max]
    simp only [(hcol _).1]
  · rw [homega, ← worst_max]
    simp only [(hcol _).2.1]

theorem exists_errors (h : (P.computeResidualAndBackwardError F b x).ok) :
    ∃ err : Fin m → D × D, ∀ c, P.columnErrors F (b c) (x c) = some (err c) := by
  refine Classical.axiomOfChoice fun c => Option.ne_none_iff_exists'.mp fun hnone => ?_
  have := P.compute_none F hnone
  rw [h] at this
  exact nomatch this

theorem finite_of_compute (h : (P.computeResidualAndBackwardError F b x).ok) :
    F.isfinite (P.computeResidualAndBackwardError F b x).eta = true ∧
      F.isfinite (P.computeResidualAndBackwardError F b x).omega = true := by
  obtain ⟨err, herr⟩ := P.exists_errors F h
  obtain ⟨heta, homega, hok⟩ := P.compute_some F _ herr
  rw [heta, homega]
  exact Bool.and_eq_true_iff.mp (hok.symm.trans h)

/-- A measured block has measured columns. -/
theorem columns_of_compute (h : (P.computeResidualAndBackwardError F b x).ok) (c : Fin m) :
    (P.measureColumn F (b c) (x c)).ok := by
  obtain ⟨err, herr⟩ := P.exists_errors F h
  have hok := (P.compute_some F _ herr).2.2.symm.trans h
  rw [Bool.and_eq_true] at hok
  have hfinite : ∀ f : Fin m → D, F.isfinite (worst f) = true → F.isfinite (max 0 (f c)) = true :=
    fun f hf => F.finite_of_le (le_max_left 0 _)
      (max_le (le_worst f).1 ((le_worst f).2 c)) hf
  rw [(P.measureColumn_some F (herr c)).2.2, hfinite _ hok.1, hfinite _ hok.2]
  rfl

/-! ## What the loops keep -/

section Offers

variable {b : Fin n → D} {start : D} {s s' : Krylov D n}

/-- What FGMRES keeps of a column. -/
def KrylovInv (b : Fin n → D) (start : D) (s : Krylov D n) : Prop :=
  Keeps (P.measureColumn F b) start s.x s.eta s.omega s.score s.kept

theorem KrylovInv.congr (h : KrylovInv F P b start s) (hbest : SameBest s s') :
    KrylovInv F P b start s' := by
  unfold KrylovInv
  rw [hbest.x, hbest.eta, hbest.omega, hbest.score, hbest.kept]
  exact h

theorem KrylovInv.offer (h : KrylovInv F P b start s) (xLimit : D) (xc : Fin n → D) :
    KrylovInv F P b start (P.offer F b xLimit xc s) := by
  unfold Refining.offer
  split_ifs with htakes
  · unfold takes at htakes
    simp only [Bool.and_eq_true, decide_eq_true_eq] at htakes
    exact Keeps.improve h htakes.1.2 htakes.2
  · exact h

end Offers

/-- What the classical loop keeps. -/
structure ClassicalInv (b : Fin m → Fin n → D) (start : D) (s : Classical D n m) : Prop where
  best : s.x = s.best
  keeps : Keeps (P.computeResidualAndBackwardError F b) start s.x s.eta s.omega s.score s.kept

/-- What FGMRES leaves of column `x`. -/
structure ColumnKept (b x : Fin n → D) (budget : ℕ) (out : ColumnResult D n) : Prop where
  ok : (P.measureColumn F b out.x).ok
  eta : out.eta = (P.measureColumn F b out.x).eta
  omega : out.omega = (P.measureColumn F b out.x).omega
  start_le : (P.measureColumn F b out.x).score ≤ (P.measureColumn F b x).score
  kept_le : ∀ y ∈ out.kept, (P.measureColumn F b y).ok ∧
    (P.measureColumn F b out.x).score ≤ (P.measureColumn F b y).score
  used : out.used ≤ budget

/-! ## The result -/

/-- The configured number of steps. -/
def stepLimit : ℕ :=
  if P.ctrl.refinementMaxIters ≤ 0 then 0
  else
    match P.ctrl.refineMethod with
    | .classical => P.ctrl.refinementMaxIters.toNat
    | .fgmres | .auto => P.ctrl.refineMaxSteps.toNat

/-- What refinement of a start that can be measured leaves. -/
structure RefinedWell (b x : Fin m → Fin n → D) (out : Refined D n m) : Prop where
  ok : (P.computeResidualAndBackwardError F b out.x).ok
  eta : out.eta = (P.computeResidualAndBackwardError F b out.x).eta
  omega : out.omega = (P.computeResidualAndBackwardError F b out.x).omega
  start_le : (P.computeResidualAndBackwardError F b out.x).score ≤
    (P.computeResidualAndBackwardError F b x).score
  kept_le : ∀ y ∈ out.kept, (P.computeResidualAndBackwardError F b y).ok ∧
    (P.computeResidualAndBackwardError F b out.x).score ≤
      (P.computeResidualAndBackwardError F b y).score
  keptColumns_le : ∀ c, ∀ y ∈ out.keptColumns c, (P.measureColumn F (b c) y).ok ∧
    (P.measureColumn F (b c) (out.x c)).score ≤ (P.measureColumn F (b c) y).score
  status : out.status = .success ↔ meetsGate out.eta out.omega = true
  steps_le : ∀ c, out.steps c ≤ out.iterations
  iterations_le : out.iterations ≤ P.stepLimit

section Results

variable {s : Classical D n m}

/-- The metrics of a measured iterate qualify when they meet the gate. -/
theorem qualified_eq (hok : (P.computeResidualAndBackwardError F b x).ok) :
    qualified F (P.computeResidualAndBackwardError F b x).eta
        (P.computeResidualAndBackwardError F b x).omega =
      meetsGate (P.computeResidualAndBackwardError F b x).eta
        (P.computeResidualAndBackwardError F b x).omega := by
  unfold qualified
  rw [(P.finite_of_compute F hok).1, (P.finite_of_compute F hok).2]
  rfl

theorem classicalResult_well
    (h : ClassicalInv F P b (P.computeResidualAndBackwardError F b x).score s)
    (hmet : s.met → meetsGate s.eta s.omega) (hiters : s.itersDone ≤ P.stepLimit) (omegaStart : D) :
    RefinedWell F P b x (classicalResult F omegaStart s) := by
  have hscore := h.keeps.score_eq
  rw [h.keeps.eta_eq, h.keeps.omega_eq] at hscore
  refine ⟨h.keeps.ok, h.keeps.eta_eq, h.keeps.omega_eq, hscore.ge.trans h.keeps.start_le,
    fun y hy => ⟨(h.keeps.kept_le y hy).1, hscore.ge.trans (h.keeps.kept_le y hy).2⟩,
    fun _ _ hy => absurd hy List.not_mem_nil, ?_, fun _ => le_refl _, hiters⟩
  have hq := P.qualified_eq F h.keeps.ok
  rw [← h.keeps.eta_eq, ← h.keeps.omega_eq] at hq
  unfold classicalResult
  dsimp only
  rw [hq]
  split_ifs with hs
  · rw [Bool.or_eq_true] at hs
    exact iff_of_true rfl (hs.elim hmet id)
  · rw [Bool.or_eq_true, not_or] at hs
    exact iff_of_false (by decide) hs.2

theorem fgmresResult_well
    (h : ClassicalInv F P b (P.computeResidualAndBackwardError F b x).score s)
    {cols : Fin m → ColumnResult D n} {budget : ℕ}
    (hcols : ∀ c, ColumnKept F P (b c) (s.x c) budget (cols c))
    (hiters : s.itersDone + budget ≤ P.stepLimit) (omegaStart : D) :
    RefinedWell F P b x (fgmresResult F omegaStart s cols) := by
  obtain ⟨hok, heta, homega⟩ := P.compute_columns F (b := b) (x := fun c => (cols c).x)
    fun c => (hcols c).ok
  have heta' : (fgmresResult F omegaStart s cols).eta =
      (P.computeResidualAndBackwardError F b fun c => (cols c).x).eta := by
    rw [heta]
    exact congrArg worst (funext fun c => (hcols c).eta)
  have homega' : (fgmresResult F omegaStart s cols).omega =
      (P.computeResidualAndBackwardError F b fun c => (cols c).x).omega := by
    rw [homega]
    exact congrArg worst (funext fun c => (hcols c).omega)
  -- no column is worse than it was in the classical iterate, so the worst is not
  have hle : (P.computeResidualAndBackwardError F b fun c => (cols c).x).score ≤ s.score := by
    obtain ⟨-, hseta, hsomega⟩ := P.compute_columns F (b := b) (x := s.x)
      (P.columns_of_compute F h.keeps.ok)
    rw [h.keeps.score_eq, h.keeps.eta_eq, h.keeps.omega_eq, hseta, hsomega]
    unfold Measure.score
    have hs := (score_worst_le_iff F
      (fun c => (P.measureColumn F (b c) (s.x c)).eta)
      (fun c => (P.measureColumn F (b c) (s.x c)).omega) _).mp (le_refl _)
    rw [heta, homega, score_worst_le_iff F]
    exact ⟨hs.1, fun c => (hcols c).start_le.trans (hs.2 c)⟩
  have hmost : ∀ c, (cols c).used ≤ (List.finRange m).foldl (fun a c => max a (cols c).used) 0 :=
    fun c => ((foldl_max_le_iff monotone_id (fun c => (cols c).used) (List.finRange m) 0 _).mp
      (le_refl _)).2 c (List.mem_finRange c)
  refine ⟨hok, heta', homega', hle.trans h.keeps.start_le,
    fun y hy => ⟨(h.keeps.kept_le y hy).1, hle.trans (h.keeps.kept_le y hy).2⟩,
    fun c => (hcols c).kept_le, ?_, fun c => Nat.add_le_add_left (hmost c) _, ?_⟩
  · have hq := P.qualified_eq F hok
    rw [← heta', ← homega'] at hq
    rw [← hq]
    change (if qualified F (fgmresResult F omegaStart s cols).eta
      (fgmresResult F omegaStart s cols).omega then ErrorCode.success else .maxIterations) = _ ↔ _
    split_ifs with hs
    · exact iff_of_true rfl hs
    · exact iff_of_false (by decide) hs
  · refine le_trans (Nat.add_le_add_left ?_ _) hiters
    exact (foldl_max_le_iff monotone_id (fun c => (cols c).used) (List.finRange m) 0 budget).mpr
      ⟨Nat.zero_le _, fun c _ => (hcols c).used⟩

end Results

variable [Add D]

/-! ## The classical loop -/

variable {start : D} {s : Classical D n m}

/-- One step, which may be the last: it keeps the invariant and returns from inside the loop
    only with an iterate that meets the gate. -/
theorem ClassicalInv.step (h : ClassicalInv F P b start s) (hmet : s.met = false) (cap : ℕ)
    (escalate : Bool) (iter : ℕ) {s' : Classical D n m} {go : Bool}
    (hs' : P.classicalStep F b cap escalate iter s = (s', go)) :
    ClassicalInv F P b start s' ∧ s'.itersDone = iter ∧ (s'.met → meetsGate s'.eta s'.omega) ∧
      (go → s'.met = false) := by
  have hno : s.met = true → meetsGate s.eta s.omega := fun hm => nomatch hmet.symm.trans hm
  unfold classicalStep at hs'
  dsimp only at hs'
  rcases hsolve : P.solve s.r with _ | dx
  · rw [hsolve] at hs'
    cases hs'
    exact ⟨⟨h.best, h.keeps⟩, rfl, hno, fun hgo => nomatch hgo⟩
  · rw [hsolve] at hs'
    dsimp only at hs'
    generalize (fun c i => s.best c i + dx c i : Fin m → Fin n → D) = x' at hs'
    have hback : Keeps (P.computeResidualAndBackwardError F b) start s.best s.eta s.omega s.score
        s.kept := h.best ▸ h.keeps
    split_ifs at hs' with hok hlt hreached hesc hratio hstag
    · cases hs'
      exact ⟨⟨rfl, hback⟩, rfl, hno, fun hgo => nomatch hgo⟩
    rotate_right
    · cases hs'
      exact ⟨⟨rfl, hback⟩, rfl, hno, fun hgo => nomatch hgo⟩
    -- the candidate is better in the five cases left, and is the best iterate in all of them
    all_goals
      have hbetter := h.keeps.improve (by simpa using hok) hlt
      cases hs'
    · exact ⟨⟨rfl, hbetter⟩, rfl, fun _ => P.reached_meetsGate hreached, fun hgo => nomatch hgo⟩
    all_goals
      exact ⟨⟨rfl, hbetter⟩, rfl, fun hm => (nomatch hmet.symm.trans hm), fun _ => hmet⟩

theorem ClassicalInv.loop (h : ClassicalInv F P b start s) (hmet : s.met = false) (cap : ℕ)
    (escalate : Bool) {k : ℕ} (hk : k ≤ cap) (hiters : s.itersDone ≤ cap) {s' : Classical D n m}
    (hs' : P.classicalLoop F b cap escalate k s = s') :
    ClassicalInv F P b start s' ∧ s'.itersDone ≤ cap ∧ (s'.met → meetsGate s'.eta s'.omega) := by
  induction k generalizing s with
  | zero =>
    cases hs'
    exact ⟨h, hiters, fun hm => nomatch hmet.symm.trans hm⟩
  | succ k ih =>
    unfold classicalLoop at hs'
    rcases hstep : P.classicalStep F b cap escalate (cap - k) s with ⟨s₁, _ | _⟩
    all_goals
      obtain ⟨hinv, hdone, hgate, hgo⟩ := h.step F P hmet cap escalate (cap - k) hstep
      rw [hstep] at hs'
      dsimp only at hs'
    · cases hs'
      exact ⟨hinv, hdone ▸ Nat.sub_le cap k, hgate⟩
    · exact ih hinv (hgo rfl) (Nat.le_of_succ_le hk) (hdone ▸ Nat.sub_le cap k) hs'

theorem classicalRefine_spec {x : Fin m → Fin n → D}
    (hok : (P.computeResidualAndBackwardError F b x).ok) (cap : ℕ) (escalate : Bool)
    {s' : Classical D n m}
    (hs' : P.classicalRefine F b x (P.computeResidualAndBackwardError F b x) cap escalate = s') :
    ClassicalInv F P b (P.computeResidualAndBackwardError F b x).score s' ∧ s'.itersDone ≤ cap ∧
      (s'.met → meetsGate s'.eta s'.omega) :=
  ClassicalInv.loop F P (s := classicalStart x (P.computeResidualAndBackwardError F b x))
    ⟨rfl, Keeps.init hok⟩ rfl cap escalate (le_refl cap) (Nat.zero_le cap) hs'

/-! ## FGMRES -/

variable [Sub D] [Mul D] [Neg D]
variable {b : Fin n → D} {s s' : Krylov D n}

theorem KrylovInv.step (h : KrylovInv F P b start s) (xLimit : D) (forcedOnly : Bool) (j : ℕ) :
    KrylovInv F P b start (P.arnoldiStep F b xLimit forcedOnly j s).1 := by
  unfold arnoldiStep
  dsimp only
  rcases hexp : P.expand F j { s with used := s.used + 1 } with _ | ⟨s₁, w, hnext⟩
  · exact h
  · have hbest := P.expand_best F hexp
    have h₁ : KrylovInv F P b start s₁ :=
      KrylovInv.congr F P (s := { s with used := s.used + 1 }) h hbest
    have hoffer := h₁.offer F P xLimit (candidate j s₁)
    dsimp only
    split_ifs <;> exact hoffer

theorem KrylovInv.cycle (h : KrylovInv F P b start s) (xLimit : D) (forcedOnly : Bool) (k j : ℕ) :
    KrylovInv F P b start (P.cycle F b xLimit forcedOnly k j s) := by
  induction k generalizing j s with
  | zero => exact h
  | succ k ih =>
    have hstep := h.step F P xLimit forcedOnly j
    unfold Refining.cycle
    generalize P.arnoldiStep F b xLimit forcedOnly j s = a at hstep ⊢
    rcases a with ⟨s₁, _ | _⟩
    · exact hstep
    · exact ih hstep (j + 1)

theorem KrylovInv.cycles (h : KrylovInv F P b start s) (xLimit : D) (forcedOnly : Bool)
    (mMax : ℕ) (hm : 0 < mMax) (budget : ℕ) (hused : s.used ≤ budget) :
    KrylovInv F P b start (P.cycles F b xLimit forcedOnly mMax hm budget s) ∧
      (P.cycles F b xLimit forcedOnly mMax hm budget s).used ≤ budget := by
  fun_induction Refining.cycles F P b xLimit forcedOnly mMax hm budget s with
  | case1 s hlt beta hbreak => exact ⟨h, hused⟩
  | case2 s hlt beta _ s₁ =>
    have hcycle := (P.cycle_used F b xLimit forcedOnly (min mMax (budget - s.used)) 0
      (startCycle beta s)).1
    have hmin : s.used + min mMax (budget - s.used) ≤ budget := by omega
    exact ⟨KrylovInv.cycle F P (s := startCycle beta s) h xLimit forcedOnly _ 0, hcycle.trans hmin⟩
  | case3 s hlt beta _ s₁ _ ih =>
    have hcycle := (P.cycle_used F b xLimit forcedOnly (min mMax (budget - s.used)) 0
      (startCycle beta s)).1
    have hmin : s.used + min mMax (budget - s.used) ≤ budget := by omega
    exact ih (KrylovInv.cycle F P (s := startCycle beta s) h xLimit forcedOnly _ 0)
      (hcycle.trans hmin)
  | case4 s _ => exact ⟨h, hused⟩

theorem fgmresColumn_kept {x : Fin n → D} (hok : (P.measureColumn F b x).ok)
    (budget restart : ℤ) (forceStep : Bool) :
    ColumnKept F P b x budget.toNat (P.fgmresColumn F b x budget restart forceStep) := by
  have hstart : KrylovInv F P b (P.measureColumn F b x).score
      (krylovStart x (P.measureColumn F b x)) := Keeps.init hok
  have hstay : ColumnKept F P b x budget.toNat
      ⟨x, 0, (P.measureColumn F b x).eta, (P.measureColumn F b x).omega, []⟩ :=
    ⟨hok, rfl, rfl, le_refl _, fun _ hy => absurd hy List.not_mem_nil, Nat.zero_le _⟩
  unfold fgmresColumn
  dsimp only
  split_ifs with hno
  · rw [hok] at hno
    exact nomatch hno
  · exact hstay
  · exact hstay
  · obtain ⟨hinv, hused⟩ := hstart.cycles F P (P.growthLimit F b x)
      (P.reached (P.measureColumn F b x).eta (P.measureColumn F b x).omega)
      (max 1 (min restart budget)).toNat (by omega) budget.toNat (Nat.zero_le _)
    have hscore := hinv.score_eq
    rw [hinv.eta_eq, hinv.omega_eq] at hscore
    refine ⟨hinv.ok, hinv.eta_eq, hinv.omega_eq, ?_, fun y hy => ?_, hused⟩
    · exact hscore.ge.trans hinv.start_le
    · exact ⟨(hinv.kept_le y hy).1, hscore.ge.trans (hinv.kept_le y hy).2⟩

section

variable {b x : Fin m → Fin n → D}

theorem refineFrom_well (hok : (P.computeResidualAndBackwardError F b x).ok) :
    RefinedWell F P b x (P.refineFrom F b x (P.computeResidualAndBackwardError F b x)) := by
  have hstart : RefinedWell F P b x (atStart x (P.computeResidualAndBackwardError F b x)) := by
    refine ⟨hok, rfl, rfl, le_refl _, fun _ hy => absurd hy List.not_mem_nil,
      fun _ _ hy => absurd hy List.not_mem_nil, ?_, fun _ => le_refl _, Nat.zero_le _⟩
    unfold atStart
    dsimp only
    split_ifs with hs
    · exact iff_of_true rfl hs
    · exact iff_of_false (by decide) hs
  unfold refineFrom
  dsimp only
  split
  · exact hstart
  · have hpos : max 0 P.ctrl.refinementMaxIters ≠ 0 → ¬P.ctrl.refinementMaxIters ≤ 0 := by omega
    split
    · exact hstart
    rename_i hzero
    replace hpos := hpos hzero
    -- in each method the steps taken stay within that method's own limit
    cases hmethod : P.ctrl.refineMethod with
    | classical =>
      have hlimit : P.stepLimit = P.ctrl.refinementMaxIters.toNat := by
        unfold stepLimit
        rw [if_neg hpos, hmethod]
      obtain ⟨hinv, hiters, hmet⟩ := P.classicalRefine_spec F hok _ false rfl
      exact P.classicalResult_well F hinv hmet (by omega) _
    | fgmres =>
      have hlimit : P.stepLimit = P.ctrl.refineMaxSteps.toNat := by
        unfold stepLimit
        rw [if_neg hpos, hmethod]
      refine P.fgmresResult_well F (s := classicalStart x _) ⟨rfl, Keeps.init hok⟩
        (fun c => P.fgmresColumn_kept F (P.columns_of_compute F hok c) _ _ _) ?_ _
      change 0 + _ ≤ _
      omega
    | auto =>
      have hlimit : P.stepLimit = P.ctrl.refineMaxSteps.toNat := by
        unfold stepLimit
        rw [if_neg hpos, hmethod]
      dsimp only
      obtain ⟨hinv, hiters, hmet⟩ := P.classicalRefine_spec F hok
        (min (max 0 P.ctrl.refinementMaxIters) (max 0 P.ctrl.refineMaxSteps)).toNat true rfl
      split_ifs with hdone
      · exact P.classicalResult_well F hinv hmet (by omega) _
      · refine P.fgmresResult_well F hinv
          (fun c => P.fgmresColumn_kept F (P.columns_of_compute F hinv.keeps.ok c) _ _ _) ?_ _
        omega

end

/-- Refinement by either method, of any number of columns, in any arithmetic: at most the
    configured number of steps of each column; an `x` no worse than the start and than
    every iterate it kept, by the acceptance score; the metrics of that `x`, which are
    those of the worst column; and success exactly when every column of it meets the
    gate. -/
theorem refineCore_best (b x : Fin m → Fin n → D) :
    let out : Refined D n m := P.refineCore F b x
    let start := P.computeResidualAndBackwardError F b x
    let last := P.computeResidualAndBackwardError F b out.x
    let column := fun c => P.measureColumn F (b c) (out.x c)
    (out.iterations ≤ P.stepLimit ∧ ∀ c, out.steps c ≤ out.iterations) ∧
      (start.ok → last.ok ∧ last.score ≤ start.score) ∧
      (∀ y ∈ out.kept, (P.computeResidualAndBackwardError F b y).ok ∧
        last.score ≤ (P.computeResidualAndBackwardError F b y).score) ∧
      (∀ c, ∀ y ∈ out.keptColumns c, (P.measureColumn F (b c) y).ok ∧
        (column c).score ≤ (P.measureColumn F (b c) y).score) ∧
      (out.eta = last.eta ∧ out.omega = last.omega) ∧
      (start.ok → out.eta = worst (fun c => (column c).eta) ∧
        out.omega = worst fun c => (column c).omega) ∧
      (out.status = .success ↔
        ∀ c, (column c).ok ∧ meetsGate (column c).eta (column c).omega = true) := by
  dsimp only
  cases hok : (P.computeResidualAndBackwardError F b x).ok with
  -- a start that cannot be measured: `x` comes back as it was
  | false =>
    have hout : P.refineCore F b x =
        { x := x, status := .illegalValue, iterations := 0
          eta := (P.computeResidualAndBackwardError F b x).eta
          omega := (P.computeResidualAndBackwardError F b x).omega, omegaStart := F.inf } := by
      unfold refineCore
      dsimp only
      rw [hok]
      rfl
    rw [hout]
    refine ⟨⟨Nat.zero_le _, fun _ => le_refl _⟩, fun h => (nomatch h),
      fun _ hy => absurd hy List.not_mem_nil, fun _ _ hy => absurd hy List.not_mem_nil, ⟨rfl, rfl⟩,
      fun h => (nomatch h), iff_of_false (fun h => nomatch h) fun h => ?_⟩
    have := (P.compute_columns F (b := b) (x := x) fun c => (h c).1).1
    rw [hok] at this
    exact nomatch this
  -- the loop's invariant, at its end
  | true =>
    have hout : P.refineCore F b x =
        P.refineFrom F b x (P.computeResidualAndBackwardError F b x) := by
      unfold refineCore
      dsimp only
      rw [hok]
      rfl
    rw [hout]
    have h := P.refineFrom_well F hok
    have hcols := P.columns_of_compute F h.ok
    obtain ⟨-, heta, homega⟩ := P.compute_columns F hcols
    refine ⟨⟨h.iterations_le, h.steps_le⟩, fun _ => ⟨h.ok, h.start_le⟩, h.kept_le,
      h.keptColumns_le, ⟨h.eta, h.omega⟩,
      fun _ => ⟨h.eta.trans heta, h.omega.trans homega⟩, ?_⟩
    rw [h.status, h.eta, h.omega, heta, homega, meetsGate_worst F]
    exact ⟨fun hg c => ⟨hcols c, hg c⟩, fun hg c => (hg c).2⟩

end Refining

/-- Exact arithmetic below a bound; the square root is exact on squares. -/
def ratFloats : Floats ℚ ℚ where
  abs := (|·|)
  sqrt a := (a.num.toNat.sqrt : ℚ) / a.den.sqrt
  hypot a b := ((a ^ 2 + b ^ 2).num.toNat.sqrt : ℚ) / (a ^ 2 + b ^ 2).den.sqrt
  isfinite a := |a| < 10 ^ 308
  inf := 10 ^ 308
  absLd := (|·|)
  up := id
  down := id
  finite_zero := by norm_num
  finite_of_le {a b} h0 hle hb := by
    rw [decide_eq_true_eq, abs_of_nonneg (h0.trans hle)] at hb
    rw [decide_eq_true_eq, abs_of_nonneg h0]
    exact hle.trans_lt hb
  eta_pos := by norm_num
  omega_pos := by norm_num
  div_le_div h0 h := div_le_div_of_nonneg_right h h0.le

/-- The system `2 x = 1` with a factor of the perturbed matrix `5 / 2`. -/
def perturbed (method : RefineMethod) : Refining ℚ ℚ 1 where
  entries := [⟨Fin.last 0, Fin.last 0, 2⟩]
  normAInf := 2
  staticPath := false
  staticPivots := 1
  pivotGrowth := 0
  ctrl := ⟨5, method, 10, 20, 0, 0⟩
  solve r := some fun c i => r c i / (5 / 2)

/-- Classical refinement gains a factor of five a step and ends at its cap; FGMRES solves
    the system in one. -/
example :
    let run method := (perturbed method).refineCore ratFloats (fun _ : Fin 1 => fun _ => 1) 0
    ((run .classical).iterations, (run .classical).status) = (5, .maxIterations) ∧
      ((run .fgmres).iterations, (run .fgmres).status, (run .fgmres).x 0 0) =
        (1, .success, 1 / 2) := by
  decide +kernel

end Solve
end SmfSolver
