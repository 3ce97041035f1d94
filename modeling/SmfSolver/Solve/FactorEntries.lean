/-
  SmfSolver.Solve.FactorEntries

  The matrix `L` that a list of fronts holds, and the forward solve as its equations.

  A front holds the entries of its pivot columns.  Where no front writes a pivot row of one
  before it, eliminating front after front solves `L y = x` (`foldl_eq_iff`), so two lists of
  fronts solve alike exactly when they hold the same entries (`solve_alike_iff`).
-/
import SmfSolver.Solve.FrontSolve
import Mathlib.Tactic.LinearCombination

namespace SmfSolver
namespace Solve

open Finset (range sum_congr sum_range_succ)

variable {K : Type*} [Field K]

/-! ## Entries -/

/-- The coefficient of pivot `j` in the equation of row `i`. -/
def Front.coef (posdef : Bool) (F : Front K) (i j : ℕ) : K :=
  if i = j then diagOf posdef F.L i else if j < i then F.L i j else 0

/-- What a front adds to row `r` of `L y`. -/
def Front.row (posdef : Bool) (F : Front K) (y : ℕ → K) (r : ℕ) : K :=
  ∑ i ∈ range F.f, if F.rows i = r then ∑ j ∈ range F.p, F.coef posdef i j * y (F.rows j) else 0

/-- The entry `L(r, c)` as far as a front holds it. -/
def Front.entry (posdef : Bool) (F : Front K) (r c : ℕ) : K :=
  F.row posdef (fun k => if k = c then 1 else 0) r

/-- `L(r, c)`. -/
def entry (posdef : Bool) (Fs : List (Front K)) (r c : ℕ) : K :=
  (Fs.map fun F => F.entry posdef r c).sum

/-- Row `r` of `L y`. -/
def rowSum (posdef : Bool) (Fs : List (Front K)) (y : ℕ → K) (r : ℕ) : K :=
  (Fs.map fun F => F.row posdef y r).sum

/-- Row `r` is a pivot of one of the fronts. -/
def Pivot (Fs : List (Front K)) (r : ℕ) : Prop := ∃ F ∈ Fs, ∃ i < F.p, F.rows i = r

/-- `L y = x`, with the rows of the identity where no front has a pivot. -/
def Multiplies (posdef : Bool) (Fs : List (Front K)) (y x : ℕ → K) : Prop :=
  ∀ r, (Pivot Fs r → rowSum posdef Fs y r = x r) ∧ (¬Pivot Fs r → rowSum posdef Fs y r + y r = x r)

/-- Fronts in an order of elimination: every row is a pivot, and none is written after. -/
structure WellOrdered (posdef : Bool) (n : ℕ) (Fs : List (Front K)) : Prop where
  good : ∀ F ∈ Fs, F.Good posdef
  lt_n : ∀ F ∈ Fs, ∀ i < F.f, F.rows i < n
  complete : ∀ r < n, Pivot Fs r
  later : Fs.Pairwise fun F G => ∀ i < F.p, ∀ j < G.f, G.rows j ≠ F.rows i

/-! ## Rows of one front -/

section Rows

variable {posdef : Bool} {F : Front K} {x x₁ y : ℕ → K} {i r : ℕ}

theorem Front.row_other (h : ∀ i < F.f, F.rows i ≠ r) : F.row posdef y r = 0 :=
  Finset.sum_eq_zero fun i hi => if_neg (h i (Finset.mem_range.mp hi))

theorem Front.row_at (hF : F.Good posdef) (hi : i < F.f) :
    F.row posdef y (F.rows i) = ∑ j ∈ range F.p, F.coef posdef i j * y (F.rows j) := by
  have hone : ∀ k ∈ range F.f, k ≠ i → (if F.rows k = F.rows i then
      ∑ j ∈ range F.p, F.coef posdef k j * y (F.rows j) else 0) = 0 := fun k hk hne =>
    if_neg fun he => hne (hF.inj k (Finset.mem_range.mp hk) i hi he)
  rw [Front.row, Finset.sum_eq_single i hone fun h => absurd (Finset.mem_range.mpr hi) h,
    if_pos rfl]

theorem Front.row_pivot (hF : F.Good posdef) (hi : i < F.p) : F.row posdef y (F.rows i) =
    (∑ j ∈ range i, F.L i j * y (F.rows j)) + diagOf posdef F.L i * y (F.rows i) := by
  have hsub : range (i + 1) ⊆ range F.p := Finset.range_subset_range.mpr hi
  have hpast : ∀ j ∈ range F.p, j ∉ range (i + 1) → F.coef posdef i j * y (F.rows j) = 0 := by
    intro j _ hj
    have hlt : i < j := by simpa using hj
    rw [Front.coef, if_neg hlt.ne, if_neg (not_lt.mpr hlt.le), zero_mul]
  have hbefore : ∑ j ∈ range i, F.coef posdef i j * y (F.rows j) =
      ∑ j ∈ range i, F.L i j * y (F.rows j) := by
    refine sum_congr rfl fun j hj => ?_
    have hlt : j < i := Finset.mem_range.mp hj
    rw [Front.coef, if_neg hlt.ne', if_pos hlt]
  rw [F.row_at hF (hi.trans_le hF.p_le), ← Finset.sum_subset hsub hpast, sum_range_succ, hbefore,
    Front.coef, if_pos rfl]

theorem Front.row_extended (hF : F.Good posdef) (hlo : F.p ≤ i) (hi : i < F.f) :
    F.row posdef y (F.rows i) = ∑ j ∈ range F.p, F.L i j * y (F.rows j) := by
  rw [F.row_at hF hi]
  refine sum_congr rfl fun j hj => ?_
  have hlt : j < i := (Finset.mem_range.mp hj).trans_le hlo
  rw [Front.coef, if_neg hlt.ne', if_pos hlt]

/-- The pivot equations of a front settle its pivot entries. -/
theorem Solves.row_pivot_iff (hF : F.Good posdef) (h : Solves posdef F x x₁) :
    (∀ i < F.p, F.row posdef y (F.rows i) = x (F.rows i)) ↔
      ∀ i < F.p, y (F.rows i) = x₁ (F.rows i) := by
  have hx : ∀ i < F.p, F.row posdef x₁ (F.rows i) = x (F.rows i) := by
    intro i hi
    rw [F.row_pivot hF hi, h.pivot i hi, mul_div_cancel₀ _ (hF.diag_ne i hi)]
    ring
  constructor
  · intro hy i
    induction i using Nat.strong_induction_on with
    | _ i ih =>
      intro hi
      have hrow := (hy i hi).trans (hx i hi).symm
      have hsum : ∑ j ∈ range i, F.L i j * y (F.rows j) = ∑ j ∈ range i, F.L i j * x₁ (F.rows j) :=
        sum_congr rfl fun j hj => by
          rw [ih j (Finset.mem_range.mp hj) ((Finset.mem_range.mp hj).trans hi)]
      rw [F.row_pivot hF hi, F.row_pivot hF hi, hsum] at hrow
      exact mul_left_cancel₀ (hF.diag_ne i hi) (add_left_cancel hrow)
  · intro hy i hi
    have hsum : ∑ j ∈ range i, F.L i j * y (F.rows j) = ∑ j ∈ range i, F.L i j * x₁ (F.rows j) :=
      sum_congr rfl fun j hj => by rw [hy j ((Finset.mem_range.mp hj).trans hi)]
    rw [F.row_pivot hF hi, hsum, hy i hi, ← F.row_pivot hF hi, hx i hi]

/-- With the pivot entries settled, a front adds to another row what it subtracted there. -/
theorem Solves.row_rest (hF : F.Good posdef) (h : Solves posdef F x x₁)
    (hy : ∀ i < F.p, y (F.rows i) = x₁ (F.rows i)) (hr : ∀ i < F.p, F.rows i ≠ r) :
    F.row posdef y r = x r - x₁ r := by
  by_cases hrow : ∃ i < F.f, F.rows i = r
  · obtain ⟨i, hi, rfl⟩ := hrow
    have hlo : F.p ≤ i := not_lt.mp fun hlt => hr i hlt rfl
    have hsum : ∑ j ∈ range F.p, F.L i j * y (F.rows j) =
        ∑ j ∈ range F.p, F.L i j * x₁ (F.rows j) :=
      sum_congr rfl fun j hj => by rw [hy j (Finset.mem_range.mp hj)]
    rw [F.row_extended hF hlo hi, hsum, h.extended i hlo hi]
    ring
  · have hno : ∀ i < F.f, F.rows i ≠ r := fun i hi he => hrow ⟨i, hi, he⟩
    rw [F.row_other hno, h.other r hno, sub_self]

end Rows

/-! ## All fronts -/

section Fronts

variable {posdef : Bool} {n : ℕ} {F : Front K} {Fs Gs : List (Front K)} {x x₁ y : ℕ → K} {r : ℕ}

theorem rowSum_cons : rowSum posdef (F :: Fs) y r = F.row posdef y r + rowSum posdef Fs y r := by
  rw [rowSum, List.map_cons, List.sum_cons, rowSum]

theorem rowSum_other (h : ∀ F ∈ Fs, ∀ i < F.f, F.rows i ≠ r) : rowSum posdef Fs y r = 0 := by
  refine List.sum_eq_zero fun v hv => ?_
  obtain ⟨F, hF, rfl⟩ := List.mem_map.mp hv
  exact F.row_other (h F hF)

omit [Field K] in
theorem pivot_cons_iff (hr : ∀ i < F.p, F.rows i ≠ r) : Pivot (F :: Fs) r ↔ Pivot Fs r := by
  constructor
  · rintro ⟨G, hG, i, hi, he⟩
    rcases List.mem_cons.mp hG with rfl | hG
    · exact absurd he (hr i hi)
    · exact ⟨G, hG, i, hi, he⟩
  · rintro ⟨G, hG, i, hi, he⟩
    exact ⟨G, List.mem_cons_of_mem F hG, i, hi, he⟩

/-- The first front eliminated, the equations of the others are left. -/
theorem multiplies_cons_iff (hF : F.Good posdef) (h : Solves posdef F x x₁)
    (hlater : ∀ G ∈ Fs, ∀ i < F.p, ∀ j < G.f, G.rows j ≠ F.rows i)
    (hGs : ∀ G ∈ Fs, G.p ≤ G.f) :
    Multiplies posdef (F :: Fs) y x ↔ Multiplies posdef Fs y x₁ := by
  have hclean : ∀ i < F.p, rowSum posdef Fs y (F.rows i) = 0 := fun i hi =>
    rowSum_other fun G hG => hlater G hG i hi
  have hnot : ∀ i < F.p, ¬Pivot Fs (F.rows i) := by
    rintro i hi ⟨G, hG, j, hj, he⟩
    exact hlater G hG i hi j (hj.trans_le (hGs G hG)) he
  have hown : ∀ i < F.p, Pivot (F :: Fs) (F.rows i) := fun i hi =>
    ⟨F, List.mem_cons_self, i, hi, rfl⟩
  -- the equations of the pivot rows settle the pivot entries
  have hpivots : (∀ i < F.p, rowSum posdef (F :: Fs) y (F.rows i) = x (F.rows i)) ↔
      ∀ i < F.p, y (F.rows i) = x₁ (F.rows i) := by
    rw [← h.row_pivot_iff hF]
    refine forall_congr' fun i => forall_congr' fun hi => ?_
    rw [rowSum_cons, hclean i hi, add_zero]
  constructor
  · intro hy r
    have hval := hpivots.mp fun i hi => (hy (F.rows i)).1 (hown i hi)
    by_cases hr : ∃ i < F.p, F.rows i = r
    · obtain ⟨i, hi, rfl⟩ := hr
      exact ⟨fun hp => absurd hp (hnot i hi), fun _ => by rw [hclean i hi, zero_add, hval i hi]⟩
    · have hr' : ∀ i < F.p, F.rows i ≠ r := fun i hi he => hr ⟨i, hi, he⟩
      obtain ⟨hpos, hneg⟩ := hy r
      rw [rowSum_cons, h.row_rest hF hval hr'] at hpos hneg
      rw [pivot_cons_iff hr'] at hpos hneg
      refine ⟨fun hp => ?_, fun hp => ?_⟩
      · linear_combination hpos hp
      · linear_combination hneg hp
  · intro hy r
    have hval : ∀ i < F.p, y (F.rows i) = x₁ (F.rows i) := fun i hi => by
      have hrow := (hy (F.rows i)).2 (hnot i hi)
      rwa [hclean i hi, zero_add] at hrow
    by_cases hr : ∃ i < F.p, F.rows i = r
    · obtain ⟨i, hi, rfl⟩ := hr
      exact ⟨fun _ => hpivots.mpr hval i hi, fun hp => absurd (hown i hi) hp⟩
    · have hr' : ∀ i < F.p, F.rows i ≠ r := fun i hi he => hr ⟨i, hi, he⟩
      obtain ⟨hpos, hneg⟩ := hy r
      rw [rowSum_cons, h.row_rest hF hval hr', pivot_cons_iff hr']
      refine ⟨fun hp => ?_, fun hp => ?_⟩
      · linear_combination hpos hp
      · linear_combination hneg hp

/-- Front after front, the forward solve solves `L y = x`. -/
theorem foldl_eq_iff (hgood : ∀ F ∈ Fs, F.Good posdef)
    (hlater : Fs.Pairwise fun F G => ∀ i < F.p, ∀ j < G.f, G.rows j ≠ F.rows i) :
    Fs.foldl (forwardFront posdef) x = y ↔ Multiplies posdef Fs y x := by
  induction Fs generalizing x with
  | nil =>
    constructor
    · rintro rfl r
      exact ⟨fun ⟨_, hF, _⟩ => absurd hF List.not_mem_nil, fun _ => zero_add _⟩
    · intro hy
      funext r
      have hrow := (hy r).2 fun ⟨_, hF, _⟩ => absurd hF List.not_mem_nil
      exact hrow.symm.trans (zero_add _)
  | cons F Fs ih =>
    obtain ⟨hfirst, hlater⟩ := List.pairwise_cons.mp hlater
    have hF := hgood F List.mem_cons_self
    have hFs : ∀ G ∈ Fs, G.Good posdef := fun G hG => hgood G (List.mem_cons_of_mem F hG)
    rw [List.foldl_cons, ih hFs hlater,
      multiplies_cons_iff hF (forwardFront_solves hF) hfirst fun G hG => (hFs G hG).p_le]

/-! ## The same entries -/

theorem rowSum_eq_entries (hF : ∀ F ∈ Fs, F.p ≤ F.f) (hn : ∀ F ∈ Fs, ∀ i < F.f, F.rows i < n) :
    rowSum posdef Fs y r = ∑ c ∈ range n, entry posdef Fs r c * y c := by
  have hrow : ∀ F ∈ Fs, F.row posdef y r = ∑ c ∈ range n, F.entry posdef r c * y c := by
    intro F hmem
    simp only [Front.entry, Front.row, Finset.sum_mul]
    rw [Finset.sum_comm]
    refine sum_congr rfl fun i _ => ?_
    split
    · simp only [mul_ite, mul_one, mul_zero, Finset.sum_mul, ite_mul, zero_mul]
      rw [Finset.sum_comm]
      refine sum_congr rfl fun j hj => ?_
      have hlt : F.rows j < n := hn F hmem j ((Finset.mem_range.mp hj).trans_le (hF F hmem))
      rw [Finset.sum_ite_eq, if_pos (Finset.mem_range.mpr hlt)]
    · simp
  induction Fs with
  | nil => simp [rowSum, entry]
  | cons F Fs ih =>
    rw [rowSum_cons, hrow F List.mem_cons_self, ih (fun G hG => hF G (List.mem_cons_of_mem F hG))
      (fun G hG => hn G (List.mem_cons_of_mem F hG)) fun G hG => hrow G (List.mem_cons_of_mem F hG),
      ← Finset.sum_add_distrib]
    refine sum_congr rfl fun c _ => ?_
    rw [entry, entry, List.map_cons, List.sum_cons, add_mul]

theorem WellOrdered.rowSum_past (h : WellOrdered posdef n Fs) (hr : n ≤ r) :
    rowSum posdef Fs y r = 0 :=
  rowSum_other fun F hF i hi he => absurd (h.lt_n F hF i hi) (by omega)

theorem WellOrdered.pivot_iff (h : WellOrdered posdef n Fs) : Pivot Fs r ↔ r < n := by
  constructor
  · rintro ⟨F, hF, i, hi, rfl⟩
    exact h.lt_n F hF i (hi.trans_le (h.good F hF).p_le)
  · exact h.complete r

theorem WellOrdered.rowSum_unit (h : WellOrdered posdef n Fs) (c : ℕ) (hc : c < n) :
    rowSum posdef Fs (fun k => if k = c then 1 else 0) r = entry posdef Fs r c := by
  rw [rowSum_eq_entries (fun F hF => (h.good F hF).p_le) h.lt_n]
  simp [hc]

/-- Two lists of fronts solve every vector alike if and only if they hold the same `L`. -/
theorem solve_alike_iff (hF : WellOrdered posdef n Fs) (hG : WellOrdered posdef n Gs) :
    (∀ x : ℕ → K, (∀ r, n ≤ r → x r = 0) →
      Fs.foldl (forwardFront posdef) x = Gs.foldl (forwardFront posdef) x) ↔
    ∀ r < n, ∀ c < n, entry posdef Fs r c = entry posdef Gs r c := by
  constructor
  · intro halike r hr c hc
    -- the column `c` of `L` is what solves to the unit vector
    let y : ℕ → K := fun k => if k = c then 1 else 0
    have hy : ∀ r, n ≤ r → y r = 0 := fun r hr => if_neg (by omega)
    have hx : ∀ r, n ≤ r → rowSum posdef Fs y r = 0 := fun r hr => hF.rowSum_past hr
    have hsolve : Multiplies posdef Fs y (rowSum posdef Fs y) := by
      refine fun r => ⟨fun _ => rfl, fun hp => ?_⟩
      rw [hy r (not_lt.mp fun hlt => hp (hF.pivot_iff.mpr hlt)), add_zero]
    have hfold := (foldl_eq_iff hF.good hF.later).mpr hsolve
    rw [halike _ hx] at hfold
    have hrow := ((foldl_eq_iff hG.good hG.later).mp hfold r).1 (hG.complete r hr)
    rw [hG.rowSum_unit c hc, hF.rowSum_unit c hc] at hrow
    exact hrow.symm
  · intro hsame x _
    have hrows : ∀ (y : ℕ → K) r, rowSum posdef Fs y r = rowSum posdef Gs y r := by
      intro y r
      rcases Nat.lt_or_ge r n with hr | hr
      · rw [rowSum_eq_entries (fun F h => (hF.good F h).p_le) hF.lt_n,
          rowSum_eq_entries (fun F h => (hG.good F h).p_le) hG.lt_n]
        exact sum_congr rfl fun c hc => by rw [hsame r hr c (Finset.mem_range.mp hc)]
      · rw [hF.rowSum_past hr, hG.rowSum_past hr]
    rw [foldl_eq_iff hF.good hF.later]
    have hG' := (foldl_eq_iff hG.good hG.later).mp (rfl : Gs.foldl (forwardFront posdef) x = _)
    intro r
    rw [hrows, hF.pivot_iff, ← hG.pivot_iff]
    exact hG' r

end Fronts

end Solve
end SmfSolver
