/-
  SmfSolver.Solve.FrontSolve

  What one front of the forward solve computes, whichever kernel does it: the equations of
  its pivot rows and of its other rows (`Solves`), which have one solution.
-/
import SmfSolver.Solve.SolveForward
import Mathlib.Algebra.BigOperators.Intervals
import Mathlib.Tactic.FieldSimp
import Mathlib.Tactic.Ring

namespace SmfSolver
namespace Solve

open Finset (range sum_congr sum_range_succ)

variable {K : Type*} [Field K]

/-! ## Kernels -/

/-- The diagonal that a pivot row is divided by. -/
def diagOf (posdef : Bool) (L : ℕ → ℕ → K) (i : ℕ) : K := if posdef then L i i else 1

section Kernels

variable {posdef : Bool} {L : ℕ → ℕ → K} {p n f first : ℕ} {b w x v : ℕ → K} {rows : ℕ → ℕ}

theorem pivot_div (a : K) (i : ℕ) :
    (if posdef then a / L i i else a) = a / diagOf posdef L i := by
  unfold diagOf
  split
  · rfl
  · rw [div_one]

theorem solveColumns_succ : solveColumns posdef L (p + 1) n b =
    solveColumn posdef L n (solveColumns posdef L p n b) p := by
  rw [solveColumns, List.range_succ, List.foldl_append]
  rfl

/-- The equations that the first `p` columns of a triangular solve settle. -/
theorem solveColumns_spec (hp : p ≤ n) :
    (∀ i < p, solveColumns posdef L p n b i =
      (b i - ∑ j ∈ range i, L i j * solveColumns posdef L p n b j) / diagOf posdef L i) ∧
    (∀ i, p ≤ i → i < n → solveColumns posdef L p n b i =
      b i - ∑ j ∈ range p, L i j * solveColumns posdef L p n b j) := by
  induction p with
  | zero =>
    refine ⟨fun i hi => absurd hi (Nat.not_lt_zero i), fun i _ _ => ?_⟩
    rw [Finset.range_zero, Finset.sum_empty, sub_zero]
    rfl
  | succ p ih =>
    obtain ⟨hpivot, hrest⟩ := ih (Nat.le_of_succ_le hp)
    -- the columns before are not changed
    have hkept : ∀ i < p, solveColumns posdef L (p + 1) n b i = solveColumns posdef L p n b i := by
      intro i hi
      rw [solveColumns_succ, solveColumn]
      dsimp only
      rw [if_neg hi.ne, if_neg fun hc => absurd hc.1 (not_lt.mpr hi.le)]
    have hsum : ∀ i, ∑ j ∈ range p, L i j * solveColumns posdef L (p + 1) n b j =
        ∑ j ∈ range p, L i j * solveColumns posdef L p n b j := fun i =>
      sum_congr rfl fun j hj => by rw [hkept j (Finset.mem_range.mp hj)]
    have hself : solveColumns posdef L (p + 1) n b p =
        solveColumns posdef L p n b p / diagOf posdef L p := by
      rw [solveColumns_succ, solveColumn]
      dsimp only
      rw [if_pos rfl, pivot_div]
    refine ⟨fun i hi => ?_, fun i hi hin => ?_⟩
    · rcases Nat.lt_succ_iff_lt_or_eq.mp hi with hlt | rfl
      · have hsum' : ∑ j ∈ range i, L i j * solveColumns posdef L (p + 1) n b j =
            ∑ j ∈ range i, L i j * solveColumns posdef L p n b j :=
          sum_congr rfl fun j hj => by rw [hkept j ((Finset.mem_range.mp hj).trans hlt)]
        rw [hkept i hlt, hpivot i hlt, hsum']
      · rw [hself, hsum, hrest i le_rfl (Nat.lt_of_succ_le hp)]
    · have hcol : solveColumns posdef L (p + 1) n b i = solveColumns posdef L p n b i -
          L i p * solveColumns posdef L (p + 1) n b p := by
        rw [hself, solveColumns_succ, solveColumn]
        dsimp only
        rw [if_neg (Nat.lt_of_succ_le hi).ne', if_pos ⟨Nat.lt_of_succ_le hi, hin⟩, pivot_div]
      rw [hcol, sum_range_succ, hsum, hrest i (Nat.le_of_succ_le hi) hin]
      ring

omit [Field K] in
theorem scatter_other {r : ℕ} (h : ∀ i < n, rows i ≠ r) : scatter rows n w x r = x r := by
  induction n with
  | zero => rfl
  | succ n ih =>
    rw [scatter, List.range_succ, List.foldl_append]
    show Function.update (scatter rows n w x) (rows n) (w n) r = x r
    rw [Function.update_of_ne (h n (Nat.lt_succ_self n)).symm]
    exact ih fun i hi => h i (hi.trans (Nat.lt_succ_self n))

omit [Field K] in
theorem scatter_at (hinj : ∀ i < n, ∀ j < n, rows i = rows j → i = j) {i : ℕ} (hi : i < n) :
    scatter rows n w x (rows i) = w i := by
  induction n with
  | zero => exact absurd hi (Nat.not_lt_zero i)
  | succ n ih =>
    rw [scatter, List.range_succ, List.foldl_append]
    show Function.update (scatter rows n w x) (rows n) (w n) (rows i) = w i
    rcases Nat.lt_succ_iff_lt_or_eq.mp hi with hlt | rfl
    · have hne : rows i ≠ rows n := fun he =>
        hlt.ne (hinj i hi n (Nat.lt_succ_self n) he)
      rw [Function.update_of_ne hne]
      exact ih (fun a ha b hb => hinj a (ha.trans (Nat.lt_succ_self n)) b
        (hb.trans (Nat.lt_succ_self n))) hlt
    · rw [Function.update_self]

theorem update_other {r : ℕ} (h : ∀ k, first ≤ k → k < f → rows k ≠ r) :
    update rows first f v x r = x r := by
  have hfold : ∀ (l : List ℕ) (x : ℕ → K), (∀ k ∈ l, rows k ≠ r) →
      l.foldl (fun x k => Function.update x (rows k) (x (rows k) - v k)) x r = x r := by
    intro l
    induction l with
    | nil => exact fun x _ => rfl
    | cons k l ih =>
      intro x hl
      rw [List.foldl_cons, ih _ fun k' hk => hl k' (List.mem_cons_of_mem k hk),
        Function.update_of_ne (hl k List.mem_cons_self).symm]
  refine hfold _ x fun k hk => ?_
  obtain ⟨hlo, hhi⟩ := List.mem_range'_1.mp hk
  exact h k hlo (by omega)

theorem update_at (hinj : ∀ i < f, ∀ j < f, rows i = rows j → i = j) {k : ℕ} (hlo : first ≤ k)
    (hk : k < f) : update rows first f v x (rows k) = x (rows k) - v k := by
  -- the loop over any distinct indices, by induction on the list
  have hfold : ∀ (l : List ℕ) (x : ℕ → K), l.Nodup → (∀ j ∈ l, j < f) → k ∈ l →
      l.foldl (fun x j => Function.update x (rows j) (x (rows j) - v j)) x (rows k) =
        x (rows k) - v k := by
    intro l
    induction l with
    | nil => exact fun x _ _ hmem => absurd hmem List.not_mem_nil
    | cons j l ih =>
      intro x hnodup hlt hmem
      obtain ⟨hj, hnodup⟩ := List.nodup_cons.mp hnodup
      rw [List.foldl_cons]
      rcases List.mem_cons.mp hmem with rfl | hmem'
      · -- no later index has the row of `k`
        have hlater : ∀ (l : List ℕ) (x : ℕ → K), (∀ j ∈ l, rows j ≠ rows k) →
            l.foldl (fun x j => Function.update x (rows j) (x (rows j) - v j)) x (rows k) =
              x (rows k) := by
          intro l
          induction l with
          | nil => exact fun x _ => rfl
          | cons j l ih =>
            intro x hl
            rw [List.foldl_cons, ih _ fun j' hj' => hl j' (List.mem_cons_of_mem j hj'),
              Function.update_of_ne (hl j List.mem_cons_self).symm]
        rw [hlater l _ fun j hjl he =>
          hj (hinj j (hlt j (List.mem_cons_of_mem k hjl)) k hk he ▸ hjl),
          Function.update_self]
      · have hne : rows k ≠ rows j := fun he =>
          hj (hinj k hk j (hlt j List.mem_cons_self) he ▸ hmem')
        rw [ih _ hnodup (fun j' hj' => hlt j' (List.mem_cons_of_mem j hj')) hmem',
          Function.update_of_ne hne]
  refine hfold _ x List.nodup_range' (fun j hj => ?_) ?_
  · have := (List.mem_range'_1.mp hj).2
    omega
  · exact List.mem_range'_1.mpr ⟨hlo, by omega⟩

end Kernels

/-! ## One front -/

/-- A front with distinct rows and pivots to divide by, whose cached inverse is one:
    `L11 * inv = 1`. -/
structure Front.Good (posdef : Bool) (F : Front K) : Prop where
  p_le : F.p ≤ F.f
  inj : ∀ i < F.f, ∀ j < F.f, F.rows i = F.rows j → i = j
  diag_ne : ∀ i < F.p, diagOf posdef F.L i ≠ 0
  inv : ∀ inv, F.inv = some inv → ∀ i < F.p, ∀ j < F.p,
    (∑ k ∈ range i, F.L i k * inv k j) + diagOf posdef F.L i * inv i j = if i = j then 1 else 0

/-- The equations of a front's rows. -/
structure Solves (posdef : Bool) (F : Front K) (x y : ℕ → K) : Prop where
  pivot : ∀ i < F.p, y (F.rows i) =
    (x (F.rows i) - ∑ j ∈ range i, F.L i j * y (F.rows j)) / diagOf posdef F.L i
  extended : ∀ i, F.p ≤ i → i < F.f → y (F.rows i) =
    x (F.rows i) - ∑ j ∈ range F.p, F.L i j * y (F.rows j)
  other : ∀ r, (∀ i < F.f, F.rows i ≠ r) → y r = x r

section Fronts

variable {posdef : Bool} {F G : Front K} {x y z : ℕ → K}

/-- The pivot rows depend on the pivot rows alone. -/
theorem Solves.pivot_congr {x' y' : ℕ → K} (h : Solves posdef F x y) (h' : Solves posdef F x' y')
    (hx : ∀ i < F.p, x' (F.rows i) = x (F.rows i)) {i : ℕ} (hi : i < F.p) :
    y' (F.rows i) = y (F.rows i) := by
  induction i using Nat.strong_induction_on with
  | _ i ih =>
    have hsum : ∑ j ∈ range i, F.L i j * y' (F.rows j) = ∑ j ∈ range i, F.L i j * y (F.rows j) :=
      sum_congr rfl fun j hj => by
        rw [ih j (Finset.mem_range.mp hj) ((Finset.mem_range.mp hj).trans hi)]
    rw [h.pivot i hi, h'.pivot i hi, hsum, hx i hi]

theorem Solves.unique (h : Solves posdef F x y) (h' : Solves posdef F x z) : z = y := by
  have hpivot : ∀ i < F.p, z (F.rows i) = y (F.rows i) := fun i hi =>
    h.pivot_congr h' (fun _ _ => rfl) hi
  funext r
  by_cases hr : ∃ i < F.f, F.rows i = r
  · obtain ⟨i, hi, rfl⟩ := hr
    rcases Nat.lt_or_ge i F.p with hp | hp
    · exact hpivot i hp
    · have hsum : ∑ j ∈ range F.p, F.L i j * z (F.rows j) = ∑ j ∈ range F.p,
        F.L i j * y (F.rows j) :=
        sum_congr rfl fun j hj => by rw [hpivot j (Finset.mem_range.mp hj)]
      rw [h.extended i hp hi, h'.extended i hp hi, hsum]
  · have hr' : ∀ i < F.f, F.rows i ≠ r := fun i hi he => hr ⟨i, hi, he⟩
    rw [h.other r hr', h'.other r hr']

/-- A front whose pivot entries are zero does nothing. -/
theorem solves_zero (hzero : ∀ i < F.p, x (F.rows i) = 0) : Solves posdef F x x where
  pivot := fun i hi => by
    rw [hzero i hi, Finset.sum_eq_zero fun j hj => by
      rw [hzero j ((Finset.mem_range.mp hj).trans hi), mul_zero], sub_zero, zero_div]
  extended := fun i _ _ => by
    rw [Finset.sum_eq_zero fun j hj => by rw [hzero j (Finset.mem_range.mp hj), mul_zero], sub_zero]
  other := fun _ _ => rfl

/-- A kernel that finds the pivot entries `w` and subtracts their products from the rest. -/
theorem solves_of {w : ℕ → K}
    (hw : ∀ i < F.p, w i = (x (F.rows i) - ∑ j ∈ range i, F.L i j * w j) / diagOf posdef F.L i)
    (hpivot : ∀ i < F.p, y (F.rows i) = w i)
    (hext : ∀ i, F.p ≤ i → i < F.f →
      y (F.rows i) = x (F.rows i) - ∑ j ∈ range F.p, F.L i j * w j)
    (hother : ∀ r, (∀ i < F.f, F.rows i ≠ r) → y r = x r) : Solves posdef F x y where
  pivot := fun i hi => by
    have hsum : ∑ j ∈ range i, F.L i j * y (F.rows j) = ∑ j ∈ range i, F.L i j * w j :=
      sum_congr rfl fun j hj => by rw [hpivot j ((Finset.mem_range.mp hj).trans hi)]
    rw [hpivot i hi, hw i hi, hsum]
  extended := fun i hlo hi => by
    have hsum : ∑ j ∈ range F.p, F.L i j * y (F.rows j) = ∑ j ∈ range F.p, F.L i j * w j :=
      sum_congr rfl fun j hj => by rw [hpivot j (Finset.mem_range.mp hj)]
    rw [hext i hlo hi, hsum]
  other := hother

/-- The pivot entries scattered, then the other rows updated. -/
theorem solves_update {w v : ℕ → K} (hF : F.Good posdef)
    (hw : ∀ i < F.p, w i = (x (F.rows i) - ∑ j ∈ range i, F.L i j * w j) / diagOf posdef F.L i)
    (hv : ∀ k, F.p ≤ k → k < F.f → v k = ∑ j ∈ range F.p, F.L k j * w j) :
    Solves posdef F x (update F.rows F.p F.f v (scatter F.rows F.p w x)) := by
  have hinj : ∀ i < F.p, ∀ j < F.p, F.rows i = F.rows j → i = j := fun i hi j hj =>
    hF.inj i (hi.trans_le hF.p_le) j (hj.trans_le hF.p_le)
  refine solves_of hw (fun i hi => ?_) (fun i hlo hi => ?_) fun r hr => ?_
  · have hpast : ∀ k, F.p ≤ k → k < F.f → F.rows k ≠ F.rows i := fun k hlo hk he =>
      (hi.trans_le hlo).ne' (hF.inj k hk i (hi.trans_le hF.p_le) he)
    rw [update_other hpast, scatter_at hinj hi]
  · have hpast : ∀ k < F.p, F.rows k ≠ F.rows i := fun k hk he =>
      (hk.trans_le hlo).ne (hF.inj k (hk.trans_le hF.p_le) i hi he)
    rw [update_at hF.inj hlo hi, scatter_other hpast, hv i hlo hi]
  · rw [update_other fun k _ hk => hr k hk,
      scatter_other fun k hk => hr k (hk.trans_le hF.p_le)]

/-- The triangular solve of the leading block. -/
theorem solveLower_pivot {b : ℕ → K} : ∀ i < F.p, solveLower posdef F.L F.p b i =
    (b i - ∑ j ∈ range i, F.L i j * solveLower posdef F.L F.p b j) / diagOf posdef F.L i :=
  (solveColumns_spec le_rfl).1

/-- The product with the cached inverse. -/
theorem inverse_pivot {inv : ℕ → ℕ → K} {b : ℕ → K} (hF : F.Good posdef) (h : F.inv = some inv) :
    ∀ i < F.p, dgemv inv F.p b i =
      (b i - ∑ j ∈ range i, F.L i j * dgemv inv F.p b j) / diagOf posdef F.L i := by
  intro i hi
  have hrow : ∑ j ∈ range i, F.L i j * dgemv inv F.p b j =
      ∑ k ∈ range F.p, (∑ j ∈ range i, F.L i j * inv j k) * b k := by
    simp only [dgemv, Finset.mul_sum, Finset.sum_mul]
    rw [Finset.sum_comm]
    exact sum_congr rfl fun k _ => sum_congr rfl fun j _ => by ring
  have hsum : (∑ j ∈ range i, F.L i j * dgemv inv F.p b j) +
      diagOf posdef F.L i * dgemv inv F.p b i = b i := by
    rw [hrow, dgemv, Finset.mul_sum, ← Finset.sum_add_distrib]
    calc ∑ k ∈ range F.p, ((∑ j ∈ range i, F.L i j * inv j k) * b k +
          diagOf posdef F.L i * (inv i k * b k))
        = ∑ k ∈ range F.p, if i = k then b k else 0 := by
          refine sum_congr rfl fun k hk => ?_
          have hentry := hF.inv inv h i hi k (Finset.mem_range.mp hk)
          rw [← mul_assoc, ← add_mul, hentry, ite_mul, one_mul, zero_mul]
      _ = b i := by rw [Finset.sum_ite_eq, if_pos (Finset.mem_range.mpr hi)]
  rw [eq_div_iff (hF.diag_ne i hi), ← hsum]
  ring

theorem extended_eq {b : ℕ → K} (hp : 0 < F.p) (k : ℕ) :
    extended F b k = ∑ j ∈ range F.p, F.L k j * b j := by
  have hfold : ∀ m, (List.range' 1 m).foldl (fun t j k => t k + F.L k j * b j)
      (fun k => F.L k 0 * b 0) k = ∑ j ∈ range (m + 1), F.L k j * b j := by
    intro m
    induction m with
    | zero => rw [Finset.sum_range_one]; rfl
    | succ m ih =>
      rw [List.range'_concat, List.foldl_append, sum_range_succ, ← ih, Nat.one_mul, Nat.add_comm 1]
      rfl
  rw [extended]
  split
  · rw [hfold, Nat.sub_add_cancel hp]
  · rfl

/-- All rows eliminated column by column, then scattered. -/
theorem solves_gathered (hF : F.Good posdef) : Solves posdef F x
    (scatter F.rows F.f (solveColumns posdef F.L F.p F.f fun i => x (F.rows i)) x) := by
  have hspec := @solveColumns_spec _ _ posdef F.L F.p F.f (fun i => x (F.rows i)) hF.p_le
  obtain ⟨hpivot, hrest⟩ := hspec
  refine solves_of hpivot (fun i hi => ?_) (fun i hlo hi => ?_) fun r hr => scatter_other hr
  · exact scatter_at hF.inj (hi.trans_le hF.p_le)
  · rw [scatter_at hF.inj hi, hrest i hlo hi]

/-- The leading block solved, then the other rows updated by the product with it. -/
theorem solves_blocked {w : ℕ → K} (hF : F.Good posdef) (hp : 0 < F.p)
    (hw : ∀ i < F.p, w i =
      (x (F.rows i) - ∑ j ∈ range i, F.L i j * w j) / diagOf posdef F.L i) :
    Solves posdef F x (if 0 < F.f - F.p then
      update F.rows F.p F.f (extended F w) (scatter F.rows F.p w x)
      else scatter F.rows F.p w x) := by
  have hsolve := solves_update hF hw fun k _ _ => extended_eq hp k
  split
  · exact hsolve
  · next hq =>
    -- there are no other rows
    rw [update, Nat.eq_zero_of_not_pos hq] at hsolve
    exact hsolve

/-- A front solves its equations, whichever kernel its size selects. -/
theorem forwardFront_solves (hF : F.Good posdef) : Solves posdef F x (forwardFront posdef x F) := by
  unfold forwardFront
  split
  -- one case for each branch: no pivot, one, two, a small front, a blocked one
  · next hp => exact solves_zero fun i hi => absurd hi (by omega)
  split
  · next hp =>
    let w : ℕ → K := fun _ => x (F.rows 0) / diagOf posdef F.L 0
    have hw : ∀ i < F.p, w i =
        (x (F.rows i) - ∑ j ∈ range i, F.L i j * w j) / diagOf posdef F.L i := by
      intro i hi
      obtain rfl : i = 0 := by omega
      rw [Finset.range_zero, Finset.sum_empty, sub_zero]
    have hsolve := solves_update (v := fun k => F.L k 0 * w 0) hF hw
      fun k _ _ => by rw [hp, Finset.sum_range_one]
    rw [hp] at hsolve
    rw [pivot_div]
    exact hsolve
  split
  · next hp =>
    let x₀ := x (F.rows 0) / diagOf posdef F.L 0
    let w : ℕ → K := fun i =>
      if i = 0 then x₀ else (x (F.rows 1) - F.L 1 0 * x₀) / diagOf posdef F.L 1
    have hw : ∀ i < F.p, w i =
        (x (F.rows i) - ∑ j ∈ range i, F.L i j * w j) / diagOf posdef F.L i := by
      intro i hi
      obtain rfl | rfl : i = 0 ∨ i = 1 := by omega
      · rw [Finset.range_zero, Finset.sum_empty, sub_zero]
        rfl
      · rw [Finset.sum_range_one]
        rfl
    have hsolve := solves_update (v := fun k => F.L k 0 * w 0 + F.L k 1 * w 1) hF hw
      fun k _ _ => by rw [hp, sum_range_succ, Finset.sum_range_one]
    rw [hp] at hsolve
    dsimp only
    rw [pivot_div, pivot_div]
    exact hsolve
  split
  · exact solves_gathered hF
  · next hp _ _ _ =>
    have hp' : 0 < F.p := Nat.pos_of_ne_zero hp
    dsimp only
    cases hinv : F.inv with
    | some inv => exact solves_blocked hF hp' (inverse_pivot hF hinv)
    | none => exact solves_blocked hF hp' solveLower_pivot

/-- The sparse solve's front, which gathers and scatters. -/
theorem sparseFront_solves (hF : F.Good posdef) : Solves posdef F x (sparseFront posdef x F) := by
  unfold sparseFront
  split
  · next hp => exact solves_zero fun i hi => absurd hi (by omega)
  -- the pivots are gathered, solved and scattered before the rows below are touched
  let w := solveLower posdef F.L F.p fun k => x (F.rows k)
  have hinj : ∀ i < F.p, ∀ j < F.p, F.rows i = F.rows j → i = j := fun i hi j hj =>
    hF.inj i (hi.trans_le hF.p_le) j (hj.trans_le hF.p_le)
  have hpast : ∀ i, F.p ≤ i → i < F.f → ∀ k < F.p, F.rows k ≠ F.rows i := fun i hlo hi k hk he =>
    (hk.trans_le hlo).ne (hF.inj k (hk.trans_le hF.p_le) i hi he)
  have hkept : ∀ r, (∀ i < F.f, F.rows i ≠ r) → scatter F.rows F.p w x r = x r := fun r hr =>
    scatter_other fun i hi => hr i (hi.trans_le hF.p_le)
  dsimp only
  split
  · have hshift : ∀ i < F.f - F.p, ∀ j < F.f - F.p,
        F.rows (F.p + i) = F.rows (F.p + j) → i = j := fun i hi j hj he => by
      have := hF.inj (F.p + i) (by omega) (F.p + j) (by omega) he
      omega
    refine solves_of solveLower_pivot (fun i hi => ?_) (fun i hlo hi => ?_) fun r hr => ?_
    · have hne : ∀ k < F.f - F.p, F.rows (F.p + k) ≠ F.rows i := fun k hk he =>
        hpast (F.p + k) (by omega) (by omega) i hi he.symm
      rw [scatter_other hne, scatter_at hinj hi]
    · obtain ⟨k, rfl⟩ := Nat.exists_eq_add_of_le hlo
      have hk : k < F.f - F.p := by omega
      have hat : scatter (fun k => F.rows (F.p + k)) (F.f - F.p)
          (fun k => scatter F.rows F.p w x (F.rows (F.p + k)) - dgemv F.L F.p w (F.p + k))
          (scatter F.rows F.p w x) (F.rows (F.p + k)) = _ := scatter_at hshift hk
      rw [scatter_other (hpast (F.p + k) hlo hi)] at hat
      exact hat
    · rw [scatter_other fun k hk => hr (F.p + k) (by omega)]
      exact hkept r hr
  · refine solves_of solveLower_pivot (fun i hi => scatter_at hinj hi)
      (fun i hlo hi => absurd hi (by omega)) hkept

end Fronts

end Solve
end SmfSolver
