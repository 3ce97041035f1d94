/-
The dense operations of the LDL kernel (`ldlt_kernel.cpp`) on one front.

`F` is the column-major front of order `f`, read as `F row column`; only its lower triangle is
read.  The BLAS-3 calls are the loops they stand for.  The source skips a column whose
multiplier is zero, which subtracts nothing in exact arithmetic.
-/
import SmfSolver.Lib.BlockLdl
import Mathlib.Algebra.Order.Field.Basic
import Mathlib.Logic.Equiv.Basic
import Mathlib.Tactic.FieldSimp

namespace SmfSolver.Kernel

open Finset

/-- A transposition of positions in `[lo, hi)` stays there. -/
theorem swap_maps {p q lo hi i : ℕ} (hp : lo ≤ p ∧ p < hi) (hq : lo ≤ q ∧ q < hi)
    (h : lo ≤ i ∧ i < hi) : lo ≤ Equiv.swap p q i ∧ Equiv.swap p q i < hi := by
  by_cases hip : i = p
  · rwa [hip, Equiv.swap_apply_left]
  by_cases hiq : i = q
  · rwa [hiq, Equiv.swap_apply_right]
  rwa [Equiv.swap_apply_of_ne_of_ne hip hiq]

section Storage

variable {K : Type*}

/-- Element `(i, j)` of the symmetric front from its lower-triangle storage. -/
def symAt (F : ℕ → ℕ → K) (i j : ℕ) : K := if j ≤ i then F i j else F j i

/-- The exchanges of `sym_swap` for `p < q`: the two diagonal entries, the rows in the columns
left of `p`, column `p` against row `q` between them, and the two columns below `q`. -/
def swapLower (F : ℕ → ℕ → K) (f p q i j : ℕ) : K :=
  if i = p ∧ j = p then F q q
  else if i = q ∧ j = q then F p p
  else if j < p ∧ i = p then F q j
  else if j < p ∧ i = q then F p j
  else if j = p ∧ p < i ∧ i < q then F q i
  else if i = q ∧ p < j ∧ j < q then F j p
  else if j = p ∧ q < i ∧ i < f then F i q
  else if j = q ∧ q < i ∧ i < f then F i p
  else F i j

/-- Symmetric swap of positions `p` and `q` in the lower-stored front. -/
def symSwap (F : ℕ → ℕ → K) (f p q : ℕ) : ℕ → ℕ → K :=
  if p = q then F else swapLower F f (min p q) (max p q)

variable {F : ℕ → ℕ → K} {f p q i j : ℕ}

@[simp] theorem symAt_self : symAt F i i = F i i := if_pos le_rfl

theorem symAt_of_le (h : j ≤ i) : symAt F i j = F i j := if_pos h

theorem symAt_comm (F : ℕ → ℕ → K) (i j : ℕ) : symAt F i j = symAt F j i := by
  rcases lt_trichotomy i j with h | h | h
  · rw [symAt, symAt, if_neg (by omega), if_pos h.le]
  · rw [h]
  · rw [symAt, symAt, if_pos h.le, if_neg (by omega)]

private theorem swapLower_spec (hpq : p < q) (hji : j ≤ i) (hi : i < f) :
    swapLower F f p q i j = symAt F (Equiv.swap p q i) (Equiv.swap p q j) := by
  unfold swapLower symAt
  by_cases hip : i = p
  · subst hip
    rw [Equiv.swap_apply_left]
    by_cases hj : j = i
    · subst hj
      simp
    · rw [Equiv.swap_apply_of_ne_of_ne hj (by omega)]
      simp only [hj, and_false, if_false, show ¬(i = q) by omega, false_and, show j < i by omega,
        and_self, if_true, show j ≤ q by omega]
  by_cases hiq : i = q
  · subst hiq
    rw [Equiv.swap_apply_right]
    by_cases hj : j = i
    · subst hj
      simp [show ¬(j = p) by omega]
    by_cases hjp : j = p
    · subst hjp
      rw [Equiv.swap_apply_left]
      simp [hip, hj, show ¬(i ≤ j) by omega]
    rw [Equiv.swap_apply_of_ne_of_ne hjp hj]
    rcases Nat.lt_or_ge j p with hlt | hge
    · simp [hip, hj, hlt, hlt.le]
    · simp [hip, hj, hjp, show ¬(j < p) by omega, show p < j by omega, show j < i by omega,
        show ¬(j ≤ p) by omega]
  rw [Equiv.swap_apply_of_ne_of_ne hip hiq]
  by_cases hjp : j = p
  · subst hjp
    rw [Equiv.swap_apply_left]
    rcases Nat.lt_or_ge i q with hlt | hge
    · simp [hip, hiq, show j < i by omega, hlt, show ¬(q ≤ i) by omega]
    · simp [hip, hiq, show ¬(i < q) by omega, show q < i by omega, hi, show q ≤ i by omega]
  by_cases hjq : j = q
  · subst hjq
    rw [Equiv.swap_apply_right]
    simp [hip, hiq, hjp, show j < i by omega, hi, show p ≤ i by omega]
  rw [Equiv.swap_apply_of_ne_of_ne hjp hjq]
  simp [hip, hiq, hjp, hjq, hji]

/-- The swap is the transposition of rows and columns. -/
theorem symAt_symSwap (hi : i < f) (hj : j < f) :
    symAt (symSwap F f p q) i j = symAt F (Equiv.swap p q i) (Equiv.swap p q j) := by
  by_cases hpq : p = q
  · rw [symSwap, if_pos hpq, hpq, Equiv.swap_self]
    rfl
  have hlt : min p q < max p q := min_lt_max.mpr hpq
  have hswap : Equiv.swap (min p q) (max p q) = Equiv.swap p q := by
    rcases lt_or_gt_of_ne hpq with h | h
    · rw [min_eq_left h.le, max_eq_right h.le]
    · rw [min_eq_right h.le, max_eq_left h.le, Equiv.swap_comm]
  rw [symSwap, if_neg hpq]
  rcases Nat.le_total j i with h | h
  · rw [symAt_of_le h, swapLower_spec hlt h hi, hswap]
  · rw [symAt_comm, symAt_of_le h, swapLower_spec hlt h hj, hswap, symAt_comm]

end Storage

section Elimination

variable {K : Type*} [Field K]

/-- Eliminate a 1x1 pivot at `k`; columns from `ucolEnd` on wait for their update. -/
def eliminate1x1 (F : ℕ → ℕ → K) (f k ucolEnd : ℕ) : ℕ → ℕ → K := fun i j =>
  let invD := 1 / F k k
  if j = k ∧ k < i ∧ i < f then F i k * invD
  else if k < j ∧ j < ucolEnd ∧ j ≤ i ∧ i < f then F i j - F i k * (F j k * invD)
  else F i j

/-- The unscaled column `k`, rows from `r0` on, saved as column `c` of the workspace. -/
def saveColumn (F W : ℕ → ℕ → K) (f k r0 c : ℕ) : ℕ → ℕ → K := fun i t =>
  if t = c ∧ r0 ≤ i ∧ i < f then F i k else W i t

variable [LinearOrder K]

/-- Inverse `(i00, i10, i11)` of the 2x2 pivot, scaled by its largest entry. -/
def inverse2x2 (d00 d10 d11 : K) : K × K × K :=
  let s := max (max |d00| |d10|) |d11|
  let a := d00 / s
  let b := d10 / s
  let c := d11 / s
  let inv := 1 / ((a * c - b * b) * s)
  (c * inv, -b * inv, a * inv)

/-- The inverse of the 2x2 pivot at `(k, k + 1)`. -/
def pivotInverse (F : ℕ → ℕ → K) (k : ℕ) : K × K × K :=
  inverse2x2 (F k k) (F (k + 1) k) (F (k + 1) (k + 1))

/-- Eliminate a 2x2 pivot at `(k, k + 1)`; same deferred-update contract as 1x1. -/
def eliminate2x2 (F : ℕ → ℕ → K) (f k ucolEnd : ℕ) : ℕ → ℕ → K := fun i j =>
  let inv := pivotInverse F k
  if j = k ∧ k + 1 < i ∧ i < f then inv.1 * F i k + inv.2.1 * F i (k + 1)
  else if j = k + 1 ∧ k + 1 < i ∧ i < f then inv.2.1 * F i k + inv.2.2 * F i (k + 1)
  else if k + 1 < j ∧ j < ucolEnd ∧ j ≤ i ∧ i < f then
    F i j - (F i k * (inv.1 * F j k + inv.2.1 * F j (k + 1)) +
      F i (k + 1) * (inv.2.1 * F j k + inv.2.2 * F j (k + 1)))
  else F i j

/-- First row of the aligned 4-row block that holds row `i`. -/
def blockRow (i : ℕ) : ℕ := i / 4 * 4

/-- Rows of the small-front layout: `f` rounded up to a multiple of 4. -/
def paddedRows (f : ℕ) : ℕ := blockRow (f + 3)

theorem blockRow_le (i : ℕ) : blockRow i ≤ i := Nat.div_mul_le_self i 4

theorem le_paddedRows (f : ℕ) : f ≤ paddedRows f := by
  unfold paddedRows blockRow
  omega

/-- `eliminate_1x1` on the small-front layout: whole aligned 4-row blocks, from the one that
holds the diagonal to the padding. -/
def smallEliminate1x1 (F : ℕ → ℕ → K) (f k : ℕ) : ℕ → ℕ → K := fun i j =>
  let invD := 1 / F k k
  if j = k ∧ k < i ∧ i < paddedRows f then F i k * invD
  else if k < j ∧ j < f ∧ blockRow j ≤ i ∧ i < paddedRows f then F i j - F i k * (F j k * invD)
  else F i j

/-- `eliminate_2x2` on the small-front layout. -/
def smallEliminate2x2 (F : ℕ → ℕ → K) (f k : ℕ) : ℕ → ℕ → K := fun i j =>
  let inv := pivotInverse F k
  if j = k ∧ k + 1 < i ∧ i < paddedRows f then inv.1 * F i k + inv.2.1 * F i (k + 1)
  else if j = k + 1 ∧ k + 1 < i ∧ i < paddedRows f then inv.2.1 * F i k + inv.2.2 * F i (k + 1)
  else if k + 1 < j ∧ j < f ∧ blockRow j ≤ i ∧ i < paddedRows f then
    F i j - (F i k * (inv.1 * F j k + inv.2.1 * F j (k + 1)) +
      F i (k + 1) * (inv.2.1 * F j k + inv.2.2 * F j (k + 1)))
  else F i j

end Elimination

section Values

variable {K : Type*} [Field K] {F W : ℕ → ℕ → K} {f k e i j : ℕ}

theorem eliminate1x1_col (hk : k < i) (hi : i < f) :
    eliminate1x1 F f k e i k = F i k * (1 / F k k) := if_pos ⟨rfl, hk, hi⟩

theorem eliminate1x1_updated (hk : k < j) (he : j < e) (hji : j ≤ i) (hi : i < f) :
    eliminate1x1 F f k e i j = F i j - F i k * (F j k * (1 / F k k)) := by
  unfold eliminate1x1
  dsimp only
  rw [if_neg (by omega), if_pos (by omega)]

theorem eliminate1x1_other (h : j < k ∨ i ≤ k ∨ k < j ∧ e ≤ j) :
    eliminate1x1 F f k e i j = F i j := by
  unfold eliminate1x1
  dsimp only
  rw [if_neg (by omega), if_neg (by omega)]

omit [Field K] in
theorem saveColumn_self {r0 c : ℕ} (hr : r0 ≤ i) (hi : i < f) :
    saveColumn F W f k r0 c i c = F i k :=
  if_pos ⟨rfl, hr, hi⟩

omit [Field K] in
theorem saveColumn_of_ne {r0 c t : ℕ} (h : t ≠ c) : saveColumn F W f k r0 c i t = W i t :=
  if_neg fun hc => h hc.1

variable [LinearOrder K]

theorem eliminate2x2_col0 (hk : k + 1 < i) (hi : i < f) : eliminate2x2 F f k e i k =
    (pivotInverse F k).1 * F i k + (pivotInverse F k).2.1 * F i (k + 1) := if_pos ⟨rfl, hk, hi⟩

theorem eliminate2x2_col1 (hk : k + 1 < i) (hi : i < f) : eliminate2x2 F f k e i (k + 1) =
    (pivotInverse F k).2.1 * F i k + (pivotInverse F k).2.2 * F i (k + 1) := by
  unfold eliminate2x2
  dsimp only
  rw [if_neg (by omega), if_pos ⟨rfl, hk, hi⟩]

theorem eliminate2x2_updated (hk : k + 1 < j) (he : j < e) (hji : j ≤ i) (hi : i < f) :
    eliminate2x2 F f k e i j = F i j -
      (F i k * ((pivotInverse F k).1 * F j k + (pivotInverse F k).2.1 * F j (k + 1)) +
        F i (k + 1) * ((pivotInverse F k).2.1 * F j k + (pivotInverse F k).2.2 * F j (k + 1))) := by
  unfold eliminate2x2
  dsimp only
  rw [if_neg (by omega), if_neg (by omega), if_pos (by omega)]

theorem eliminate2x2_other (h : j < k ∨ i ≤ k + 1 ∨ k + 1 < j ∧ e ≤ j) :
    eliminate2x2 F f k e i j = F i j := by
  unfold eliminate2x2
  dsimp only
  rw [if_neg (by omega), if_neg (by omega), if_neg (by omega)]

end Values

section Updates

variable {K : Type*} [Field K]

/-- Panel update of the columns `[c0, e)`: `F[c0:f, c0:e] -= L[c0:f, p0:p1] W[c0:e]ᵀ`. -/
def deferredUpdate (F W : ℕ → ℕ → K) (f p0 p1 c0 e : ℕ) : ℕ → ℕ → K := fun i j =>
  if c0 ≤ j ∧ j < e ∧ j ≤ i ∧ i < f then F i j - ∑ t ∈ range (p1 - p0), F i (p0 + t) * W j t
  else F i j

/-- Row `c` of the strict upper triangle, columns `[e, f)`. -/
def writeRow (F : ℕ → ℕ → K) (f e c : ℕ) (v : ℕ → K) : ℕ → ℕ → K := fun i j =>
  if i = c ∧ e ≤ j ∧ j < f then v j else F i j

/-- `L D` of the rows below `e`, formed in the unused upper triangle, block by block. -/
def formLd (f e : ℕ) (tags : ℕ → ℤ) (c p : ℕ) (F : ℕ → ℕ → K) : ℕ → ℕ → K :=
  if c < p then
    if tags c = 2 then
      let F1 := writeRow F f e c fun i => F i c * F c c + F i (c + 1) * F (c + 1) c
      formLd f e tags (c + 2) p (writeRow F1 f e (c + 1) fun i =>
        F i c * F (c + 1) c + F i (c + 1) * F (c + 1) (c + 1))
    else formLd f e tags (c + 1) p (writeRow F f e c fun i => F i c * F c c)
  else F
termination_by p - c

/-- Schur complement of the rows below the eligible block, once and at rank `p - p0`. -/
def schurUpdate (F : ℕ → ℕ → K) (f p0 p e : ℕ) (tags : ℕ → ℤ) : ℕ → ℕ → K :=
  if p ≤ p0 ∨ f ≤ e then F
  else
    let F1 := formLd f e tags p0 p F
    fun i j =>
      if e ≤ j ∧ j ≤ i ∧ i < f then F1 i j - ∑ t ∈ range (p - p0), F1 i (p0 + t) * F1 (p0 + t) j
      else F1 i j

variable {F : ℕ → ℕ → K} {f e p0 p c i j : ℕ} {tags : ℕ → ℤ}

theorem formLd_of_lt (h : j < e) : formLd f e tags c p F i j = F i j := by
  fun_induction formLd f e tags c p F with
  | case1 c F hc ht F1 ih =>
    rw [ih, writeRow, if_neg (by omega)]
    exact if_neg (by omega)
  | case2 c F hc ht ih =>
    rw [ih]
    exact if_neg (by omega)
  | case3 c F hc => rfl

/-- The columns of the eligible block stay as they are. -/
theorem schurUpdate_of_lt (h : j < e) : schurUpdate F f p0 p e tags i j = F i j := by
  unfold schurUpdate
  split_ifs with hno
  · rfl
  · dsimp only
    rw [if_neg (by omega), formLd_of_lt h]

end Updates

end SmfSolver.Kernel
