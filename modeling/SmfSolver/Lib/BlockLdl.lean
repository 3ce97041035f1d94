/-
Partial factorizations `L D Lᵀ` with 1x1 and 2x2 diagonal blocks, read column by column.

A factor stores, for every column, whether it opens a 2x2 block, its diagonal entry, the
off-diagonal entry of the block it opens, and the entries of `L` below the block.  `product b`
is the sum of the first `b` columns; it grows by one term a column, and it is symmetric as soon
as `b` does not cut a block in two.
-/
import Mathlib.Algebra.BigOperators.Intervals
import Mathlib.Algebra.BigOperators.Ring.Finset
import Mathlib.Tactic.Ring
import Mathlib.Tactic.Linarith

namespace SmfSolver

open Finset

/-- A block `L D Lᵀ` factor: `pair c` says that columns `c` and `c + 1` form a 2x2 block. -/
structure BlockLdl (K : Type*) where
  pair : ℕ → Bool
  diag : ℕ → K
  sub : ℕ → K
  col : ℕ → ℕ → K

namespace BlockLdl

variable {K : Type*} [CommRing K] (B : BlockLdl K)

/-- Entry `(i, c)` of `L`: unit diagonal, and nothing inside a 2x2 block. -/
def l (i c : ℕ) : K :=
  if i = c then 1
  else if i < c then 0
  else if B.pair c = true ∧ i = c + 1 then 0
  else B.col i c

/-- Column `c` closes the block that column `c - 1` opens. -/
def closes (c : ℕ) : Bool := decide (0 < c) && B.pair (c - 1)

/-- Entry `(c, d)` of `D`. -/
def d (c d : ℕ) : K :=
  if c = d then B.diag c
  else if B.pair c = true ∧ d = c + 1 then B.sub c
  else if B.pair d = true ∧ c = d + 1 then B.sub d
  else 0

/-- Entry `(j, c)` of `L D`. -/
def ld (j c : ℕ) : K :=
  if B.pair c = true then B.l j c * B.diag c + B.l j (c + 1) * B.sub c
  else if B.closes c = true then B.l j (c - 1) * B.sub (c - 1) + B.l j c * B.diag c
  else B.l j c * B.diag c

/-- Entry `(i, j)` of `L D Lᵀ` over the first `b` columns. -/
def product (b i j : ℕ) : K := ∑ c ∈ range b, B.l i c * B.ld j c

/-- The first `b` columns are whole blocks. -/
def Whole (b : ℕ) : Prop := ∀ c < b, B.pair c = true → c + 1 < b ∧ B.pair (c + 1) = false

variable {B} {b c i j : ℕ}

@[simp] theorem l_self : B.l c c = 1 := if_pos rfl

theorem l_of_lt (h : i < c) : B.l i c = 0 := by
  rw [l, if_neg (by omega), if_pos h]

theorem l_below (h : c < i) (hp : B.pair c = false ∨ i ≠ c + 1) : B.l i c = B.col i c := by
  rw [l, if_neg (by omega), if_neg (by omega), if_neg]
  rintro ⟨hc, hi⟩
  rcases hp with hp | hp
  · rw [hp] at hc
    exact Bool.false_ne_true hc
  · exact hp hi

theorem l_in_block (hp : B.pair c = true) : B.l (c + 1) c = 0 := by
  rw [l, if_neg (by omega), if_neg (by omega), if_pos ⟨hp, rfl⟩]

theorem ld_opens (h : B.pair c = true) :
    B.ld j c = B.l j c * B.diag c + B.l j (c + 1) * B.sub c := if_pos h

theorem ld_closes (h : B.pair c = true) (hn : B.pair (c + 1) = false) :
    B.ld j (c + 1) = B.l j c * B.sub c + B.l j (c + 1) * B.diag (c + 1) := by
  have hcl : B.closes (c + 1) = true := by simp [closes, h]
  rw [ld, hn, if_neg Bool.false_ne_true, if_pos hcl]
  rfl

theorem ld_single (h : B.pair c = false) (hc : B.closes c = false) :
    B.ld j c = B.l j c * B.diag c := by
  rw [ld, h, if_neg Bool.false_ne_true, hc, if_neg Bool.false_ne_true]

@[simp] theorem product_zero : B.product 0 i j = 0 := rfl

theorem product_succ (b i j : ℕ) :
    B.product (b + 1) i j = B.product b i j + B.l i b * B.ld j b := sum_range_succ _ _

/-- The columns from `a` to `b` as a sum of their own. -/
theorem product_add (a n i j : ℕ) : B.product (a + n) i j =
    B.product a i j + ∑ t ∈ range n, B.l i (a + t) * B.ld j (a + t) :=
  sum_range_add _ _ _

/-- Two factors agree on the first `b` columns, row `i` of one against row `i'` of the other. -/
theorem product_congr {B' : BlockLdl K} {i' j' : ℕ}
    (hl : ∀ c < b, B.l i c = B'.l i' c) (hd : ∀ c < b, B.ld j c = B'.ld j' c) :
    B.product b i j = B'.product b i' j' :=
  sum_congr rfl fun c hc => by rw [hl c (mem_range.mp hc), hd c (mem_range.mp hc)]

theorem d_symm (c e : ℕ) : B.d c e = B.d e c := by
  by_cases h : c = e
  · rw [h]
  rw [d, d, if_neg h, if_neg (Ne.symm h)]
  by_cases h1 : B.pair c = true ∧ e = c + 1
  · rw [if_pos h1, if_neg (by omega), if_pos h1]
  · rw [if_neg h1]
    by_cases h2 : B.pair e = true ∧ c = e + 1
    · rw [if_pos h2, if_pos h2]
    · rw [if_neg h2, if_neg h2, if_neg h1]

/-- Row `c` of `D` reaches at most from `c - 1` to `c + 1`. -/
theorem d_eq_zero {e : ℕ} (hce : c ≠ e) (h1 : B.pair c = true → e ≠ c + 1)
    (h2 : B.pair e = true → c ≠ e + 1) : B.d c e = 0 := by
  rw [d, if_neg hce, if_neg fun h => h1 h.1 h.2, if_neg fun h => h2 h.1 h.2]

/-- `L D` is the product of `L` and `D`, on whole blocks. -/
theorem ld_eq_sum (hb : B.Whole b) (hc : c < b) : B.ld j c = ∑ e ∈ range b, B.d c e * B.l j e := by
  by_cases hp : B.pair c = true
  · -- the block `(c, c + 1)`
    obtain ⟨hc1, -⟩ := hb c hc hp
    have hz : ∀ e ∈ range b, e ∉ ({c, c + 1} : Finset ℕ) → B.d c e * B.l j e = 0 := by
      intro e he hne
      rw [mem_insert, mem_singleton, not_or] at hne
      have hz : B.d c e = 0 := by
        refine d_eq_zero (Ne.symm hne.1) (fun _ => hne.2) fun hpe hce => ?_
        have := (hb e (mem_range.mp he) hpe).2
        rw [← hce, hp] at this
        exact Bool.false_ne_true this.symm
      rw [hz, zero_mul]
    have hsub : ({c, c + 1} : Finset ℕ) ⊆ range b := by
      intro e he
      rw [mem_insert, mem_singleton] at he
      exact mem_range.mpr (by omega)
    rw [← sum_subset hsub hz, sum_pair (by omega), ld_opens hp]
    have h0 : B.d c c = B.diag c := if_pos rfl
    have h1 : B.d c (c + 1) = B.sub c := by rw [d, if_neg (by omega), if_pos ⟨hp, rfl⟩]
    rw [h0, h1]
    ring
  have hp' : B.pair c = false := Bool.eq_false_iff.mpr hp
  by_cases hcl : B.closes c = true
  · -- the block `(c - 1, c)`
    obtain ⟨hpos, hpc⟩ : 0 < c ∧ B.pair (c - 1) = true := by simpa [closes] using hcl
    obtain ⟨e, rfl⟩ : ∃ e, c = e + 1 := ⟨c - 1, by omega⟩
    rw [Nat.add_sub_cancel] at hpc
    have hz : ∀ x ∈ range b, x ∉ ({e, e + 1} : Finset ℕ) → B.d (e + 1) x * B.l j x = 0 := by
      intro x hx hne
      rw [mem_insert, mem_singleton, not_or] at hne
      have hz : B.d (e + 1) x = 0 := by
        refine d_eq_zero (Ne.symm hne.2) (fun h => absurd h hp) fun _ hxe => ?_
        exact hne.1 (by omega)
      rw [hz, zero_mul]
    have hsub : ({e, e + 1} : Finset ℕ) ⊆ range b := by
      intro x hx
      rw [mem_insert, mem_singleton] at hx
      exact mem_range.mpr (by omega)
    rw [← sum_subset hsub hz, sum_pair (by omega), ld_closes hpc hp']
    have h0 : B.d (e + 1) (e + 1) = B.diag (e + 1) := if_pos rfl
    have h1 : B.d (e + 1) e = B.sub e := by
      rw [d, if_neg (by omega), if_neg (by omega), if_pos ⟨hpc, rfl⟩]
    rw [h0, h1]
    ring
  -- a block of one
  have hcl' : B.closes c = false := Bool.eq_false_iff.mpr hcl
  rw [ld_single hp' hcl', sum_eq_single c]
  · rw [show B.d c c = B.diag c from if_pos rfl]
    ring
  · intro e _ hec
    have hz : B.d c e = 0 := by
      refine d_eq_zero (Ne.symm hec) (fun h => absurd h hp) fun hpe hce => hcl ?_
      simp [closes, hce, hpe]
    rw [hz, zero_mul]
  · exact fun h => absurd (mem_range.mpr hc) h

/-- The product as the matrix product `L D Lᵀ`. -/
theorem product_eq_sum (hb : B.Whole b) (i j : ℕ) : B.product b i j =
    ∑ c ∈ range b, ∑ e ∈ range b, B.l i c * B.d c e * B.l j e := by
  refine sum_congr rfl fun c hc => ?_
  rw [ld_eq_sum hb (mem_range.mp hc), mul_sum]
  exact sum_congr rfl fun e _ => by ring

theorem product_symm (hb : B.Whole b) (i j : ℕ) : B.product b i j = B.product b j i := by
  rw [product_eq_sum hb, product_eq_sum hb, sum_comm]
  refine sum_congr rfl fun c _ => sum_congr rfl fun e _ => ?_
  rw [d_symm e c]
  ring

/-- One more 1x1 block. -/
theorem product_single (h : B.pair b = false) (hc : B.closes b = false) (i j : ℕ) :
    B.product (b + 1) i j = B.product b i j + B.l i b * (B.l j b * B.diag b) := by
  rw [product_succ, ld_single h hc]

end BlockLdl

end SmfSolver
