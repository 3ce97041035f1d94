/-
  SmfSolver.Lib.BackwardError

  The componentwise backward error of a linear system: `x` solves `A x = b` within `ω` when it
  solves a system exactly whose entries differ from `A` and `b` by at most `ω` of each.

  `solvesWithin_iff`: the residual tells, row by row against `|A| |x| + |b|`.
-/
import Mathlib.Algebra.BigOperators.Field
import Mathlib.Algebra.Order.BigOperators.Ring.Finset
import Mathlib.Algebra.Order.Field.Basic
import Mathlib.Data.Sign.Basic
import Mathlib.Tactic.LinearCombination

namespace SmfSolver
namespace Lib

variable {ι K : Type*} [Fintype ι] [Field K] [LinearOrder K]

/-- Row `i` of `b - A x`. -/
def residual (A : ι → ι → K) (b x : ι → K) (i : ι) : K := b i - ∑ j, A i j * x j

/-- Row `i` of `|A| |x| + |b|`. -/
def rowScale (A : ι → ι → K) (b x : ι → K) (i : ι) : K := ∑ j, |A i j| * |x j| + |b i|

/-- A backward error of at most `ω`, entry by entry. -/
def SolvesWithin (A : ι → ι → K) (b x : ι → K) (ω : K) : Prop :=
  ∃ (E : ι → ι → K) (f : ι → K), (∀ i j, |E i j| ≤ ω * |A i j|) ∧ (∀ i, |f i| ≤ ω * |b i|) ∧
    ∀ i, ∑ j, (A i j + E i j) * x j = b i + f i

variable [IsStrictOrderedRing K] {A : ι → ι → K} {b x : ι → K} {ω : K}

theorem SolvesWithin.residual_le (h : SolvesWithin A b x ω) (i : ι) :
    |residual A b x i| ≤ ω * rowScale A b x i := by
  obtain ⟨E, f, hE, hf, hsolves⟩ := h
  have hrow : residual A b x i = ∑ j, E i j * x j - f i := by
    have hsum := hsolves i
    simp only [add_mul, Finset.sum_add_distrib] at hsum
    rw [residual]
    linear_combination -hsum
  have hterms : |∑ j, E i j * x j| ≤ ∑ j, ω * (|A i j| * |x j|) := by
    refine (Finset.abs_sum_le_sum_abs _ _).trans (Finset.sum_le_sum fun j _ => ?_)
    rw [abs_mul, ← mul_assoc]
    exact mul_le_mul_of_nonneg_right (hE i j) (abs_nonneg _)
  calc |residual A b x i| ≤ |∑ j, E i j * x j| + |f i| := hrow ▸ abs_sub _ _
    _ ≤ ∑ j, ω * (|A i j| * |x j|) + ω * |b i| := add_le_add hterms (hf i)
    _ = ω * rowScale A b x i := by rw [← Finset.mul_sum, rowScale, mul_add]

/-- The residual of each row is spread over the row, in proportion to its terms. -/
theorem solvesWithin_iff (hω : 0 ≤ ω) :
    SolvesWithin A b x ω ↔ ∀ i, |residual A b x i| ≤ ω * rowScale A b x i := by
  refine ⟨SolvesWithin.residual_le, fun h => ?_⟩
  let ρ : ι → K := fun i => residual A b x i / rowScale A b x i
  have hscale : ∀ i, 0 ≤ rowScale A b x i := fun i =>
    add_nonneg (Finset.sum_nonneg fun j _ => mul_nonneg (abs_nonneg _) (abs_nonneg _))
      (abs_nonneg _)
  have hρ : ∀ i, |ρ i| ≤ ω := fun i => by
    rw [abs_div, abs_of_nonneg (hscale i)]
    exact div_le_of_le_mul₀ (hscale i) hω (h i)
  -- a row whose scale is zero has no residual either
  have hsplit : ∀ i, ρ i * rowScale A b x i = residual A b x i := fun i => by
    rcases eq_or_ne (rowScale A b x i) 0 with hzero | hne
    · have hres := h i
      rw [hzero, mul_zero, abs_nonpos_iff] at hres
      rw [hzero, mul_zero, hres]
    · exact div_mul_cancel₀ _ hne
  refine ⟨fun i j => ρ i * |A i j| * SignType.sign (x j), fun i => -(ρ i * |b i|), fun i j => ?_,
    fun i => ?_, fun i => ?_⟩
  · have hsign : |(SignType.sign (x j) : K)| ≤ 1 := by
      rcases lt_trichotomy (x j) 0 with hlt | heq | hgt
      · rw [sign_neg hlt]
        simp
      · rw [heq, sign_zero]
        simp
      · rw [sign_pos hgt]
        simp
    rw [abs_mul, abs_mul, abs_abs]
    calc |ρ i| * |A i j| * |(SignType.sign (x j) : K)| ≤ |ρ i| * |A i j| * 1 :=
          mul_le_mul_of_nonneg_left hsign (mul_nonneg (abs_nonneg _) (abs_nonneg _))
      _ ≤ ω * |A i j| := by
          rw [mul_one]
          exact mul_le_mul_of_nonneg_right (hρ i) (abs_nonneg _)
  · rw [abs_neg, abs_mul, abs_abs]
    exact mul_le_mul_of_nonneg_right (hρ i) (abs_nonneg _)
  · have hterm : ∀ j, (A i j + ρ i * |A i j| * SignType.sign (x j)) * x j =
        A i j * x j + ρ i * (|A i j| * |x j|) := fun j => by
      rw [add_mul, mul_assoc (ρ i * |A i j|), sign_mul_self, mul_assoc]
    simp only [hterm, Finset.sum_add_distrib, ← Finset.mul_sum]
    have hrow := hsplit i
    rw [rowScale, residual] at hrow
    linear_combination hrow

end Lib
end SmfSolver
