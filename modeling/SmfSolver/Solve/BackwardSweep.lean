/-
  SmfSolver.Solve.BackwardSweep

  What a backward front computes, and what the accesses of any number of threads keep while
  they sweep over the fronts.

  1. `backwardValues_pivot`: every kernel finds the pivots of `L11^T z = D^-1 y - L21^T z2`.
  2. `BackSolution`: the vector that satisfies the equations of all fronts; there is one
     (`foldr_solution`, `BackSolution.unique`).
  3. `backPhase`: threads that run fronts on a schedule, each front after those that pivot
     its extended rows, leave the solution's pivots in the fronts they ran.
-/
import SmfSolver.Solve.ForwardSweep
import SmfSolver.Solve.SolveBackward
import Mathlib.LinearAlgebra.Matrix.NonsingularInverse

namespace SmfSolver
namespace Solve

open Lib
open Finset (range sum_congr sum_range_succ Ico)

variable {K : Type*} [Field K]

/-! ## The kernels -/

section Kernels

variable {posdef : Bool} {L : ℕ → ℕ → K} {F : Front K} {b w : ℕ → K} {p i j : ℕ}
  {d : (ℕ → K) → ℕ → K}

theorem solveLowerTranspose_succ : solveLowerTranspose posdef L (p + 1) b =
    solveLowerTranspose posdef L p (transposeRow posdef L b p) := by
  rw [solveLowerTranspose, List.range_succ, List.reverse_append, List.reverse_singleton,
    List.singleton_append, List.foldl_cons]
  rfl

/-- The transposed solve leaves the rows past its own alone. -/
theorem solveLowerTranspose_past (h : p ≤ i) : solveLowerTranspose posdef L p b i = b i := by
  induction p generalizing b with
  | zero => rfl
  | succ p ih =>
    rw [solveLowerTranspose_succ]
    refine (ih (Nat.le_of_succ_le h)).trans ?_
    show (if i = p then _ else if i < p then _ else b i) = b i
    rw [if_neg (by omega), if_neg (by omega)]

theorem solveLowerTranspose_pivot : ∀ i < p, solveLowerTranspose posdef L p b i =
    (b i - ∑ j ∈ Ico (i + 1) p,
      L j i * solveLowerTranspose posdef L p b j) / diagOf posdef L i := by
  induction p generalizing b with
  | zero => exact fun i hi => absurd hi (Nat.not_lt_zero i)
  | succ p ih =>
    intro i hi
    have hlast : transposeRow posdef L b p p = b p / diagOf posdef L p := by
      show (if p = p then _ else _) = _
      rw [if_pos rfl, pivot_div]
    have hbefore : ∀ col < p, transposeRow posdef L b p col =
        b col - L p col * transposeRow posdef L b p p := by
      intro col hcol
      show (if col = p then _ else if col < p then b col - L p col * _ else b col) = _
      rw [if_neg hcol.ne, if_pos hcol]
      show _ = b col - L p col * (if p = p then _ else _)
      rw [if_pos rfl]
    rw [solveLowerTranspose_succ]
    rcases Nat.lt_succ_iff_lt_or_eq.mp hi with hlt | rfl
    · rw [ih i hlt, Finset.sum_Ico_succ_top hlt, solveLowerTranspose_past le_rfl, hbefore i hlt]
      ring
    · rw [solveLowerTranspose_past le_rfl, Finset.Ico_self, Finset.sum_empty, sub_zero, hlast]

/-- The inverse of the leading block is one on either side. -/
theorem inverse_left {inv : ℕ → ℕ → K} (hF : F.Good posdef) (h : F.inv = some inv) (hi : i < F.p)
    (hj : j < F.p) : inv i j * diagOf posdef F.L j +
      ∑ k ∈ Ico (j + 1) F.p, inv i k * F.L k j = if i = j then 1 else 0 := by
  let A : Matrix (Fin F.p) (Fin F.p) K := fun a c => F.coef posdef a c
  let B : Matrix (Fin F.p) (Fin F.p) K := fun a c => inv a c
  have hright : A * B = 1 := by
    ext a c
    have hsum : (A * B) a c = ∑ k ∈ range F.p, F.coef posdef a k * inv k c :=
      (Finset.sum_range fun k => F.coef posdef a k * inv k c).symm
    have hsub : range (a.1 + 1) ⊆ range F.p := Finset.range_subset_range.mpr a.2
    have hzero : ∀ k ∈ range F.p, k ∉ range (a.1 + 1) → F.coef posdef a k * inv k c = 0 := by
      intro k _ hk
      have hlt : a.1 < k := by simpa using hk
      rw [Front.coef, if_neg hlt.ne, if_neg (not_lt.mpr hlt.le), zero_mul]
    have hbefore : ∑ k ∈ range a.1, F.coef posdef a k * inv k c =
        ∑ k ∈ range a.1, F.L a k * inv k c := by
      refine sum_congr rfl fun k hk => ?_
      have hlt : k < a.1 := Finset.mem_range.mp hk
      rw [Front.coef, if_neg hlt.ne', if_pos hlt]
    rw [hsum, ← Finset.sum_subset hsub hzero, sum_range_succ, hbefore, Front.coef, if_pos rfl,
      hF.inv inv h a a.2 c c.2, Matrix.one_apply]
    exact if_congr Fin.ext_iff.symm rfl rfl
  -- a right inverse of a square matrix is a left inverse
  have hone : B * A = 1 := mul_eq_one_comm.mp hright
  have hleft := congrFun (congrFun hone ⟨i, hi⟩) ⟨j, hj⟩
  have hsum : (B * A) ⟨i, hi⟩ ⟨j, hj⟩ = ∑ k ∈ range F.p, inv i k * F.coef posdef k j :=
    (Finset.sum_range fun k => inv i k * F.coef posdef k j).symm
  have hzero : ∑ k ∈ range j, inv i k * F.coef posdef k j = 0 := by
    refine Finset.sum_eq_zero fun k hk => ?_
    have hlt : k < j := Finset.mem_range.mp hk
    rw [Front.coef, if_neg hlt.ne, if_neg (not_lt.mpr hlt.le), mul_zero]
  have hafter : ∑ k ∈ Ico (j + 1) F.p, inv i k * F.coef posdef k j =
      ∑ k ∈ Ico (j + 1) F.p, inv i k * F.L k j := by
    refine sum_congr rfl fun k hk => ?_
    have hlt : j < k := (Finset.mem_Ico.mp hk).1
    rw [Front.coef, if_neg hlt.ne', if_pos hlt]
  rw [hsum, ← Finset.sum_range_add_sum_Ico _ hj.le, hzero, zero_add,
    Finset.sum_eq_sum_Ico_succ_bot hj, hafter, Front.coef, if_pos rfl, Matrix.one_apply] at hleft
  exact hleft.trans (if_congr Fin.ext_iff rfl rfl)

/-- The product with the transposed inverse. -/
theorem inverse_transpose {inv : ℕ → ℕ → K} (hF : F.Good posdef) (h : F.inv = some inv) :
    ∀ i < F.p, dgemvTranspose inv F.p b i =
      (b i - ∑ j ∈ Ico (i + 1) F.p,
        F.L j i * dgemvTranspose inv F.p b j) / diagOf posdef F.L i := by
  intro i hi
  have hrest : ∑ j ∈ Ico (i + 1) F.p, F.L j i * dgemvTranspose inv F.p b j =
      ∑ l ∈ range F.p, (∑ j ∈ Ico (i + 1) F.p, inv l j * F.L j i) * b l := by
    simp only [dgemvTranspose, Finset.mul_sum, Finset.sum_mul]
    rw [Finset.sum_comm]
    exact sum_congr rfl fun l _ => sum_congr rfl fun j _ => by ring
  have hsum : dgemvTranspose inv F.p b i * diagOf posdef F.L i +
      ∑ j ∈ Ico (i + 1) F.p, F.L j i * dgemvTranspose inv F.p b j = b i := by
    rw [hrest, dgemvTranspose, Finset.sum_mul, ← Finset.sum_add_distrib]
    calc ∑ l ∈ range F.p, (inv l i * b l * diagOf posdef F.L i +
          (∑ j ∈ Ico (i + 1) F.p, inv l j * F.L j i) * b l)
        = ∑ l ∈ range F.p, if l = i then b l else 0 := by
          refine sum_congr rfl fun l hl => ?_
          have hentry := inverse_left hF h (Finset.mem_range.mp hl) hi
          rw [show inv l i * b l * diagOf posdef F.L i = inv l i * diagOf posdef F.L i *
            b l by ring,
            ← add_mul, hentry, ite_mul, one_mul, zero_mul]
      _ = b i := by rw [Finset.sum_ite_eq', if_pos (Finset.mem_range.mpr hi)]
  rw [eq_div_iff (hF.diag_ne i hi), ← hsum]
  ring

/-- A pivot of the transposed solve: the later pivots and the extended rows are subtracted. -/
def backPivot (posdef : Bool) (F : Front K) (v w z : ℕ → K) (i : ℕ) : K :=
  (v i - ∑ j ∈ Ico (i + 1) F.p, F.L j i * z j - ∑ j ∈ Ico F.p F.f, F.L j i * w j) /
    diagOf posdef F.L i

theorem subDots_eq (j : ℕ) :
    subDots F w j = w j - ∑ i ∈ Ico F.p F.f, F.L i j * w i := by
  rw [subDots, dgemvTranspose, Finset.sum_Ico_eq_sum_range]

/-- The rows from `first` on, in two halves. -/
theorem everySecond_add (first : ℕ) : everySecond F w first + everySecond F w (first + 1) =
    ∑ i ∈ Ico first F.f, F.L i 0 * w i := by
  have hsum : ∀ (n first : ℕ) (g : ℕ → K),
      ((List.range' first ((n + 1) / 2) 2).map g).sum +
        ((List.range' (first + 1) (n / 2) 2).map g).sum = ∑ i ∈ Ico first (first + n), g i := by
    intro n
    induction n using Nat.twoStepInduction with
    | zero => intro first g; simp
    | one => intro first g; simp
    | more n ih _ =>
      intro first g
      have hodd : (n + 2 + 1) / 2 = (n + 1) / 2 + 1 := by omega
      have heven : (n + 2) / 2 = n / 2 + 1 := by omega
      rw [hodd, heven, List.range'_succ, List.range'_succ, List.map_cons, List.map_cons,
        List.sum_cons, List.sum_cons, Finset.sum_eq_sum_Ico_succ_bot (by omega),
        Finset.sum_eq_sum_Ico_succ_bot (by omega),
        show first + (n + 2) = first + 2 + n by omega, ← ih (first + 2) g]
      ring
  have hfirst : (F.f + 1 - first) / 2 = (F.f - first + 1) / 2 ∨ F.f < first := by omega
  rw [everySecond, everySecond]
  rcases hfirst with hcount | hlt
  · rw [hcount, show F.f + 1 - (first + 1) = F.f - first by omega]
    rcases Nat.lt_or_ge F.f first with hlt | hge
    · rw [Finset.Ico_eq_empty (by omega), show F.f - first = 0 by omega]
      simp
    · rw [hsum (F.f - first) first, Nat.add_sub_cancel' hge]
  · rw [Finset.Ico_eq_empty (by omega), show F.f + 1 - first = 0 by omega,
      show F.f + 1 - (first + 1) = 0 by omega]
    simp

theorem backwardValues_pivot (hF : F.Good posdef) : ∀ i < F.p, backwardValues posdef d F w i =
    backPivot posdef F (d w) w (backwardValues posdef d F w) i := by
  intro i hi
  rw [backPivot]
  -- the two unrolled kernels, and then the general one
  by_cases h1 : F.p = 1
  · obtain rfl : i = 0 := by omega
    have hvalue : ∀ j, backwardValues posdef d F w j =
        (d w 0 - ∑ i ∈ Ico 1 F.f, F.L i 0 * w i) / diagOf posdef F.L 0 := by
      intro j
      rw [backwardValues]
      dsimp only
      rw [if_pos h1, everySecond_add 1]
      exact pivot_div _ 0
    rw [hvalue, h1, Finset.Ico_self, Finset.sum_empty, sub_zero]
  by_cases h2 : F.p = 2
  · have hvalue : ∀ j, backwardValues posdef d F w j =
        if j = 0 then (d w 0 - F.L 1 0 * ((d w 1 - ∑ i ∈ Ico 2 F.f, F.L i 1 * w i) /
          diagOf posdef F.L 1) - ∑ i ∈ Ico 2 F.f, F.L i 0 * w i) / diagOf posdef F.L 0
        else (d w 1 - ∑ i ∈ Ico 2 F.f, F.L i 1 * w i) / diagOf posdef F.L 1 := by
      intro j
      rw [backwardValues]
      dsimp only
      rw [if_neg h1, if_pos h2, pivot_div (_ - _) 1, pivot_div (_ - _ - _) 0]
    obtain rfl | rfl : i = 0 ∨ i = 1 := by omega
    · rw [h2, Finset.sum_Ico_succ_top (by decide), Finset.Ico_self, Finset.sum_empty, zero_add,
        hvalue 0, hvalue 1, if_pos rfl, if_neg one_ne_zero]
    · rw [h2, Finset.Ico_self, Finset.sum_empty, sub_zero, hvalue 1, if_neg one_ne_zero]
  -- the rows below the pivots are subtracted first, whichever way the triangle is solved
  · let u : ℕ → K := fun i => if i < F.p then d w i else w i
    have hu : ∀ j < F.p, subDots F u j = d w j - ∑ i ∈ Ico F.p F.f, F.L i j * w i := by
      intro j hj
      rw [subDots_eq]
      congr 1
      · exact if_pos hj
      · refine sum_congr rfl fun i hi => ?_
        rw [show u i = w i from if_neg (not_lt.mpr (Finset.mem_Ico.mp hi).1)]
    have hvalue : ∀ j < F.p, backwardValues posdef d F w j = (subDots F u j -
        ∑ l ∈ Ico (j + 1) F.p, F.L l j * backwardValues posdef d F w l) / diagOf posdef F.L j := by
      rw [backwardValues]
      dsimp only
      rw [if_neg h1, if_neg h2]
      cases hinv : F.inv with
      | some inv => exact inverse_transpose hF hinv
      | none => exact solveLowerTranspose_pivot
    rw [hvalue i hi, hu i hi]
    ring

end Kernels

/-! ## One front -/

/-- On the pivot rows, `d` reads the pivot rows alone. -/
def PivotLocal (p : ℕ) (d : (ℕ → K) → ℕ → K) : Prop :=
  ∀ w w' : ℕ → K, (∀ j < p, w j = w' j) → ∀ i < p, d w i = d w' i

/-- The equations of a front's pivot rows, and nothing else changed. -/
structure BackSolves (posdef : Bool) (d : (ℕ → K) → ℕ → K) (F : Front K) (x z : ℕ → K) : Prop where
  pivot : ∀ i < F.p, z (F.rows i) = backPivot posdef F (d fun j => x (F.rows j))
    (fun j => x (F.rows j)) (fun j => z (F.rows j)) i
  other : ∀ r, (∀ i < F.p, F.rows i ≠ r) → z r = x r

section Front

variable {posdef : Bool} {d : (ℕ → K) → ℕ → K} {F : Front K} {x z z' v w w' : ℕ → K}

/-- Pivots that satisfy the equations are settled from the last to the first. -/
theorem backPivot_unique {w u z y : ℕ → K} (hw : ∀ j, F.p ≤ j → j < F.f → w j = u j)
    (hz : ∀ i < F.p, z i = backPivot posdef F v w z i)
    (hy : ∀ i < F.p, y i = backPivot posdef F v u y i) : ∀ i < F.p, z i = y i := by
  have hback : ∀ n i, i < F.p → F.p - i ≤ n → z i = y i := by
    intro n
    induction n with
    | zero => exact fun i hi hn => by omega
    | succ n ih =>
      intro i hi hn
      have hlater : ∑ j ∈ Ico (i + 1) F.p, F.L j i * z j = ∑ j ∈ Ico (i + 1) F.p,
          F.L j i * y j := by
        refine sum_congr rfl fun j hj => ?_
        obtain ⟨hlo, hhi⟩ := Finset.mem_Ico.mp hj
        rw [ih j hhi (by omega)]
      have hrest : ∑ j ∈ Ico F.p F.f, F.L j i * w j = ∑ j ∈ Ico F.p F.f, F.L j i * u j := by
        refine sum_congr rfl fun j hj => ?_
        obtain ⟨hlo, hhi⟩ := Finset.mem_Ico.mp hj
        rw [hw j hlo hhi]
      rw [hz i hi, hy i hi, backPivot, backPivot, hlater, hrest]
  exact fun i hi => hback _ i hi le_rfl

theorem BackSolves.unique (h : BackSolves posdef d F x z) (h' : BackSolves posdef d F x z') :
    z' = z := by
  funext r
  by_cases hr : ∃ i < F.p, F.rows i = r
  · obtain ⟨i, hi, rfl⟩ := hr
    exact backPivot_unique (z := fun j => z' (F.rows j)) (y := fun j => z (F.rows j))
      (fun _ _ _ => rfl) h'.pivot h.pivot i hi
  · have hno : ∀ i < F.p, F.rows i ≠ r := fun i hi he => hr ⟨i, hi, he⟩
    rw [h.other r hno, h'.other r hno]

/-- Pivots that satisfy the equations, scattered. -/
theorem backSolves_scatter (hF : F.Good posdef)
    (hw : ∀ i < F.p, w i = backPivot posdef F (d fun j => x (F.rows j))
      (fun j => x (F.rows j)) w i) :
    BackSolves posdef d F x (scatter F.rows F.p w x) where
  pivot i hi := by
    have hinj : ∀ a < F.p, ∀ c < F.p, F.rows a = F.rows c → a = c := fun a ha c hc =>
      hF.inj a (ha.trans_le hF.p_le) c (hc.trans_le hF.p_le)
    have hat : ∀ j < F.p, scatter F.rows F.p w x (F.rows j) = w j := fun j hj =>
      scatter_at hinj hj
    have hsum : ∑ j ∈ Ico (i + 1) F.p, F.L j i * scatter F.rows F.p w x (F.rows j) =
        ∑ j ∈ Ico (i + 1) F.p, F.L j i * w j :=
      sum_congr rfl fun j hj => by rw [hat j (Finset.mem_Ico.mp hj).2]
    rw [hat i hi, hw i hi, backPivot, backPivot, hsum]
  other r hr := scatter_other hr

/-- A front solves its equations, whichever kernel its size selects. -/
theorem backwardFront_solves (hF : F.Good posdef) :
    BackSolves posdef d F x (backwardFront posdef d F x) := by
  rw [backwardFront]
  split
  · next hp => exact ⟨fun i hi => absurd hi (by omega), fun _ _ => rfl⟩
  · exact backSolves_scatter hF (backwardValues_pivot hF)

/-- So does a front of a block. -/
theorem backwardFrontBlock_eq (hF : F.Good posdef) :
    backwardFrontBlock posdef d F x = backwardFront posdef d F x := by
  refine (backwardFront_solves hF).unique ?_
  rw [backwardFrontBlock]
  split
  · next hp => exact ⟨fun i hi => absurd hi (by omega), fun _ _ => rfl⟩
  dsimp only
  let w : ℕ → K := fun i => x (F.rows i)
  let u : ℕ → K := fun i => if i < F.p then d w i else w i
  have hu : ∀ j < F.p, subDots F u j = d w j - ∑ i ∈ Ico F.p F.f, F.L i j * w i := by
    intro j hj
    rw [subDots_eq]
    congr 1
    · exact if_pos hj
    · refine sum_congr rfl fun i hi => ?_
      rw [show u i = w i from if_neg (not_lt.mpr (Finset.mem_Ico.mp hi).1)]
  have hsolved : ∀ z : ℕ → K, (∀ i < F.p, z i = (subDots F u i -
      ∑ l ∈ Ico (i + 1) F.p, F.L l i * z l) / diagOf posdef F.L i) →
      BackSolves posdef d F x (scatter F.rows F.p z x) := by
    intro z hz
    refine backSolves_scatter hF fun i hi => ?_
    rw [hz i hi, hu i hi, backPivot]
    ring
  split
  · exact hsolved _ solveLowerTranspose_pivot
  · cases hinv : F.inv with
    | some inv => exact hsolved _ (inverse_transpose hF hinv)
    | none => exact hsolved _ solveLowerTranspose_pivot

end Front

/-! ## All fronts -/

/-- `z` satisfies the equations of the fronts `ks`, and is `x₀` where they have no pivot. -/
structure BackSolution (posdef : Bool) (fr : ℕ → Front K) (d : ℕ → (ℕ → K) → ℕ → K) (ks : List ℕ)
    (x₀ z : ℕ → K) : Prop where
  pivot : ∀ k ∈ ks, ∀ i < (fr k).p, z ((fr k).rows i) =
    backPivot posdef (fr k) (d k fun j => x₀ ((fr k).rows j)) (fun j => z ((fr k).rows j))
      (fun j => z ((fr k).rows j)) i
  other : ∀ r, (∀ k ∈ ks, ∀ i < (fr k).p, (fr k).rows i ≠ r) → z r = x₀ r

section Fronts

variable {posdef : Bool} {fr : ℕ → Front K} {d : ℕ → (ℕ → K) → ℕ → K} {N n : ℕ}
  {x₀ z z' : ℕ → K}

/-- Fronts none of which has a pivot row of one before it, from the last to the first. -/
theorem foldr_solution {ks : List ℕ} (hgood : ∀ k ∈ ks, (fr k).Good posdef)
    (hd : ∀ k ∈ ks, PivotLocal (fr k).p (d k))
    (hlater : ks.Pairwise fun k l =>
      ∀ i < (fr k).p, ∀ j < (fr l).f, (fr l).rows j ≠ (fr k).rows i) :
    BackSolution posdef fr d ks x₀
      (ks.foldr (fun k x => backwardFront posdef (d k) (fr k) x) x₀) := by
  induction ks with
  | nil => exact ⟨fun k hk => absurd hk List.not_mem_nil, fun _ _ => rfl⟩
  | cons k ks ih =>
    obtain ⟨hhead, htail⟩ := List.pairwise_cons.mp hlater
    have hrest := ih (fun l hl => hgood l (List.mem_cons_of_mem k hl))
      (fun l hl => hd l (List.mem_cons_of_mem k hl)) htail
    rw [List.foldr_cons]
    generalize ks.foldr (fun k x => backwardFront posdef (d k) (fr k) x) x₀ = x at hrest
    have hF := hgood k List.mem_cons_self
    have hsolves : BackSolves posdef (d k) (fr k) x (backwardFront posdef (d k) (fr k) x) :=
      backwardFront_solves hF
    generalize backwardFront posdef (d k) (fr k) x = z at hsolves
    -- the fronts behind this one do not see what it writes
    have hkeep : ∀ l ∈ ks, ∀ j < (fr l).f, z ((fr l).rows j) = x ((fr l).rows j) :=
      fun l hl j hj => hsolves.other _ fun i hi he => hhead l hl i hi j hj he.symm
    have hown : ∀ i < (fr k).p, x ((fr k).rows i) = x₀ ((fr k).rows i) := fun i hi =>
      hrest.other _ fun l hl j hj => hhead l hl i hi j
        (hj.trans_le (hgood l (List.mem_cons_of_mem k hl)).p_le)
    refine ⟨fun l hl i hi => ?_, fun r hr => ?_⟩
    · rcases List.mem_cons.mp hl with rfl | hl
      · have hext : ∀ j ∈ Ico (fr l).p (fr l).f, z ((fr l).rows j) = x ((fr l).rows j) := by
          intro j hj
          obtain ⟨hlo, hhi⟩ := Finset.mem_Ico.mp hj
          refine hsolves.other _ fun a ha he => ?_
          exact (ha.trans_le hlo).ne (hF.inj a (ha.trans_le hF.p_le) j hhi he)
        rw [hsolves.pivot i hi, backPivot, backPivot,
          hd l List.mem_cons_self _ (fun j => x₀ ((fr l).rows j)) hown i hi]
        congr 2
        exact sum_congr rfl fun j hj => by rw [hext j hj]
      · have hl' := List.mem_cons_of_mem k hl
        have hp := (hgood l hl').p_le
        rw [hkeep l hl i (hi.trans_le hp), hrest.pivot l hl i hi, backPivot, backPivot]
        have hlate : ∑ j ∈ Ico (i + 1) (fr l).p, (fr l).L j i * x ((fr l).rows j) =
            ∑ j ∈ Ico (i + 1) (fr l).p, (fr l).L j i * z ((fr l).rows j) :=
          sum_congr rfl fun j hj => by
            rw [hkeep l hl j ((Finset.mem_Ico.mp hj).2.trans_le hp)]
        have hext : ∑ j ∈ Ico (fr l).p (fr l).f, (fr l).L j i * x ((fr l).rows j) =
            ∑ j ∈ Ico (fr l).p (fr l).f, (fr l).L j i * z ((fr l).rows j) :=
          sum_congr rfl fun j hj => by rw [hkeep l hl j (Finset.mem_Ico.mp hj).2]
        rw [hlate, hext]
    · rw [hsolves.other r (hr k List.mem_cons_self)]
      exact hrest.other r fun l hl => hr l (List.mem_cons_of_mem k hl)

/-- The fronts of the steps, with the facts that the sweeps use. -/
structure Steps (posdef : Bool) (fr : ℕ → Front K) (N : ℕ) : Prop where
  good : ∀ k < N, (fr k).Good posdef
  later : ∀ k k', k < k' → k' < N → ∀ i < (fr k).p, ∀ j < (fr k').f,
    (fr k').rows j ≠ (fr k).rows i

theorem WellOrdered.steps (h : WellOrdered posdef n ((List.range N).map fr)) :
    Steps posdef fr N where
  good k hk := h.good _ (List.mem_map_of_mem (List.mem_range.mpr hk))
  later k k' hkk' hk' i hi j hj := by
    have hpair := List.pairwise_iff_getElem.mp h.later k k'
      (by simpa using hkk'.trans hk') (by simpa using hk') hkk'
    simp only [List.getElem_map, List.getElem_range] at hpair
    exact hpair i hi j hj

namespace Steps

/-- A row is a pivot of one front at most, and at one place. -/
theorem pivot_unique (h : Steps posdef fr N) {k k' i j : ℕ} (hk : k < N) (hk' : k' < N)
    (hi : i < (fr k).p) (hj : j < (fr k').p) (he : (fr k).rows i = (fr k').rows j) :
    k = k' ∧ i = j := by
  rcases Nat.lt_trichotomy k k' with hlt | rfl | hlt
  · exact absurd he.symm (h.later k k' hlt hk' i hi j (hj.trans_le (h.good k' hk').p_le))
  · have hp := (h.good k hk).p_le
    exact ⟨rfl, (h.good k hk).inj i (hi.trans_le hp) j (hj.trans_le hp) he⟩
  · exact absurd he (h.later k' k hlt hk j hj i (hi.trans_le (h.good k hk).p_le))

/-- The front that pivots an extended row of another stands behind it. -/
theorem lt_of_extended (h : Steps posdef fr N) {k k' a l : ℕ} (hk : k < N)
    (ha : a < (fr k').p) (hlo : (fr k).p ≤ l) (hl : l < (fr k).f)
    (he : (fr k').rows a = (fr k).rows l) : k < k' := by
  rcases Nat.lt_trichotomy k k' with hlt | rfl | hlt
  · exact hlt
  · have hF := h.good k hk
    exact absurd (hF.inj a (ha.trans_le hF.p_le) l hl he) (ha.trans_le hlo).ne
  · exact absurd he.symm (h.later k' k hlt hk a ha l hl)

end Steps

theorem BackSolution.unique (hs : Steps posdef fr N)
    (h : BackSolution posdef fr d (List.range N) x₀ z)
    (h' : BackSolution posdef fr d (List.range N) x₀ z') : z' = z := by
  -- from the last front to the first
  have hpivots : ∀ m k, k < N → N - k ≤ m → ∀ i < (fr k).p,
      z' ((fr k).rows i) = z ((fr k).rows i) := by
    intro m
    induction m with
    | zero => exact fun k hk hm => by omega
    | succ m ih =>
      intro k hk hm
      refine backPivot_unique (z := fun j => z' ((fr k).rows j)) (y := fun j => z ((fr k).rows j))
        (fun l hlo hl => ?_) (h'.pivot k (List.mem_range.mpr hk))
          (h.pivot k (List.mem_range.mpr hk))
      -- an extended row is a pivot of a later front, or of none
      by_cases hrow : ∃ k' < N, ∃ a < (fr k').p, (fr k').rows a = (fr k).rows l
      · obtain ⟨k', hk', a, ha, he⟩ := hrow
        have hlt := hs.lt_of_extended hk ha hlo hl he
        show z' ((fr k).rows l) = z ((fr k).rows l)
        rw [← he]
        exact ih k' hk' (by omega) a ha
      · have hno : ∀ k' ∈ List.range N, ∀ a < (fr k').p, (fr k').rows a ≠ (fr k).rows l :=
          fun k' hk' a ha he => hrow ⟨k', List.mem_range.mp hk', a, ha, he⟩
        exact (h'.other _ hno).trans (h.other _ hno).symm
  funext r
  by_cases hr : ∃ k < N, ∃ i < (fr k).p, (fr k).rows i = r
  · obtain ⟨k, hk, i, hi, rfl⟩ := hr
    exact hpivots _ k hk le_rfl i hi
  · have hno : ∀ k ∈ List.range N, ∀ i < (fr k).p, (fr k).rows i ≠ r := fun k hk i hi he =>
      hr ⟨k, List.mem_range.mp hk, i, hi, he⟩
    exact (h'.other r hno).trans (h.other r hno).symm

end Fronts

/-! ## The sweep -/

/-- The first `stage k` stores of front `k` are done, and everything else is as it was. -/
structure Holds (fr : ℕ → Front K) (N : ℕ) (x₀ z : ℕ → K) (stage : ℕ → ℕ) (x : ℕ → K) : Prop where
  stored : ∀ k < N, ∀ i < (fr k).p, i < stage k →
    x ((fr k).rows (storeOrder (fr k).p i)) = z ((fr k).rows (storeOrder (fr k).p i))
  kept : ∀ k < N, ∀ i < (fr k).p, stage k ≤ i →
    x ((fr k).rows (storeOrder (fr k).p i)) = x₀ ((fr k).rows (storeOrder (fr k).p i))
  other : ∀ r, (∀ k < N, ∀ i < (fr k).p, (fr k).rows i ≠ r) → x r = x₀ r

/-- The fronts that pivot the extended rows of front `k` are done. -/
def BackReady (fr : ℕ → Front K) (N : ℕ) (stage : ℕ → ℕ) (k : ℕ) : Prop :=
  ∀ l, (fr k).p ≤ l → l < (fr k).f → ∀ k' < N, ∀ a < (fr k').p,
    (fr k').rows a = (fr k).rows l → (fr k').p ≤ stage k'

/-- What a thread has in hand while it is in front `k`. -/
def InFront (fr : ℕ → Front K) (N : ℕ) (x₀ z : ℕ → K) (stage : ℕ → ℕ) (k : ℕ) : BackWork K → Prop
  | .idle => (fr k).p = 0 ∧ stage k = 0
  | .gather k' i b => k' = k ∧ 0 < (fr k).p ∧ stage k = 0 ∧ i ≤ (fr k).f ∧ BackReady fr N stage k ∧
      (∀ l < i, l < (fr k).p → b l = x₀ ((fr k).rows l)) ∧
      ∀ l < i, (fr k).p ≤ l → b l = z ((fr k).rows l)
  | .store k' i w => k' = k ∧ 0 < (fr k).p ∧ stage k = i ∧ i ≤ (fr k).p ∧
      BackReady fr N stage k ∧ ∀ l < (fr k).p, w l = z ((fr k).rows l)

theorem storeOrder_lt {p i : ℕ} (hi : i < p) : storeOrder p i < p := by
  rw [storeOrder]
  split <;> omega

theorem storeOrder_inj {p i j : ℕ} (hi : i < p) (hj : j < p)
    (h : storeOrder p i = storeOrder p j) : i = j := by
  unfold storeOrder at h
  split at h <;> omega

theorem storeOrder_storeOrder {p i : ℕ} (hi : i < p) : storeOrder p (storeOrder p i) = i := by
  unfold storeOrder
  split <;> omega

section Phase

variable {posdef : Bool} {fr : ℕ → Front K} {d : ℕ → (ℕ → K) → ℕ → K} {N : ℕ} {x₀ z x : ℕ → K}
  {stage stage' : ℕ → ℕ} {k i : ℕ} {a a' : BackWork K}

omit [Field K] in
/-- A pivot row of a front that is not begun. -/
theorem Holds.kept_row (h : Holds fr N x₀ z stage x) (hk : k < N) (h0 : stage k = 0)
    (hi : i < (fr k).p) : x ((fr k).rows i) = x₀ ((fr k).rows i) := by
  have hrow := h.kept k hk (storeOrder (fr k).p i) (storeOrder_lt hi) (h0 ▸ Nat.zero_le _)
  rwa [storeOrder_storeOrder hi] at hrow

omit [Field K] in
/-- A pivot row of a front that is done. -/
theorem Holds.stored_row (h : Holds fr N x₀ z stage x) (hk : k < N) (hdone : (fr k).p ≤ stage k)
    (hi : i < (fr k).p) : x ((fr k).rows i) = z ((fr k).rows i) := by
  have hrow := h.stored k hk (storeOrder (fr k).p i) (storeOrder_lt hi)
    ((storeOrder_lt hi).trans_le hdone)
  rwa [storeOrder_storeOrder hi] at hrow

/-- An extended row of a front that is ready. -/
theorem Holds.extended_row (h : Holds fr N x₀ z stage x)
    (hz : BackSolution posdef fr d (List.range N) x₀ z) (hready : BackReady fr N stage k)
    (hlo : (fr k).p ≤ i) (hi : i < (fr k).f) : x ((fr k).rows i) = z ((fr k).rows i) := by
  by_cases hrow : ∃ k' < N, ∃ b < (fr k').p, (fr k').rows b = (fr k).rows i
  · obtain ⟨k', hk', b, hb, he⟩ := hrow
    rw [← he]
    exact h.stored_row hk' (hready i hlo hi k' hk' b hb he) hb
  · have hno : ∀ k' < N, ∀ b < (fr k').p, (fr k').rows b ≠ (fr k).rows i :=
      fun k' hk' b hb he => hrow ⟨k', hk', b, hb, he⟩
    rw [h.other _ hno]
    exact (hz.other _ fun k' hk' => hno k' (List.mem_range.mp hk')).symm

/-- One more store. -/
theorem Holds.store (h : Holds fr N x₀ z stage x) (hs : Steps posdef fr N) (hk : k < N)
    (hi : i < (fr k).p) (hstage : stage k = i) {v : K}
    (hv : v = z ((fr k).rows (storeOrder (fr k).p i))) :
    Holds fr N x₀ z (Function.update stage k (i + 1))
      (Function.update x ((fr k).rows (storeOrder (fr k).p i)) v) := by
  -- another pivot is in another row
  have hne : ∀ k' < N, ∀ j < (fr k').p, ¬(k' = k ∧ j = i) →
      (fr k').rows (storeOrder (fr k').p j) ≠ (fr k).rows (storeOrder (fr k).p i) := by
    intro k' hk' j hj hno he
    obtain ⟨rfl, he⟩ := hs.pivot_unique hk' hk (storeOrder_lt hj) (storeOrder_lt hi) he
    exact hno ⟨rfl, storeOrder_inj hj hi he⟩
  refine ⟨fun k' hk' j hj hlt => ?_, fun k' hk' j hj hle => ?_, fun r hr => ?_⟩
  · by_cases hthis : k' = k ∧ j = i
    · obtain ⟨rfl, rfl⟩ := hthis
      rw [Function.update_self, hv]
    · rw [Function.update_of_ne (hne k' hk' j hj hthis)]
      apply h.stored k' hk' j hj
      by_cases hkk : k' = k
      · subst hkk
        have hji : j ≠ i := fun hji => hthis ⟨rfl, hji⟩
        rw [Function.update_self] at hlt
        omega
      · rwa [Function.update_of_ne hkk] at hlt
  · have hthis : ¬(k' = k ∧ j = i) := by
      rintro ⟨rfl, rfl⟩
      rw [Function.update_self] at hle
      omega
    rw [Function.update_of_ne (hne k' hk' j hj hthis)]
    apply h.kept k' hk' j hj
    by_cases hkk : k' = k
    · subst hkk
      rw [Function.update_self] at hle
      omega
    · rwa [Function.update_of_ne hkk] at hle
  · rw [Function.update_of_ne (hr k hk _ (storeOrder_lt hi)).symm]
    exact h.other r hr

omit [Field K] in
theorem BackReady.mono (h : BackReady fr N stage k) (hle : ∀ k, stage k ≤ stage' k) :
    BackReady fr N stage' k :=
  fun l hlo hl k' hk' b hb he => (h l hlo hl k' hk' b hb he).trans (hle k')

omit [Field K] in
theorem InFront.mono (h : InFront fr N x₀ z stage k a) (hle : ∀ k, stage k ≤ stage' k)
    (hk : stage' k = stage k) : InFront fr N x₀ z stage' k a := by
  cases a with
  | idle => exact ⟨h.1, hk.trans h.2⟩
  | gather k' i b =>
    obtain ⟨he, hp, h0, hi, hready, hb⟩ := h
    exact ⟨he, hp, hk.trans h0, hi, hready.mono hle, hb⟩
  | store k' i w =>
    obtain ⟨he, hp, h0, hi, hready, hw⟩ := h
    exact ⟨he, hp, hk.trans h0, hi, hready.mono hle, hw⟩

/-- One access of a thread in front `k`. -/
theorem Holds.access (h : Holds fr N x₀ z stage x) (hs : Steps posdef fr N)
    (hz : BackSolution posdef fr d (List.range N) x₀ z) (hd : PivotLocal (fr k).p (d k))
    (hk : k < N) (hin : InFront fr N x₀ z stage k a) {x' : ℕ → K}
    (ha : BackAccess posdef fr d x a x' a') : ∃ n, stage k ≤ n ∧
      Holds fr N x₀ z (Function.update stage k n) x' ∧
      InFront fr N x₀ z (Function.update stage k n) k a' := by
  have hsame : Function.update stage k (stage k) = stage := Function.update_eq_self k stage
  cases ha with
  | @read k' i b hi =>
    obtain ⟨rfl, hp, h0, hle, hready, hpivots, hrest⟩ := hin
    refine ⟨stage k', le_rfl, hsame.symm ▸ h, ?_⟩
    rw [hsame]
    refine ⟨rfl, hp, h0, hi, hready, fun l hl hlp => ?_, fun l hl hlp => ?_⟩
    · by_cases hli : l = i
      · rw [hli, Function.update_self]
        exact h.kept_row hk h0 (hli ▸ hlp)
      · rw [Function.update_of_ne hli]
        exact hpivots l (by omega) hlp
    · by_cases hli : l = i
      · rw [hli, Function.update_self]
        exact h.extended_row hz hready (hli ▸ hlp) hi
      · rw [Function.update_of_ne hli]
        exact hrest l (by omega) hlp
  | @solve k' b =>
    -- what is gathered is old in the pivot rows and final in the others: the equations settle it
    obtain ⟨rfl, hp, h0, hle, hready, hpivots, hrest⟩ := hin
    have hF := hs.good k' hk
    refine ⟨stage k', le_rfl, hsame.symm ▸ h, ?_⟩
    rw [hsame]
    refine ⟨rfl, hp, h0, Nat.zero_le _, hready, ?_⟩
    have hdiag : ∀ i < (fr k').p, d k' b i = d k' (fun j => x₀ ((fr k').rows j)) i :=
      hd _ _ fun j hj => hpivots j (hj.trans_le hF.p_le) hj
    refine backPivot_unique (F := fr k') (w := b) (u := fun j => z ((fr k').rows j))
      (y := fun j => z ((fr k').rows j)) (fun j hlo hj => hrest j hj hlo) (fun i hi => ?_)
      (hz.pivot k' (List.mem_range.mpr hk))
    rw [backwardValues_pivot hF i hi, backPivot, backPivot, hdiag i hi]
  | @store k' i w hi =>
    obtain ⟨rfl, hp, hstage, hle, hready, hw⟩ := hin
    have hmono : ∀ l, stage l ≤ Function.update stage k' (i + 1) l := by
      intro l
      by_cases hl : l = k'
      · subst hl
        rw [Function.update_self, hstage]
        exact Nat.le_succ i
      · rw [Function.update_of_ne hl]
    refine ⟨i + 1, hstage ▸ Nat.le_succ _, h.store hs hk hi hstage (hw _ (storeOrder_lt hi)), ?_⟩
    exact ⟨rfl, hp, Function.update_self .., hi, hready.mono hmono, hw⟩

variable {ι : Type*} {T : ℕ} {step : ι → ℕ} {Item : ι → Prop} {stage₀ : ℕ → ℕ}
  {st : ι → Status T} {work : Fin T → BackWork K}

variable (fr N x₀ z step Item stage₀) in
/-- The fronts of fresh items are as they were, those of done items are done, and a thread
    is in the front of its item. -/
structure BackInv (st : ι → Status T) (x : ℕ → K) (work : Fin T → BackWork K) (stage : ℕ → ℕ) :
    Prop where
  holds : Holds fr N x₀ z stage x
  item : ∀ i, st i ≠ .fresh → Item i
  fresh : ∀ i, Item i → st i = .fresh → stage (step i) = 0
  running : ∀ i t, st i = .running t → InFront fr N x₀ z stage (step i) (work t)
  done : ∀ i, st i = .done → stage (step i) = (fr (step i)).p
  rest : ∀ k, (∀ i, Item i → step i ≠ k) → stage k = stage₀ k

section Phase

variable [DecidableEq ι]

omit [Field K] in
theorem BackInv.enter (h : BackInv fr N x₀ z step Item stage₀ st x work stage) {i : ι} {t : Fin T}
    (hi : Item i) (hfresh : st i = .fresh) (hnone : ∀ j, st j ≠ .running t)
    (hready : BackReady fr N stage (step i)) {a : BackWork K}
    (ha : if (fr (step i)).p = 0 then a = .idle else ∃ b, a = .gather (step i) 0 b) :
    BackInv fr N x₀ z step Item stage₀ (Function.update st i (.running t)) x
      (Function.update work t a) stage := by
  -- only `i` changes its status; the other items are read off `h`
  have h0 := h.fresh i hi hfresh
  refine ⟨h.holds, fun j hj => ?_, fun j hj hjf => ?_, fun j u hju => ?_, fun j hj => ?_, h.rest⟩
  · by_cases hji : j = i
    · exact hji ▸ hi
    · rw [Function.update_of_ne hji] at hj
      exact h.item j hj
  · by_cases hji : j = i
    · exact hji ▸ h0
    · rw [Function.update_of_ne hji] at hjf
      exact h.fresh j hj hjf
  · by_cases hji : j = i
    · subst hji
      rw [Function.update_self] at hju
      obtain rfl := Status.running.inj hju
      rw [Function.update_self]
      split at ha
      · next hp =>
        subst ha
        exact ⟨hp, h0⟩
      · next hp =>
        obtain ⟨b, rfl⟩ := ha
        exact ⟨rfl, Nat.pos_of_ne_zero hp, h0, Nat.zero_le _, hready,
          fun l hl => absurd hl (Nat.not_lt_zero l), fun l hl => absurd hl (Nat.not_lt_zero l)⟩
    · rw [Function.update_of_ne hji] at hju
      have hut : u ≠ t := by
        rintro rfl
        exact hnone j hju
      rw [Function.update_of_ne hut]
      exact h.running j u hju
  · by_cases hji : j = i
    · subst hji
      rw [Function.update_self] at hj
      cases hj
    · rw [Function.update_of_ne hji] at hj
      exact h.done j hj

omit [DecidableEq ι] in
theorem BackInv.access (h : BackInv fr N x₀ z step Item stage₀ st x work stage)
    (hs : Steps posdef fr N) (hz : BackSolution posdef fr d (List.range N) x₀ z)
    (hd : ∀ k < N, PivotLocal (fr k).p (d k)) (hN : ∀ i, Item i → step i < N)
    (hinj : Function.Injective step) {i : ι} {t : Fin T} (hi : st i = .running t)
    (halone : ∀ j, st j = .running t → j = i) {x' : ℕ → K} {a : BackWork K}
    (ha : BackAccess posdef fr d x (work t) x' a) : ∃ stage',
      BackInv fr N x₀ z step Item stage₀ st x' (Function.update work t a) stage' := by
  have hitem : Item i := h.item i fun hc => by rw [hi] at hc; cases hc
  have hk := hN i hitem
  obtain ⟨n, hn, hholds, hin⟩ := h.holds.access hs hz (hd _ hk) hk (h.running i t hi) ha
  -- an access moves the stage of its own front alone, and upwards
  have hother : ∀ j, j ≠ i → Function.update stage (step i) n (step j) = stage (step j) :=
    fun j hj => Function.update_of_ne (fun hc => hj (hinj hc)) ..
  have hmono : ∀ k, stage k ≤ Function.update stage (step i) n k := by
    intro k
    by_cases hki : k = step i
    · rw [hki, Function.update_self]
      exact hn
    · rw [Function.update_of_ne hki]
  refine ⟨_, hholds, h.item, fun j hj hjf => ?_, fun j u hju => ?_, fun j hj => ?_, fun k hk => ?_⟩
  · rw [hother j fun hc => by rw [hc, hi] at hjf; cases hjf]
    exact h.fresh j hj hjf
  · by_cases hji : j = i
    · subst hji
      obtain rfl := Status.running.inj (hi.symm.trans hju)
      rw [Function.update_self]
      exact hin
    · have hut : u ≠ t := by
        rintro rfl
        exact hji (halone j hju)
      rw [Function.update_of_ne hut]
      exact (h.running j u hju).mono hmono (hother j hji)
  · rw [hother j fun hc => by rw [hc, hi] at hj; cases hj]
    exact h.done j hj
  · rw [Function.update_of_ne (hk i hitem).symm]
    exact h.rest k hk

omit [Field K] in
theorem BackInv.leave (h : BackInv fr N x₀ z step Item stage₀ st x work stage) {i : ι} {t : Fin T}
    (hi : st i = .running t) (halone : ∀ j, st j = .running t → j = i)
    (hw : (fr (step i)).p = 0 ∨ ∃ w, work t = .store (step i) (fr (step i)).p w) :
    BackInv fr N x₀ z step Item stage₀ (Function.update st i .done) x
      (Function.update work t .idle) stage := by
  have hin := h.running i t hi
  -- a front without pivots has nothing to store
  have hstage : stage (step i) = (fr (step i)).p := by
    rcases hw with hp | ⟨w, hw⟩
    · cases hwork : work t with
      | idle =>
        rw [hwork] at hin
        exact hin.2.trans hp.symm
      | gather k j b =>
        rw [hwork] at hin
        exact absurd hin.2.1 (by omega)
      | store k j w =>
        rw [hwork] at hin
        exact absurd hin.2.1 (by omega)
    · rw [hw] at hin
      exact hin.2.2.1
  refine ⟨h.holds, fun j hj => ?_, fun j hj hjf => ?_, fun j u hju => ?_, fun j hj => ?_, h.rest⟩
  · by_cases hji : j = i
    · subst hji
      exact h.item j fun hc => by rw [hi] at hc; cases hc
    · rw [Function.update_of_ne hji] at hj
      exact h.item j hj
  · have hji : j ≠ i := by
      rintro rfl
      rw [Function.update_self] at hjf
      cases hjf
    rw [Function.update_of_ne hji] at hjf
    exact h.fresh j hj hjf
  · have hji : j ≠ i := by
      rintro rfl
      rw [Function.update_self] at hju
      cases hju
    rw [Function.update_of_ne hji] at hju
    have hut : u ≠ t := by
      rintro rfl
      exact hji (halone j hju)
    rw [Function.update_of_ne hut]
    exact h.running j u hju
  · by_cases hji : j = i
    · exact hji ▸ hstage
    · rw [Function.update_of_ne hji] at hj
      exact h.done j hj

variable {S E : Type} {P : Schedule ι T S E} {waits : ι → ι → Prop} {Exited : S → Prop}

/-- Threads that run the fronts of some items, each after those that pivot its extended
    rows: these fronts are done, and the others are as they were. -/
theorem backPhase (hs : Steps posdef fr N) (hz : BackSolution posdef fr d (List.range N) x₀ z)
    (hd : ∀ k < N, PivotLocal (fr k).p (d k)) (hP : P.Lawful waits Item Exited)
    (hN : ∀ i, Item i → step i < N) (hinj : Function.Injective step)
    (hfresh : ∀ i, Item i → stage₀ (step i) = 0)
    (hready : ∀ i, Item i → ∀ l, (fr (step i)).p ≤ l → l < (fr (step i)).f → ∀ k < N,
      ∀ a < (fr k).p, (fr k).rows a = (fr (step i)).rows l →
        (∀ j, Item j → step j ≠ k) ∧ (fr k).p ≤ stage₀ k ∨
          ∃ j, step j = k ∧ Relation.TransGen waits j i)
    (hx : Holds fr N x₀ z stage₀ x) {tr : List (Option E)} {s : Busy S (ℕ → K) (BackWork K) T}
    (h : ((backTask posdef fr d T step).system P x).Run tr s) (hexit : Exited s.sched) :
    ∃ stage, Holds fr N x₀ z stage s.mem ∧
      (∀ i, Item i → stage (step i) = (fr (step i)).p) ∧
      ∀ k, (∀ i, Item i → step i ≠ k) → stage k = stage₀ k := by
  -- `BackInv` holds at every state the threads reach; what is left are its three steps
  have hsound := Task.sound
    (J := fun st x work => ∃ stage, BackInv fr N x₀ z step Item stage₀ st x work stage)
    hP ⟨stage₀, hx, fun _ hc => absurd rfl hc, fun i hi _ => hfresh i hi,
      fun _ _ hc => (by cases hc), fun _ hc => (by cases hc), fun _ _ => rfl⟩
    (fun {st x work t i a} hJ hi hst hwaits hnone ha => by
      obtain ⟨stage, hinv⟩ := hJ
      refine ⟨stage, hinv.enter hi hst hnone (fun l hlo hl k hk b hb he => ?_) ha⟩
      -- the front that pivots the row is done before the phase or waited for in it
      rcases hready i hi l hlo hl k hk b hb he with ⟨hno, hle⟩ | ⟨j, rfl, hj⟩
      · exact (hinv.rest k hno).symm ▸ hle
      · exact (hinv.done j (hwaits j hj)).ge)
    (fun {st x work t i x' a} hJ hi halone ha => by
      obtain ⟨stage, hinv⟩ := hJ
      exact hinv.access hs hz hd hN hinj hi halone ha)
    (fun {st x work t i} hJ hi halone hw => by
      obtain ⟨stage, hinv⟩ := hJ
      exact ⟨stage, hinv.leave hi halone hw⟩) h hexit
  obtain ⟨st, ⟨stage, hinv⟩, hdone⟩ := hsound
  exact ⟨stage, hinv.holds, fun i hi => hinv.done i (hdone i hi), hinv.rest⟩

end Phase

end Phase

end Solve
end SmfSolver
