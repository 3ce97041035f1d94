/-
  SmfSolver.Solve.SolveSystem

  What the whole solve of solve.cpp computes: the solution of the system whose matrix is
  `L D L^T`, with `L` and `D` as the fronts hold them.

  1. `colSum_pivot`: a column of `L` is in the front that pivots its row.
  2. `diagSum_solveDiag`: `D` times what `D^-1` leaves.
  3. `solveFull_solves`: Full solves the permuted and scaled system.
-/
import SmfSolver.Solve.SolveJobs

namespace SmfSolver
namespace Solve

open Kernel (solve2x2Scaled solve2x2Scaled_eq inverse2x2_eq)
open Finset (range Ico sum_congr sum_range_succ)

variable {K : Type*} [Field K] [LinearOrder K]

/-! ## Definitions -/

/-- Row `c` of `L^T z`. -/
def colSum (posdef : Bool) (Fs : List (Front K)) (n : ℕ) (z : ℕ → K) (c : ℕ) : K :=
  ∑ r ∈ range n, entry posdef Fs r c * z r

/-- Row `i` of a front's pivot blocks times `v`. -/
def blockMul (L : ℕ → ℕ → K) (p : ℕ) (v : ℕ → K) (i : ℕ) : K :=
  if opens L p i then L i i * v i + L i (i + 1) * v (i + 1)
  else if closes L p i then L (i - 1) i * v (i - 1) + L i i * v i
  else L i i * v i

/-- Row `r` of `D v`.  A positive definite factor has no `D`. -/
def diagSum (posdef : Bool) (Fs : List (Front K)) (v : ℕ → K) (r : ℕ) : K :=
  if posdef then v r
  else (Fs.map fun F => ∑ i ∈ range F.p,
    if F.rows i = r then blockMul F.L F.p (fun j => v (F.rows j)) i else 0).sum

/-- `L D L^T z`. -/
def SolveKeep.product (fk : SolveKeep K) (z : ℕ → K) : ℕ → K :=
  let Fs := (List.range fk.solveSteps.length).map fk.front
  rowSum fk.isPosdef Fs (diagSum fk.isPosdef Fs (colSum fk.isPosdef Fs fk.n z))

/-- No pivot block is singular. -/
def RegularBlocks (L : ℕ → ℕ → K) (p : ℕ) : Prop :=
  ∀ i < p, (opens L p i = true → L i i * L (i + 1) (i + 1) - L i (i + 1) * L i (i + 1) ≠ 0) ∧
    (opens L p i = false → closes L p i = false → L i i ≠ 0)

/-- A factor with its pivot blocks in the fronts, none of them singular, and a scaling that can
    be undone. -/
structure SolveKeep.Nonsingular (fk : SolveKeep K) : Prop where
  inFronts : fk.isPosdef = false → fk.appliesDiag = true
  blocks : fk.isPosdef = false → ∀ k < fk.solveSteps.length,
    RegularBlocks (fk.front k).L (fk.front k).p
  scale_ne : ∀ i < fk.n, fk.scaleAt i ≠ 0

/-! ## The columns of L -/

section Columns

variable {posdef : Bool} {F : Front K} {fr : ℕ → Front K} {d : ℕ → (ℕ → K) → ℕ → K}
  {N n k i r c : ℕ} {x₀ z z' : ℕ → K}

omit [LinearOrder K] in
theorem colSum_congr {Fs : List (Front K)} (h : ∀ r < n, z r = z' r) :
    colSum posdef Fs n z c = colSum posdef Fs n z' c := by
  rw [colSum, colSum]
  exact sum_congr rfl fun r hr => by rw [h r (Finset.mem_range.mp hr)]

omit [LinearOrder K] in
/-- A front that does not pivot row `c` holds nothing of column `c`. -/
theorem Front.entry_other (h : ∀ j < F.p, F.rows j ≠ c) : F.entry posdef r c = 0 := by
  rw [Front.entry, Front.row]
  refine Finset.sum_eq_zero fun a _ => ?_
  split
  · refine Finset.sum_eq_zero fun j hj => ?_
    rw [if_neg (h j (Finset.mem_range.mp hj)), mul_zero]
  · rfl

omit [LinearOrder K] in
theorem Front.entry_pivot (hF : F.Good posdef) (hi : i < F.p) : F.entry posdef r (F.rows i) =
    ∑ a ∈ range F.f, if F.rows a = r then F.coef posdef a i else 0 := by
  rw [Front.entry, Front.row]
  refine sum_congr rfl fun a _ => if_congr Iff.rfl ?_ rfl
  have hone : ∀ j ∈ range F.p, j ≠ i →
      F.coef posdef a j * (if F.rows j = F.rows i then 1 else 0) = 0 := fun j hj hne => by
    have hlt := Finset.mem_range.mp hj
    rw [if_neg fun he => hne (hF.inj j (hlt.trans_le hF.p_le) i (hi.trans_le hF.p_le) he),
      mul_zero]
  rw [Finset.sum_eq_single i hone fun hno => absurd (Finset.mem_range.mpr hi) hno, if_pos rfl,
    mul_one]

omit [LinearOrder K] in
/-- The other fronts hold nothing of a front's columns. -/
theorem entry_pivot (hs : Steps posdef fr N) (hk : k < N) (hi : i < (fr k).p) :
    entry posdef ((List.range N).map fr) r ((fr k).rows i) =
      (fr k).entry posdef r ((fr k).rows i) := by
  show rowSum posdef ((List.range N).map fr) (fun q => if q = (fr k).rows i then 1 else 0) r = _
  rw [Solution.rowSum_eq]
  refine Finset.sum_eq_single k (fun l hl hne => Front.entry_other fun j hj he => hne ?_)
    fun hno => absurd (Finset.mem_range.mpr hk) hno
  exact (hs.pivot_unique (Finset.mem_range.mp hl) hk hj hi he).1

omit [LinearOrder K] in
/-- A column of `L`: the diagonal, the later pivots and the extended rows of its front. -/
theorem colSum_pivot (hs : Steps posdef fr N) (hn : ∀ j < (fr k).f, (fr k).rows j < n)
    (hk : k < N) (hi : i < (fr k).p) :
    colSum posdef ((List.range N).map fr) n z ((fr k).rows i) =
      diagOf posdef (fr k).L i * z ((fr k).rows i) +
        ∑ j ∈ Ico (i + 1) (fr k).p, (fr k).L j i * z ((fr k).rows j) +
        ∑ j ∈ Ico (fr k).p (fr k).f, (fr k).L j i * z ((fr k).rows j) := by
  have hF := hs.good k hk
  have hcolumn : colSum posdef ((List.range N).map fr) n z ((fr k).rows i) =
      ∑ a ∈ range (fr k).f, (fr k).coef posdef a i * z ((fr k).rows a) := by
    calc colSum posdef ((List.range N).map fr) n z ((fr k).rows i)
        = ∑ r ∈ range n, ∑ a ∈ range (fr k).f,
            if (fr k).rows a = r then (fr k).coef posdef a i * z r else 0 := by
          refine sum_congr rfl fun r _ => ?_
          rw [entry_pivot hs hk hi, Front.entry_pivot hF hi, Finset.sum_mul]
          exact sum_congr rfl fun a _ => by rw [ite_mul, zero_mul]
      _ = ∑ a ∈ range (fr k).f, (fr k).coef posdef a i * z ((fr k).rows a) := by
          rw [Finset.sum_comm]
          refine sum_congr rfl fun a ha => ?_
          rw [Finset.sum_ite_eq, if_pos (Finset.mem_range.mpr (hn a (Finset.mem_range.mp ha)))]
  -- nothing above the diagonal
  have hbefore : ∑ a ∈ range i, (fr k).coef posdef a i * z ((fr k).rows a) = 0 := by
    refine Finset.sum_eq_zero fun a ha => ?_
    have hlt : a < i := Finset.mem_range.mp ha
    rw [Front.coef, if_neg hlt.ne, if_neg (not_lt.mpr hlt.le), zero_mul]
  have hafter : ∀ a b, i < a → ∑ j ∈ Ico a b, (fr k).coef posdef j i * z ((fr k).rows j) =
      ∑ j ∈ Ico a b, (fr k).L j i * z ((fr k).rows j) := by
    intro a b ha
    refine sum_congr rfl fun j hj => ?_
    have hlt : i < j := ha.trans_le (Finset.mem_Ico.mp hj).1
    rw [Front.coef, if_neg hlt.ne', if_pos hlt]
  rw [hcolumn, ← Finset.sum_range_add_sum_Ico _ hF.p_le,
    ← Finset.sum_range_add_sum_Ico _ (Nat.succ_le_of_lt hi), sum_range_succ, hbefore, zero_add,
    hafter _ _ (Nat.lt_succ_self i), hafter _ _ hi, Front.coef, if_pos rfl]

omit [LinearOrder K] in
/-- The fronts' equations are those of `L^T`. -/
theorem BackSolution.colSum_eq (hs : Steps posdef fr N)
    (hn : ∀ k < N, ∀ j < (fr k).f, (fr k).rows j < n)
    (h : BackSolution posdef fr d (List.range N) x₀ z) (hk : k < N) (hi : i < (fr k).p) :
    colSum posdef ((List.range N).map fr) n z ((fr k).rows i) =
      d k (fun j => x₀ ((fr k).rows j)) i := by
  have hpivot := h.pivot k (List.mem_range.mpr hk) i hi
  rw [backPivot, eq_div_iff ((hs.good k hk).diag_ne i hi)] at hpivot
  rw [colSum_pivot hs (hn k hk) hk hi, mul_comm (diagOf posdef (fr k).L i), hpivot]
  ring

end Columns

/-! ## The blocks of D -/

section Blocks

variable {L : ℕ → ℕ → K} {p i : ℕ} {v w : ℕ → K}

theorem blockMul_congr (h : ∀ j < p, v j = w j) (hi : i < p) :
    blockMul L p v i = blockMul L p w i := by
  rw [blockMul, blockMul]
  split_ifs with ho hc
  · rw [h i hi, h _ (opens_lt ho)]
  · rw [h i hi, h _ (by omega)]
  · rw [h i hi]

theorem diagSum_pivot {fr : ℕ → Front K} {N k : ℕ} (hs : Steps false fr N) (hk : k < N)
    (hi : i < (fr k).p) : diagSum false ((List.range N).map fr) v ((fr k).rows i) =
      blockMul (fr k).L (fr k).p (fun j => v ((fr k).rows j)) i := by
  have hsum : diagSum false ((List.range N).map fr) v ((fr k).rows i) =
      ∑ l ∈ range N, ∑ j ∈ range (fr l).p, if (fr l).rows j = (fr k).rows i then
        blockMul (fr l).L (fr l).p (fun a => v ((fr l).rows a)) j else 0 := by
    rw [diagSum, if_neg Bool.false_ne_true, List.map_map]
    rfl
  rw [hsum, Finset.sum_eq_single k, Finset.sum_eq_single i, if_pos rfl]
  · exact fun j hj hne => if_neg fun he =>
      hne (hs.pivot_unique hk hk (Finset.mem_range.mp hj) hi he).2
  · exact fun hno => absurd (Finset.mem_range.mpr hi) hno
  · exact fun l hl hne => Finset.sum_eq_zero fun j hj => if_neg fun he =>
      hne (hs.pivot_unique (Finset.mem_range.mp hl) hk (Finset.mem_range.mp hj) hi he).1
  · exact fun hno => absurd (Finset.mem_range.mpr hk) hno

variable [IsStrictOrderedRing K]

/-- A nonsingular block times its solution. -/
theorem pair_mul {a b d : K} (h : a * d - b * b ≠ 0) (x y : K) :
    a * (solve2x2Scaled a b d x y).1 + b * (solve2x2Scaled a b d x y).2 = x ∧
      b * (solve2x2Scaled a b d x y).1 + d * (solve2x2Scaled a b d x y).2 = y := by
  rw [solve2x2Scaled_eq h, inverse2x2_eq h]
  constructor
  · calc a * (d / (a * d - b * b) * x + -b / (a * d - b * b) * y) +
          b * (-b / (a * d - b * b) * x + a / (a * d - b * b) * y)
        = (a * d - b * b) / (a * d - b * b) * x := by ring
      _ = x := by rw [div_self h, one_mul]
  · calc b * (d / (a * d - b * b) * x + -b / (a * d - b * b) * y) +
          d * (-b / (a * d - b * b) * x + a / (a * d - b * b) * y)
        = (a * d - b * b) / (a * d - b * b) * y := by ring
      _ = y := by rw [div_self h, one_mul]

/-- The blocks of a front times what `D^-1` leaves. -/
theorem blockMul_inlineEntry (h : RegularBlocks L p) (hi : i < p) :
    blockMul L p (inlineEntry L p v) i = v i := by
  have hfirst : ∀ c, opens L p c = true → inlineEntry L p v c =
      (solve2x2Scaled (L c c) (L c (c + 1)) (L (c + 1) (c + 1)) (v c) (v (c + 1))).1 :=
    fun c ho => if_pos ho
  have hsecond : ∀ c, opens L p c = true → inlineEntry L p v (c + 1) =
      (solve2x2Scaled (L c c) (L c (c + 1)) (L (c + 1) (c + 1)) (v c) (v (c + 1))).2 := by
    intro c ho
    have hclosed : closes L p (c + 1) = true := ho
    have hno : opens L p (c + 1) = false := closes_succ_succ ho
    rw [inlineEntry, if_neg (by simp [hno]), if_pos hclosed]
    rfl
  rw [blockMul]
  split_ifs with ho hc
  · rw [hfirst i ho, hsecond i ho]
    exact (pair_mul ((h i hi).1 ho) _ _).1
  · cases i with
    | zero => cases hc
    | succ c =>
      have hopen : opens L p c = true := hc
      rw [Nat.add_sub_cancel, hfirst c hopen, hsecond c hopen]
      exact (pair_mul ((h c (Nat.lt_of_succ_lt hi)).1 hopen) _ _).2
  · have ho := Bool.eq_false_of_not_eq_true ho
    have hc := Bool.eq_false_of_not_eq_true hc
    have hne := (h i hi).2 ho hc
    rw [inlineEntry_single ho hc, if_neg hne, mul_div_cancel₀ _ hne]

end Blocks

/-! ## Full -/

section Full

variable [IsStrictOrderedRing K] {fk : SolveKeep K} {v b : ℕ → K} {r : ℕ}

/-- `D` undoes `D^-1`, in whichever form the factor has it. -/
theorem diagSum_solveDiag (hj : fk.Jobs) (hreg : fk.Nonsingular)
    (hv : ∀ r < fk.n, v r = solveDiag fk.isPosdef fk.diagEntries b r) (hr : r < fk.n) :
    diagSum fk.isPosdef ((List.range fk.solveSteps.length).map fk.front) v r = b r := by
  cases hposdef : fk.isPosdef with
  | true =>
    rw [diagSum, if_pos rfl, hv r hr, hposdef, solveDiag, if_pos rfl]
  | false =>
    have happlies := hreg.inFronts hposdef
    have hsteps := hj.layout.ordered.steps
    obtain ⟨F, hF, i, hi, rfl⟩ := hj.layout.ordered.complete r hr
    obtain ⟨k, hk, rfl⟩ := List.mem_map.mp hF
    have hk := List.mem_range.mp hk
    have hlocal : ∀ j < (fk.front k).p, v ((fk.front k).rows j) =
        inlineEntry (fk.front k).L (fk.front k).p (fun a => b ((fk.front k).rows a)) j := by
      intro j hjp
      have hlt := hj.layout.ordered.lt_n _ hF j (hjp.trans_le (hsteps.good k hk).p_le)
      rw [hv _ hlt, (hj.solveDiag_own happlies b).1 k hk j hjp, applyInlineD_eq, if_pos hjp]
    rw [hposdef] at hsteps
    rw [diagSum_pivot hsteps hk hi, blockMul_congr hlocal hi,
      blockMul_inlineEntry (hreg.blocks hposdef k hk) hi]

/-- The whole solve is right: for a factor with a valid layout, regular pivot blocks in its
    fronts and a scaling without zeros, any number of columns and of threads allowed, what Full
    leaves, permuted and unscaled, times `L D L^T` is the permuted and scaled right-hand side. -/
theorem solveFull_solves (fk : SolveKeep K) (hj : fk.Jobs) (hreg : fk.Nonsingular)
    (ak : AnalysisKeep) (threads : ℕ) {m : ℕ} (B X : Fin m → ℕ → K)
    (h : fk.Runs ak threads B .full X) (c : Fin m) : ∀ r < fk.n,
      fk.product (fun i => X c (fk.perm i) / fk.scaleAt (fk.perm i)) r =
        B c (fk.perm r) * fk.scaleAt (fk.perm r) := by
  intro r hr
  have hordered := hj.layout.ordered
  cases h with
  | @full Y Z hf hb =>
  have hforward := solveForward_multiplies hj.layout.toLayout (hj.steps_ne hr) hf c
  obtain ⟨z, hz, hZ⟩ := diagBack_eq hj (hj.steps_ne hr) hb c
  rw [if_neg Bool.false_ne_true] at hforward hZ
  -- the scatter of Full undone
  have hleft : ∀ i < fk.n,
      fk.scattered (Z c) (B c) (fk.perm i) / fk.scaleAt (fk.perm i) = z i := by
    intro i hi
    rw [SolveKeep.scattered, scatter_at hj.perm_inj hi,
      mul_div_cancel_right₀ _ (hreg.scale_ne _ (hj.perm_lt i hi)), hZ]
  -- `L^T` takes the solution to the start of the backward solve
  have hback : ∀ q < fk.n, colSum fk.isPosdef ((List.range fk.solveSteps.length).map fk.front)
      fk.n (fun i => fk.scattered (Z c) (B c) (fk.perm i) / fk.scaleAt (fk.perm i)) q =
        solveDiag fk.isPosdef fk.diagEntries (Y c) q := by
    intro q hq
    obtain ⟨F, hF, i, hi, rfl⟩ := hordered.complete q hq
    obtain ⟨k, hk, rfl⟩ := List.mem_map.mp hF
    have hk := List.mem_range.mp hk
    have hn : ∀ l < fk.solveSteps.length, ∀ j < (fk.front l).f, (fk.front l).rows j < fk.n :=
      fun l hl => hordered.lt_n _ (List.mem_map_of_mem (List.mem_range.mpr hl))
    rw [colSum_congr hleft, hz.colSum_eq hordered.steps hn hk hi, frontD_eq hj.fits hk]
    rfl
  -- `D` takes that back to what the forward solve left, and `L` to the gathered vector
  have hdiag := fun q (hq : q < fk.n) => diagSum_solveDiag hj hreg hback hq
  have hpl : ∀ F ∈ (List.range fk.solveSteps.length).map fk.front, F.p ≤ F.f := fun F hF =>
    (hordered.good F hF).p_le
  have hrow := (hforward r).1 (hordered.complete r hr)
  rw [rowSum_eq_entries hpl hordered.lt_n, SolveKeep.gathered, if_pos hr] at hrow
  rw [SolveKeep.product]
  dsimp only
  rw [rowSum_eq_entries hpl hordered.lt_n, ← hrow]
  exact sum_congr rfl fun q hq => by rw [hdiag q (Finset.mem_range.mp hq)]

end Full

theorem jobLeaves_nonsingular : jobLeaves.Nonsingular where
  inFronts _ := rfl
  blocks _ k hk := by
    have hp : ∀ k < 3, (builtLeaves.front k).p = 1 := by decide +kernel
    have hL : ∀ k < 3, (builtLeaves.front k).L 0 0 ≠ 0 := by decide +kernel
    have hpk : (jobLeaves.front k).p = 1 := hp k hk
    intro i hi
    rw [hpk] at hi ⊢
    obtain rfl : i = 0 := Nat.lt_one_iff.mp hi
    exact ⟨fun ho => absurd (opens_lt ho) (lt_irrefl 1), fun _ _ => hL k hk⟩
  scale_ne := by
    show ∀ i < 3, ([2, 3, 4] : List ℚ).getD i 1 ≠ 0
    decide +kernel

/-- Two columns on two threads. -/
theorem solveFull_solves_jobLeaves : ∃ X : Fin 2 → ℕ → ℚ,
    jobLeaves.Runs threeColumns 4 (fun c r => c.1 + r) .full X ∧ ∀ c, ∀ r < 3,
      jobLeaves.product (fun i => X c (jobLeaves.perm i) / jobLeaves.scaleAt (jobLeaves.perm i)) r =
        (c.1 + jobLeaves.perm r) * jobLeaves.scaleAt (jobLeaves.perm r) := by
  obtain ⟨Y, hY⟩ := jobLeaves_forward false fun c => jobLeaves.gathered fun r => c.1 + r
  obtain ⟨Z, hZ⟩ := jobLeaves_diagBack false Y
  have hfull : jobLeaves.Runs threeColumns 4 (fun c r => c.1 + r) .full _ := .full hY hZ
  exact ⟨_, hfull, solveFull_solves jobLeaves jobLeaves_jobs jobLeaves_nonsingular threeColumns 4
    _ _ hfull⟩

end Solve
end SmfSolver
