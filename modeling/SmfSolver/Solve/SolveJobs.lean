/-
  SmfSolver.Solve.SolveJobs

  The jobs of `solve_core` (solve.cpp) with a factor of fronts: the whole solve, and its
  parts for a caller that runs the factors `L`, `D` and `L^T` one by one.

  1. `solveDiag_perm`: the pivot blocks may be listed in any order.
  2. `diagBack_eq`: `D^-1` in the fronts of the backward solve is `D^-1` before it.
  3. `solveJobs_compose`: Full is Forward and then DiagBack, and DiagBack is DiagOnly and
     then Backward, whichever way each of them goes.
-/
import SmfSolver.Session.IpmSession
import SmfSolver.Solve.BackwardSpec

namespace SmfSolver
namespace Solve

open Lib
open Multifrontal (DiagSolveEntry)
open Session (SolveJob)

variable {K : Type*} [Field K] [LinearOrder K]

/-! ## Definitions -/

/-- A factor with what the jobs read besides. -/
structure SolveKeep (K : Type*) extends BackwardKeep K where
  diagEntries : List (DiagSolveEntry K)
  scale : Option (ℕ → K)

namespace SolveKeep

/-- `apply_scale_to_rhs` and `apply_scale_to_solution`, when there is a scaling. -/
def scaled (fk : SolveKeep K) (x : ℕ → K) : ℕ → K :=
  match fk.scale with
  | some s => fun i => if i < fk.n then x i * s i else x i
  | none => x

/-- The factor of row `i`. -/
def scaleAt (fk : SolveKeep K) (i : ℕ) : K :=
  match fk.scale with
  | some s => s i
  | none => 1

/-- `P^T S b`, as Full gathers it. -/
def gathered (fk : SolveKeep K) (b : ℕ → K) : ℕ → K := fun i =>
  if i < fk.n then b (fk.perm i) * fk.scaleAt (fk.perm i) else 0

/-- `S P y`, as Full scatters it over the right-hand side. -/
def scattered (fk : SolveKeep K) (y b : ℕ → K) : ℕ → K :=
  scatter fk.perm fk.n (fun i => y i * fk.scaleAt (fk.perm i)) b

/-- `diag_back` of `solve_core`. -/
def DiagBack (fk : SolveKeep K) (ak : AnalysisKeep) (threads : ℕ) (permute : Bool) {m : ℕ}
    (B X : Fin m → ℕ → K) : Prop :=
  if fk.appliesDiag then fk.SolveBackward true ak threads permute B X
  else fk.SolveBackward false ak threads permute
    (fun c => solveDiag fk.isPosdef fk.diagEntries (B c)) X

/-- What a job can make of the columns `B`; the triangular solves go any of their ways.  Full by
    the banded factor or by the interleaved kernel is not among them. -/
inductive Runs (fk : SolveKeep K) (ak : AnalysisKeep) (threads : ℕ) {m : ℕ}
    (B : Fin m → ℕ → K) : SolveJob → (Fin m → ℕ → K) → Prop
  | full {Y Z : Fin m → ℕ → K}
      (hf : SolveForward fk.toParallelKeep ak threads false (fun c => fk.gathered (B c)) Y)
      (hb : fk.DiagBack ak threads false Y Z) :
      Runs fk ak threads B .full fun c => fk.scattered (Z c) (B c)
  | forward {Y : Fin m → ℕ → K}
      (hf : SolveForward fk.toParallelKeep ak threads true (fun c => fk.scaled (B c)) Y) :
      Runs fk ak threads B .forward Y
  | diagOnly : Runs fk ak threads B .diagOnly fun c => solveDiag fk.isPosdef fk.diagEntries (B c)
  | backward {Z : Fin m → ℕ → K} (hb : fk.SolveBackward false ak threads true B Z) :
      Runs fk ak threads B .backward fun c => fk.scaled (Z c)
  | diagBack {Z : Fin m → ℕ → K} (hb : fk.DiagBack ak threads true B Z) :
      Runs fk ak threads B .diagBack fun c => fk.scaled (Z c)

/-- What the jobs rely on: the layout of the solves, the fronts' pivot blocks in the list, in
    any order, where the fronts have them, and two permutations that are inverse to each other. -/
structure Jobs (fk : SolveKeep K) : Prop where
  layout : fk.BackLayout
  fits : fk.DinvFits
  listed : fk.appliesDiag = true → ∃ blocks : ℕ → List (DiagSolveEntry K),
    fk.diagEntries.Perm ((List.range fk.solveSteps.length).flatMap blocks) ∧
      ∀ k < fk.solveSteps.length,
        FrontEntries (fk.front k).L (fk.front k).rows (fk.front k).p 0 (blocks k)
  perm_lt : ∀ i < fk.n, fk.perm i < fk.n
  iperm_lt : ∀ i < fk.n, fk.iperm i < fk.n
  iperm_perm : ∀ i < fk.n, fk.iperm (fk.perm i) = i
  perm_iperm : ∀ i < fk.n, fk.perm (fk.iperm i) = i

end SolveKeep

/-! ## The order of the blocks -/

section Order

/-- The rows of an entry. -/
def Touches (e : DiagSolveEntry K) (r : ℕ) : Prop :=
  e.tag = 1 ∧ r = e.row0 ∨ e.tag = 2 ∧ (r = e.row0 ∨ r = e.row1)

/-- Two entries without a common row. -/
def EntriesApart (a b : DiagSolveEntry K) : Prop := ∀ r, Touches a r → ¬Touches b r

variable {a b e : DiagSolveEntry K} {x y : ℕ → K} {r : ℕ}

omit [Field K] [LinearOrder K] in
theorem EntriesApart.symm (h : EntriesApart a b) : EntriesApart b a := fun r hb ha => h r ha hb

/-- An entry leaves the other rows alone. -/
theorem solveDiagEntry_other (hr : ¬Touches e r) : solveDiagEntry x e r = x r := by
  rw [Touches, not_or, not_and, not_and] at hr
  rw [solveDiagEntry]
  by_cases h1 : e.tag = 1
  · rw [if_pos h1]
    exact Function.update_of_ne (hr.1 h1) ..
  · rw [if_neg h1]
    by_cases h2 : e.tag = 2
    · obtain ⟨h₀, h₁⟩ := not_or.mp (hr.2 h2)
      rw [if_pos h2, Function.update_of_ne h₁, Function.update_of_ne h₀]
    · rw [if_neg h2]

/-- What an entry makes of a row depends on its own rows and this one. -/
theorem solveDiagEntry_congr (h : ∀ q, Touches e q → x q = y q) (hr : x r = y r) :
    solveDiagEntry x e r = solveDiagEntry y e r := by
  rw [solveDiagEntry, solveDiagEntry]
  by_cases h1 : e.tag = 1
  · have h₀ := h e.row0 (.inl ⟨h1, rfl⟩)
    simp only [if_pos h1, h₀, Function.update_apply, hr]
  · rw [if_neg h1, if_neg h1]
    by_cases h2 : e.tag = 2
    · have h₀ := h e.row0 (.inr ⟨h2, .inl rfl⟩)
      have h₁ := h e.row1 (.inr ⟨h2, .inr rfl⟩)
      simp only [if_pos h2, h₀, h₁, Function.update_apply, hr]
    · rw [if_neg h2, if_neg h2, hr]

/-- Entries without a common row commute. -/
theorem solveDiagEntry_comm (h : EntriesApart a b) :
    solveDiagEntry (solveDiagEntry x a) b = solveDiagEntry (solveDiagEntry x b) a := by
  funext r
  by_cases hb : Touches b r
  · have ha : ¬Touches a r := fun ha => h r ha hb
    rw [solveDiagEntry_other (x := solveDiagEntry x b) ha]
    exact solveDiagEntry_congr (fun q hq => solveDiagEntry_other fun ha => h q ha hq)
      (solveDiagEntry_other ha)
  · rw [solveDiagEntry_other hb]
    exact (solveDiagEntry_congr (fun q hq => solveDiagEntry_other fun hb => h q hq hb)
      (solveDiagEntry_other hb)).symm

/-- The blocks may come in any order. -/
theorem solveDiag_perm {posdef : Bool} {es es' : List (DiagSolveEntry K)} (hperm : es.Perm es')
    (hapart : es'.Pairwise EntriesApart) : solveDiag posdef es x = solveDiag posdef es' x := by
  have hsymm : Std.Symm (EntriesApart : DiagSolveEntry K → DiagSolveEntry K → Prop) :=
    ⟨fun _ _ h => h.symm⟩
  rw [solveDiag, solveDiag]
  split
  · rfl
  · refine (hperm.symm.foldl_eq' (fun a ha b hb z => ?_) x).symm
    by_cases hab : a = b
    · rw [hab]
    · exact solveDiagEntry_comm (hapart.forall ha hb hab)

variable {L : ℕ → ℕ → K} {rows : ℕ → ℕ} {p c : ℕ} {es : List (DiagSolveEntry K)}

omit [LinearOrder K] in
/-- The entries of a front touch its pivot rows from `c` on. -/
theorem FrontEntries.touches (h : FrontEntries L rows p c es) :
    ∀ e ∈ es, ∀ r, Touches e r → ∃ i < p, c ≤ i ∧ rows i = r := by
  induction h with
  | done hc => exact fun e he => absurd he List.not_mem_nil
  | @single c es zero r₁ a b hc hnext _ ih =>
    intro e he r hr
    rcases List.mem_cons.mp he with rfl | he
    · rcases hr with ⟨-, rfl⟩ | ⟨htag, -⟩
      · exact ⟨c, hc, le_rfl, rfl⟩
      · exact absurd htag (show (1 : ℤ) ≠ 2 by decide)
    · obtain ⟨i, hi, hle, hrow⟩ := ih e he r hr
      exact ⟨i, hi, by omega, hrow⟩
  | @pair c es zero hc hnext hdet _ ih =>
    intro e he r hr
    rcases List.mem_cons.mp he with rfl | he
    · rcases hr with ⟨htag, -⟩ | ⟨-, rfl | rfl⟩
      · exact absurd htag (show (2 : ℤ) ≠ 1 by decide)
      · exact ⟨c, Nat.lt_of_succ_lt hc, le_rfl, rfl⟩
      · exact ⟨c + 1, hc, Nat.le_succ c, rfl⟩
    · obtain ⟨i, hi, hle, hrow⟩ := ih e he r hr
      exact ⟨i, hi, by omega, hrow⟩

omit [LinearOrder K] in
/-- The entries of a front are apart. -/
theorem FrontEntries.apart (hinj : ∀ i < p, ∀ j < p, rows i = rows j → i = j)
    (h : FrontEntries L rows p c es) : es.Pairwise EntriesApart := by
  induction h with
  | done hc => exact List.Pairwise.nil
  | @single c es zero r₁ a b hc hnext h ih =>
    refine List.Pairwise.cons (fun e he r hr hre => ?_) ih
    obtain ⟨i, hi, hle, hrow⟩ := h.touches e he r hre
    rcases hr with ⟨-, rfl⟩ | ⟨htag, -⟩
    · have hic := hinj i hi c hc hrow
      omega
    · exact absurd htag (show (1 : ℤ) ≠ 2 by decide)
  | @pair c es zero hc hnext hdet h ih =>
    refine List.Pairwise.cons (fun e he r hr hre => ?_) ih
    obtain ⟨i, hi, hle, hrow⟩ := h.touches e he r hre
    rcases hr with ⟨htag, -⟩ | ⟨-, rfl | rfl⟩
    · exact absurd htag (show (2 : ℤ) ≠ 1 by decide)
    · have hic := hinj i hi c (Nat.lt_of_succ_lt hc) hrow
      omega
    · have hic := hinj i hi (c + 1) hc hrow
      omega

omit [LinearOrder K] in
/-- The entries of fronts with different pivot rows are apart. -/
theorem blocks_apart {posdef : Bool} {fr : ℕ → Front K} {N : ℕ}
    {blocks : ℕ → List (DiagSolveEntry K)} (hs : Steps posdef fr N)
    (hblocks : ∀ k < N, FrontEntries (fr k).L (fr k).rows (fr k).p 0 (blocks k)) :
    ((List.range N).flatMap blocks).Pairwise EntriesApart := by
  refine List.pairwise_flatMap.mpr ⟨fun k hk => ?_, ?_⟩
  · have hF := hs.good k (List.mem_range.mp hk)
    exact (hblocks k (List.mem_range.mp hk)).apart fun i hi j hj =>
      hF.inj i (hi.trans_le hF.p_le) j (hj.trans_le hF.p_le)
  · refine List.pairwise_lt_range.imp_of_mem fun {k l} hk hl hlt a ha b hb r har hbr => ?_
    have hkN := List.mem_range.mp hk
    have hlN := List.mem_range.mp hl
    obtain ⟨i, hi, -, hrow⟩ := (hblocks k hkN).touches a ha r har
    obtain ⟨j, hj, -, hrow'⟩ := (hblocks l hlN).touches b hb r hbr
    exact hlt.ne (hs.pivot_unique hkN hlN hi hj (hrow.trans hrow'.symm)).1

end Order

/-! ## D and then L^T -/

section Back

variable {posdef : Bool} {fr : ℕ → Front K} {d d' : ℕ → (ℕ → K) → ℕ → K} {ks : List ℕ}
  {x₀ x₁ z : ℕ → K}

omit [LinearOrder K] in
/-- `D^-1` in the fronts is `D^-1` before them. -/
theorem BackSolution.before (h : BackSolution posdef fr d ks x₀ z)
    (hplain : ∀ k ∈ ks, ∀ w, ∀ i < (fr k).p, d' k w i = w i)
    (hown : ∀ k ∈ ks, ∀ i < (fr k).p,
      x₁ ((fr k).rows i) = d k (fun j => x₀ ((fr k).rows j)) i)
    (hrest : ∀ r, (∀ k ∈ ks, ∀ i < (fr k).p, (fr k).rows i ≠ r) → x₁ r = x₀ r) :
    BackSolution posdef fr d' ks x₁ z where
  pivot k hk i hi := by
    rw [h.pivot k hk i hi, backPivot, backPivot, hplain k hk _ i hi, hown k hk i hi]
  other r hr := (h.other r hr).trans (hrest r hr).symm

variable [IsStrictOrderedRing K] {fk : SolveKeep K} {ak : AnalysisKeep} {threads m : ℕ}
  {permute : Bool} {B X X' : Fin m → ℕ → K}

omit [IsStrictOrderedRing K] in
/-- A row to solve is a pivot of a step. -/
theorem SolveKeep.Jobs.steps_ne (hj : fk.Jobs) {r : ℕ} (hr : r < fk.n) : fk.solveSteps ≠ [] := by
  intro hs
  obtain ⟨F, hF, -⟩ := hj.layout.ordered.complete r hr
  rw [hs] at hF
  exact absurd hF List.not_mem_nil

omit [IsStrictOrderedRing K] in
theorem SolveKeep.Jobs.perm_inj (hj : fk.Jobs) : ∀ i < fk.n, ∀ j < fk.n,
    fk.perm i = fk.perm j → i = j := by
  intro i hi j hjn he
  rw [← hj.iperm_perm i hi, he, hj.iperm_perm j hjn]

omit [LinearOrder K] [IsStrictOrderedRing K] in
omit [Field K] in
theorem isPosdef_eq (happlies : fk.appliesDiag = true) : fk.isPosdef = false := by
  rw [BackwardKeep.appliesDiag] at happlies
  simpa using (Bool.and_eq_true_iff.mp (Bool.and_eq_true_iff.mp happlies).1).2

/-- The pass over the list leaves in a front what the front's own `D^-1` leaves. -/
theorem SolveKeep.Jobs.solveDiag_own (hj : fk.Jobs) (happlies : fk.appliesDiag = true)
    (x : ℕ → K) :
    (∀ k < fk.solveSteps.length, ∀ i < (fk.front k).p,
      solveDiag fk.isPosdef fk.diagEntries x ((fk.front k).rows i) =
        applyInlineD (fk.front k).L (fk.front k).p (fun j => x ((fk.front k).rows j)) i) ∧
    ∀ r, (∀ k < fk.solveSteps.length, ∀ i < (fk.front k).p, (fk.front k).rows i ≠ r) →
      solveDiag fk.isPosdef fk.diagEntries x r = x r := by
  have hsteps := hj.layout.ordered.steps
  obtain ⟨blocks, hperm, hblocks⟩ := hj.listed happlies
  obtain ⟨hown, hrest⟩ := solveDiag_at (x := x)
    (fun k hk => hblocks k (List.mem_range.mp hk))
    (fun k hk i hi j hj =>
      have hF := hsteps.good k (List.mem_range.mp hk)
      hF.inj i (hi.trans_le hF.p_le) j (hj.trans_le hF.p_le))
    (List.pairwise_lt_range.imp_of_mem fun {k l} _ hl hlt i hi j hj =>
      hsteps.later k l hlt (List.mem_range.mp hl) i hi j
        (hj.trans_le (hsteps.good l (List.mem_range.mp hl)).p_le))
  rw [isPosdef_eq happlies, solveDiag_perm hperm (blocks_apart hsteps hblocks)]
  exact ⟨fun k hk => hown k (List.mem_range.mpr hk),
    fun r hr => hrest r fun k hk => hr k (List.mem_range.mp hk)⟩

/-- Fused or not, the solution of the fronts' equations after `D^-1`. -/
theorem diagBack_eq (hj : fk.Jobs) (hs : fk.solveSteps ≠ [])
    (h : fk.DiagBack ak threads permute B X)
    (c : Fin m) : ∃ z, BackSolution fk.isPosdef fk.front (fk.frontD false)
      (List.range fk.solveSteps.length) (solveDiag fk.isPosdef fk.diagEntries (B c)) z ∧
        X c = if permute then fk.unpermuted z else z := by
  rw [SolveKeep.DiagBack] at h
  split at h
  · next happlies =>
    obtain ⟨z, hz, hX⟩ := solveBackward_solution hj.layout hj.fits hs h c
    obtain ⟨hown, hrest⟩ := hj.solveDiag_own happlies (B c)
    refine ⟨z, hz.before ?_ ?_ ?_, hX⟩
    · intro k hk w i _
      rw [frontD_eq hj.fits (List.mem_range.mp hk)]
      rfl
    · intro k hk i hi
      have hk := List.mem_range.mp hk
      rw [hown k hk i hi, frontD_eq hj.fits hk, happlies]
      rfl
    · exact fun r hr => hrest r fun k hk => hr k (List.mem_range.mpr hk)
  · exact solveBackward_solution hj.layout hj.fits hs h c

end Back

/-! ## The jobs -/

section Jobs

variable [IsStrictOrderedRing K] {fk : SolveKeep K} {ak : AnalysisKeep} {threads m : ℕ}
  {B X : Fin m → ℕ → K} {b y : ℕ → K} {r : ℕ}

omit [LinearOrder K] [IsStrictOrderedRing K] in
theorem scaled_apply (hr : r < fk.n) : fk.scaled b r = b r * fk.scaleAt r := by
  rw [SolveKeep.scaled, SolveKeep.scaleAt]
  cases fk.scale with
  | some s => exact if_pos hr
  | none => exact (mul_one (b r)).symm

omit [IsStrictOrderedRing K] in
/-- The gather of Full is the scaling and the permutation of Forward. -/
theorem gathered_eq (hj : fk.Jobs) : fk.gathered b = fk.permuted (fk.scaled b) := by
  have hinj : ∀ i < fk.n, ∀ j < fk.n, fk.iperm i = fk.iperm j → i = j := fun i hi j hj' he => by
    rw [← hj.perm_iperm i hi, he, hj.perm_iperm j hj']
  funext i
  rw [SolveKeep.gathered, FactorKeep.permuted]
  split
  · next hi =>
    have hlt := hj.perm_lt i hi
    have hat := scatter_at (w := fk.scaled b) (x := fun _ => 0) hinj hlt
    rw [hj.iperm_perm i hi] at hat
    rw [hat, scaled_apply hlt]
  · next hi =>
    have hout : ∀ j < fk.n, fk.iperm j ≠ i := fun j hj' he => hi (by
      rw [← he]
      exact hj.iperm_lt j hj')
    rw [scatter_other hout]

omit [IsStrictOrderedRing K] in
/-- The scatter of Full is the permutation and the scaling of the other jobs. -/
theorem scattered_eq (hj : fk.Jobs) (hr : r < fk.n) :
    fk.scattered y b r = fk.scaled (fk.unpermuted y) r := by
  have hlt := hj.iperm_lt r hr
  have hleft := scatter_at (w := fun i => y i * fk.scaleAt (fk.perm i)) (x := b) hj.perm_inj hlt
  have hright := scatter_at (w := y) (x := fun _ => 0) hj.perm_inj hlt
  rw [hj.perm_iperm r hr] at hleft hright
  rw [SolveKeep.scattered, hleft, scaled_apply hr, BackwardKeep.unpermuted, hright]

/-- The jobs compose: for a factor with a valid layout, any number of columns and of threads
    allowed, Full leaves in the `n` rows of every column what Forward and then DiagBack leave,
    and DiagBack leaves what DiagOnly and then Backward leave. -/
theorem solveJobs_compose (fk : SolveKeep K) (hj : fk.Jobs) (ak : AnalysisKeep) (threads : ℕ)
    {m : ℕ} (B : Fin m → ℕ → K) :
    (∀ X Y Z, fk.Runs ak threads B .full X → fk.Runs ak threads B .forward Y →
      fk.Runs ak threads Y .diagBack Z → ∀ c, ∀ r < fk.n, X c r = Z c r) ∧
    ∀ X Y Z, fk.Runs ak threads B .diagBack X → fk.Runs ak threads B .diagOnly Y →
      fk.Runs ak threads Y .backward Z → ∀ c, ∀ r < fk.n, X c r = Z c r := by
  have hsteps := hj.layout.ordered.steps
  refine ⟨fun X Y Z hX hY hZ c r hr => ?_, fun X Y Z hX hY hZ c r hr => ?_⟩
  · -- Full gathers what Forward scales and permutes, so both forward solves are of one vector
    cases hX with
    | @full Y₁ Z₁ hf hb =>
    cases hY with
    | forward hf' =>
    cases hZ with
    | @diagBack Z₂ hb' =>
    have hsolve := solveForward_multiplies hj.layout.toLayout (hj.steps_ne hr) hf c
    have hsolve' := solveForward_multiplies hj.layout.toLayout (hj.steps_ne hr) hf' c
    have hYY : Y₁ c = Y c := by
      have hiff := fun x y => @foldl_eq_iff _ _ _ _ x y hj.layout.ordered.good
        hj.layout.ordered.later
      rw [if_neg Bool.false_ne_true, gathered_eq hj] at hsolve
      rw [if_pos rfl] at hsolve'
      exact ((hiff _ _).mpr hsolve).symm.trans ((hiff _ _).mpr hsolve')
    -- the backward sweeps start from one vector, and the sweep has one solution
    obtain ⟨z, hz, hZ₁⟩ := diagBack_eq hj (hj.steps_ne hr) hb c
    obtain ⟨z', hz', hZ'⟩ := diagBack_eq hj (hj.steps_ne hr) hb' c
    rw [if_neg Bool.false_ne_true] at hZ₁
    rw [if_pos rfl] at hZ'
    rw [hYY] at hz
    show fk.scattered (Z₁ c) (B c) r = fk.scaled (Z₂ c) r
    rw [scattered_eq hj hr, hZ₁, hZ', hz.unique hsteps hz']
  · -- fused or not, the backward solve starts from what DiagOnly leaves
    cases hX with
    | @diagBack X₁ hb =>
    cases hY with
    | diagOnly =>
    cases hZ with
    | @backward Z₁ hb' =>
    obtain ⟨z, hz, hX⟩ := diagBack_eq hj (hj.steps_ne hr) hb c
    obtain ⟨z', hz', hZ⟩ := solveBackward_solution hj.layout hj.fits (hj.steps_ne hr) hb' c
    show fk.scaled (X₁ c) r = fk.scaled (Z₁ c) r
    rw [hX, hZ, hz.unique hsteps hz']

end Jobs

/-! ## Two leaves and their parent -/

/-- The entry of the pivot of front `k`. -/
def leafBlock (k : ℕ) : DiagSolveEntry ℚ :=
  ⟨1, false, (builtLeaves.front k).rows 0, 0, (builtLeaves.front k).L 0 0, 0, 0⟩

/-- `builtLeaves` with the entry of the top front in front of the others', and a scaling. -/
def jobLeaves : SolveKeep ℚ where
  toBackwardKeep := builtLeaves
  diagEntries := [leafBlock 2, leafBlock 0, leafBlock 1]
  scale := some fun i => [2, 3, 4].getD i 1

theorem jobLeaves_jobs : jobLeaves.Jobs where
  layout := builtLeaves_layout
  fits := by
    rw [show jobLeaves.toBackwardKeep = diagLeaves.buildInlineDinv true from builtLeaves_eq.symm]
    exact buildInlineDinv_fits diagLeaves true
  listed _ := by
    refine ⟨fun k => [leafBlock k], ?_, fun k hk => ?_⟩
    · show ([leafBlock 2] ++ [leafBlock 0, leafBlock 1]).Perm
        ([leafBlock 0, leafBlock 1] ++ [leafBlock 2])
      exact List.perm_append_comm
    · have hp : ∀ k < 3, (builtLeaves.front k).p = 1 := by decide +kernel
      have hpk : (jobLeaves.front k).p = 1 := hp k hk
      rw [hpk]
      exact .single Nat.one_pos (fun h => absurd h (lt_irrefl 1)) (.done le_rfl)
  perm_lt := by decide
  iperm_lt := by decide
  iperm_perm := by decide
  perm_iperm := by decide

/-- The triangular solves of two columns on two threads. -/
theorem jobLeaves_forward (permute : Bool) (B : Fin 2 → ℕ → ℚ) :
    ∃ Y, SolveForward jobLeaves.toParallelKeep threeColumns 4 permute B Y := by
  obtain ⟨Y, hY⟩ := Classical.axiomOfChoice fun c : Fin 2 =>
    twoLeaves_parallel false (if permute then jobLeaves.permuted (B c) else B c)
  exact ⟨Y, .parallel (by decide) hY⟩

theorem jobLeaves_backward (applyDiag permute : Bool) (B : Fin 2 → ℕ → ℚ) :
    ∃ Z, jobLeaves.SolveBackward applyDiag threeColumns 4 permute B Z := by
  obtain ⟨Z, hZ⟩ := Classical.axiomOfChoice fun c : Fin 2 => builtLeaves_parallel applyDiag (B c)
  exact ⟨_, .parallel (by decide) hZ⟩

theorem jobLeaves_diagBack (permute : Bool) (B : Fin 2 → ℕ → ℚ) :
    ∃ Z, jobLeaves.DiagBack threeColumns 4 permute B Z := by
  obtain ⟨Z, hZ⟩ := jobLeaves_backward true permute B
  exact ⟨Z, (if_pos rfl).mpr hZ⟩

/-- Two columns through Full, and through Forward and then DiagBack or its two parts. -/
theorem solveJobs_compose_jobLeaves : ∃ X Y Z D W : Fin 2 → ℕ → ℚ,
    jobLeaves.Runs threeColumns 4 (fun c r => c.1 + r) .full X ∧
      jobLeaves.Runs threeColumns 4 (fun c r => c.1 + r) .forward Y ∧
      jobLeaves.Runs threeColumns 4 Y .diagBack Z ∧
      jobLeaves.Runs threeColumns 4 Y .diagOnly D ∧
      jobLeaves.Runs threeColumns 4 D .backward W ∧
      ∀ c, ∀ r < 3, X c r = Z c r ∧ Z c r = W c r := by
  obtain ⟨W₁, hW₁⟩ := jobLeaves_forward false fun c => jobLeaves.gathered fun r => c.1 + r
  obtain ⟨V, hV⟩ := jobLeaves_diagBack false W₁
  obtain ⟨Y, hY⟩ := jobLeaves_forward true fun c => jobLeaves.scaled fun r => c.1 + r
  obtain ⟨U, hU⟩ := jobLeaves_diagBack true Y
  obtain ⟨W, hW⟩ := jobLeaves_backward false true fun c =>
    solveDiag jobLeaves.isPosdef jobLeaves.diagEntries (Y c)
  have hfull : jobLeaves.Runs threeColumns 4 (fun c r => c.1 + r) .full _ := .full hW₁ hV
  have hfirst : jobLeaves.Runs threeColumns 4 (fun c r => c.1 + r) .forward Y := .forward hY
  have hrest : jobLeaves.Runs threeColumns 4 Y .diagBack _ := .diagBack hU
  have hdiag : jobLeaves.Runs threeColumns 4 Y .diagOnly _ := .diagOnly
  have hback : jobLeaves.Runs threeColumns 4 _ .backward _ := .backward hW
  have hXZ := (solveJobs_compose jobLeaves jobLeaves_jobs threeColumns 4 _).1 _ _ _ hfull hfirst
    hrest
  have hZW := (solveJobs_compose jobLeaves jobLeaves_jobs threeColumns 4 Y).2 _ _ _ hrest hdiag
    hback
  exact ⟨_, Y, _, _, _, hfull, hfirst, hrest, hdiag, hback,
    fun c r hr => ⟨hXZ c r hr, hZW c r hr⟩⟩

end Solve
end SmfSolver
