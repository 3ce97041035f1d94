/-
  SmfSolver.Solve.ParallelForwardSpec

  The forward solve of any number of columns on any number of threads.

  1. `parallelForward_eq`: the three runs of the pool leave the solution, whichever thread
     takes which subtree and in whatever order the threads' accesses come.
  2. `forwardFrontBlock_eq`: the blocked front is the front.
  3. `solveForward_eq`: every way through `solve_forward` leaves in every column what the
     fronts leave one after the other.
-/
import SmfSolver.Solve.ParallelForwardRuns
import SmfSolver.Solve.SparseForward

namespace SmfSolver
namespace Solve

open Lib
open Finset (range sum_congr)

variable {K : Type*} [Field K] {fk : ParallelKeep K} {T n : ℕ} {x x₀ y z : ℕ → K} {posdef : Bool}

/-! ## The three runs -/

/-- The three runs of the pool, one after the other. -/
theorem parallelForward_eq (hl : fk.Layout)
    (sol : Solution fk.isPosdef fk.front fk.solveSteps.length fk.n x₀ y) (hT : 0 < T)
    (h : ParallelForward fk T x₀ z) : z = y := by
  obtain ⟨h₁, hall₁, h₂, hall₂, h₃, hall₃⟩ := h
  obtain ⟨stage, hsweep, hbelow, htop⟩ := subtreeSweep_done hl sol ⟨0, hT⟩ h₁ hall₁
  have hnet := bufferSums_done hl hT h₂ hall₂
  exact topSweep_done hl sol ⟨0, hT⟩ h₃ hall₃ (hsweep.reduce hnet) hbelow htop

/-! ## Blocks of columns -/

/-- The rows below the pivots, from their products with these. -/
theorem solves_product {F : Front K} {w : ℕ → K} (hF : F.Good posdef)
    (hw : ∀ i < F.p, w i = (x (F.rows i) - ∑ j ∈ range i, F.L i j * w j) / diagOf posdef F.L i) :
    Solves posdef F x (scatter F.rows F.f
      (fun i => if i < F.p then w i else x (F.rows i) - dgemv F.L F.p w i) x) := by
  refine solves_of hw (fun i hi => ?_) (fun i hlo hi => ?_) fun r hr => scatter_other hr
  · rw [scatter_at hF.inj (hi.trans_le hF.p_le), if_pos hi]
  · rw [scatter_at hF.inj hi, if_neg (not_lt.mpr hlo), dgemv]

theorem forwardFrontBlock_eq {F : Front K} (hF : F.Good posdef) :
    forwardFrontBlock posdef x F = forwardFront posdef x F := by
  refine (forwardFront_solves hF).unique ?_
  unfold forwardFrontBlock
  split
  · next hp => exact solves_zero fun i hi => absurd hi (by omega)
  dsimp only
  split
  · exact solves_gathered hF
  · cases hinv : F.inv with
    | some inv => exact solves_product hF (inverse_pivot hF hinv)
    | none => exact solves_product hF solveLower_pivot

/-- A list of fronts, each in a block. -/
theorem foldl_forwardFrontBlock {Fs : List (Front K)} (hgood : ∀ F ∈ Fs, F.Good posdef) :
    Fs.foldl (forwardFrontBlock posdef) x = Fs.foldl (forwardFront posdef) x := by
  induction Fs generalizing x with
  | nil => rfl
  | cons F Fs ih =>
    rw [List.foldl_cons, List.foldl_cons, forwardFrontBlock_eq (hgood F List.mem_cons_self)]
    exact ih fun G hG => hgood G (List.mem_cons_of_mem F hG)

/-! ## solve_forward -/

omit [Field K] in
/-- With solve steps, the fronts are those of the steps. -/
theorem fronts_eq_front {fk : FactorKeep K} {ak : AnalysisKeep} (hs : fk.solveSteps ≠ []) :
    fk.fronts ak = (List.range fk.solveSteps.length).map fk.front := by
  rw [FactorKeep.fronts, if_neg hs]
  apply List.ext_getElem
  · rw [List.length_mapIdx, List.length_map, List.length_range]
  · intro k hk _
    rw [List.length_mapIdx] at hk
    rw [List.getElem_mapIdx, List.getElem_map, List.getElem_range, FactorKeep.front,
      List.getD_eq_getElem?_getD, List.getElem?_eq_getElem hk, Option.getD_some]

/-- What the fronts leave one after the other solves the equations. -/
theorem solution_foldl (hl : fk.Layout) (x₀ : ℕ → K) :
    Solution fk.isPosdef fk.front fk.solveSteps.length fk.n x₀
      (((List.range fk.solveSteps.length).map fk.front).foldl (forwardFront fk.isPosdef) x₀) where
  ordered := hl.ordered
  multiplies := (foldl_eq_iff hl.ordered.good hl.ordered.later).mp rfl

omit [Field K] in
theorem threads_steps {numThreads : ℕ} (h : 1 < fk.threads n numThreads) : fk.solveSteps ≠ [] := by
  intro hs
  rw [ParallelKeep.threads, if_neg fun hc => hc.1 hs] at h
  exact absurd h (lt_irrefl 1)

/-- Every way through `solve_forward` solves the equations of the steps' fronts. -/
theorem solveForward_multiplies (hl : fk.Layout) {ak : AnalysisKeep} {numThreads : ℕ}
    {permute : Bool} {m : ℕ} {B X : Fin m → ℕ → K} (hs : fk.solveSteps ≠ [])
    (h : SolveForward fk ak numThreads permute B X) (c : Fin m) :
    Multiplies fk.isPosdef ((List.range fk.solveSteps.length).map fk.front) (X c)
      (if permute then fk.permuted (B c) else B c) := by
  have hfold := fun x y =>
    @foldl_eq_iff _ _ _ _ x y hl.ordered.good hl.ordered.later
  cases h with
  | block hm ht _ =>
    rw [fronts_eq_front hs]
    apply (hfold _ _).mp
    exact (foldl_forwardFrontBlock hl.ordered.good).symm
  | serial hm ht =>
    rw [fronts_eq_front hs]
    exact (hfold _ _).mp rfl
  | parallel ht hruns =>
    rw [parallelForward_eq hl (solution_foldl hl _) (Nat.zero_lt_of_lt ht) (hruns c)]
    exact (hfold _ _).mp rfl

/-- Over any valid layout, for any number of right-hand sides, threads allowed and either
    treatment of the permutation: whatever `solve_forward` does, every column ends as the
    fronts, one after the other, leave it. -/
theorem solveForward_eq (fk : ParallelKeep K) (hl : fk.Layout) (ak : AnalysisKeep)
    (numThreads : ℕ) (permute : Bool) {m : ℕ} (B X : Fin m → ℕ → K)
    (h : SolveForward fk ak numThreads permute B X) (c : Fin m) :
    X c = (fk.fronts ak).foldl (forwardFront fk.isPosdef)
      (if permute then fk.permuted (B c) else B c) := by
  by_cases hs : fk.solveSteps = []
  · -- without steps there is neither a block nor a parallel layout
    cases h with
    | block hm ht hne => exact absurd hs hne
    | serial hm ht => rfl
    | parallel ht hruns => exact absurd hs (threads_steps ht)
  · have hmul := solveForward_multiplies hl hs h c
    rw [fronts_eq_front hs]
    exact ((foldl_eq_iff hl.ordered.good hl.ordered.later).mpr hmul).symm

/-! ## Two leaves and their parent -/

/-- Fronts 0 and 1 have a pivot each and the row of front 2, the top part. -/
def twoLeaves : ParallelKeep ℚ where
  isPosdef := true
  n := 3
  iperm := fun j => [2, 0, 1].getD j j
  factorValues := fun off => [2, 1, 3, 1, 5].getD off 0
  factorColPtr := fun s => 2 * s
  solveSteps := [⟨0, 0, 1, 2⟩, ⟨2, 2, 1, 2⟩, ⟨4, 4, 1, 1⟩]
  solveRowIndices := fun i => [0, 2, 1, 2, 2].getD i 0
  invDiag := fun _ => 0
  solveSubtrees := [(0, 1), (1, 2)]
  solveTopBegin := 2
  solveTopParent := [none]
  solveTopRows := [2]
  solveTopSlot := [none, none, some 0]
  solveThreads := 2
  parent_lt := fun i j h => by
    cases i <;> simp at h

theorem twoLeaves_layout : twoLeaves.Layout where
  ordered := by
    refine ⟨?_, ?_, ?_, ?_⟩
    · intro F hF
      have hcases : ∀ k < 3, (twoLeaves.front k).p ≤ (twoLeaves.front k).f ∧
          (∀ i < (twoLeaves.front k).f, ∀ j < (twoLeaves.front k).f,
            (twoLeaves.front k).rows i = (twoLeaves.front k).rows j → i = j) ∧
          (∀ i < (twoLeaves.front k).p, diagOf true (twoLeaves.front k).L i ≠ 0) := by
            decide +kernel
      obtain ⟨k, hk, rfl⟩ := List.mem_map.mp hF
      obtain ⟨hp, hinj, hdiag⟩ := hcases k (List.mem_range.mp hk)
      exact ⟨hp, hinj, hdiag, fun inv h => by cases h⟩
    · decide +kernel
    · have hrow : ∀ r < 3, ∃ k < 3, ∃ i < (twoLeaves.front k).p,
          (twoLeaves.front k).rows i = r := by
        decide +kernel
      intro r hr
      obtain ⟨k, hk, hi⟩ := hrow r hr
      exact ⟨_, List.mem_map_of_mem (List.mem_range.mpr hk), hi⟩
    · decide +kernel
  top_le := by decide
  covers := by decide +kernel
  within r hr k hlo hhi i hi hslot := by
    have hown : ∀ k < 2, ∀ i < 2, twoLeaves.topSlot ((twoLeaves.front k).rows i) =
        none → i = 0 := by
      decide +kernel
    have hrange : ∀ r ∈ twoLeaves.solveSubtrees, r.2 ≤ 2 := by decide +kernel
    have hk : k < 2 := hhi.trans_le (hrange r hr)
    have hsize : ∀ k < 2, (twoLeaves.front k).f = 2 ∧ 0 < (twoLeaves.front k).p := by decide +kernel
    obtain ⟨hf, hp⟩ := hsize k hk
    obtain rfl := hown k hk i (hf ▸ hi) hslot
    exact ⟨k, hlo, hhi, 0, hp, rfl⟩
  slots r s := by
    rcases r with _ | _ | _ | r <;> rcases s with _ | s <;> simp [ParallelKeep.topSlot, twoLeaves]
  top_rows r := by
    have hlast : ∀ k, twoLeaves.solveTopBegin ≤ k → k < twoLeaves.solveSteps.length → k = 2 :=
      fun k hlo hhi => by
        have hlo : 2 ≤ k := hlo
        have hhi : k < 3 := hhi
        omega
    have hrow : ∀ i < (twoLeaves.front 2).p, (twoLeaves.front 2).rows i = 2 := by decide +kernel
    constructor
    · intro hr
      obtain rfl := List.mem_singleton.mp hr
      exact ⟨2, le_rfl, by decide, 0, by decide, rfl⟩
    · rintro ⟨k, hlo, hhi, i, hi, rfl⟩
      obtain rfl := hlast k hlo hhi
      rw [hrow i hi]
      exact List.mem_singleton_self 2
  ancestors i j hne _ := absurd (Subsingleton.elim (α := Fin 1) i j) hne

theorem both {α : Type*} {f : Fin 2 → α} {a : α} (h0 : f 0 = a) (h1 : f 1 = a) (t : Fin 2) :
    f t = a := by
  rcases t with ⟨_ | _ | t, ht⟩
  · exact h0
  · exact h1
  · omega

variable (posdef : Bool)

/-- Thread 1 takes the first subtree and thread 0 the second, step about. -/
theorem twoLeaves_subtrees (x₀ : ℕ → ℚ) : ∃ tr s,
    (subtreeSweep { twoLeaves with isPosdef := posdef } x₀ fun (_ : Fin 2) _ => 7).Run tr s ∧
      ∀ t, s.pc t = .exited := by
  have h : (subtreeSweep { twoLeaves with isPosdef := posdef } x₀ fun (_ : Fin 2) _ => 7).Run
    [] _ := .nil
  have h := h.snoc (.assign (t := 1) rfl)
  have h := h.snoc (.take (t := 1) rfl rfl)
  have h := h.snoc (.assign (t := 0) rfl)
  have h := h.snoc (.take (t := 0) rfl rfl)
  have h := h.snoc (.enter (t := 1) rfl rfl Nat.one_pos (by exact Nat.one_pos) fun _ => 0)
  have h := h.snoc (.enter (t := 0) rfl rfl Nat.one_lt_two (by exact Nat.one_pos) fun _ => 0)
  have h := h.snoc (.access (t := 1) rfl (.read Nat.one_pos))
  have h := h.snoc (.access (t := 0) rfl (.read Nat.one_pos))
  have h := h.snoc (.access (t := 1) rfl .solve)
  have h := h.snoc (.access (t := 0) rfl .solve)
  have h := h.snoc (.access (t := 1) rfl (.pivot Nat.one_pos))
  have h := h.snoc (.access (t := 0) rfl (.pivot Nat.one_pos))
  have h := h.snoc (.access (t := 1) rfl (.buffer (s := 0) le_rfl Nat.one_lt_two rfl rfl))
  have h := h.snoc (.access (t := 0) rfl (.buffer (s := 0) le_rfl Nat.one_lt_two rfl rfl))
  have h := h.snoc (.leave (t := 1) rfl)
  have h := h.snoc (.leave (t := 0) rfl)
  have h := h.snoc (.back (t := 1) rfl rfl le_rfl)
  have h := h.snoc (.back (t := 0) rfl rfl le_rfl)
  have h := h.snoc (.none (t := 1) rfl le_rfl)
  have h := h.snoc (.none (t := 0) rfl (Nat.le_succ 2))
  exact ⟨_, _, h, both rfl rfl⟩

/-- The one slot is in the slice of thread 1. -/
theorem twoLeaves_sums (m : Vectors ℚ 2) : ∃ tr a,
    (bufferSums { twoLeaves with isPosdef := posdef } m).Run tr a ∧ ∀ t, a.pc t = .exited := by
  have h : (bufferSums { twoLeaves with isPosdef := posdef } m).Run [] _ := .nil
  have h := h.snoc (.leave (t := 0) rfl (by cases posdef <;> decide))
  have h := h.snoc (.first (t := 1) rfl (by cases posdef <;> decide))
  have h := h.snoc (.add (t := 1) rfl Nat.two_pos)
  have h := h.snoc (.add (t := 1) rfl Nat.one_lt_two)
  have h := h.snoc (.load (t := 1) rfl)
  have h := h.snoc (.save (t := 1) rfl)
  have h := h.snoc (.leave (t := 1) rfl (by cases posdef <;> decide))
  exact ⟨_, _, h, both rfl rfl⟩

/-- Thread 0 runs the top front. -/
theorem twoLeaves_top (m : Vectors ℚ 2) : ∃ tr s,
    (topSweep { twoLeaves with isPosdef := posdef } m).Run tr s ∧ ∀ t, s.dag.pc t = .exited := by
  let i : Fin (ParallelKeep.topSteps { twoLeaves with isPosdef := posdef }) := ⟨0, Nat.one_pos⟩
  have h : (topSweep { twoLeaves with isPosdef := posdef } m).Run [] _ := .nil
  have h := h.snoc (.dag (.pollSome (t := 0) rfl (show (1 : ℤ) ≠ 0 by decide)) rfl rfl)
  have h := h.snoc (.dag (.pop (t := 0) (l := []) (i := i) rfl rfl rfl) rfl rfl)
  have h := h.snoc (.dag (.countDown (t := 0) rfl) rfl rfl)
  have h := h.snoc (.dag (.leave (t := 0) rfl) rfl rfl)
  have h := h.snoc (.begin (t := 0) (i := i) (.begin rfl) Nat.one_pos fun _ => 0)
  have h := h.snoc (.access (t := 0) (i := i) rfl (.read Nat.one_pos))
  have h := h.snoc (.access (t := 0) (i := i) rfl .solve)
  have h := h.snoc (.access (t := 0) (i := i) rfl (.pivot Nat.one_pos))
  have h := h.snoc (.done (t := 0) (i := i)
    (.done rfl List.nodup_nil fun j => ⟨nofun, fun hj => nomatch hj⟩)
    fun _ => ⟨_, _, rfl⟩)
  have h := h.snoc (.dag (.retNone (t := 0) rfl) rfl rfl)
  have h := h.snoc (.dag (.finish (t := 0) rfl) rfl rfl)
  have h := h.snoc (.dag (.pollNone (t := 0) rfl rfl) rfl rfl)
  have h := h.snoc (.dag (.pollNone (t := 1) rfl rfl) rfl rfl)
  have h := h.snoc (.dag (.exit (t := 0) rfl rfl) rfl rfl)
  have h := h.snoc (.dag (.exit (t := 1) rfl rfl) rfl rfl)
  exact ⟨_, _, h, both rfl rfl⟩

/-- A solve on two threads. -/
theorem twoLeaves_parallel (x₀ : ℕ → ℚ) : ∃ z,
    ParallelForward { twoLeaves with isPosdef := posdef } 2 x₀ z := by
  obtain ⟨tr₁, s₁, h₁, hall₁⟩ := twoLeaves_subtrees posdef x₀
  obtain ⟨tr₂, s₂, h₂, hall₂⟩ := twoLeaves_sums posdef s₁.mem
  obtain ⟨tr₃, s₃, h₃, hall₃⟩ := twoLeaves_top posdef ⟨s₂.x, s₁.mem.top⟩
  exact ⟨_, .mk h₁ hall₁ h₂ hall₂ h₃ hall₃⟩

/-- Two columns on two threads. -/
theorem solveForward_eq_twoLeaves : ∃ X : Fin 2 → ℕ → ℚ,
    SolveForward twoLeaves threeColumns 4 true (fun c r => c.1 + r) X ∧
      ∀ c, X c = (twoLeaves.fronts threeColumns).foldl (forwardFront true)
        (twoLeaves.permuted fun r => c.1 + r) := by
  obtain ⟨X, hX⟩ := Classical.axiomOfChoice fun c : Fin 2 =>
    twoLeaves_parallel true (twoLeaves.permuted fun r => c.1 + r)
  have h : SolveForward twoLeaves threeColumns 4 true (fun c r => c.1 + r) X :=
    .parallel (by decide) hX
  exact ⟨X, h, solveForward_eq twoLeaves twoLeaves_layout threeColumns 4 true _ X h⟩

end Solve
end SmfSolver
