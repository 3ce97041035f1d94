/-
  SmfSolver.Solve.BackwardSpec

  The backward solve of any number of columns on any number of threads.

  1. `dagSchedule_lawful`: `run_dag` keeps the promises of a scheduler.
  2. `parallelBackward_eq`: the two runs of the pool leave the solution of the fronts'
     equations, whatever the interleaving.
  3. `solveBackward_eq`: every way through `solve_backward` leaves in every column what the
     fronts leave one after the other.
-/
import SmfSolver.Solve.ParallelForwardSpec
import SmfSolver.Solve.PivotBlocks

namespace SmfSolver
namespace Solve

open Lib

/-! ## run_dag as a scheduler -/

section Dag

variable {n T : ℕ} {D : Dag n} {ready : List (Fin n)} {tr : List (DagEvent n T)}
  {s s' : DagState n T} {e : DagEvent n T} {t : Fin T}

theorem dagSchedule_begun : (dagSchedule D T ready).begun tr = begun tr := by
  apply List.filterMap_congr
  intro e _
  cases e <;> rfl

theorem dagSchedule_ended : (dagSchedule D T ready).ended tr = ended tr := by
  apply List.filterMap_congr
  intro e _
  cases e <;> rfl

@[simp] theorem onward_node (i : Option (Fin n)) : (DagState.onward i).node = none := by
  cases i <;> rfl

/-- A thread that stays inside its node, or outside of all. -/
theorem node_kept {a : Pc n} (hpc : s'.pc = Function.update s.pc t a)
    (ha : a.node = (s.pc t).node) : (fun u => (s'.pc u).node) = fun u => (s.pc u).node := by
  funext u
  rw [hpc]
  by_cases hut : u = t
  · rw [hut, Function.update_self, ha]
  · rw [Function.update_of_ne hut]

/-- Only the begin and the end of a node's work change where the threads are. -/
theorem node_moves (h : DagState.Step D s e s') (hm : e.mark = .moves) :
    (fun u => (s'.pc u).node) = fun u => (s.pc u).node := by
  cases h with
  | begin h => cases hm
  | done h _ _ => cases hm
  -- the thread goes on to its next ready node, or back to the list, outside of all nodes
  | leave h | finish h =>
    apply node_kept rfl
    rw [onward_node, h]
    rfl
  | pollNone h _ | pollSome h _ | exit h _ | relax h _ | pop h _ _ | empty h _ _ | countDown h
  | count h _ | release h _ | push h _ | countUp h | unlock h | retNone h | retSome h =>
    apply node_kept rfl
    rw [h]
    rfl

/-- `run_dag` from its sources is a schedule: a node waits for its predecessors. -/
theorem dagSchedule_lawful (hnodup : ready.Nodup) (hsources : ∀ i, i ∈ ready ↔ ∀ j, ¬D.edge j i) :
    (dagSchedule D T ready).Lawful D.edge (fun _ => True) fun s => ∃ t, s.pc t = .exited where
  start _ := rfl
  moves _ hs hm := node_moves hs hm
  begins {tr s e s' t i} _ hs hm := by
    cases hs with
    | @begin t' i' h =>
      cases hm
      refine ⟨?_, Function.comp_update Pc.node s.pc t _⟩
      show (s.pc t).node = none
      rw [h]
      rfl
    | _ => cases hm
  ends {tr s e s' t i} _ hs hm := by
    cases hs with
    | @done t' i' todo h _ _ =>
      cases hm
      refine ⟨?_, Function.comp_update Pc.node s.pc t _⟩
      show (s.pc t).node = some i
      rw [h]
      rfl
    | _ => cases hm
  -- a node begins once: the accounts of `runInv` hold no node twice
  once h := by
    rw [dagSchedule_begun]
    exact (Multiset.nodup_add.mp (runInv_of_run hnodup hsources h).accounts.nodup).2.1
  item _ _ _ := trivial
  order h i j hij hj := by
    rw [dagSchedule_begun] at hj
    rw [dagSchedule_ended]
    exact (runInv_of_run hnodup hsources h).ended_of_held (Multiset.mem_add.mpr (.inr hj)) hij
  finished {tr s} h hexit i _ := by
    rw [dagSchedule_ended]
    obtain ⟨t, ht⟩ := hexit
    have hinv := runInv_of_run hnodup hsources h
    exact (hinv.all_done (hinv.counters.exited t ht)).1 i

end Dag

/-! ## The layout -/

/-- What a parallel backward solve relies on: the layout, and parents that are in the top
    part. -/
structure ParallelKeep.BackLayout {K : Type*} [Field K] (fk : ParallelKeep K) : Prop extends
    fk.Layout where
  parent_mem : ∀ i j : ℕ, fk.solveTopParent[i]? = some (some j) → j < fk.topSteps

section Parallel

variable {K : Type*} [Field K] {fk : ParallelKeep K}

omit [Field K] in
theorem topDown_edge (i j : Fin fk.topSteps) :
    fk.topDown.edge i j ↔ fk.solveTopParent[j.1]? = some (some i.1) := Iff.rfl

omit [Field K] in
theorem topRoots_nodup : fk.topRoots.Nodup := (List.nodup_finRange _).filter _

theorem topRoots_iff (hl : fk.BackLayout) (i : Fin fk.topSteps) :
    i ∈ fk.topRoots ↔ ∀ j, ¬fk.topDown.edge j i := by
  rw [ParallelKeep.topRoots, List.mem_filter, and_iff_right (List.mem_finRange i),
    List.getD_eq_getElem?_getD]
  cases hi : fk.solveTopParent[i.1]? with
  | none =>
    refine iff_of_true rfl fun j hj => ?_
    rw [topDown_edge, hi] at hj
    cases hj
  | some o =>
    cases o with
    | none =>
      refine iff_of_true rfl fun j hj => ?_
      rw [topDown_edge, hi] at hj
      cases hj
    | some j => exact iff_of_false (by simp) fun hno => hno ⟨j, hl.parent_mem _ _ hi⟩ hi

/-- Each step before the top part is in one job, once. -/
theorem subtreeJobs_perm (hl : fk.Layout) :
    fk.subtreeJobs.flatten.Perm (List.range fk.solveTopBegin) := by
  refine List.Perm.trans ?_ hl.covers
  rw [ParallelKeep.subtreeJobs, ← List.flatMap_def]
  exact List.Perm.flatMap_left _ fun r _ => List.reverse_perm _

/-- A step of a range waits for the later ones. -/
theorem later_first {r : ℕ × ℕ} {k k' : ℕ} (hlo : r.1 ≤ k) (hlt : k < k') (hhi : k' < r.2) :
    [k', k].Sublist (rangeIndices r).reverse := by
  have hsplit : rangeIndices r = List.range' r.1 (k' - r.1) ++ List.range' k' (r.2 - k') := by
    rw [rangeIndices, show r.2 - r.1 = (k' - r.1) + (r.2 - k') by omega,
      ← List.range'_append_1, Nat.add_sub_cancel' (hlo.trans hlt.le)]
  have hk : [k].Sublist (List.range' r.1 (k' - r.1)) :=
    List.singleton_sublist.mpr (List.mem_range'_1.mpr ⟨hlo, by omega⟩)
  have hk' : [k'].Sublist (List.range' k' (r.2 - k')) :=
    List.singleton_sublist.mpr (List.mem_range'_1.mpr ⟨le_rfl, by omega⟩)
  rw [hsplit]
  exact (hk.append hk').reverse

end Parallel

/-! ## The two runs -/

section Runs

variable {K : Type*} [Field K] [LinearOrder K] [IsStrictOrderedRing K] {fk : BackwardKeep K}
  {applyDiag : Bool} {T : ℕ} {x₀ x z z' : ℕ → K} {stage : ℕ → ℕ}

omit [LinearOrder K] [IsStrictOrderedRing K] in
/-- With all fronts done the vector is the solution. -/
theorem Holds.all_done {fr : ℕ → Front K} {N : ℕ} {posdef : Bool} {d : ℕ → (ℕ → K) → ℕ → K}
    (h : Holds fr N x₀ z stage x) (hz : BackSolution posdef fr d (List.range N) x₀ z)
    (hdone : ∀ k < N, stage k = (fr k).p) : x = z := by
  funext r
  by_cases hr : ∃ k < N, ∃ i < (fr k).p, (fr k).rows i = r
  · obtain ⟨k, hk, i, hi, rfl⟩ := hr
    exact h.stored_row hk (hdone k hk).ge hi
  · have hno : ∀ k < N, ∀ i < (fr k).p, (fr k).rows i ≠ r := fun k hk i hi he =>
      hr ⟨k, hk, i, hi, he⟩
    rw [h.other r hno, hz.other r fun k hk => hno k (List.mem_range.mp hk)]

/-- The top part, each front after the ancestors that pivot its extended rows. -/
theorem topDownSweep_done (hl : fk.BackLayout) (hfits : fk.DinvFits)
    (hz : BackSolution fk.isPosdef fk.front (fk.frontD applyDiag)
      (List.range fk.solveSteps.length) x₀ z)
    {tr : List (Option (DagEvent fk.topSteps T))}
    {s : Busy (DagState fk.topSteps T) (ℕ → K) (BackWork K) T} (t : Fin T)
    (h : (fk.topDownSweep applyDiag T x₀).Run tr s) (hall : ∀ t, s.sched.pc t = .exited) :
    ∃ stage, Holds fk.front fk.solveSteps.length x₀ z stage s.mem ∧
      (∀ k < fk.solveTopBegin, stage k = 0) ∧
      ∀ k, fk.solveTopBegin ≤ k → k < fk.solveSteps.length → stage k = (fk.front k).p := by
  have hs := hl.ordered.steps
  have hstart : Holds fk.front fk.solveSteps.length x₀ z (fun _ => 0) x₀ :=
    ⟨fun _ _ _ _ hlt => absurd hlt (Nat.not_lt_zero _), fun _ _ _ _ _ => rfl, fun _ _ => rfl⟩
  have hlt : ∀ i : Fin fk.topSteps, fk.solveTopBegin + i.1 < fk.solveSteps.length :=
    fun i => Nat.add_lt_of_lt_sub' i.2
  obtain ⟨stage, hholds, hdone, hrest⟩ := backPhase hs hz (fun k hk => frontD_local hfits hk)
    (dagSchedule_lawful topRoots_nodup (topRoots_iff hl)) (fun i _ => hlt i)
    (fun i j hij => Fin.ext (Nat.add_left_cancel hij)) (fun _ _ => rfl)
    (fun i _ l hlo hf k hk a ha he => by
      -- the row's front is later than a top front, so it is in the top part: an ancestor
      have hbefore := hs.lt_of_extended (hlt i) ha hlo hf he
      let c : Fin fk.topSteps := ⟨k - fk.solveTopBegin, Nat.sub_lt_sub_right (by omega) hk⟩
      have hc : fk.solveTopBegin + c.1 = k := Nat.add_sub_cancel' (by omega)
      have hne : i ≠ c := fun hic => by
        have hval : i.1 = c.1 := congrArg Fin.val hic
        omega
      refine .inr ⟨c, hc, ?_⟩
      have habove := hl.ancestors i c hne ⟨l, hf, a, hc ▸ ha, hc ▸ he.symm⟩
      exact habove.swap)
    hstart h ⟨t, hall t⟩
  refine ⟨stage, hholds, fun k hk => hrest k fun i _ he => by omega, fun k hlo hk => ?_⟩
  have hk' := hdone ⟨k - fk.solveTopBegin, Nat.sub_lt_sub_right hlo hk⟩ trivial
  rwa [Nat.add_sub_cancel' hlo] at hk'

/-- The subtrees after the top part. -/
theorem subtreesDown_done (hl : fk.BackLayout) (hfits : fk.DinvFits)
    (hz : BackSolution fk.isPosdef fk.front (fk.frontD applyDiag)
      (List.range fk.solveSteps.length) x₀ z)
    (hx : Holds fk.front fk.solveSteps.length x₀ z stage x)
    (hfresh : ∀ k < fk.solveTopBegin, stage k = 0)
    (htop : ∀ k, fk.solveTopBegin ≤ k → k < fk.solveSteps.length → stage k = (fk.front k).p)
    {tr : List (Option (Mark ℕ T))} {s : Busy (ClaimState ℕ T) (ℕ → K) (BackWork K) T}
    (t : Fin T) (h : (fk.subtreesDown applyDiag T x).Run tr s)
    (hall : ∀ t, s.sched.pc t = .exited) : s.mem = z := by
  have hs := hl.ordered.steps
  have hperm := subtreeJobs_perm hl.toLayout
  have hitem : ∀ k, k ∈ fk.subtreeJobs.flatten ↔ k < fk.solveTopBegin := fun k =>
    hperm.mem_iff.trans List.mem_range
  have hlt : ∀ k, k ∈ fk.subtreeJobs.flatten → k < fk.solveSteps.length := fun k hk =>
    ((hitem k).mp hk).trans_le hl.top_le
  obtain ⟨stage', hholds, hdone, hrest⟩ := backPhase hs hz (fun k hk => frontD_local hfits hk)
    (claimed_lawful (hperm.nodup_iff.mpr List.nodup_range) t) hlt Function.injective_id
    (fun k hk => hfresh k ((hitem k).mp hk))
    (fun k hk l hlo hf k' hk' a ha he => by
      have hkt := (hitem k).mp hk
      rcases Nat.lt_or_ge k' fk.solveTopBegin with hbelow | hge
      · -- a row of the subtree: its front is a later step of the same subtree
        have hnone : fk.topSlot ((fk.front k).rows l) = none := by
          cases hslot : fk.topSlot ((fk.front k).rows l) with
          | none => rfl
          | some s =>
            have hmem := List.mem_of_getElem? ((hl.slots _ s).mp hslot)
            obtain ⟨q, hqlo, hq, j, hj, hrow⟩ := (hl.top_rows _).mp hmem
            obtain ⟨rfl, -⟩ := hs.pivot_unique hk' hq ha hj (he.trans hrow.symm)
            omega
        obtain ⟨i, r, hr, hrlo, hrhi⟩ := hl.exists_subtree hkt
        have hmem := List.mem_of_getElem? hr
        obtain ⟨q, hqlo, hqhi, j, hj, hrow⟩ := hl.within r hmem k hrlo hrhi l hf hnone
        have hqt := (hl.lt_topBegin hmem hqlo hqhi).trans_le hl.top_le
        obtain ⟨rfl, -⟩ := hs.pivot_unique hk' hqt ha hj (he.trans hrow.symm)
        have hafter := hs.lt_of_extended (hlt k hk) ha hlo hf he
        exact .inr ⟨k', rfl, .single ⟨_, List.mem_map_of_mem hmem, later_first hrlo hafter hqhi⟩⟩
      · -- a row of the top part, whose fronts the first run has done
        refine .inl ⟨?_, (htop k' hge hk').ge⟩
        rintro j hj rfl
        exact absurd ((hitem _).mp hj) (not_lt.mpr hge))
    hx h hall
  refine hholds.all_done hz fun k hk => ?_
  rcases Nat.lt_or_ge k fk.solveTopBegin with hbelow | hge
  · exact hdone k ((hitem k).mpr hbelow)
  · rw [hrest k fun i hi he => absurd ((hitem i).mp hi) (not_lt.mpr (he ▸ hge)), htop k hge hk]

/-- The two runs of the pool, one after the other. -/
theorem parallelBackward_eq (hl : fk.BackLayout) (hfits : fk.DinvFits)
    (hz : BackSolution fk.isPosdef fk.front (fk.frontD applyDiag)
      (List.range fk.solveSteps.length) x₀ z) (hT : 0 < T)
    (h : fk.ParallelBackward applyDiag T x₀ z') : z' = z := by
  obtain ⟨h₁, hall₁, h₂, hall₂⟩ := h
  obtain ⟨stage, hx, hfresh, htop⟩ := topDownSweep_done hl hfits hz ⟨0, hT⟩ h₁ hall₁
  exact subtreesDown_done hl hfits hz hx hfresh htop ⟨0, hT⟩ h₂ hall₂

end Runs

/-! ## solve_backward -/

section Solve

variable {K : Type*} [Field K] [LinearOrder K] [IsStrictOrderedRing K] {fk : BackwardKeep K}
  {applyDiag : Bool}

/-- The fronts of the steps, from the last to the first, leave the solution. -/
theorem serialBackward_solution (hl : fk.Layout) (hfits : fk.DinvFits) (hs : fk.solveSteps ≠ [])
    (ak : AnalysisKeep) (x : ℕ → K) :
    BackSolution fk.isPosdef fk.front (fk.frontD applyDiag) (List.range fk.solveSteps.length) x
      (fk.serialBackward applyDiag ak x) := by
  have hsteps := hl.ordered.steps
  have hlater : (List.range fk.solveSteps.length).Pairwise fun k l =>
      ∀ i < (fk.front k).p, ∀ j < (fk.front l).f, (fk.front l).rows j ≠ (fk.front k).rows i :=
    List.pairwise_lt_range.imp_of_mem fun {k l} _ hl hlt i hi j hj =>
      hsteps.later k l hlt (List.mem_range.mp hl) i hi j hj
  rw [BackwardKeep.serialBackward, BackwardKeep.fronts, if_neg hs, List.foldr_map]
  exact foldr_solution (fun k hk => hsteps.good k (List.mem_range.mp hk))
    (fun k hk => frontD_local hfits (List.mem_range.mp hk)) hlater

omit [LinearOrder K] [IsStrictOrderedRing K] in
/-- A list of fronts, each in a block. -/
theorem foldr_backwardFrontBlock {posdef : Bool} {Fs : List (Front K × ((ℕ → K) → ℕ → K))}
    {x : ℕ → K} (hgood : ∀ F ∈ Fs, F.1.Good posdef) :
    Fs.foldr (fun F x => backwardFrontBlock posdef F.2 F.1 x) x =
      Fs.foldr (fun F x => backwardFront posdef F.2 F.1 x) x := by
  induction Fs with
  | nil => rfl
  | cons F Fs ih =>
    rw [List.foldr_cons, List.foldr_cons, ih fun G hG => hgood G (List.mem_cons_of_mem F hG)]
    exact backwardFrontBlock_eq (hgood F List.mem_cons_self)

/-- Every way through `solve_backward` leaves the solution of the steps' equations. -/
theorem solveBackward_solution (hl : fk.BackLayout) (hfits : fk.DinvFits)
    (hs : fk.solveSteps ≠ []) {ak : AnalysisKeep} {numThreads m : ℕ} {permute : Bool}
    {B X : Fin m → ℕ → K} (h : fk.SolveBackward applyDiag ak numThreads permute B X) (c : Fin m) :
    ∃ z, BackSolution fk.isPosdef fk.front (fk.frontD applyDiag)
      (List.range fk.solveSteps.length) (B c) z ∧
        X c = if permute then fk.unpermuted z else z := by
  have hserial : BackSolution fk.isPosdef fk.front (fk.frontD applyDiag)
      (List.range fk.solveSteps.length) (B c) (fk.serialBackward applyDiag ak (B c)) :=
    serialBackward_solution hl.toLayout hfits hs ak (B c)
  cases h with
  | block hm ht _ =>
    have hgood : ∀ F ∈ fk.fronts applyDiag ak, F.1.Good fk.isPosdef := by
      intro F hF
      rw [BackwardKeep.fronts, if_neg hs] at hF
      obtain ⟨k, hk, rfl⟩ := List.mem_map.mp hF
      exact hl.ordered.steps.good k (List.mem_range.mp hk)
    rw [BackwardKeep.serialBackward, ← foldr_backwardFrontBlock hgood] at hserial
    exact ⟨_, hserial, rfl⟩
  | serial hm ht => exact ⟨_, hserial, rfl⟩
  | @parallel Z ht hruns =>
    rw [← parallelBackward_eq hl hfits hserial (Nat.zero_lt_of_lt ht) (hruns c)] at hserial
    exact ⟨_, hserial, rfl⟩

omit [Field K] [LinearOrder K] [IsStrictOrderedRing K] in
theorem backThreads_steps {numThreads : ℕ} (h : 1 < fk.backThreads numThreads) :
    fk.solveSteps ≠ [] := by
  intro hs
  rw [ParallelKeep.backThreads, if_neg fun hc => hc.1 hs] at h
  exact absurd h (lt_irrefl 1)

/-- Over any valid layout, with `D^-1` in the fronts or not and from built inverses or not,
    for any number of right-hand sides, threads allowed and either treatment of the
    permutation: whatever `solve_backward` does, every column ends as the fronts, one after
    the other from the last, leave it. -/
theorem solveBackward_eq (fk : BackwardKeep K) (hl : fk.BackLayout) (hfits : fk.DinvFits)
    (ak : AnalysisKeep) (applyDiag : Bool) (numThreads : ℕ) (permute : Bool) {m : ℕ}
    (B X : Fin m → ℕ → K) (h : fk.SolveBackward applyDiag ak numThreads permute B X) (c : Fin m) :
    X c = if permute then fk.unpermuted (fk.serialBackward applyDiag ak (B c))
      else fk.serialBackward applyDiag ak (B c) := by
  by_cases hs : fk.solveSteps = []
  · -- without steps there is neither a block nor a parallel layout
    cases h with
    | block hm ht hne => exact absurd hs hne
    | serial hm ht => rfl
    | parallel ht hruns => exact absurd hs (backThreads_steps ht)
  · obtain ⟨z, hz, hX⟩ := solveBackward_solution hl hfits hs h c
    rw [hX, hz.unique hl.ordered.steps (serialBackward_solution hl.toLayout hfits hs ak (B c))]

end Solve

/-! ## Two leaves and their parent -/

/-- `twoLeaves` with `D` in the diagonal slots. -/
def diagLeaves : BackwardKeep ℚ where
  toParallelKeep := { twoLeaves with isPosdef := false }
  perm := fun j => [1, 2, 0].getD j j
  inlineD := true
  dinv := fun _ => 0
  dinvKind := fun _ => 0

/-- The same with the inverses of its pivot blocks. -/
def builtLeaves : BackwardKeep ℚ :=
  { diagLeaves with
    dinvOffset := (List.range diagLeaves.solveSteps.length).map (offset diagLeaves.dinvPieces)
    dinv := fun i => (flatTriples diagLeaves.dinvPieces.flatten).getD i 0
    dinvKind := fun i => (diagLeaves.dinvPieces.flatten.map Prod.snd).getD i 0 }

theorem builtLeaves_eq : diagLeaves.buildInlineDinv true = builtLeaves := if_neg (by decide)

theorem builtLeaves_layout : builtLeaves.BackLayout where
  ordered := by
    refine ⟨fun F hF => ?_, twoLeaves_layout.ordered.lt_n, twoLeaves_layout.ordered.complete,
      twoLeaves_layout.ordered.later⟩
    have hgood := twoLeaves_layout.ordered.good F hF
    obtain ⟨k, hk, rfl⟩ := List.mem_map.mp hF
    exact ⟨hgood.p_le, hgood.inj, fun i _ => one_ne_zero, fun inv h => by cases h⟩
  top_le := twoLeaves_layout.top_le
  covers := twoLeaves_layout.covers
  within := twoLeaves_layout.within
  slots := twoLeaves_layout.slots
  top_rows := twoLeaves_layout.top_rows
  ancestors := twoLeaves_layout.ancestors
  parent_mem i j h := by
    rcases i with _ | i
    · cases h
    · cases h

variable (applyDiag : Bool)

/-- Thread 0 runs the top front. -/
theorem builtLeaves_top (x₀ : ℕ → ℚ) : ∃ tr s,
    (builtLeaves.topDownSweep applyDiag 2 x₀).Run tr s ∧ ∀ t, s.sched.pc t = .exited := by
  let i : Fin builtLeaves.topSteps := ⟨0, by decide⟩
  have h : (builtLeaves.topDownSweep applyDiag 2 x₀).Run [] _ := .nil
  have h := h.snoc (.move (.pollSome (t := 0) rfl (show (1 : ℤ) ≠ 0 by decide)) rfl)
  have h := h.snoc (.move (.pop (t := 0) (l := []) (i := i) rfl rfl rfl) rfl)
  have h := h.snoc (.move (.countDown (t := 0) rfl) rfl)
  have h := h.snoc (.move (.leave (t := 0) rfl) rfl)
  have h := h.snoc (.enter (t := 0) (i := i) (.begin rfl) rfl
    (show ∃ b, _ = BackWork.gather 2 0 b from ⟨fun _ => 7, rfl⟩))
  have h := h.snoc (.access (t := 0) (i := i) rfl (.read (by decide)))
  have h := h.snoc (.access (t := 0) (i := i) rfl .solve)
  have h := h.snoc (.access (t := 0) (i := i) rfl (.store (by decide)))
  have h := h.snoc (.leave (t := 0) (i := i)
    (.done rfl (show ([] : List (Fin builtLeaves.topSteps)).Nodup from List.nodup_nil) (by decide))
    rfl (.inr ⟨_, rfl⟩))
  have h := h.snoc (.move (.retNone (t := 0) rfl) rfl)
  have h := h.snoc (.move (.finish (t := 0) rfl) rfl)
  have h := h.snoc (.move (.pollNone (t := 0) rfl rfl) rfl)
  have h := h.snoc (.move (.pollNone (t := 1) rfl rfl) rfl)
  have h := h.snoc (.move (.exit (t := 0) rfl rfl) rfl)
  have h := h.snoc (.move (.exit (t := 1) rfl rfl) rfl)
  exact ⟨_, _, h, both rfl rfl⟩

/-- Thread 1 takes the first subtree and thread 0 the second, step about. -/
theorem builtLeaves_subtrees (x : ℕ → ℚ) : ∃ tr s,
    (builtLeaves.subtreesDown applyDiag 2 x).Run tr s ∧ ∀ t, s.sched.pc t = .exited := by
  have hgather : ∀ k < 2, ∀ a : BackWork ℚ, (∃ b, a = .gather k 0 b) →
      if (builtLeaves.front k).p = 0 then a = .idle else ∃ b, a = .gather k 0 b := by
    intro k hk a ha
    have hp : (builtLeaves.front k).p ≠ 0 := by
      obtain rfl | rfl : k = 0 ∨ k = 1 := by omega
      · exact one_ne_zero
      · exact one_ne_zero
    rw [if_neg hp]
    exact ha
  -- from here the two threads step in turn, each in its own subtree
  have h : (builtLeaves.subtreesDown applyDiag 2 x).Run [] _ := .nil
  have h := h.snoc (.move (.take (t := 1) rfl (show builtLeaves.subtreeJobs[0]? = some
    [0] from rfl)) rfl)
  have h := h.snoc (.move (.take (t := 0) rfl (show builtLeaves.subtreeJobs[1]? = some
    [1] from rfl)) rfl)
  have h := h.snoc (.enter (.begin (t := 1) (i := 0) rfl) rfl
    (hgather 0 (by decide) _ ⟨fun _ => 7, rfl⟩))
  have h := h.snoc (.enter (.begin (t := 0) (i := 1) rfl) rfl
    (hgather 1 (by decide) _ ⟨fun _ => 7, rfl⟩))
  have h := h.snoc (.access (t := 1) (i := 0) rfl (.read (by decide)))
  have h := h.snoc (.access (t := 0) (i := 1) rfl (.read (by decide)))
  have h := h.snoc (.access (t := 1) (i := 0) rfl (.read (by decide)))
  have h := h.snoc (.access (t := 0) (i := 1) rfl (.read (by decide)))
  have h := h.snoc (.access (t := 1) (i := 0) rfl .solve)
  have h := h.snoc (.access (t := 0) (i := 1) rfl .solve)
  have h := h.snoc (.access (t := 1) (i := 0) rfl (.store (by decide)))
  have h := h.snoc (.access (t := 0) (i := 1) rfl (.store (by decide)))
  have h := h.snoc (.leave (.finish (t := 1) (i := 0) rfl) rfl (.inr ⟨_, rfl⟩))
  have h := h.snoc (.leave (.finish (t := 0) (i := 1) rfl) rfl (.inr ⟨_, rfl⟩))
  have h := h.snoc (.move (.back (t := 1) rfl) rfl)
  have h := h.snoc (.move (.back (t := 0) rfl) rfl)
  have h := h.snoc (.move (.none (t := 1) rfl (show 2 ≤ 2 from le_rfl)) rfl)
  have h := h.snoc (.move (.none (t := 0) rfl (show 2 ≤ 3 from Nat.le_succ 2)) rfl)
  exact ⟨_, _, h, both rfl rfl⟩

/-- A solve on two threads. -/
theorem builtLeaves_parallel (x₀ : ℕ → ℚ) :
    ∃ z, builtLeaves.ParallelBackward applyDiag 2 x₀ z := by
  obtain ⟨tr₁, s₁, h₁, hall₁⟩ := builtLeaves_top applyDiag x₀
  obtain ⟨tr₂, s₂, h₂, hall₂⟩ := builtLeaves_subtrees applyDiag s₁.mem
  exact ⟨_, .mk h₁ hall₁ h₂ hall₂⟩

/-- Two columns on two threads, with the built inverses. -/
theorem solveBackward_eq_builtLeaves : ∃ X : Fin 2 → ℕ → ℚ,
    builtLeaves.SolveBackward true threeColumns 4 true (fun c r => c.1 + r) X ∧
      ∀ c, X c = builtLeaves.unpermuted
        (builtLeaves.serialBackward true threeColumns fun r => c.1 + r) := by
  have hfits : builtLeaves.DinvFits := builtLeaves_eq ▸ buildInlineDinv_fits diagLeaves true
  obtain ⟨Z, hZ⟩ := Classical.axiomOfChoice fun c : Fin 2 =>
    builtLeaves_parallel true fun r => c.1 + r
  have h : builtLeaves.SolveBackward true threeColumns 4 true (fun c r => c.1 + r) _ :=
    .parallel (by decide) hZ
  exact ⟨_, h, solveBackward_eq builtLeaves builtLeaves_layout hfits threeColumns true 4 true _ _ h⟩

end Solve
end SmfSolver
