/-
  SmfSolver.Parallel.GatherRuns

  What the two phases of a tree-parallel factorization store: the passes' factors, the
  fronts' runs, and the budget states.  A run is one of `Subtrees` and then one of `Top`,
  and every front is stored where its loop goes on (`passed`).

  In deterministic mode each front is run with what the one-thread engine runs it with:
  its children are through (`Subtrees.Inv`, `Top.Inv`), and the state it starts from is its
  task's, or its children's end states.

  `gather_eq`: any run that no limit stops merges to the one-thread engine's fronts and D
  entries, and every front has the same choice and the same budget before and after.
-/
import SmfSolver.Parallel.BudgetRegions
import SmfSolver.Parallel.DisarmedRuns
import Mathlib.Algebra.BigOperators.Fin

namespace SmfSolver
namespace Parallel

open Lib
open Multifrontal (AssemblyTree Below)
open Multifrontal.AssemblyTree (taskFronts mem_taskFronts)

variable {α : Type} {T : AssemblyTree} {threads : ℕ}

/-- The threads' passes, the fronts' runs, every thread's running state, and the end state
    of every task and top front. -/
structure Store (α : Type) (threads : ℕ) where
  passes : Fin threads → FrontPass α := fun _ => {}
  runs : ℕ → Option (FrontRun α) := fun _ => none
  budget : Fin threads → BudgetState := fun _ => {}
  nodeBudget : ℕ → BudgetState := fun _ => {}

/-- A front is stored in a pass. -/
def Store.keep (st : Store α threads) (t : Fin threads) (x : ℕ) (run : FrontRun α) :
    Store α threads :=
  { st with
    passes := Function.update st.passes t ((st.passes t).store x run.out.toFrontFactor)
    runs := Function.update st.runs x (some run) }

namespace FrontConfig

variable (C : FrontConfig α) (P : Partition T)

/-- A front of a task, on serial BLAS. -/
def subtreeFront (st : Store α threads) (t : Fin threads) (x : ℕ) : FrontRun α :=
  C.processFront T x (kidsOf T st.runs x) (C.det && C.tilesOn) 1
    (if C.regions P then st.budget t else {})

/-- One step of phase 1. -/
def subtreeStep (st : Store α threads) : Subtrees.Label threads → Store α threads
  | (some (.began t _ _), _) => { st with budget := Function.update st.budget t {} }
  | (some (.ended t i), none) =>
    if C.regions P then
      { st with nodeBudget := Function.update st.nodeBudget (P.range i).2 (st.budget t) }
    else st
  | (_, some (.passed t x)) =>
    let run := C.subtreeFront P st t x
    { st.keep t x run with budget := Function.update st.budget t run.after }
  | _ => st

def subtreeStore (tr : List (Subtrees.Label threads)) : Store α threads :=
  tr.foldl (C.subtreeStep P) {}

/-- Phase 2: the pass (`PassLanes`) and the BLAS threads of every top front. -/
structure TopPlan (threads : ℕ) where
  lane : ℕ → Fin threads
  share : ℕ → ℕ

variable (plan : TopPlan threads)

/-- A top front; in deterministic mode its share of the BLAS threads is not used. -/
def topFront (st : Store α threads) (x : ℕ) : FrontRun α :=
  C.processFront T x (kidsOf T st.runs x) C.tilesOn (if C.det then 1 else plan.share x)
    (if C.regions P then topInState T st.nodeBudget x else {})

/-- One step of phase 2. -/
def topStep {J : Type} (st : Store α threads) :
    Top.Label P.topNodes.length threads J → Store α threads
  | (_, some (.passed _ x)) =>
    let run := C.topFront P plan st x
    { st.keep (plan.lane x) x run with
      nodeBudget := if C.regions P then Function.update st.nodeBudget x run.after
        else st.nodeBudget }
  | _ => st

def topStore {J : Type} (st : Store α threads)
    (tr : List (Top.Label P.topNodes.length threads J)) : Store α threads :=
  tr.foldl (C.topStep P plan) st

/-- What a factorization that nothing stops can have stored when it comes to phase 3.  There
    are at least two tasks, or the one-thread engine runs. -/
inductive Gathers (E : FrontLimits) (threads : ℕ) (J : Type) [DecidableEq J] :
    Store α threads → Prop
  | subtrees {tr s} (htasks : 2 ≤ P.ranges.length) (caller : Fin threads) (hcaller : caller.1 = 0)
      (h : (Subtrees.system P E threads).Run tr s) (hret : s.control.pc caller = .returned)
      (hok : s.tally.failed = .success) (hnone : P.topNodes = []) :
      Gathers E threads J (C.subtreeStore P tr)
  | top {tr s tr' s'} (htasks : 2 ≤ P.ranges.length) (caller : Fin threads)
      (hcaller : caller.1 = 0)
      (h : (Subtrees.system P E threads).Run tr s) (hret : s.control.pc caller = .returned)
      (hok : s.tally.failed = .success) (hne : P.topNodes ≠ []) (plan : TopPlan threads)
      (h' : (Top.system P E threads J s.tally).Run tr' s')
      (hdone : ∀ w, s'.sched.worker w = .done) (hok' : s'.tally.failed = .success) :
      Gathers E threads J (C.topStore P plan (C.subtreeStore P tr) tr')

end FrontConfig

/-- Phase 3 over the threads' passes. -/
def Store.merged (st : Store α threads) (T : AssemblyTree) : FactorKeep α :=
  merge (List.ofFn st.passes) T.ns

/-- The running state of task `i` before front `k`. -/
def FrontConfig.taskState (C : FrontConfig α) (P : Partition T) (i k : ℕ) : BudgetState :=
  if k = (P.range i).1 then {} else (C.frontRun P (k - 1)).after

/-! ## Regions and tasks -/

section Regions

variable {P : Partition T} {C : FrontConfig α} {i j x c : ℕ}

theorem regionEnd_range (hi : i < P.ranges.length) (hx : x ∈ taskFronts (P.range i)) :
    FrontConfig.regionEnd P x = some (P.range i).2 := by
  rw [FrontConfig.regionEnd]
  cases hf : P.ranges.find? fun r => decide (r.1 ≤ x ∧ x ≤ r.2) with
  | none =>
    have hnot := List.find?_eq_none.mp hf (P.range i) (Partition.range_mem hi)
    exact absurd (decide_eq_true (mem_taskFronts.mp hx)) hnot
  | some r =>
    have hsome : decide (r.1 ≤ x ∧ x ≤ r.2) = true :=
      List.find?_some (p := fun r : ℕ × ℕ => decide (r.1 ≤ x ∧ x ≤ r.2)) hf
    have hr : x ∈ taskFronts r := mem_taskFronts.mpr (of_decide_eq_true hsome)
    obtain ⟨j, hj, rfl⟩ := List.mem_iff_getElem.mp (List.mem_of_find?_eq_some hf)
    have hrange : P.ranges[j] = P.range j := List.getElem_eq_getD (h := hj) _
    rw [hrange] at hr ⊢
    rw [Partition.range_unique hi hj hx hr]
    rfl

theorem regionEnd_top (hx : x ∈ P.topNodes) : FrontConfig.regionEnd P x = none := by
  rw [FrontConfig.regionEnd]
  have hnone : (P.ranges.find? fun r => decide (r.1 ≤ x ∧ x ≤ r.2)) = none := by
    refine List.find?_eq_none.mpr fun r hr hc => ?_
    exact Partition.notMem_topNodes hr (mem_taskFronts.mpr (of_decide_eq_true hc)) hx
  rw [hnone]
  rfl

theorem range_last_mem (hi : i < P.ranges.length) : (P.range i).2 ∈ taskFronts (P.range i) :=
  mem_taskFronts.mpr ⟨(P.isTask _ (Partition.range_mem hi)).le, le_rfl⟩

/-- The state a front of a task starts from. -/
theorem startState_range (hregions : C.regions P = true) (hi : i < P.ranges.length)
    (hx : x ∈ taskFronts (P.range i)) :
    C.startState P x = C.taskState P i x := by
  rw [FrontConfig.taskState, FrontConfig.startState, if_pos hregions, regionEnd_range hi hx]
  obtain ⟨hlo, hhi⟩ := mem_taskFronts.mp hx
  have hfirst : (x = 0 ∨ FrontConfig.regionEnd P (x - 1) ≠ some (P.range i).2) ↔
      x = (P.range i).1 := by
    constructor
    · rintro (rfl | hprev)
      · exact (Nat.le_zero.mp hlo).symm
      · by_contra hne
        exact hprev (regionEnd_range hi (mem_taskFronts.mpr ⟨by omega, by omega⟩))
    · rintro rfl
      refine or_iff_not_imp_left.mpr fun hpos hprev => ?_
      -- the front before would be in a task that ends where this one does
      rcases Partition.mem_range_or_top (P := P) (s := (P.range i).1 - 1)
        ((Nat.sub_le ..).trans_lt (Partition.lt_of_mem_taskFronts (Partition.range_mem hi) hx)) with
        ⟨r, hr, hxr⟩ | htop
      · obtain ⟨j, hj, rfl⟩ := List.mem_iff_getElem.mp hr
        have hrange : P.ranges[j] = P.range j := List.getElem_eq_getD (h := hj) _
        rw [hrange] at hxr
        rw [regionEnd_range hj hxr, Option.some.injEq] at hprev
        obtain rfl := Partition.range_unique hj hi (range_last_mem hj)
          (hprev ▸ range_last_mem hi)
        have hle := (mem_taskFronts.mp hxr).1
        omega
      · rw [regionEnd_top htop] at hprev
        cases hprev
  exact if_congr hfirst rfl rfl

theorem startState_top (hregions : C.regions P = true) (hx : x ∈ P.topNodes) :
    C.startState P x = FrontConfig.topInState T (C.endState P) x := by
  rw [FrontConfig.startState, if_pos hregions, regionEnd_top hx]

theorem endState_top (hregions : C.regions P = true) (hx : x ∈ P.topNodes) :
    C.endState P x = (C.frontRun P x).after := by
  rw [FrontConfig.endState, FrontConfig.keepsEnd, hregions, regionEnd_top hx]
  rfl

theorem endState_last (hregions : C.regions P = true) (hi : i < P.ranges.length) :
    C.endState P (P.range i).2 = (C.frontRun P (P.range i).2).after := by
  rw [FrontConfig.endState, FrontConfig.keepsEnd, hregions,
    regionEnd_range hi (range_last_mem hi)]
  exact if_pos (decide_eq_true (.inr rfl))

theorem endState_inner (hi : i < P.ranges.length) (hx : x ∈ taskFronts (P.range i))
    (hne : x ≠ (P.range i).2) : C.endState P x = {} := by
  rw [FrontConfig.endState, FrontConfig.keepsEnd, regionEnd_range hi hx]
  have hnot : ¬(some (P.range i).2 = none ∨ some (P.range i).2 = some x) := by
    rintro (hc | hc)
    · cases hc
    · exact hne (Option.some.inj hc).symm
  rw [decide_eq_false hnot, Bool.and_false]
  rfl

theorem endState_off (hregions : C.regions P = false) : C.endState P x = {} := by
  rw [FrontConfig.endState, FrontConfig.keepsEnd, hregions, Bool.false_and]
  rfl

/-- The children of a task's front are in the task, and before it. -/
theorem child_mem_range (hi : i < P.ranges.length) (hx : x ∈ taskFronts (P.range i))
    (hc : c ∈ T.children x) : c ∈ taskFronts (P.range i) ∧ c < x := by
  have htask := P.isTask _ (Partition.range_mem hi)
  obtain ⟨hlo, hhi⟩ := mem_taskFronts.mp hx
  have hlt : c < x := T.child_lt (hhi.trans_lt htask.lt) hc
  have hbelow : Below T.parent c x := .single ((T.mem_children x c).mp hc)
  exact ⟨mem_taskFronts.mpr ⟨htask.whole x hlo hhi c hbelow, (hlt.trans_le hhi).le⟩, hlt⟩

end Regions

/-! ## What is stored -/

/-- The passes and the runs, when these fronts were stored, each in its pass, in order. -/
structure Store.Holds (C : FrontConfig α) (P : Partition T) (dealt : List (Fin threads × ℕ))
    (st : Store α threads) : Prop where
  passes : ∀ t, st.passes t = FrontPass.storeAll (fun x => (C.frontRun P x).out.toFrontFactor) {}
    ((dealt.filter fun d => d.1 = t).map Prod.snd)
  runs : ∀ d ∈ dealt, st.runs d.2 = some (C.frontRun P d.2)

section Stored

variable {P : Partition T} {C : FrontConfig α} {E : FrontLimits} {l : Limit}
  {dealt : List (Fin threads × ℕ)} {st : Store α threads} {t : Fin threads} {i x : ℕ}

theorem Store.holds_nil : Store.Holds C P [] ({} : Store α threads) := ⟨fun _ => rfl, nofun⟩

theorem Store.Holds.congr {st' : Store α threads} (h : st.Holds C P dealt)
    (hpasses : st'.passes = st.passes) (hruns : st'.runs = st.runs) : st'.Holds C P dealt :=
  ⟨fun t => hpasses ▸ h.passes t, fun d hd => hruns ▸ h.runs d hd⟩

theorem Store.Holds.keep (h : st.Holds C P dealt) {run : FrontRun α}
    (hrun : run = C.frontRun P x) : (st.keep t x run).Holds C P (dealt ++ [(t, x)]) := by
  subst hrun
  constructor
  · intro u
    rw [Store.keep, List.filter_append, List.map_append, FrontPass.storeAll, List.foldl_append]
    dsimp only
    by_cases hut : u = t
    · subst hut
      rw [Function.update_self, h.passes u, List.filter_singleton, decide_eq_true rfl]
      rfl
    · have hne : decide (t = u) = false := decide_eq_false fun hc => hut hc.symm
      rw [Function.update_of_ne hut, h.passes u, List.filter_singleton, hne]
      rfl
  · intro d hd
    rw [Store.keep]
    dsimp only
    by_cases hdx : d.2 = x
    · rw [hdx, Function.update_self]
    · rw [Function.update_of_ne hdx]
      rcases List.mem_append.mp hd with hd | hd
      · exact h.runs d hd
      · exact absurd (congrArg Prod.snd (List.mem_singleton.mp hd)) hdx

/-- A front is run as the one-thread engine runs it. -/
theorem run_eq (hdet : C.det = true) (hregions : C.regions P = C.budgetOn) (hx : x < T.ns)
    {bs : BudgetState} (hkids : ∀ c ∈ T.children x, st.runs c = some (C.frontRun P c))
    (hstart : bs = C.startState P x) :
    C.processFront T x (FrontConfig.kidsOf T st.runs x) C.tilesOn 1 bs = C.frontRun P x := by
  rw [FrontConfig.kidsOf_eq hkids, hstart, FrontConfig.frontRun_eq hx hregions, hdet, if_pos rfl,
    Bool.true_and]

theorem regions_of_tasks (h : 2 ≤ P.ranges.length) : C.regions P = C.budgetOn := by
  have hne : P.ranges.isEmpty = false := by
    cases hr : P.ranges with
    | nil =>
      rw [hr] at h
      cases h
    | cons r rs => rfl
  rw [FrontConfig.regions, hne, Bool.not_false, Bool.and_true]

end Stored

/-! ### Phase 1 -/

/-- The store of a run of phase 1. -/
structure Store.Gathered (C : FrontConfig α) (P : Partition T) (tr : List (Subtrees.Label threads))
    (s : Subtrees threads) (st : Store α threads) : Prop where
  holds : st.Holds C P (Tally.through (right tr))
  /-- The running state of a thread is that of the front before. -/
  budget : C.regions P = true → ∀ t i way, s.control.pc t = .task i way →
    st.budget t = C.taskState P i (s.k t)
  ended : C.regions P = true → ∀ i < P.ranges.length, Phase1.endings (left tr) i ≠ 0 →
    st.nodeBudget (P.range i).2 = (C.frontRun P (P.range i).2).after
  inner : ∀ x, (∀ i < P.ranges.length, (P.range i).2 ≠ x) → st.nodeBudget x = {}
  off : C.regions P = false → ∀ x, st.nodeBudget x = {}

section Gathered

variable {P : Partition T} {C : FrontConfig α} {E : FrontLimits} {l : Limit}
  {tr : List (Subtrees.Label threads)} {s s' : Subtrees threads} {st : Store α threads}
  {a : Subtrees.Label threads} {t : Fin threads} {i x : ℕ}

theorem Store.gathered_init : Store.Gathered C P [] (Subtrees.init threads P.ranges.length)
    ({} : Store α threads) where
  holds := Store.holds_nil
  budget _ _ _ _ h := nomatch h
  ended _ _ _ h := absurd rfl h
  inner _ _ := rfl
  off _ _ := rfl

/-- A step that stores nothing, and moves no thread into a task or through a front. -/
theorem Store.Gathered.quiet (h : st.Gathered C P tr s)
    (hthrough : Tally.through (right (tr ++ [a])) = Tally.through (right tr))
    (hpc : ∀ u i way, s'.control.pc u = .task i way → s.control.pc u = .task i way)
    (hk : s'.k = s.k)
    (hendings : ∀ i, Phase1.endings (left (tr ++ [a])) i = Phase1.endings (left tr) i) :
    st.Gathered C P (tr ++ [a]) s' where
  holds := hthrough ▸ h.holds
  budget hreg u i way hu := by
    rw [hk]
    exact h.budget hreg u i way (hpc u i way hu)
  ended hreg i hi he := h.ended hreg i hi (hendings i ▸ he)
  inner := h.inner
  off := h.off

/-- A thread that is at a front is in a task, and the front is the next of its range. -/
theorem Subtrees.Inv.at_front (h : Subtrees.Inv P E l tr s)
    (hx : Tally.front (s.tally.site t) = some x) :
    ∃ i way, s.control.pc t = .task i way ∧ i < P.ranges.length ∧
      InTask P i (right tr) (s.tally.site t) (s.k t) ∧ x = s.k t ∧ x ∈ taskFronts (P.range i) := by
  have hin : ∃ i way, s.control.pc t = .task i way := by
    by_contra hno
    push Not at hno
    rw [h.outside t hno] at hx
    cases hx
  obtain ⟨i, way, hpc⟩ := hin
  obtain ⟨hi, htask⟩ := h.inTask t i way hpc
  obtain rfl := htask.front_eq x hx
  refine ⟨i, way, hpc, hi, htask, rfl, mem_taskFronts.mpr ⟨htask.ge, ?_⟩⟩
  have hle := htask.le
  rwa [if_neg fun hc => by rw [hc] at hx; cases hx] at hle

/-- A front of a task is run as the one-thread engine runs it. -/
theorem Store.Gathered.subtreeFront_eq (hdet : C.det = true) (hregions : C.regions P = C.budgetOn)
    (h : st.Gathered C P tr s) (hinv : Subtrees.Inv P E l tr s)
    (hsite : s.tally.site t = .counted x) : C.subtreeFront P st t x = C.frontRun P x := by
  obtain ⟨i, way, hpc, hi, htask, hxk, hx⟩ := hinv.at_front (by rw [hsite]; rfl)
  have hlt : x < T.ns := Partition.lt_of_mem_taskFronts (Partition.range_mem hi) hx
  rw [FrontConfig.subtreeFront, hdet, Bool.true_and]
  refine run_eq hdet hregions hlt (fun c hc => ?_) ?_
  · obtain ⟨hmem, hcx⟩ := child_mem_range hi hx hc
    obtain ⟨u, hu⟩ := htask.passed c hmem (hxk ▸ hcx)
    exact h.holds.runs (u, c) (Tally.mem_through.mpr hu)
  · by_cases hreg : C.regions P = true
    · rw [if_pos hreg, h.budget hreg t i way hpc, ← hxk, startState_range hreg hi hx]
    · rw [if_neg hreg, FrontConfig.startState, if_neg hreg]

/-- A front is through. -/
theorem Store.Gathered.pass (hdet : C.det = true) (hregions : C.regions P = C.budgetOn)
    (h : st.Gathered C P tr s) (hinv : Subtrees.Inv P E l tr s)
    (hsite : s.tally.site t = .counted x) :
    (C.subtreeStep P st (none, some (.passed t x))).Gathered C P
      (tr ++ [(none, some (.passed t x))])
      { s with tally := s.tally.goto t .idle, k := Function.update s.k t (s.k t + 1) } := by
  have hrun := h.subtreeFront_eq hdet hregions hinv hsite
  obtain ⟨i, way, hpc, hi, htask, hxk, hx⟩ := hinv.at_front (by rw [hsite]; rfl)
  refine ⟨?_, fun hreg u j way' hu => ?_, fun hreg j hj he => ?_, h.inner, h.off⟩
  · rw [right_snoc, Option.toList_some, Tally.through_snoc]
    exact (h.holds.keep hrun).congr rfl rfl
  · dsimp only [FrontConfig.subtreeStep] at hu ⊢
    by_cases hut : u = t
    · subst hut
      cases hpc.symm.trans hu
      have hge := (mem_taskFronts.mp hx).1
      have hne : x + 1 ≠ (P.range i).1 := by omega
      rw [Function.update_self, Function.update_self, ← hxk, hrun, FrontConfig.taskState,
        if_neg hne, Nat.add_sub_cancel]
    · rw [Function.update_of_ne hut, Function.update_of_ne hut]
      exact h.budget hreg u j way' hu
  · rw [Subtrees.left_none] at he
    exact h.ended hreg j hj he

/-- Task `i` has ended: its last front's state is kept. -/
theorem Store.Gathered.end_task {c : Phase1 threads} (h : st.Gathered C P tr s)
    (hinv : Subtrees.Inv P E l tr s) (hsite : s.tally.site t = .idle)
    (hend : (P.range i).2 < s.k t) (hs : Phase1.Step P.ranges.length s.control (.ended t i) c) :
    (C.subtreeStep P st (some (.ended t i), none)).Gathered C P
      (tr ++ [(some (.ended t i), none)]) { s with control := c } := by
  obtain ⟨-, ⟨way, hpc⟩, b, hc, hb⟩ := Subtrees.task_of_ended hs
  obtain ⟨hi, htask⟩ := hinv.inTask t i way hpc
  have hle := htask.le
  rw [if_pos hsite] at hle
  have hk : s.k t = (P.range i).2 + 1 := by omega
  have hlo := (P.isTask _ (Partition.range_mem hi)).le
  have hold : ∀ {u j way'}, c.pc u = .task j way' → s.control.pc u = .task j way' := by
    intro u j way' hu
    rw [hc] at hu
    by_cases hut : u = t
    · subst hut
      rw [Function.update_self] at hu
      exact absurd hu (hb j way')
    · rwa [Function.update_of_ne hut] at hu
  by_cases hreg : C.regions P = true
  · have hstep : C.subtreeStep P st (some (.ended t i), none) =
        { st with nodeBudget := Function.update st.nodeBudget (P.range i).2 (st.budget t) } :=
      if_pos hreg
    -- the thread's state is what the last front of its range left
    have hstate : st.budget t = (C.frontRun P (P.range i).2).after := by
      have hne : (P.range i).2 + 1 ≠ (P.range i).1 := by omega
      rw [h.budget hreg t i way hpc, hk, FrontConfig.taskState, if_neg hne, Nat.add_sub_cancel]
    rw [hstep]
    refine ⟨?_, fun _ u j way' hu => h.budget hreg u j way' (hold hu), fun _ j hj he => ?_,
      fun x hx => ?_, fun hoff => absurd hreg (by rw [hoff]; exact Bool.noConfusion)⟩
    · rw [Subtrees.right_none]
      exact h.holds.congr rfl rfl
    · by_cases hji : j = i
      · rw [hji]
        exact (Function.update_self ..).trans hstate
      -- another task ends in another front
      · have hlast : (P.range j).2 ≠ (P.range i).2 := fun hc =>
          hji (Partition.range_unique hj hi (range_last_mem hj) (hc ▸ range_last_mem hi))
        have hnot : ¬Phase1.isEnded j (TaskEvent.ended t i) = true := fun hc =>
          hji (of_decide_eq_true hc).symm
        rw [Subtrees.left_some, Phase1.endings_snoc, if_neg hnot] at he
        exact (Function.update_of_ne hlast ..).trans (h.ended hreg j hj he)
    · exact (Function.update_of_ne (hx i hi).symm ..).trans (h.inner x hx)
  · have hstep : C.subtreeStep P st (some (.ended t i), none) = st := if_neg hreg
    rw [hstep]
    refine ⟨?_, fun hon => absurd hon hreg, fun hon => absurd hon hreg, h.inner, h.off⟩
    rw [Subtrees.right_none]
    exact h.holds

/-- Without limits nothing stops phase 1. -/
theorem Subtrees.Inv.no_stop (hoff : ∀ l, E.cap l < 0) (h : Subtrees.Inv P E l tr s) :
    s.tally.failed = .success := by
  by_contra hc
  exact absurd (h.tally.failed hc).2.1 (not_le.mpr (hoff l))

theorem Store.Gathered.step (hdet : C.det = true) (hregions : C.regions P = C.budgetOn)
    (hoff : ∀ l, E.cap l < 0) (h : st.Gathered C P tr s) (hinv : Subtrees.Inv P E l tr s)
    (hs : Subtrees.Step P E s a s') : (C.subtreeStep P st a).Gathered C P (tr ++ [a]) s' := by
  have hpassed : ∀ {e : TallyEvent threads} {y t b}, Tally.Moves s.tally e y t b →
      Tally.through (right tr ++ [e]) = Tally.through (right tr) := by
    intro e y t b hm
    rw [Tally.through_snoc]
    cases e with
    | passed u x => exact absurd rfl (hm.passed u x)
    | _ => exact List.append_nil _
  cases hs with
  | control hs =>
    obtain ⟨-, htask⟩ := Subtrees.task_of_moved hs
    refine h.quiet ?_ (fun u i way => (htask u i way).mp) rfl fun i => ?_
    · rw [Subtrees.right_none]
    · rw [Subtrees.left_some, Phase1.endings_snoc]
      rfl
  | @began t i way c hs =>
    obtain ⟨-, -, hpc⟩ := Subtrees.task_of_began hs
    refine ⟨?_, fun hreg u j way' hu => ?_, fun hreg j hj he => ?_, h.inner, h.off⟩
    · rw [Subtrees.right_none]
      exact h.holds.congr rfl rfl
    · dsimp only [FrontConfig.subtreeStep] at hu ⊢
      rw [hpc] at hu
      by_cases hut : u = t
      · subst hut
        rw [Function.update_self] at hu
        cases hu
        rw [Function.update_self, Function.update_self, FrontConfig.taskState, if_pos rfl]
      · rw [Function.update_of_ne hut] at hu
        rw [Function.update_of_ne hut, Function.update_of_ne hut]
        exact h.budget hreg u j way' hu
    · rw [Subtrees.left_some, Phase1.endings_snoc] at he
      exact h.ended hreg j hj he
  | front =>
    refine h.quiet ?_ (fun _ _ _ => id) rfl fun i => by rw [Subtrees.left_none]
    rw [Subtrees.right_some, Tally.through_snoc]
    exact List.append_nil _
  | @inside y e hf =>
    obtain ⟨t, b, hm⟩ := hf.moves
    have hstep : C.subtreeStep P st (none, some e) = st := by
      cases e with
      | passed u x => exact absurd rfl (hm.passed u x)
      | _ => rfl
    rw [hstep]
    refine h.quiet ?_ (fun _ _ _ => id) rfl fun i => by rw [Subtrees.left_none]
    rw [Subtrees.right_some, hpassed hm]
  | @raised y e t i way hpc hf hstop =>
    -- a stop: there is none without limits
    have hnext := (hinv.step (fun l _ => hoff l) (.raised hpc hf hstop)).no_stop hoff
    exact absurd (hnext.trans (hinv.no_stop hoff).symm) hstop
  | pass hsite => exact h.pass hdet hregions hinv hsite
  | ended hsite hend hs =>
    refine h.end_task hinv hsite (hend.resolve_right fun hc => ?_) hs
    exact hinv.synced.mp (hc rfl) (hinv.no_stop hoff)
  | @stopped t i c hsite => exact absurd (hinv.no_stop hoff) (hinv.tally.halted t hsite)

/-- Phase 1 without limits. -/
theorem gathered_run (hdet : C.det = true) (hregions : C.regions P = C.budgetOn)
    (hoff : ∀ l, E.cap l < 0) (h : (Subtrees.system P E threads).Run tr s) :
    (C.subtreeStore P tr).Gathered C P tr s := by
  induction h with
  | nil => exact Store.gathered_init
  | snoc hrun hs ih =>
    rw [FrontConfig.subtreeStore, List.foldl_append]
    exact ih.step hdet hregions hoff (Subtrees.inv_run (l := .work) (fun l _ => hoff l) hrun) hs

end Gathered

/-! ### Phase 2 -/

theorem Partition.topParent_of_child {P : Partition T} {v : Fin P.topNodes.length} {c : ℕ}
    (hc : c ∈ P.topNodes) (hparent : T.parent c = some (P.topNodes.get v)) :
    ∃ i, P.topNodes.get i = c ∧ P.topParent i = some v := by
  obtain ⟨i, hi⟩ := List.mem_iff_get.mp hc
  refine ⟨i, hi, ?_⟩
  rw [Partition.topParent, hi, hparent, Option.bind_some, Partition.topLocal,
    List.finIdxOf?_eq_some_iff]
  refine ⟨rfl, fun j hj hc => ?_⟩
  have hjv : j = v := Partition.topNodes_get_injective hc
  exact absurd hj (hjv ▸ lt_irrefl v)

/-- The children of a top front in its run function are through. -/
theorem Top.Inv.child_through {P : Partition T} {E : FrontLimits} {l : Limit} {J : Type}
    [DecidableEq J] {tr₁ : List (TallyEvent threads)}
      {tr : List (Label P.topNodes.length threads J)}
    {s : Top P.topNodes.length threads J} {w : Fin threads} {v i : Fin P.topNodes.length} {k : ℤ}
    (h : Top.Inv P E l tr₁ tr s) (hw : s.sched.worker w = .running v k)
    (hi : P.topParent i = some v) :
      ∃ t, TallyEvent.passed t (P.topNodes.get i) ∈ tr₁ ++ right tr := by
  have hpending := (h.sched.called w v (h.called w v k hw)).2.1
  obtain ⟨⟨i', u⟩, hu, rfl⟩ := List.mem_map.mp (h.sched.inv.children_completed hpending hi)
  exact h.returned u i' true (h.sched.completed u i' hu)

/-- A top front in its run function comes after all its children. -/
theorem Top.Inv.children_through {P : Partition T} {E : FrontLimits} {l : Limit} {J : Type}
    [DecidableEq J] {tr₁ : List (TallyEvent threads)}
      {tr : List (Label P.topNodes.length threads J)}
    {s : Top P.topNodes.length threads J} {w : Fin threads} {v : Fin P.topNodes.length} {k : ℤ}
    (h : Top.Inv P E l tr₁ tr s)
    (hsub : ∀ i < P.ranges.length, ∀ c ∈ taskFronts (P.range i), ∃ t, TallyEvent.passed t c ∈ tr₁)
    (hw : s.sched.worker w = .running v k) :
    ∀ c ∈ T.children (P.topNodes.get v), ∃ t, TallyEvent.passed t c ∈ tr₁ ++ right tr := by
  intro c hc
  have hlt : P.topNodes.get v < T.ns := (Partition.mem_topNodes.mp (List.get_mem ..)).1
  rcases P.mem_range_or_top ((T.child_lt hlt hc).trans hlt) with ⟨r, hr, hcr⟩ | htop
  · obtain ⟨i, hi, rfl⟩ := List.mem_iff_getElem.mp hr
    have hrange : P.ranges[i] = P.range i := List.getElem_eq_getD (h := hi) _
    obtain ⟨t, ht⟩ := hsub i hi c (hrange ▸ hcr)
    exact ⟨t, List.mem_append_left _ ht⟩
  · obtain ⟨i, rfl, hi⟩ := Partition.topParent_of_child htop ((T.mem_children _ c).mp hc)
    exact h.child_through hw hi

/-- The fronts stored in phase 1 and then in phase 2, each with its pass. -/
def dealt (plan : FrontConfig.TopPlan threads) (tr₁ tr : List (TallyEvent threads)) :
    List (Fin threads × ℕ) :=
  Tally.through tr₁ ++ (Tally.through tr).map fun d => (plan.lane d.2, d.2)

theorem map_snd_dealt (plan : FrontConfig.TopPlan threads) (tr₁ tr : List (TallyEvent threads)) :
    (dealt plan tr₁ tr).map Prod.snd = (Tally.through (tr₁ ++ tr)).map Prod.snd := by
  rw [dealt, Tally.through, Tally.through, Tally.through, List.filterMap_append, List.map_append,
    List.map_append, List.map_map]
  rfl

/-- The store of a run of phase 2. -/
structure Store.TopGathered (C : FrontConfig α) (P : Partition T)
    (plan : FrontConfig.TopPlan threads)
    (tr₁ tr : List (TallyEvent threads)) (st : Store α threads) : Prop where
  holds : st.Holds C P (dealt plan tr₁ tr)
  ends : ∀ x ∈ (dealt plan tr₁ tr).map Prod.snd, st.nodeBudget x = C.endState P x
  off : C.regions P = false → ∀ x, st.nodeBudget x = {}

section TopGathered

variable {P : Partition T} {C : FrontConfig α} {E : FrontLimits} {l : Limit} {J : Type}
  [DecidableEq J] {plan : FrontConfig.TopPlan threads} {tr₁ : List (TallyEvent threads)}
  {tr : List (Top.Label P.topNodes.length threads J)} {s s' : Top P.topNodes.length threads J}
  {a : Top.Label P.topNodes.length threads J} {st : Store α threads} {w : Fin threads} {x : ℕ}

/-- After the join every task has kept its end state. -/
theorem Store.Gathered.join {trs : List (Subtrees.Label threads)} {ss : Subtrees threads}
    (plan : FrontConfig.TopPlan threads) (h : st.Gathered C P trs ss)
    (hinv : Subtrees.Inv P E l trs ss)
    (hended : ∀ i < P.ranges.length, Phase1.endings (left trs) i ≠ 0) :
    st.TopGathered C P plan (right trs) [] := by
  refine ⟨?_, fun x hx => ?_, h.off⟩
  · rw [dealt, Tally.through, Tally.through, List.filterMap_nil, List.map_nil, List.append_nil]
    exact h.holds
  · rw [map_snd_dealt, List.append_nil] at hx
    have hbegun : x ∈ Tally.begun (right trs) :=
      hinv.tally.mem_begun x (hinv.tally.through_added x hx)
    obtain ⟨i, hi, hxi⟩ := hinv.begun_mem x hbegun
    by_cases hreg : C.regions P = true
    · by_cases hlast : x = (P.range i).2
      · subst hlast
        rw [h.ended hreg i hi (hended i hi), endState_last hreg hi]
      · rw [endState_inner hi hxi hlast]
        refine h.inner x fun j hj hc => hlast ?_
        -- a front that ends a task is in that task
        have hij := Partition.range_unique hi hj hxi (hc ▸ range_last_mem hj)
        rw [hij, hc]
    · have hno : C.regions P = false := Bool.not_eq_true _ ▸ hreg
      rw [h.off hno, endState_off hno]

theorem Store.TopGathered.step (hdet : C.det = true) (hregions : C.regions P = C.budgetOn)
    (h : st.TopGathered C P plan tr₁ (right tr)) (hinv : Top.Inv P E l tr₁ tr s)
    (hsub : ∀ i < P.ranges.length, ∀ c ∈ taskFronts (P.range i), ∃ t, TallyEvent.passed t c ∈ tr₁)
    (hs : Top.Step P E s a s') :
    (C.topStep P plan st a).TopGathered C P plan tr₁ (right (tr ++ [a])) := by
  -- a step of the scheduler alone touches no store
  have hquiet : ∀ {e : Option (Event P.topNodes.length threads J)},
      st.TopGathered C P plan tr₁ (right (tr ++ [(e, none)])) := by
    intro e
    rw [right_snoc, Option.toList_none, List.append_nil]
    exact h
  -- of the steps of a front only the one that passes it stores
  have hother : ∀ {e : TallyEvent threads}, (∀ u x, e ≠ .passed u x) →
      (C.topStep (J := J) P plan st (none, some e)).TopGathered C P plan tr₁
        (right (tr ++ [(none, some e)])) := by
    intro e he
    have hthrough : Tally.through (right tr ++ [e]) = Tally.through (right tr) := by
      rw [Tally.through_snoc]
      cases e with
      | passed u x => exact absurd rfl (he u x)
      | _ => exact List.append_nil _
    have hstep : C.topStep (J := J) P plan st (none, some e) = st := by
      cases e with
      | passed u x => exact absurd rfl (he u x)
      | _ => rfl
    rw [right_snoc, Option.toList_some, hstep]
    exact ⟨by rw [dealt, hthrough]; exact h.holds, by rw [dealt, hthrough]; exact h.ends, h.off⟩
  cases hs with
  | control hs => exact hquiet
  | call hs => exact hquiet
  | stop => exact hquiet
  | front => exact hother nofun
  | inside hf =>
    obtain ⟨t, b, hm⟩ := hf.moves
    exact hother hm.passed
  | stopped => exact hother nofun
  | last => exact hquiet
  | ret => exact hquiet
  -- every child is stored, so the front is formed from what the serial engine has
  | @pass w v x k hw hrun hsite =>
    have hok := hinv.running w v k hw
    rw [hrun] at hok
    obtain rfl := hok.2 x (by rw [hsite]; rfl)
    have hx : P.topNodes.get v ∈ P.topNodes := List.get_mem ..
    have hlt : P.topNodes.get v < T.ns := (Partition.mem_topNodes.mp hx).1
    have hkids : ∀ c ∈ T.children (P.topNodes.get v),
        c ∈ (dealt plan tr₁ (right tr)).map Prod.snd := by
      intro c hc
      rw [map_snd_dealt, Tally.mem_through_snd]
      exact hinv.children_through hsub hw c hc
    have hfront : C.topFront P plan st (P.topNodes.get v) = C.frontRun P (P.topNodes.get v) := by
      rw [FrontConfig.topFront, if_pos hdet]
      refine run_eq hdet hregions hlt (fun c hc => ?_) ?_
      · obtain ⟨d, hd, rfl⟩ := List.mem_map.mp (hkids c hc)
        exact h.holds.runs d hd
      · by_cases hreg : C.regions P = true
        · rw [if_pos hreg, startState_top hreg hx]
          exact FrontConfig.topInState_congr fun c hc => h.ends c (hkids c hc)
        · rw [if_neg hreg, FrontConfig.startState, if_neg hreg]
    have hdealt : dealt plan tr₁ (right (tr ++ [(none, some (.passed w (P.topNodes.get v)))])) =
        dealt plan tr₁ (right tr) ++ [(plan.lane (P.topNodes.get v), P.topNodes.get v)] := by
      rw [right_snoc, Option.toList_some, dealt, Tally.through_snoc, List.map_append,
        ← List.append_assoc]
      rfl
    refine ⟨?_, fun x hx' => ?_, fun hoff => ?_⟩
    · rw [hdealt]
      exact (h.holds.keep hfront).congr rfl rfl
    · rw [hdealt, List.map_append, List.mem_append] at hx'
      dsimp only [FrontConfig.topStep]
      by_cases hreg : C.regions P = true
      · rw [if_pos hreg]
        by_cases hxv : x = P.topNodes.get v
        · rw [hxv, Function.update_self, hfront, endState_top hreg hx]
        · rw [Function.update_of_ne hxv]
          exact h.ends x (hx'.resolve_right fun hc => hxv (List.mem_singleton.mp hc))
      · have hno : C.regions P = false := Bool.not_eq_true _ ▸ hreg
        rw [if_neg hreg, endState_off hno]
        exact h.off hno x
    · dsimp only [FrontConfig.topStep]
      rw [if_neg (by rw [hoff]; exact Bool.noConfusion)]
      exact h.off hoff

/-- Phase 2 without limits. -/
theorem topGathered_run {y : Tally threads} (hdet : C.det = true)
    (hregions : C.regions P = C.budgetOn) (hoff : ∀ l, E.cap l < 0)
    (hy : Tally.Inv E (List.range T.ns) .work tr₁ y) (hidle : ∀ t, y.site t = .idle)
    (hnew : ∀ x ∈ P.topNodes, x ∉ Tally.begun tr₁)
    (hsub : ∀ i < P.ranges.length, ∀ c ∈ taskFronts (P.range i), ∃ t, TallyEvent.passed t c ∈ tr₁)
    (hst : st.TopGathered C P plan tr₁ []) (h : (Top.system P E threads J y).Run tr s) :
    (C.topStore P plan st tr).TopGathered C P plan tr₁ (right tr) := by
  induction h with
  | nil => exact hst
  | snoc hrun hs ih =>
    rw [FrontConfig.topStore, List.foldl_append]
    exact ih.step hdet hregions (Top.inv_run (fun l _ => hoff l) hy hidle hnew hrun) hsub hs

end TopGathered

/-! ## The merged factor -/

section Merged

variable {P : Partition T} {C : FrontConfig α} {E : FrontLimits} {J : Type} [DecidableEq J]
  {st : Store α threads} {dealt : List (Fin threads × ℕ)}

/-- The factor and the runs are those of the one-thread engine. -/
structure Store.Agrees (C : FrontConfig α) (P : Partition T) (st : Store α threads) : Prop where
  /-- One solve step for each supernode, in postorder. -/
  postorder : (st.merged T).fronts =
    (List.range T.ns).map (frontOf fun s => (C.frontRun P s).out.toFrontFactor)
  fronts : (st.merged T).fronts = (C.serialRun P T.ns).pass.toKeep.fronts
  diagEntries : (st.merged T).diagEntries = (C.serialRun P T.ns).pass.toKeep.diagEntries
  runs : ∀ s < T.ns, ∃ run, st.runs s = some run ∧ (C.serialRun P T.ns).runs s = some run

/-- Every front was stored once. -/
theorem Store.Holds.agrees (h : st.Holds C P dealt)
    (hall : (dealt.map Prod.snd).Perm (List.range T.ns)) : st.Agrees C P := by
  have hpasses : List.ofFn st.passes =
      passesOf (fun x => (C.frontRun P x).out.toFrontFactor)
        ((List.ofFn fun t => dealt.filter fun d => d.1 = t).map (·.map Prod.snd)) := by
    rw [passesOf, List.map_map, List.map_ofFn]
    exact congrArg _ (funext h.passes)
  have hperm : ((List.ofFn fun t => dealt.filter fun d => d.1 = t).map
    (·.map Prod.snd)).flatten.Perm
      (List.range T.ns) := by
    rw [← List.map_flatten]
    exact ((flatten_filter_perm Prod.fst dealt).map _).trans hall
  obtain ⟨hfronts, hdiag⟩ :=
    @merge_eq α (fun x => (C.frontRun P x).out.toFrontFactor) _ _ hperm
  refine ⟨?_, ?_, ?_, fun s hs => ?_⟩
  · rw [Store.merged, hpasses, hfronts]
    exact holds_serial.fronts
  · rw [Store.merged, hpasses, hfronts, FrontConfig.serialRun_pass]
  · rw [Store.merged, hpasses, hdiag, FrontConfig.serialRun_pass]
  · obtain ⟨d, hd, rfl⟩ := List.mem_map.mp (hall.symm.subset (List.mem_range.mpr hs))
    refine ⟨_, h.runs d hd, ?_⟩
    rw [FrontConfig.serialRun_runs, if_pos hs]

/-- The fronts that are through are all fronts. -/
theorem through_perm {E : FrontLimits} {l : Limit} {tr : List (TallyEvent threads)}
    {y : Tally threads} (h : Tally.Inv E (List.range T.ns) l tr y)
    (hall : ∀ x < T.ns, ∃ t, TallyEvent.passed t x ∈ tr) :
    ((Tally.through tr).map Prod.snd).Perm (List.range T.ns) := by
  refine (List.perm_ext_iff_of_nodup h.through_nodup List.nodup_range).mpr fun x => ?_
  constructor
  · exact fun hx => h.mem_all x (h.mem_begun x (h.through_added x hx))
  · exact fun hx => Tally.mem_through_snd.mpr (hall x (List.mem_range.mp hx))

/-- Phase 1 after the join, when nothing has stopped it. -/
structure Joined (C : FrontConfig α) (P : Partition T) (E : FrontLimits)
    (tr : List (Subtrees.Label threads)) (s : Subtrees threads) : Prop where
  inv : Subtrees.Inv P E.disarm .work tr s.disarm
  gathered : (C.subtreeStore P tr).Gathered C P tr s.disarm
  idle : ∀ t, s.tally.site t = .idle
  ended : ∀ i < P.ranges.length, Phase1.endings (left tr) i ≠ 0
  passed : ∀ r ∈ P.ranges, ∀ x ∈ taskFronts r, ∃ t, TallyEvent.passed t x ∈ right tr

theorem joined {tr : List (Subtrees.Label threads)} {s : Subtrees threads} (hdet : C.det = true)
    (htasks : 2 ≤ P.ranges.length) (h : Subtrees.Finished P E tr s) : Joined C P E tr s where
  inv := h.inv
  gathered := gathered_run hdet (regions_of_tasks htasks) E.cap_disarm h.run
  idle := h.idle
  ended := h.ended
  passed := h.passed

/-- In deterministic mode, whichever threads take the tasks and in whatever order the top
    part completes, the merged factor lists one solve step for each supernode in postorder,
    the fronts and the D entries are those of the one-thread engine, and every front makes
    its choice and sees and leaves its budget state. -/
theorem gather_agrees (P : Partition T) (C : FrontConfig α) (E : FrontLimits) (threads : ℕ)
    (J : Type) [DecidableEq J] (hdet : C.det = true) (st : Store α threads)
    (h : C.Gathers P E threads J st) : st.Agrees C P := by
  cases h with
  | @subtrees tr s htasks caller hcaller hrun hret hok hnone =>
    have hjoin := joined hdet htasks (Subtrees.finished hcaller hrun hret hok)
    refine hjoin.gathered.holds.agrees (through_perm hjoin.inv.tally fun x hx => ?_)
    refine (P.mem_range_or_top hx).elim (fun ⟨r, hr, hxr⟩ => hjoin.passed r hr x hxr) fun htop => ?_
    rw [hnone] at htop
    cases htop
  | @top tr s tr' s' htasks caller hcaller hrun hret hok hne plan hrun' hdone hok' =>
    have hfirst := Subtrees.finished hcaller hrun hret hok
    have hjoin := joined hdet htasks hfirst
    have htop := Top.finished hfirst caller hrun' hdone hok'
    have hgathered := topGathered_run hdet (regions_of_tasks (C := C) htasks) E.cap_disarm
      hjoin.inv.tally hjoin.idle hfirst.top_notMem
      (fun i hi x hx => hjoin.passed _ (Partition.range_mem hi) x hx)
      (hjoin.gathered.join plan hjoin.inv hjoin.ended) htop.run
    refine hgathered.holds.agrees ?_
    rw [map_snd_dealt]
    refine through_perm htop.inv.tally fun x hx => ?_
    rcases P.mem_range_or_top hx with ⟨r, hr, hxr⟩ | hmem
    · obtain ⟨t, ht⟩ := hjoin.passed r hr x hxr
      exact ⟨t, List.mem_append_left _ ht⟩
    · exact htop.passed x hmem

end Merged

/-- Two fronts of one row and one pivot each, with a delay budget, in deterministic mode. -/
def oneRowFronts : FrontConfig Unit where
  det := true
  tilesOn := false
  callBlas := 1
  delayBudget := 0
  fallbackStatic := false
  kernel s _ _ _ _ :=
    { p := 1, rows := [s], panel := [()], diag := [], panel_length := rfl
      accepted := 1, contribution := {} }

/-- Two threads take a task each, thread 1 first. -/
theorem gathers_oneRowFronts :
    ∃ st : Store Unit 2, oneRowFronts.Gathers twoTasks noWork.disarm 2 Unit st := by
  have hload : ∀ {y : Tally 2}, y.count .work = 0 → y.Loads 0 := fun h => ⟨le_rfl, h.ge⟩
  have hcap : ∀ {done : ℤ}, 0 ≤ noWork.disarm.workCap → done ≤ noWork.disarm.workCap :=
    fun h => absurd h (by decide)
  have run := Lts.Run.nil (L := Subtrees.system twoTasks noWork.disarm 2)
  -- thread 1 and its task
  have run := run.snoc (.control (.start (t := 1) rfl))
  have run := run.snoc (.control (.ownPoll (t := 1) (b := true) rfl nofun))
  have run := run.snoc (.control (.ownLoad (t := 1) (b := false) rfl nofun))
  have run := run.snoc (.began (.ownClaim (t := 1) rfl rfl))
  have run := run.snoc (.front (t := 1) (i := 1) rfl rfl le_rfl)
  have run := run.snoc (.inside (.run (t := 1) (s := 1) rfl (hload rfl) hcap) rfl)
  have run := run.snoc
    (.inside (.skip (t := 1) (l := .negatives) (s := 1) rfl (.inl neg_one_lt_zero)) rfl)
  have run := run.snoc
    (.inside (.skip (t := 1) (l := .work) (s := 1) rfl (.inl neg_one_lt_zero)) rfl)
  have run := run.snoc (.pass (t := 1) (x := 1) rfl)
  have run := run.snoc (.ended (t := 1) (i := 1) rfl (.inl (Nat.lt_succ_self 1)) (.ended rfl))
  -- then the caller and its own
  have run := run.snoc (.control (.start (t := 0) rfl))
  have run := run.snoc (.control (.ownPoll (t := 0) (b := true) rfl nofun))
  have run := run.snoc (.control (.ownLoad (t := 0) (b := false) rfl nofun))
  have run := run.snoc (.began (.ownClaim (t := 0) rfl rfl))
  have run := run.snoc (.front (t := 0) (i := 0) rfl rfl le_rfl)
  have run := run.snoc (.inside (.run (t := 0) (s := 0) rfl (hload rfl) hcap) rfl)
  have run := run.snoc
    (.inside (.skip (t := 0) (l := .negatives) (s := 0) rfl (.inl neg_one_lt_zero)) rfl)
  have run := run.snoc
    (.inside (.skip (t := 0) (l := .work) (s := 0) rfl (.inl neg_one_lt_zero)) rfl)
  have run := run.snoc (.pass (t := 0) (x := 0) rfl)
  have run := run.snoc (.ended (t := 0) (i := 0) rfl (.inl (Nat.lt_succ_self 0)) (.ended rfl))
  -- there is no further task, and none to take over
  have run := run.snoc (.control (.loopPoll (t := 1) (b := true) rfl nofun))
  have run := run.snoc (.control (.fetchNone (t := 1) rfl (by decide)))
  have run := run.snoc (.control (.scanPoll (t := 1) (i := 0) rfl (by decide)))
  have run := run.snoc (.control (.scanLoad (t := 1) (i := 0) (b := true) rfl fun _ => rfl))
  have run := run.snoc (.control (.scanPoll (t := 1) (i := 1) rfl (by decide)))
  have run := run.snoc (.control (.scanLoad (t := 1) (i := 1) (b := true) rfl fun _ => rfl))
  have run := run.snoc (.control (.scanStop (t := 1) (i := 2) rfl (.inl (by decide))))
  have run := run.snoc (.control (.finish (t := 1) rfl nofun))
  have run := run.snoc (.control (.loopPoll (t := 0) (b := true) rfl nofun))
  have run := run.snoc (.control (.fetchNone (t := 0) rfl (by decide)))
  have run := run.snoc (.control (.scanPoll (t := 0) (i := 0) rfl (by decide)))
  have run := run.snoc (.control (.scanLoad (t := 0) (i := 0) (b := true) rfl fun _ => rfl))
  have run := run.snoc (.control (.scanPoll (t := 0) (i := 1) rfl (by decide)))
  have run := run.snoc (.control (.scanLoad (t := 0) (i := 1) (b := true) rfl fun _ => rfl))
  have run := run.snoc (.control (.scanStop (t := 0) (i := 2) rfl (.inl (by decide))))
  have run := run.snoc (.control (.finishCaller (t := 0) rfl rfl rfl))
  exact ⟨_, .subtrees le_rfl 0 rfl run rfl rfl rfl⟩

theorem gather_agrees_oneRowFronts : ∃ st : Store Unit 2, st.Agrees oneRowFronts twoTasks := by
  obtain ⟨st, h⟩ := gathers_oneRowFronts
  exact ⟨st, gather_agrees twoTasks oneRowFronts noWork.disarm 2 Unit rfl st h⟩

end Parallel
end SmfSolver
