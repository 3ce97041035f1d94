/-
  SmfSolver.Parallel.SolveLayout

  The layout that a tree-parallel factorization outside deterministic mode leaves for the
  solve: the steps of every pass one after another, each with its offsets moved into the
  merged factor, the step ranges of the subtree tasks, and the top part behind them in
  completion order, with its tree and the places of its pivot rows.

  `Stores` is what the two phases can have kept when phase 3 begins, `solveLayout` is
  phase 3, and `SolveLayout.Valid` is what the parallel solve relies on.
-/
import SmfSolver.Factor.PivotOrder
import SmfSolver.Parallel.GatherRuns

namespace SmfSolver
namespace Parallel

open Lib
open Multifrontal (AssemblyTree Below)
open Multifrontal.AssemblyTree (taskFronts mem_taskFronts)

variable {α : Type} {T : AssemblyTree} {threads : ℕ}

/-! ## The kernels -/

/-- What a kernel is called with. -/
structure KernelCall (α : Type) where
  s : ℕ
  kids : List (Contribution α)
  choice : PivotChoice
  tile : Bool
  blas : ℕ

/-- The delayed columns that a block carries. -/
def Contribution.delayedRows (b : Contribution α) : List ℕ := b.rows.take b.delayed

/-- The first `num_elig` rows of a front: its children's delayed columns, then its own. -/
def eligibleOf (T : AssemblyTree) (s : ℕ) (kids : List (Contribution α)) : List ℕ :=
  kids.flatMap Contribution.delayedRows ++ (T.frontRows s).take (T.supernodes s).width

/-- The kernels of a factorization: the pivots of a front, the rows below its eligible ones,
    and the values. -/
structure FrontKernels (T : AssemblyTree) (α : Type) where
  pivots : (a : KernelCall α) → Factor.KernelPivots ((eligibleOf T a.s a.kids).map (↑))
  below : KernelCall α → List ℕ
  panel : KernelCall α → ℕ → α
  diag : KernelCall α → List (DiagSolveEntry α)
  values : KernelCall α → List α

namespace FrontKernels

variable (K : FrontKernels T α)

/-- `p_store`. -/
def storedCount (a : KernelCall α) : ℕ := (K.pivots a).storedCount (Factor.isRoot T a.s)

/-- A front's rows as the kernel left them. -/
def rows (a : KernelCall α) : List ℕ :=
  ((List.range (eligibleOf T a.s a.kids).length).map fun c => ((K.pivots a).rows c).toNat) ++
    K.below a

/-- A front as it is stored, and the block that its parent gets. -/
def result (a : KernelCall α) : KernelResult α where
  p := K.storedCount a
  rows := K.rows a
  panel := (List.range ((K.rows a).length * K.storedCount a)).map (K.panel a)
  diag := K.diag a
  panel_length := by rw [List.length_map, List.length_range]
  accepted := (K.pivots a).numAccepted
  contribution :=
    { rows := (K.rows a).drop (K.storedCount a)
      delayed := (eligibleOf T a.s a.kids).length - K.storedCount a
      values := K.values a }

/-- These settings, with these kernels. -/
def config (C : FrontConfig α) : FrontConfig α :=
  { C with kernel := fun s kids choice tile blas => K.result ⟨s, kids, choice, tile, blas⟩ }

end FrontKernels

/-! ## What the two phases keep -/

/-- Beside the fronts: the step that a thread's task began at, the step ranges of the tasks
    it has ended, and every top front's pass and step in it. -/
structure LayoutStore (α : Type) (threads : ℕ) extends Store α threads where
  firstStep : Fin threads → ℕ := fun _ => 0
  subtreeSteps : Fin threads → List (ℕ × ℕ) := fun _ => []
  topPass : ℕ → ℕ := fun _ => 0
  topStep : ℕ → ℕ := fun _ => 0

namespace FrontConfig

variable (C : FrontConfig α) (P : Partition T)

/-- One step of phase 1; a task's range is kept when it ends. -/
def layoutSubtreeStep (st : LayoutStore α threads) (a : Subtrees.Label threads) :
    LayoutStore α threads :=
  let kept := { st with toStore := C.subtreeStep P st.toStore a }
  match a.1 with
  | some (.began t _ _) =>
    { kept with firstStep := Function.update st.firstStep t (st.passes t).steps.length }
  | some (.ended t _) =>
    { kept with
      subtreeSteps := Function.update st.subtreeSteps t
        (st.subtreeSteps t ++ [(st.firstStep t, (st.passes t).steps.length)]) }
  | _ => kept

def layoutSubtrees (tr : List (Subtrees.Label threads)) : LayoutStore α threads :=
  tr.foldl (C.layoutSubtreeStep P) {}

variable (plan : TopPlan threads)

/-- One step of phase 2; a front's step is the last of its pass. -/
def layoutTopStep {J : Type} (st : LayoutStore α threads)
    (a : Top.Label P.topNodes.length threads J) : LayoutStore α threads :=
  let kept := { st with toStore := C.topStep P plan st.toStore a }
  match a.2 with
  | some (.passed _ x) =>
    { kept with
      topPass := Function.update st.topPass x (plan.lane x)
      topStep := Function.update st.topStep x ((kept.passes (plan.lane x)).steps.length - 1) }
  | _ => kept

def layoutTop {J : Type} (st : LayoutStore α threads)
    (tr : List (Top.Label P.topNodes.length threads J)) : LayoutStore α threads :=
  tr.foldl (C.layoutTopStep P plan) st

/-- What a factorization that nothing stops can have kept at the end of phase 1 and at the
    end of phase 2, and the top fronts in completion order. -/
inductive Stores (E : FrontLimits) (threads : ℕ) (J : Type) [DecidableEq J] :
    LayoutStore α threads → LayoutStore α threads → List ℕ → Prop
  | subtrees {tr s} (hdet : C.det = false) (htasks : 2 ≤ P.ranges.length)
      (caller : Fin threads) (hcaller : caller.1 = 0)
      (h : (Subtrees.system P E threads).Run tr s) (hret : s.control.pc caller = .returned)
      (hok : s.tally.failed = .success) (hnone : P.topNodes = []) :
      Stores E threads J (C.layoutSubtrees P tr) (C.layoutSubtrees P tr) []
  | top {tr s tr' s'} (hdet : C.det = false) (htasks : 2 ≤ P.ranges.length)
      (caller : Fin threads) (hcaller : caller.1 = 0)
      (h : (Subtrees.system P E threads).Run tr s) (hret : s.control.pc caller = .returned)
      (hok : s.tally.failed = .success) (hne : P.topNodes ≠ []) (plan : TopPlan threads)
      (h' : (Top.system P E threads J s.tally).Run tr' s')
      (hdone : ∀ w, s'.sched.worker w = .done) (hok' : s'.tally.failed = .success) :
      Stores E threads J (C.layoutSubtrees P tr)
        (C.layoutTop P plan (C.layoutSubtrees P tr) tr')
        (s'.sched.completed.map fun c => P.topNodes.get c.1)

end FrontConfig

/-! ## Phase 3 -/

/-- The factor and the layout that a parallel solve reads. -/
structure SolveLayout (α : Type) extends FactorKeep α where
  solveSubtrees : List (ℕ × ℕ)
  solveTopBegin : ℕ
  solveTopParent : List (Option ℕ)
  solveTopRows : List ℕ
  solveTopSlot : ℕ → Option ℕ

section Phase3

variable (st₁ st : LayoutStore α threads)

/-- The steps that pass `t` made in phase 1, and its tasks' ranges of them. -/
def pushPass (a : List SolveStep × List (ℕ × ℕ)) (t : Fin threads) :
    List SolveStep × List (ℕ × ℕ) :=
  (a.1 ++ ((st.passes t).steps.take (st₁.passes t).steps.length).map
      (relocated (List.ofFn st.passes) t),
    a.2 ++ (st₁.subtreeSteps t).map fun r => (a.1.length + r.1, a.1.length + r.2))

def subtreePart : List SolveStep × List (ℕ × ℕ) :=
  (List.finRange threads).foldl (pushPass st₁ st) ([], [])

/-- The entries stored for a range of steps. -/
def stepWork (steps : List SolveStep) (r : ℕ × ℕ) : ℕ :=
  ((slice steps r.1 (r.2 - r.1)).map fun step => step.p * step.f).sum

/-- What `std::sort` can leave of the ranges: the heaviest first. -/
structure SortedByWork (steps : List SolveStep) (ranges sorted : List (ℕ × ℕ)) : Prop where
  perm : sorted.Perm ranges
  pairwise : sorted.Pairwise fun r r' => stepWork steps r' ≤ stepWork steps r

/-- Each top front's place in the completion order. -/
def topPos (done : List ℕ) : ℕ → Option ℕ :=
  assign (done.zipIdx.map fun d => (d.1, some d.2)) fun _ => none

/-- A pivot row of the top part takes the next slot. -/
def pushTopRow (a : (ℕ → Option ℕ) × List ℕ) (r : ℕ) : (ℕ → Option ℕ) × List ℕ :=
  (Function.update a.1 r (some a.2.length), a.2 ++ [r])

/-- The loop over the top part's steps. -/
def topSlots (rowIndices : List ℕ) (steps : List SolveStep) : (ℕ → Option ℕ) × List ℕ :=
  steps.foldl (fun a step => (slice rowIndices step.rowOffset step.p).foldl pushTopRow a)
    (fun _ => none, [])

/-- Phase 3, with the top fronts in completion order and the ranges as they were sorted. -/
def solveLayout (T : AssemblyTree) (done : List ℕ) (sorted : List (ℕ × ℕ)) : SolveLayout α :=
  let passes := List.ofFn st.passes
  let subtreeSteps := (subtreePart st₁ st).1
  let topSteps := done.filterMap fun x => stepOf passes ⟨x, st.topPass x, st.topStep x⟩
  let slots := if sorted.isEmpty then (fun _ => none, [])
    else topSlots (passes.map (·.sri)).flatten topSteps
  { merge passes T.ns with
    solveSteps := subtreeSteps ++ topSteps
    solveSubtrees := sorted
    solveTopBegin := subtreeSteps.length
    solveTopParent := done.map fun x => (T.parent x).bind (topPos done)
    solveTopRows := slots.2
    solveTopSlot := slots.1 }

end Phase3

/-- The layouts that a tree-parallel factorization can leave, with the fronts' runs. -/
inductive FrontConfig.Lays (C : FrontConfig α) (P : Partition T) (E : FrontLimits) (threads : ℕ)
    (J : Type) [DecidableEq J] : (ℕ → Option (FrontRun α)) → SolveLayout α → Prop
  | mk {st₁ st : LayoutStore α threads} {done sorted} (h : C.Stores P E threads J st₁ st done)
      (hsort : SortedByWork (subtreePart st₁ st).1 (subtreePart st₁ st).2 sorted) :
      C.Lays P E threads J st.runs (solveLayout st₁ st T done sorted)

/-! ## What a solve relies on -/

/-- The pivot rows of a front as it was factored. -/
def pivotRows (runs : ℕ → Option (FrontRun α)) (s : ℕ) : List ℕ :=
  match runs s with
  | some run => run.out.rows.take run.out.p
  | none => []

/-- All descendants of a node of the list come before it. -/
def ClosedBelow (parent : ℕ → Option ℕ) (l : List ℕ) : Prop :=
  ∀ pre s post, l = pre ++ s :: post → ∀ c, Below parent c s → c ∈ pre

/-- The layout of these fronts, whose steps stand in this order. -/
structure SolveLayout.Valid (P : Partition T) (runs : ℕ → Option (FrontRun α)) (order : List ℕ)
    (L : SolveLayout α) : Prop where
  perm : order.Perm (List.range T.ns)
  /-- A step's offsets lead to its front's own rows and L panel. -/
  fronts : L.fronts.map some =
    order.map fun s => (runs s).map fun run => (run.out.p, run.out.rows, run.out.panel)
  closed : ∀ r ∈ L.solveSubtrees, r.1 ≤ r.2 ∧ r.2 ≤ L.solveTopBegin ∧
    ClosedBelow T.parent (slice order r.1 (r.2 - r.1))
  /-- Every step before the top part is in one range. -/
  covers : (L.solveSubtrees.flatMap rangeIndices).Perm (List.range L.solveTopBegin)
  top : (order.drop L.solveTopBegin).Perm P.topNodes
  top_parent : ∀ i s : ℕ, (order.drop L.solveTopBegin)[i]? = some s →
    T.parent s = none ∧ L.solveTopParent[i]? = some none ∨
      ∃ j t : ℕ, T.parent s = some t ∧ i < j ∧ (order.drop L.solveTopBegin)[j]? = some t ∧
        L.solveTopParent[i]? = some (some j)
  parent_length : L.solveTopParent.length = P.topNodes.length
  top_rows : L.solveTopRows = (order.drop L.solveTopBegin).flatMap (pivotRows runs)
  /-- The slots are the places of the rows, and no other row has one. -/
  top_slot : ∀ r i, L.solveTopSlot r = some i ↔ L.solveTopRows[i]? = some r

end Parallel
end SmfSolver
