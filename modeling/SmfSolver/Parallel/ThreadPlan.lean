/-
  SmfSolver.Parallel.ThreadPlan

  The tree partition and the thread count of the subtree-parallel factorization
  (parallel/thread_plan.cpp), and where the factorization asks for the count
  (multifrontal_serial.cpp).

  Work is in an ordered field; -1 as a parent is none.  `std::priority_queue` is a list
  whose greatest pair is popped, its loops run on fuel; what the plan trace prints and the
  caches of the plan and the partition are left out.
-/
import SmfSolver.Lib.Buckets
import SmfSolver.Multifrontal.AssemblyTree
import Mathlib.Algebra.Field.Rat
import Mathlib.Algebra.Order.Field.Basic
import Mathlib.Data.List.Sort

namespace SmfSolver
namespace Parallel

open Lib Multifrontal

/-- `TreeView::split`: how a front runs on several threads. -/
inductive Split
  | serial
  | tiles
  | blas
  deriving DecidableEq

/-- The assembly forest with its postorder: one entry per supernode. -/
structure TreeView (K : Type*) [Zero K] [LE K] where
  ns : ℕ
  postorder : List ℕ
  parent : ℕ → Option ℕ
  work : ℕ → K
  split : ℕ → Split
  perm : postorder.Perm (List.range ns)
  isPostorder : Postorder parent postorder
  parent_lt : ∀ s p, parent s = some p → p < ns
  work_nonneg : ∀ s, 0 ≤ work s

/-- Subtree work of every node, with its subtree's range of the postorder (`first` to `at`,
    here `last`) and the children lists. -/
structure SubtreeSums (K : Type*) where
  kids : Csr ℕ
  work : ℕ → K
  first : ℕ → ℕ
  last : ℕ → ℕ
  total : K

variable {K : Type*} [Field K] [LinearOrder K]

namespace TreeView

variable (t : TreeView K)

/-! ## Subtree sums -/

/-- The nodes of a list that have a parent, under it. -/
def kidItems (l : List ℕ) : List (ℕ × ℕ) := l.filterMap fun s => (t.parent s).map (·, s)

/-- The children lists: counted by number, filled in descending postorder. -/
def kids : Csr ℕ :=
  let cptr := Csr.runningSums t.ns (Csr.countKeys (t.kidItems (List.range t.ns)))
  { ptr := cptr, item := (Csr.scatter (t.kidItems t.postorder.reverse) (cptr, fun _ => 0)).2 }

/-- Node `e.1`, at place `e.2` of the postorder. -/
def sumNode (u : SubtreeSums K) (e : ℕ × ℕ) : SubtreeSums K :=
  let children := u.kids.slice e.1
  { u with
    work := Function.update u.work e.1 (children.foldl (fun w c => w + u.work c) (t.work e.1))
    first := Function.update u.first e.1 (children.foldl (fun f c => min f (u.first c)) e.2)
    last := Function.update u.last e.1 e.2 }

/-- `subtree_sums`. -/
def subtreeSums : SubtreeSums K :=
  let u := t.postorder.zipIdx.foldl t.sumNode ⟨t.kids, fun _ => 0, fun _ => 0, fun _ => 0, 0⟩
  { u with
    total := ((List.range t.ns).filter fun s => (t.parent s).isNone).foldl
      (fun w s => w + u.work s) 0 }

variable (u : SubtreeSums K)

/-! ## The partition -/

/-- No subtree may be heavier. -/
def target (threads : ℤ) : K := u.total / (4.0 * threads)

/-- Node `s` belongs to the top part. -/
def heavy (target : K) (s : ℕ) : Bool := target < u.work s

/-- Node `s` is the root of a subtree: not heavy, and its parent is, or it has none. -/
def isSubtree (target : K) (s : ℕ) : Bool :=
  !heavy u target s && (t.parent s).all (heavy u target)

/-- A postorder index range `[lo, hi]` of whole subtrees and its work. -/
structure Range (K : Type*) where
  lo : ℕ
  hi : ℕ
  work : K

/-- `partition_tasks`' merge grain. -/
def taskGrain (subTotal : K) (threads : ℤ) : K := subTotal / (16 * threads)

/-- One subtree after the ranges `out`. -/
def mergeInto (grain : K) (out : List (Range K)) (r : Range K) : List (Range K) :=
  match out.getLast? with
  | some b =>
    if b.hi + 1 = r.lo ∧ b.work + r.work ≤ grain then
      out.dropLast ++ [⟨b.lo, r.hi, b.work + r.work⟩]
    else out ++ [r]
  | none => out ++ [r]

/-- `merged_tasks`. -/
def mergedTasks (target subTotal : K) (threads : ℤ) : List (Range K) :=
  t.postorder.foldl (fun out s =>
    if t.isSubtree u target s then
      mergeInto (taskGrain subTotal threads) out ⟨u.first s, u.last s, u.work s⟩
    else out) []

/-- The work of the subtrees, summed in postorder. -/
def subTotal (target : K) : K :=
  t.postorder.foldl (fun w s => if t.isSubtree u target s then w + u.work s else w) 0

/-- The order of the tasks: heaviest first, ties by the larger node at the range's end. -/
def before (a b : Range K) : Prop :=
  b.work < a.work ∨ a.work = b.work ∧ t.postorder.getD b.hi 0 ≤ t.postorder.getD a.hi 0

instance : DecidableRel t.before := fun _ _ => inferInstanceAs (Decidable (_ ∨ _))

/-- `partition_tasks`: the tasks, and the top part. -/
def partitionTasks (threads : ℤ) (minWork : K) : List (ℕ × ℕ) × (ℕ → Bool) :=
  let u := t.subtreeSums
  if u.total < minWork then ([], fun _ => false)
  else
    let target := target u threads
    let top := t.postorder.foldl
      (fun top s => if heavy u target s then Function.update top s true else top) fun _ => false
    let ranges := t.mergedTasks u target (t.subTotal u target) threads
    ((ranges.insertionSort t.before).map fun r => (r.lo, r.hi), top)

/-- The greater of two pairs (work, node). -/
def greater (a b : K × ℕ) : K × ℕ := if a.1 < b.1 ∨ a.1 = b.1 ∧ a.2 < b.2 then b else a

/-- The greatest pair of the heap. -/
def heapTop : List (K × ℕ) → Option (K × ℕ)
  | [] => none
  | a :: l => some (l.foldl greater a)

/-- The heaviest subtree's root moves to the top part, and its children into the heap. -/
def splitLoop (target : K) : ℕ → List (K × ℕ) → (ℕ → Bool) → Option (List (K × ℕ) × (ℕ → Bool))
  | 0, _, _ => none
  | fuel + 1, heap, top =>
    match heapTop heap with
    | none => some (heap, top)
    | some e =>
      if target < e.1 then
        splitLoop target fuel (heap.erase e ++ (u.kids.slice e.2).map fun c => (u.work c, c))
          (Function.update top e.2 true)
      else some (heap, top)

/-- The subtrees left in the heap, heaviest first. -/
def popSubtrees : ℕ → List (K × ℕ) → Option (List (ℕ × ℕ))
  | 0, _ => none
  | fuel + 1, heap =>
    match heapTop heap with
    | none => some []
    | some e => (popSubtrees fuel (heap.erase e)).map ((u.first e.2, u.last e.2) :: ·)

/-- `partition_subtrees`: the subtrees, and the top part. -/
def partitionSubtrees (threads : ℤ) (minWork : K) : Option (List (ℕ × ℕ) × (ℕ → Bool)) :=
  let u := t.subtreeSums
  let heap := ((List.range t.ns).filter fun s => (t.parent s).isNone).map fun s => (u.work s, s)
  if u.total < minWork then some ([], fun _ => false)
  else
    (splitLoop u (target u threads) (t.ns + 1) heap fun _ => false).bind fun (heap, top) =>
      (popSubtrees u (t.ns + 1) heap).map (·, top)

/-! ## The cost model -/

/-- The two phases of a candidate thread count. -/
structure PhaseTerms (K : Type*) [Zero K] where
  tasks : ℕ := 0
  top : ℕ := 0
  subTotal : K := 0
  maxSubtree : K := 0
  topTotal : K := 0
  cpTop : K := 0
  splitTop : ℕ := 0
  splitTopWork : K := 0

/-- One node, with the heaviest top path below each top node. -/
def phaseNode (target : K) (threads : ℤ) (st : PhaseTerms K × (ℕ → K)) (s : ℕ) :
    PhaseTerms K × (ℕ → K) :=
  let (pt, below) := st
  if heavy u target s then
    let pt := { pt with
      top := pt.top + 1
      topTotal := pt.topTotal + t.work s
      splitTop := if t.split s = .tiles then pt.splitTop + 1 else pt.splitTop
      splitTopWork := if t.split s = .tiles then pt.splitTopWork + t.work s else pt.splitTopWork }
    -- a tiled front and a large untiled one both count work / threads
    let w := if t.split s ≠ .serial then t.work s / threads else t.work s
    let path := w + below s
    match t.parent s with
    | some p => (pt, Function.update below p (max (below p) path))
    | none => ({ pt with cpTop := max pt.cpTop path }, below)
  else if (t.parent s).all (heavy u target) then
    ({ pt with subTotal := pt.subTotal + u.work s }, below)
  else (pt, below)

/-- `phase_terms`. -/
def phaseTerms (target : K) (threads : ℤ) : PhaseTerms K :=
  let pt := (t.postorder.foldl (t.phaseNode u target threads) ({}, fun _ => 0)).1
  let ranges := t.mergedTasks u target pt.subTotal threads
  { pt with
    tasks := ranges.length
    maxSubtree := ranges.foldl (fun m r => max m r.work) pt.maxSubtree }

end TreeView

/-- Cost model terms, in work units. -/
structure ThreadCosts (K : Type*) where
  perThread : K
  perTopFront : K
  perSplitFrontThread : K
  splitCap : ℤ

/-- The terms of one candidate. -/
structure FactorPlanTerms (K : Type*) [Zero K] where
  threads : ℤ := 1
  ok : Bool := true
  subTotal : K := 0
  maxSubtree : K := 0
  topTotal : K := 0
  cpTop : K := 0
  topFronts : ℕ := 0
  splitTopFronts : ℕ := 0
  splitTopWork : K := 0
  total : K := 0

/-- The chosen thread count. -/
structure ThreadPlan (K : Type*) where
  threads : ℤ
  predictedSpeedup : K

/-- Below this much front work a tree is not partitioned. -/
def kTreeParallelMinWork : K := 20000000

/-- 1, 2, 4, 8, ... below `maxThreads`, and `maxThreads` (1 alone below 2). -/
def candidateThreads (maxThreads : ℤ) : List ℤ :=
  if maxThreads < 2 then [1]
  else
    1 :: ((List.range maxThreads.toNat).map fun k : ℕ => (2 : ℤ) ^ (k + 1)).takeWhile
      (· < maxThreads)
      ++ [maxThreads]

/-- `factor_plan_terms`. -/
def factorPlanTerms (t : TreeView K) (maxThreads : ℤ) : List (FactorPlanTerms K) :=
  let u := t.subtreeSums
  let serial : FactorPlanTerms K := { total := u.total }
  -- one thread, or too little work to plan for
  if maxThreads < 2 ∨ u.total < kTreeParallelMinWork ∨ ¬0 < u.total then [serial]
  else
    serial :: ((candidateThreads maxThreads).filter (· ≠ 1)).map fun T =>
      let pt := t.phaseTerms u (TreeView.target u T) T
      { threads := T
        ok := 2 ≤ pt.tasks
        subTotal := pt.subTotal
        maxSubtree := pt.maxSubtree
        topTotal := pt.topTotal
        cpTop := pt.cpTop
        topFronts := pt.top
        splitTopFronts := pt.splitTop
        splitTopWork := pt.splitTopWork
        total := u.total }

/-- `factor_plan_cost`: -1 for no candidate. -/
def factorPlanCost (k : FactorPlanTerms K) (c : ThreadCosts K) : K :=
  if k.threads ≤ 1 then k.total
  else if !k.ok then -1
  else
    let T := k.threads
    -- split fronts' work speeds up to `splitCap` threads only
    let cap := max 1 c.splitCap
    let top := max k.cpTop
      ((k.topTotal - k.splitTopWork) / T + k.splitTopWork / ((min T cap : ℤ) : K))
    max k.maxSubtree (k.subTotal / T) + top + T * c.perThread + k.topFronts * c.perTopFront +
      k.splitTopFronts * T * c.perSplitFrontThread

/-- `least_cost_threads`: the first within 2% of the least cost, and its cost. -/
def leastCostThreads (costs : List (ℤ × K)) : ℤ × K :=
  let front := costs.headD (1, 0)
  let least := costs.foldl (fun least k => if 0 ≤ k.2 then min least k.2 else least) front.2
  (costs.find? fun k => 0 ≤ k.2 ∧ k.2 ≤ least * (102 / 100)).getD front

/-- `plan_threads`. -/
def planThreads (t : TreeView K) (maxThreads : ℤ) (c : ThreadCosts K) : ThreadPlan K :=
  let terms := factorPlanTerms t maxThreads
  let (threads, cost) := leastCostThreads (terms.map fun k => (k.threads, factorPlanCost k c))
  { threads
    predictedSpeedup := if 0 < cost then (terms.map FactorPlanTerms.total).headD 0 / cost else 1 }

/-- `plan_is_serial`. -/
def planIsSerial (total : K) (c : ThreadCosts K) : Bool :=
  if total < kTreeParallelMinWork ∨ ¬0 < total then true
  else
    let noNegative := 0 ≤ c.perThread ∧ 0 ≤ c.perTopFront ∧ 0 ≤ c.perSplitFrontThread
    decide noNegative && decide (total ≤ 4.0 * c.perThread)

/-- The tree's work as the factorization sums it. -/
def treeWork (t : TreeView K) : K := t.postorder.foldl (fun w s => w + t.work s) 0

/-- `want_threads` of the factorization, with its shortcut or without. -/
def wantThreads (shortcut : Bool) (t : TreeView K) (c : ThreadCosts K) (autoThreads : Bool)
    (numThreads : ℤ) : ℤ :=
  let want := if 2 ≤ t.ns then numThreads else 1
  if autoThreads ∧ 1 < want ∧ shortcut ∧ planIsSerial (treeWork t) c then 1
  else if autoThreads ∧ 1 < want then (planThreads t numThreads c).threads
  else want

end Parallel
end SmfSolver
