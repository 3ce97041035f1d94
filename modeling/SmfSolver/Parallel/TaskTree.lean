/-
  SmfSolver.Parallel.TaskTree

  `run_costed_postorder`: the supernodes of an assembly tree processed children first,
  serially or by tasks.  A task takes a subtree; a small or deep one is walked by the
  task itself, and a child with a large subtree gets a task of its own, as far as the
  memory budget allows.

  The schedule depends on the tree and the policy only, so the code is the fork-join
  program that it runs (`runCostedPostorder`): its actions are the calls of
  `process_node` and the updates of the memory tracker.
-/
import SmfSolver.Lib.ForkJoin
import SmfSolver.Multifrontal.AssemblyTree
import Mathlib.Algebra.GroupWithZero.Nat
import Mathlib.Logic.Function.Basic

namespace SmfSolver
namespace Parallel

open Multifrontal Lib.ForkJoin

/-- `ExecutionPolicy`. -/
structure ExecutionPolicy where
  threads : ℤ
  /-- 0: no budget. -/
  memoryBudgetBytes : ℕ
  minTaskFlops : ℤ
  deterministic : Bool

/-- An analysis as the scheduler sees it: every parent is a supernode, and the fronts'
    rows may not be there (`front_row_ptr`). -/
structure CostedTree extends AssemblyTree where
  haveFronts : Bool
  parent_lt : ∀ s t, (supernodes s).parent = some t → s < ns → t < ns

/-- What the run does that others can see. -/
inductive TaskAction where
  /-- `process_node(s)` is called, and returns. -/
  | call (s : ℕ)
  | ret (s : ℕ)
  /-- `tracker.on_node_complete(s)`. -/
  | complete (s : ℕ)
  | coarsened (k : ℕ)
  | spawned
  | throttledWait
  /-- The tracker's peak is raised to `bytes`. -/
  | raisePeak (bytes : ℕ)
  deriving DecidableEq

/-- The subtrees an action counts as coarsened. -/
def TaskAction.coarse : TaskAction → ℕ
  | .coarsened k => k
  | _ => 0

namespace CostedTree

variable (T : CostedTree) (policy : ExecutionPolicy)

/-! ## The order of the nodes -/

/-- The loop over a stack of nodes, each with the number of its children pushed: the nodes
    in the order they are popped. -/
def walk : ℕ → List (ℕ × ℕ) → List ℕ
  | 0, _ => []
  | _ + 1, [] => []
  | fuel + 1, (nd, ci) :: stk =>
    if h : ci < (T.children nd).length then
      walk fuel (((T.children nd)[ci], 0) :: (nd, ci + 1) :: stk)
    else
      nd :: walk fuel stk

def roots : List ℕ := (List.range T.ns).filter fun i => (T.parent i).isNone

/-- The roots are on the stack from the start, the last one on top. -/
def serialPostorder : List ℕ :=
  T.walk (2 * T.ns) (T.roots.reverse.map fun i => (i, 0))

/-! ## Costs -/

def pivots (s : ℕ) : ℕ := max 1 (T.supernodes s).width

def frontSize (s : ℕ) : ℕ :=
  if T.haveFronts then max (T.pivots s) (T.frontRows s).length else T.pivots s

def nodeFlops (s : ℕ) : ℤ := T.frontSize s * T.frontSize s * T.pivots s

/-- Sums of `uint64_t`. -/
def addBytes (a b : ℕ) : ℕ := (a + b) % 2 ^ 64

def contribBytes (s : ℕ) : ℕ :=
  let q := T.frontSize s - T.pivots s
  if (T.parent s).isSome ∧ 0 < q then q * q * 8 % 2 ^ 64 else 0

/-- One node of the cost model's loop. -/
def addFlops (flops : ℕ → ℤ) (s : ℕ) : ℕ → ℤ :=
  Function.update flops s ((T.children s).foldl (fun sum c => sum + flops c) (T.nodeFlops s))

def subtreeFlops : ℕ → ℤ := T.serialPostorder.foldl T.addFlops fun _ => 1

/-! ## The program -/

/-- `process_node(s)` and the tracker's update, and then `p`. -/
def process (s : ℕ) (p : Prog TaskAction) : Prog TaskAction :=
  .act (.call s) (.act (.ret s) (.act (.complete s) p))

def executeSubtreeIterative (root : ℕ) : Prog TaskAction :=
  .forEach (fun s => process s .done) (T.walk (2 * T.ns) [(root, 0)])

def isTiny (s : ℕ) : Bool := T.subtreeFlops s < policy.minTaskFlops

def tinyChildren (s : ℕ) : List ℕ := (T.children s).filter fun c => T.isTiny policy c

def parChildren (s : ℕ) : List ℕ := (T.children s).filter fun c => !T.isTiny policy c

/-- The children's contribution blocks together exceed the budget. -/
def throttles (par : List ℕ) : Bool :=
  0 < policy.memoryBudgetBytes ∧ 1 < par.length ∧
    policy.memoryBudgetBytes < par.foldl (fun sum c => addBytes sum (T.contribBytes c)) 0

/-- The children are processed right here: themselves, whatever is below them. -/
def throttledChildren (par : List ℕ) : Prog TaskAction :=
  .act .throttledWait <|
    (Prog.forEach (fun sc => .act (.call sc) (.act (.ret sc) .done)) par).seq
      (.act (.raisePeak (max policy.memoryBudgetBytes (T.contribBytes (par.headD 0)))) .done)

/-- Child `c` would take the tasks under way over the budget. -/
def exceeds (batch c : ℕ) : Bool :=
  0 < policy.memoryBudgetBytes ∧ 0 < batch ∧
    policy.memoryBudgetBytes < addBytes batch (T.contribBytes c)

/-- The loop over the children that get a task: `batch` bytes are under way.  When the
    blocks of all of them exceed the budget, the loop ends at the first. -/
def batchLoop (task : ℕ → Prog TaskAction) (par : List ℕ) : ℕ → List ℕ → Prog TaskAction
  | _, [] => .done
  | batch, c :: todo =>
    let next := fun batch : ℕ =>
      if T.throttles policy par then T.throttledChildren policy par
      else .act .spawned <|
        .spawn (task c) (batchLoop task par (addBytes batch (T.contribBytes c)) todo)
    if T.exceeds policy batch c then .act .throttledWait (.wait (next 0)) else next batch

/-- `costed_task_impl` at depth `32 - left`. -/
def costedTaskImpl (left : ℕ) (node : ℕ) : Prog TaskAction :=
  let kids := T.children node
  let iterative : Prog TaskAction :=
    if kids.isEmpty then T.executeSubtreeIterative node
    else .act (.coarsened 1) (T.executeSubtreeIterative node)
  match left with
  | 0 => iterative
  | left + 1 =>
    -- too little work for tasks of its own
    if kids.isEmpty ∨ T.isTiny policy node then iterative
    else
      let tiny := T.tinyChildren policy node
      let par := T.parChildren policy node
      let inline : Prog TaskAction :=
        if tiny.isEmpty then .done
        else .act (.coarsened tiny.length) (.forEach T.executeSubtreeIterative tiny)
      let batch : Prog TaskAction :=
        if par.isEmpty then .done
        else (T.batchLoop policy (costedTaskImpl left) par 0 par).seq (.wait .done)
      -- the small children here, the others as tasks, then the node
      inline.seq (batch.seq (process node .done))

/-- What the one thread that starts the roots does for a root. -/
def startRoot (root : ℕ) : Prog TaskAction :=
  if T.isTiny policy root then .act (.coarsened 1) (T.executeSubtreeIterative root)
  else .act .spawned (.spawn (T.costedTaskImpl policy 32 root) .done)

/-- Serial or deterministic execution. -/
def serialNode (s : ℕ) : Prog TaskAction :=
  if (T.children s).isEmpty ∧ T.nodeFlops s < policy.minTaskFlops then
    .act (.coarsened 1) (process s .done)
  else process s .done

def isParallel : Bool := 1 < policy.threads ∧ policy.deterministic = false

/-- The parallel region ends with a barrier: the run returns when all tasks have ended. -/
def runCostedPostorder : Prog TaskAction :=
  if T.ns = 0 then .done
  else if isParallel policy then .forEach (T.startRoot policy) T.roots
  else .forEach (T.serialNode policy) T.serialPostorder

/-! ## The statistics -/

/-- `LiveMemoryTracker`. -/
structure Tracker where
  currentBytes : ℕ := 0
  peakBytes : ℕ := 0
  throttledWaits : ℕ := 0
  tasksSpawned : ℕ := 0
  coarsenedSubtrees : ℕ := 0

/-- `on_node_complete`: a node's block takes the place of its children's. -/
def Tracker.onNodeComplete (tracker : Tracker) (s : ℕ) : Tracker :=
  let consumed := (T.children s).foldl (fun sum c => addBytes sum (T.contribBytes c)) 0
  let current := addBytes (tracker.currentBytes - consumed) (T.contribBytes s)
  { tracker with currentBytes := current, peakBytes := max tracker.peakBytes current }

/-- One action, under the tracker's lock or as an atomic update. -/
def Tracker.apply (tracker : Tracker) : TaskAction → Tracker
  | .call _ | .ret _ => tracker
  | .complete s => tracker.onNodeComplete T s
  | .coarsened k => { tracker with coarsenedSubtrees := tracker.coarsenedSubtrees + k }
  | .spawned => { tracker with tasksSpawned := tracker.tasksSpawned + 1 }
  | .throttledWait => { tracker with throttledWaits := tracker.throttledWaits + 1 }
  | .raisePeak bytes => { tracker with peakBytes := max tracker.peakBytes bytes }

/-- `TaskScheduleStats` of a run. -/
def stats (l : List TaskAction) : Tracker := l.foldl (Tracker.apply T) {}

end CostedTree

end Parallel
end SmfSolver
