/-
  SmfSolver.Solve.ParallelForward

  `solve_forward` as the code dispatches it: one column front by front, several columns at
  once in blocks, or, over the layout of a tree-parallel factorization, on the threads of
  the pool.

  The parallel solve is three runs of the pool, and a step of each is one access of one
  thread.  In the first the threads take subtrees from a shared counter and sweep over their
  fronts; what these subtract from rows of the top part goes to the thread's own buffer.
  The second adds the buffers to the vector, slice by slice.  The third runs the fronts of
  the top part by `run_dag`.  The pool returns when every thread has left, and what a
  buffer holds before it is cleared is left open.
-/
import SmfSolver.Lib.Slice
import SmfSolver.Solve.FrontAccess
import SmfSolver.Solve.RunDag

namespace SmfSolver
namespace Solve

open Lib Finset

/-! ## The layout -/

/-- A factor with the arrays that the parallel solves read; a parent in the top part comes
    after its children. -/
structure ParallelKeep (K : Type*) extends FactorKeep K where
  solveSubtrees : List (ℕ × ℕ)
  solveTopBegin : ℕ
  solveTopParent : List (Option ℕ)
  solveTopRows : List ℕ
  solveTopSlot : List (Option ℕ)
  solveThreads : ℕ
  parent_lt : ∀ i j : ℕ, solveTopParent[i]? = some (some j) → i < j

variable {K : Type*}

/-- `step_front`. -/
def FactorKeep.front (fk : FactorKeep K) (k : ℕ) : Front K :=
  fk.stepFront k (fk.solveSteps.getD k ⟨0, 0, 0, 0⟩)

namespace ParallelKeep

variable (fk : ParallelKeep K)

def topSlot (r : ℕ) : Option ℕ := fk.solveTopSlot.getD r none

/-- Number of steps in the top part. -/
def topSteps : ℕ := fk.solveSteps.length - fk.solveTopBegin

/-- The fronts of the top part, children before parents. -/
def topDag : Dag fk.topSteps where
  edge i j := fk.solveTopParent[i.1]? = some (some j.1)
  dec _ _ := decEq _ _
  wf := Subrelation.wf (fun h => fk.parent_lt _ _ h) wellFounded_lt

/-- The first `ready` list: the fronts that no front waits before. -/
def topReady : List (Fin fk.topSteps) :=
  (List.finRange fk.topSteps).filter fun i => ∀ j, ¬fk.topDag.edge j i

/-- The threads a solve runs on. -/
def threads (n numThreads : ℕ) : ℕ :=
  let want := min numThreads fk.solveThreads
  if fk.solveSteps ≠ [] ∧ 1 < want ∧ 2 ≤ fk.solveSubtrees.length ∧ fk.solveTopSlot.length = n ∧
      (fk.solveTopParent.length : ℤ) = fk.solveSteps.length - fk.solveTopBegin then
    min want fk.solveSubtrees.length
  else 1

end ParallelKeep

variable [Field K] (fk : ParallelKeep K) {T : ℕ}

/-! ## The subtrees -/

/-- Where a thread is in `subtrees`. -/
inductive SubtreePc (K : Type*) where
  /-- Its buffer is not cleared yet. -/
  | start
  /-- About to take a subtree. -/
  | claim
  /-- At step `k` of subtree `i`. -/
  | inside (i k : ℕ) (a : Work K)
  | exited

def SubtreePc.work : SubtreePc K → Work K
  | .inside _ _ a => a
  | _ => .idle

structure SubtreeState (K : Type*) (T : ℕ) where
  next : ℕ
  mem : Vectors K T
  pc : Fin T → SubtreePc K

namespace SubtreeState

/-- Moves thread `t` to `a`. -/
def goto (s : SubtreeState K T) (t : Fin T) (a : SubtreePc K) : SubtreeState K T :=
  { s with pc := Function.update s.pc t a }

omit [Field K] in
@[simp] theorem goto_self (s : SubtreeState K T) (t : Fin T) (a : SubtreePc K) :
    (s.goto t a).pc t = a :=
  Function.update_self ..

omit [Field K] in
theorem goto_of_ne (s : SubtreeState K T) {t u : Fin T} (a : SubtreePc K) (h : u ≠ t) :
    (s.goto t a).pc u = s.pc u :=
  Function.update_of_ne h ..

omit [Field K] in
/-- Only the thread's own front changes. -/
theorem work_goto (s : SubtreeState K T) (t : Fin T) (a : SubtreePc K) :
    (fun u => ((s.goto t a).pc u).work) = Function.update (fun u => (s.pc u).work) t a.work :=
  Function.comp_update SubtreePc.work s.pc t a

inductive Step : SubtreeState K T → Fin T → SubtreeState K T → Prop
  | assign {s t} (h : s.pc t = .start) :
      Step s t
        ({ s with mem := { s.mem with top := Function.update s.mem.top t fun _ => 0 } }.goto t
          .claim)
  | take {s t r} (h : s.pc t = .claim) (hr : fk.solveSubtrees[s.next]? = some r) :
      Step s t ({ s with next := s.next + 1 }.goto t (.inside s.next r.1 .idle))
  | none {s t} (h : s.pc t = .claim) (hend : fk.solveSubtrees.length ≤ s.next) :
      Step s t ({ s with next := s.next + 1 }.goto t .exited)
  | enter {s t i k r} (h : s.pc t = .inside i k .idle) (hr : fk.solveSubtrees[i]? = some r)
      (hk : k < r.2) (hp : 0 < (fk.front k).p) (b : ℕ → K) :
      Step s t (s.goto t (.inside i k (.gather k 0 b)))
  | skip {s t i k r} (h : s.pc t = .inside i k .idle) (hr : fk.solveSubtrees[i]? = some r)
      (hk : k < r.2) (hp : (fk.front k).p = 0) :
      Step s t (s.goto t (.inside i (k + 1) .idle))
  | access {s t i k a m a'} (h : s.pc t = .inside i k a)
      (ha : Access fk.isPosdef fk.front (.split fk.topSlot) t s.mem a m a') :
      Step s t ({ s with mem := m }.goto t (.inside i k a'))
  | leave {s t i k w} (h : s.pc t = .inside i k (.store k (fk.front k).f w)) :
      Step s t (s.goto t (.inside i (k + 1) .idle))
  | back {s t i k r} (h : s.pc t = .inside i k .idle) (hr : fk.solveSubtrees[i]? = some r)
      (hk : r.2 ≤ k) :
      Step s t (s.goto t .claim)

end SubtreeState

/-- The first run of the pool; the buffers hold what earlier solves left. -/
def subtreeSweep (x : ℕ → K) (top : Fin T → ℕ → K) : Lts (SubtreeState K T) (Fin T) where
  init := ⟨0, ⟨x, top⟩, fun _ => .start⟩
  step := SubtreeState.Step fk

/-! ## The sums of the buffers -/

/-- Where a thread is in its slice of the slots. -/
inductive SumPc (K : Type*) where
  | slot (s : ℕ)
  /-- `v` is the sum of the buffers of the threads before `u`. -/
  | sum (s u : ℕ) (v : K)
  /-- The row is loaded as `old`. -/
  | loaded (s : ℕ) (v old : K)
  | exited

structure SumState (K : Type*) (T : ℕ) where
  x : ℕ → K
  pc : Fin T → SumPc K

/-- The slots of thread `t` begin at `ntop * t / threads`. -/
def sliceBegin (ntop T t : ℕ) : ℕ := ntop * t / T

namespace SumState

/-- Moves thread `t` to `b`. -/
def goto (a : SumState K T) (t : Fin T) (b : SumPc K) : SumState K T :=
  { a with pc := Function.update a.pc t b }

omit [Field K] in
@[simp] theorem goto_self (a : SumState K T) (t : Fin T) (b : SumPc K) : (a.goto t b).pc t = b :=
  Function.update_self ..

omit [Field K] in
theorem goto_of_ne (a : SumState K T) {t u : Fin T} (b : SumPc K) (h : u ≠ t) :
    (a.goto t b).pc u = a.pc u :=
  Function.update_of_ne h ..

/-- The row that slot `s` stands for. -/
def topRow (s : ℕ) : ℕ := fk.solveTopRows.getD s 0

inductive Step (top : Fin T → ℕ → K) : SumState K T → Fin T → SumState K T → Prop
  | first {a} {t : Fin T} {s} (h : a.pc t = .slot s)
      (hs : s < sliceBegin fk.solveTopRows.length T (t + 1)) :
      Step top a t (a.goto t (.sum s 0 0))
  | add {a t s u v} (h : a.pc t = .sum s u v) (hu : u < T) :
      Step top a t (a.goto t (.sum s (u + 1) (v + top ⟨u, hu⟩ s)))
  | load {a t s v} (h : a.pc t = .sum s T v) :
      Step top a t (a.goto t (.loaded s v (a.x (topRow fk s))))
  | save {a t s v old} (h : a.pc t = .loaded s v old) :
      Step top a t
        ({ a with x := Function.update a.x (topRow fk s) (old - v) }.goto t (.slot (s + 1)))
  | leave {a} {t : Fin T} {s} (h : a.pc t = .slot s)
      (hs : sliceBegin fk.solveTopRows.length T (t + 1) ≤ s) :
      Step top a t (a.goto t .exited)

end SumState

/-- The second run of the pool. -/
def bufferSums (m : Vectors K T) : Lts (SumState K T) (Fin T) where
  init := ⟨m.x, fun t => .slot (sliceBegin fk.solveTopRows.length T t)⟩
  step := SumState.Step fk m.top

/-! ## The top of the tree -/

structure TopState (K : Type*) (n T : ℕ) where
  dag : DagState n T
  mem : Vectors K T
  work : Fin T → Work K

namespace TopState

/-- A step of `run_dag`, or an access of a thread in a front's own work. -/
inductive Step : TopState K fk.topSteps T → Option (DagEvent fk.topSteps T) →
    TopState K fk.topSteps T → Prop
  | dag {s e d} (h : DagState.Step fk.topDag s.dag e d) (hb : e.begins = none)
      (he : e.ends = none) : Step s (some e) { s with dag := d }
  | begin {s t i d} (h : DagState.Step fk.topDag s.dag (.began t i) d)
      (hp : 0 < (fk.front (fk.solveTopBegin + i)).p) (b : ℕ → K) :
      Step s (some (.began t i))
        { s with
          dag := d
          work := Function.update s.work t (.gather (fk.solveTopBegin + i) 0 b) }
  | skip {s t i d} (h : DagState.Step fk.topDag s.dag (.began t i) d)
      (hp : (fk.front (fk.solveTopBegin + i)).p = 0) :
      Step s (some (.began t i)) { s with dag := d }
  | access {s t i m a} (h : s.dag.pc t = .body i)
      (ha : Access fk.isPosdef fk.front .atomic t s.mem (s.work t) m a) :
      Step s none { s with mem := m, work := Function.update s.work t a }
  | done {s t i d} (h : DagState.Step fk.topDag s.dag (.ended t i) d)
      (hwork : 0 < (fk.front (fk.solveTopBegin + i)).p → ∃ k w,
        s.work t = .store k (fk.front k).f w) :
      Step s (some (.ended t i)) { s with dag := d, work := Function.update s.work t .idle }

end TopState

/-- The third run of the pool. -/
def topSweep (m : Vectors K T) :
    Lts (TopState K fk.topSteps T) (Option (DagEvent fk.topSteps T)) where
  init := ⟨DagState.init fk.topDag fk.topReady, m, fun _ => .idle⟩
  step := TopState.Step fk

/-! ## solve_forward -/

/-- One column on `T` threads: what the three runs can make of `x₀`. -/
inductive ParallelForward (T : ℕ) (x₀ : ℕ → K) : (ℕ → K) → Prop
  | mk {top tr₁ tr₂ tr₃} {s₁ : SubtreeState K T} {s₂ : SumState K T}
      {s₃ : TopState K fk.topSteps T}
      (h₁ : (subtreeSweep fk x₀ top).Run tr₁ s₁) (hall₁ : ∀ t, s₁.pc t = .exited)
      (h₂ : (bufferSums fk s₁.mem).Run tr₂ s₂) (hall₂ : ∀ t, s₂.pc t = .exited)
      (h₃ : (topSweep fk ⟨s₂.x, s₁.mem.top⟩).Run tr₃ s₃) (hall₃ : ∀ t, s₃.dag.pc t = .exited) :
      ParallelForward T x₀ s₃.mem.x

def kInvDiagMinPivots : ℕ := 16

/-- `forward_front_block`, in one column. -/
def forwardFrontBlock (posdef : Bool) (x : ℕ → K) (F : Front K) : ℕ → K :=
  if F.p = 0 then x
  else
    let w : ℕ → K := fun i => x (F.rows i)
    let w :=
      if F.p < kInvDiagMinPivots ∧ F.inv.isNone then solveColumns posdef F.L F.p F.f w
      else
        let w₁ := match F.inv with
          | some inv => dgemv inv F.p w
          | none => solveLower posdef F.L F.p w
        fun i => if i < F.p then w₁ i else w i - dgemv F.L F.p w₁ i
    scatter F.rows F.f w x

/-- `solve_forward` on the columns of `B`, with the permutation or without. -/
inductive SolveForward (ak : AnalysisKeep) (numThreads : ℕ) (permute : Bool) {m : ℕ}
    (B : Fin m → ℕ → K) : (Fin m → ℕ → K) → Prop
  | block (hm : 1 < m) (ht : fk.threads fk.n numThreads = 1) (hs : fk.solveSteps ≠ []) :
      SolveForward ak numThreads permute B fun c =>
        (fk.fronts ak).foldl (forwardFrontBlock fk.isPosdef)
          (if permute then fk.permuted (B c) else B c)
  | serial (hm : ¬(1 < m ∧ fk.solveSteps ≠ [])) (ht : fk.threads fk.n numThreads = 1) :
      SolveForward ak numThreads permute B fun c =>
        (fk.fronts ak).foldl (forwardFront fk.isPosdef)
          (if permute then fk.permuted (B c) else B c)
  | parallel {X : Fin m → ℕ → K} (ht : 1 < fk.threads fk.n numThreads)
      (h : ∀ c, ParallelForward fk (fk.threads fk.n numThreads)
        (if permute then fk.permuted (B c) else B c) (X c)) :
      SolveForward ak numThreads permute B X

end Solve
end SmfSolver
