/-
  SmfSolver.Solve.RunDag

  `run_dag` (solve_pool.hpp): the nodes of a DAG run on a pool of threads from a shared list
  of ready nodes.

  A step is one access of one thread to the shared variables, or one event inside its call
  of `process`.  An idle thread polls `nready` without the lock; the list and its count
  change under the lock, one after the other.  `process` is the one of the solves: when the
  node's own work is done it counts the node off at its successors, in any order; the call
  that counts a successor to zero owns it, and hands each node it owns to the list or, at
  most one, to its own thread.

  `runDag_correct`: no node runs twice or before its predecessors have run, an unfinished
  node always finds a thread at work or a ready node, and a thread leaves only when all
  nodes are done.
-/
import SmfSolver.Lib.Run
import Mathlib.Data.Fintype.BigOperators
import Mathlib.Data.Multiset.Basic
import Mathlib.Data.List.FinRange
import Mathlib.Order.WellFounded

namespace SmfSolver
namespace Solve

open Lib

/-- A finite DAG: `edge i j` says that `j` is a successor of `i`. -/
structure Dag (n : ℕ) where
  edge : Fin n → Fin n → Prop
  dec : DecidableRel edge
  wf : WellFounded edge

instance {n : ℕ} (D : Dag n) : DecidableRel D.edge := D.dec

/-- Where a thread is in the function that `run_dag` gives the pool. -/
inductive Pc (n : ℕ) where
  /-- Loads `nready`. -/
  | poll
  /-- `nready` was zero: loads `remaining`. -/
  | check
  /-- Waits for the lock to take a node. -/
  | enter
  /-- Has the lock and node `i`; `nready` is not counted down yet. -/
  | popped (i : Fin n)
  /-- Has the lock and is done with the list. -/
  | leave (i : Option (Fin n))
  /-- About to call `process`. -/
  | call (i : Fin n)
  /-- In `process`: the node's own work. -/
  | body (i : Fin n)
  /-- In `process`: successors not counted off yet, and successors it has to hand on. -/
  | count (i : Fin n) (todo own : List (Fin n))
  /-- In `release(j)`: waits for the lock. -/
  | release (i : Fin n) (todo own : List (Fin n)) (j : Fin n)
  /-- In `release`: the node is in the list, `nready` not counted up yet. -/
  | pushed (i : Fin n) (todo own : List (Fin n))
  | unlock (i : Fin n) (todo own : List (Fin n))
  /-- `process` returned. -/
  | ret (next : Option (Fin n))
  | exited
  deriving DecidableEq

/-- What happens in a run, as the nodes see it. -/
inductive DagEvent (n T : ℕ) where
  /-- `process` begins the work of node `i`. -/
  | began (t : Fin T) (i : Fin n)
  | ended (t : Fin T) (i : Fin n)
  /-- `process` counts node `i` off at its successor `j`. -/
  | counted (t : Fin T) (i j : Fin n)
  /-- `remaining` is counted down after `process` returned. -/
  | finished (t : Fin T)
  /-- Anything else a thread does. -/
  | moved (t : Fin T)
  deriving DecidableEq

/-- The shared variables, and where every thread is.  The list has its last element at the
    back, as the vector. -/
structure DagState (n T : ℕ) where
  ready : List (Fin n)
  nready : ℤ
  remaining : ℤ
  lock : Option (Fin T)
  /-- Predecessors that have not counted themselves off. -/
  pending : Fin n → ℕ
  pc : Fin T → Pc n

namespace DagState

variable {n T : ℕ}

/-- Moves thread `t` to `a`. -/
def goto (s : DagState n T) (t : Fin T) (a : Pc n) : DagState n T :=
  { s with pc := Function.update s.pc t a }

/-- The start of `run_dag`. -/
def init (D : Dag n) (ready : List (Fin n)) : DagState n T where
  ready := ready
  nready := ready.length
  remaining := n
  lock := none
  pending j := (Finset.univ.filter fun i => D.edge i j).card
  pc _ := .poll

/-- Where a thread goes with the node it has, if it has one. -/
def onward : Option (Fin n) → Pc n
  | some i => .call i
  | none => .poll

/-- One step of one thread. -/
inductive Step (D : Dag n) : DagState n T → DagEvent n T → DagState n T → Prop
  | pollNone {s t} (h : s.pc t = .poll) (h0 : s.nready = 0) :
      Step D s (.moved t) (s.goto t .check)
  | pollSome {s t} (h : s.pc t = .poll) (h0 : s.nready ≠ 0) :
      Step D s (.moved t) (s.goto t .enter)
  | exit {s t} (h : s.pc t = .check) (h0 : s.remaining = 0) :
      Step D s (.moved t) (s.goto t .exited)
  | relax {s t} (h : s.pc t = .check) (h0 : s.remaining ≠ 0) :
      Step D s (.moved t) (s.goto t .poll)
  | pop {s t l i} (h : s.pc t = .enter) (hlock : s.lock = none) (hready : s.ready = l ++ [i]) :
      Step D s (.moved t) ({ s with lock := some t, ready := l }.goto t (.popped i))
  | empty {s t} (h : s.pc t = .enter) (hlock : s.lock = none) (hready : s.ready = []) :
      Step D s (.moved t) ({ s with lock := some t }.goto t (.leave none))
  | countDown {s t i} (h : s.pc t = .popped i) :
      Step D s (.moved t) ({ s with nready := s.nready - 1 }.goto t (.leave (some i)))
  | leave {s t o} (h : s.pc t = .leave o) :
      Step D s (.moved t) ({ s with lock := none }.goto t (onward o))
  | begin {s t i} (h : s.pc t = .call i) :
      Step D s (.began t i) (s.goto t (.body i))
  | done {s t i todo} (h : s.pc t = .body i) (hnodup : todo.Nodup)
      (htodo : ∀ j, j ∈ todo ↔ D.edge i j) :
      Step D s (.ended t i) (s.goto t (.count i todo []))
  | count {s t i todo own j} (h : s.pc t = .count i todo own) (hj : j ∈ todo) :
      Step D s (.counted t i j)
        ({ s with pending := Function.update s.pending j (s.pending j - 1) }.goto t
          (.count i (todo.erase j) (if s.pending j = 1 then j :: own else own)))
  | release {s t i todo own j} (h : s.pc t = .count i todo own) (hj : j ∈ own) :
      Step D s (.moved t) (s.goto t (.release i todo (own.erase j) j))
  | push {s t i todo own j} (h : s.pc t = .release i todo own j) (hlock : s.lock = none) :
      Step D s (.moved t)
        ({ s with lock := some t, ready := s.ready ++ [j] }.goto t (.pushed i todo own))
  | countUp {s t i todo own} (h : s.pc t = .pushed i todo own) :
      Step D s (.moved t) ({ s with nready := s.nready + 1 }.goto t (.unlock i todo own))
  | unlock {s t i todo own} (h : s.pc t = .unlock i todo own) :
      Step D s (.moved t) ({ s with lock := none }.goto t (.count i todo own))
  | retNone {s t i} (h : s.pc t = .count i [] []) :
      Step D s (.moved t) (s.goto t (.ret none))
  | retSome {s t i j} (h : s.pc t = .count i [] [j]) :
      Step D s (.moved t) (s.goto t (.ret (some j)))
  | finish {s t next} (h : s.pc t = .ret next) :
      Step D s (.finished t) ({ s with remaining := s.remaining - 1 }.goto t (onward next))

end DagState

variable {n T : ℕ}

/-- `run_dag` on `T` threads. -/
def runDag (D : Dag n) (T : ℕ) (ready : List (Fin n)) : Lts (DagState n T) (DagEvent n T) where
  init := DagState.init D ready
  step := DagState.Step D

namespace DagEvent

/-- The node whose work begins, ends. -/
def begins : DagEvent n T → Option (Fin n)
  | .began _ i => some i
  | _ => none

def ends : DagEvent n T → Option (Fin n)
  | .ended _ i => some i
  | _ => none

def counts : DagEvent n T → Option (Fin n × Fin n)
  | .counted _ i j => some (i, j)
  | _ => none

end DagEvent

namespace Pc

/-- The nodes a thread is to run or to hand on. -/
def held : Pc n → Multiset (Fin n)
  | .popped i | .call i | .leave (some i) | .ret (some i) => {i}
  | .count _ _ own | .pushed _ _ own | .unlock _ _ own => own
  | .release _ _ own j => j ::ₘ own
  | _ => 0

/-- The node in `process`, when its own work is done, with the successors not counted off. -/
def counting : Pc n → Option (Fin n × List (Fin n))
  | .count i todo _ | .pushed i todo _ | .unlock i todo _ | .release i todo _ _ => some (i, todo)
  | _ => none

/-- The thread is between the start of a node and its count. -/
def busy : Pc n → ℤ
  | .body _ | .count _ _ _ | .release _ _ _ _ | .pushed _ _ _ | .unlock _ _ _ | .ret _ => 1
  | _ => 0

/-- What `nready` is ahead of the list. -/
def ahead : Pc n → ℤ
  | .popped _ => 1
  | .pushed _ _ _ => -1
  | _ => 0

/-- The thread has nothing to do: it polls, or finds the list empty, or has left. -/
def Idle : Pc n → Prop
  | .poll | .check | .enter | .leave none | .exited => True
  | _ => False

/-- The thread is inside one of the two critical sections. -/
def Locked : Pc n → Prop
  | .popped _ | .leave _ | .pushed _ _ _ | .unlock _ _ _ => True
  | _ => False

end Pc

end Solve
end SmfSolver
