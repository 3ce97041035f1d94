/-
  SmfSolver.Parallel.TopScheduler

  The scheduler of the top part of the assembly tree (`TopScheduler`,
  parallel/top_scheduler.cpp) as a labelled transition system.

  A step is one section under the scheduler's lock, or one move of a worker
  between two such sections: the call of its run function, the return from it,
  the store of `stopped_` (made before the lock is taken), the help it gives to a
  tile job.  A worker that finds nothing to take waits on the condition
  variable; it is woken by `notify_one`, by `notify_all` or spuriously.

  The spinning before the lock and the atomic mirrors it polls decide nothing
  (a worker may stop spinning at any time and what it takes is decided under the
  lock), so they are left out, as are `chain_end` and the wake-up's timing.

  What `run` does inside is not modelled beyond what the scheduler sees of it:
  it may offer and withdraw tile jobs, any number of times, and returns true or
  false.
-/
import SmfSolver.Lib.Run
import Mathlib.Data.Fintype.BigOperators
import Mathlib.Algebra.BigOperators.Group.Finset.Basic
import Mathlib.Data.Fin.Basic
import Mathlib.Logic.Function.Basic

namespace SmfSolver
namespace Parallel

open Lib

/-- Nodes `0 .. n - 1` with parent indices (`none`: a root) that form a forest:
    no node is reached from itself by following parents. -/
structure Forest (n : Nat) where
  parent : Fin n → Option (Fin n)
  wf : WellFounded fun c p : Fin n => parent c = some p

/-- What `acquire` gives an idle worker: a node with its BLAS-thread share, a
    tile job to help, or neither. -/
inductive Task (n : Nat) (J : Type)
  | none
  | node (v : Fin n) (threads : Int)
  | help (job : J)

/-- Where a worker is in `TopScheduler::work`. -/
inductive Worker (n : Nat) (J : Type)
  /-- Before the lock of `acquire`. -/
  | idle
  /-- In `cv_.wait`, not notified. -/
  | sleeping
  /-- Notified (or woken spuriously): takes the lock again and looks again. -/
  | awake
  /-- In `TileRunner::help` of a job. -/
  | helping (job : J)
  /-- A node was handed out; its run function is not called yet. -/
  | holding (v : Fin n) (threads : Int)
  /-- In the run function. -/
  | running (v : Fin n) (threads : Int)
  /-- The run function returned. -/
  | returned (v : Fin n) (threads : Int) (ok : Bool)
  /-- `finish` after a false result: `stopped_` is stored, the lock not taken yet. -/
  | stopping (v : Fin n) (threads : Int)
  /-- `work` returned. -/
  | done
  deriving DecidableEq

namespace Worker

variable {n : Nat} {J : Type}

/-- The node a worker works on, from the hand-out to the end of `finish`, with its
    BLAS-thread share. -/
def hold? : Worker n J → Option (Fin n × Int)
  | .holding v k | .running v k | .returned v k _ | .stopping v k => some (v, k)
  | _ => none

end Worker

/-- The state of a `TopScheduler` and of the workers that run its `work`.  Vectors
    are lists with the last element at the back, as in the source. -/
structure TopScheduler (n N : Nat) (J : Type) where
  pending : Fin n → Int
  ready : List (Fin n)
  offers : List (J × Int)
  completed : List (Fin n × Fin N)
  free : Int
  remaining : Int
  sleepers : Int
  queuePops : Int
  stopped : Bool
  worker : Fin N → Worker n J

/-- What happens in a run, as the scheduler's users see it. -/
inductive Event (n N : Nat) (J : Type)
  /-- `acquire` found nothing to take and waits. -/
  | sleep (w : Fin N)
  /-- A spurious wake-up. -/
  | wakeup (w : Fin N)
  /-- `acquire` handed out node `v` from the shared list. -/
  | take (w : Fin N) (v : Fin n)
  /-- `acquire` took a helper place of a tile job. -/
  | join (w : Fin N) (job : J)
  /-- `work` returned. -/
  | leave (w : Fin N)
  /-- `TileRunner::help` returned. -/
  | helped (w : Fin N)
  /-- The run function of `v` is called. -/
  | call (w : Fin N) (v : Fin n)
  /-- A running front offers or withdraws a tile job. -/
  | offer (w : Fin N) (job : J) (slots : Int)
  | withdraw (w : Fin N) (job : J)
  /-- The run function of `v` returned `ok`. -/
  | ret (w : Fin N) (v : Fin n) (ok : Bool)
  /-- A false result is recorded: `stopped_` is stored. -/
  | record (w : Fin N)
  /-- The locked section of `finish`; `next` is the parent the thread goes on with. -/
  | finish (w : Fin N) (v : Fin n) (next : Option (Fin n))

/-- The event hands out node `v`: from the shared list, or as a continuation. -/
def Event.handsOut {n N : Nat} {J : Type} (v : Fin n) : Event n N J → Prop
  | .take _ u => u = v
  | .finish _ _ next => next = some v
  | _ => False

/-- The event is a call of the run function of `v`. -/
def Event.isCall {n N : Nat} {J : Type} (v : Fin n) : Event n N J → Bool
  | .call _ u => u = v
  | _ => false

namespace TopScheduler

variable {n N : Nat} {J : Type}

/-- The constructor `TopScheduler(parent, threads)`, with `N` workers about to call `work`. -/
def new (F : Forest n) (threads : Int) : TopScheduler n N J :=
  let pending : Fin n → Int := fun p => (List.finRange n).countP fun i => F.parent i = some p
  { pending
    ready := (List.finRange n).filter fun i => pending i = 0
    offers := []
    completed := []
    free := max 1 threads
    remaining := n
    sleepers := 0
    queuePops := 0
    stopped := false
    worker := fun _ => .idle }

/-- A node can be taken from the shared list, or a helper place from an offer. -/
def takeable (s : TopScheduler n N J) : Prop :=
  (s.ready ≠ [] ∧ 0 < s.free) ∨ s.offers ≠ []

instance (s : TopScheduler n N J) : Decidable s.takeable := by
  unfold takeable; infer_instance

/-- `runnable()`: what a waiting worker waits for. -/
def runnable (s : TopScheduler n N J) : Prop :=
  s.takeable ∨ s.remaining = 0 ∨ s.stopped = true

instance (s : TopScheduler n N J) : Decidable s.runnable := by
  unfold runnable; infer_instance

/-- Moves worker `w` to `a`. -/
def setWorker (s : TopScheduler n N J) (w : Fin N) (a : Worker n J) : TopScheduler n N J :=
  { s with worker := Function.update s.worker w a }

/-- `cv_.notify_all()`. -/
def notifyAll (s : TopScheduler n N J) : TopScheduler n N J :=
  { s with worker := fun w =>
      match s.worker w with
      | .sleeping => .awake
      | a => a }

/-- `cv_.notify_one()`, which wakes `c` (`none`: no worker sleeps). -/
def notifyOne (s : TopScheduler n N J) : Option (Fin N) → TopScheduler n N J
  | some w => s.setWorker w .awake
  | none => s

/-- `c` is a worker `notify_one` may wake, and it wakes one if any sleeps. -/
def Wakes (s : TopScheduler n N J) (c : Option (Fin N)) : Prop :=
  match c with
  | some w => s.worker w = .sleeping
  | none => ∀ w, s.worker w ≠ .sleeping

instance [DecidableEq J] (s : TopScheduler n N J) (c : Option (Fin N)) :
    Decidable (s.Wakes c) := by
  unfold Wakes; cases c <;> infer_instance

/-- `wake_one_if_runnable()`. -/
def wakeOneIfRunnable (s : TopScheduler n N J) (c : Option (Fin N)) : TopScheduler n N J :=
  if 0 < s.sleepers ∧ s.takeable then s.notifyOne c else s

/-- The share of a node taken while `ready` nodes stay listed. -/
def shareOf (free : Int) (ready : List (Fin n)) : Int :=
  max 1 (free / (ready.length + 1))

/-- Takes a helper place from the newest offer.  Without an offer (not reached:
    `runnable()` holds there) the task stays empty. -/
def acquireOffer (s : TopScheduler n N J) : TopScheduler n N J × Task n J :=
  match s.offers.getLast? with
  | some (job, slots) =>
    ({ s with offers := if slots - 1 = 0 then s.offers.dropLast
                        else s.offers.dropLast ++ [(job, slots - 1)] }, .help job)
  | none => (s, .none)

/-- The part of `acquire` after the wait, up to the wake-up it passes on. -/
def acquire (s : TopScheduler n N J) : TopScheduler n N J × Task n J :=
  if s.stopped = true ∨ s.remaining = 0 then (s, .none)
  else
    match s.ready.getLast? with
    | some v =>
      if 0 < s.free then
        let k := shareOf s.free s.ready.dropLast
        ({ s with ready := s.ready.dropLast, free := s.free - k, queuePops := s.queuePops + 1 },
          .node v k)
      else s.acquireOffer
    | none => s.acquireOffer

/-- What a worker does next with the task it was given. -/
def afterAcquire : Task n J → Worker n J
  | .none => .done
  | .node v k => .holding v k
  | .help job => .helping job

/-- The event of an `acquire` that gave worker `w` this task. -/
def acquireEvent (w : Fin N) : Task n J → Event n N J
  | .none => .leave w
  | .node v _ => .take w v
  | .help job => .join w job

/-- `acquire` wakes a further sleeper only when it gave something. -/
def acquireWakes (s : TopScheduler n N J) (c : Option (Fin N)) : Task n J → TopScheduler n N J
  | .none => s
  | _ => s.wakeOneIfRunnable c

/-- How the locked section of `finish` wakes sleepers. -/
inductive Notify
  | nobody
  | one
  | everybody

/-- The locked section of `finish(node, tid, ok, threads)`: the state, the parent
    the thread goes on with (and its share), and whom the section wakes. -/
def finish (F : Forest n) (s : TopScheduler n N J) (v : Fin n) (w : Fin N) (ok : Bool)
    (threads : Int) : TopScheduler n N J × Option (Fin n × Int) × Notify :=
  let s₁ := { s with free := s.free + threads }
  -- a front that failed, and the last one, send everybody home
  if ok = false then (s₁, none, .everybody)
  else
    let s₂ := { s₁ with completed := s.completed ++ [(v, w)], remaining := s.remaining - 1 }
    if s₂.remaining = 0 then (s₂, none, .everybody)
    else if s₂.stopped = true then (s₂, none, .nobody)
    else
      match F.parent v with
      | none => (s₂, none, .one)
      | some p =>
        let s₃ := { s₂ with pending := Function.update s.pending p (s.pending p - 1) }
        if s.pending p - 1 = 0 then
          -- the last child: the thread goes on with the parent and its share of the free threads
          let k := shareOf s₃.free s₃.ready
          ({ s₃ with free := s₃.free - k }, some (p, k), .one)
        else (s₃, none, .one)

/-- The wake-up of a locked section, with the sleeper `notify_one` picks. -/
def notify (s : TopScheduler n N J) (c : Option (Fin N)) : Notify → TopScheduler n N J
  | .nobody => s
  | .one => s.wakeOneIfRunnable c
  | .everybody => s.notifyAll

/-- What a worker does after `finish`: the continuation, or the next `acquire`. -/
def afterFinish : Option (Fin n × Int) → Worker n J
  | some (p, k) => .holding p k
  | none => .idle

/-- `offer(job, slots)` before its wake-up. -/
def addOffer (s : TopScheduler n N J) (job : J) (slots : Int) : TopScheduler n N J :=
  { s with offers := s.offers ++ [(job, slots)] }

/-- `withdraw(job)`: the first offer of the job, the oldest, is erased. -/
def withdraw [DecidableEq J] (s : TopScheduler n N J) (job : J) : TopScheduler n N J :=
  { s with offers := s.offers.eraseP fun o => o.1 = job }

/-- One atomic step of the workers, with its event. -/
inductive Step [DecidableEq J] (F : Forest n) :
    TopScheduler n N J → Event n N J → TopScheduler n N J → Prop
  /-- `acquire` by an arriving worker that finds nothing: it is counted and waits. -/
  | sleep {s : TopScheduler n N J} {w : Fin N} (hw : s.worker w = .idle) (hr : ¬s.runnable) :
      Step F s (.sleep w) ({ s with sleepers := s.sleepers + 1 }.setWorker w .sleeping)
  /-- A woken worker finds nothing and waits on. -/
  | resleep {s : TopScheduler n N J} {w : Fin N} (hw : s.worker w = .awake)
      (hr : ¬s.runnable) : Step F s (.sleep w) (s.setWorker w .sleeping)
  | wakeup {s : TopScheduler n N J} {w : Fin N} (hw : s.worker w = .sleeping) :
      Step F s (.wakeup w) (s.setWorker w .awake)
  /-- `acquire` by an arriving worker that need not wait. -/
  | acquire {s : TopScheduler n N J} {w : Fin N} {c : Option (Fin N)} (hw : s.worker w = .idle)
      (hr : s.runnable) (hc : s.Wakes c) :
      Step F s (acquireEvent w s.acquire.2)
        ((acquireWakes s.acquire.1 c s.acquire.2).setWorker w (afterAcquire s.acquire.2))
  /-- `acquire` by a woken worker: it is no longer counted as a sleeper. -/
  | reacquire {s s₁ : TopScheduler n N J} {w : Fin N} {c : Option (Fin N)}
      (hw : s.worker w = .awake) (hr : s.runnable) (hc : s.Wakes c)
      (hs₁ : s₁ = { s with sleepers := s.sleepers - 1 }) :
      Step F s (acquireEvent w s₁.acquire.2)
        ((acquireWakes s₁.acquire.1 c s₁.acquire.2).setWorker w (afterAcquire s₁.acquire.2))
  | helped {s : TopScheduler n N J} {w : Fin N} {job : J} (hw : s.worker w = .helping job) :
      Step F s (.helped w) (s.setWorker w .idle)
  | call {s : TopScheduler n N J} {w : Fin N} {v : Fin n} {k : Int}
      (hw : s.worker w = .holding v k) : Step F s (.call w v) (s.setWorker w (.running v k))
  | offer {s : TopScheduler n N J} {w : Fin N} {v : Fin n} {k : Int} {job : J} {slots : Int}
      {c : Option (Fin N)} (hw : s.worker w = .running v k) (hslots : 0 < slots)
      (hc : s.Wakes c) :
      Step F s (.offer w job slots) ((s.addOffer job slots).wakeOneIfRunnable c)
  /-- `offer` with no place to offer returns at once. -/
  | offerNone {s : TopScheduler n N J} {w : Fin N} {v : Fin n} {k : Int} {job : J} {slots : Int}
      (hw : s.worker w = .running v k) (hslots : slots ≤ 0) :
      Step F s (.offer w job slots) s
  | withdraw {s : TopScheduler n N J} {w : Fin N} {v : Fin n} {k : Int} {job : J}
      (hw : s.worker w = .running v k) : Step F s (.withdraw w job) (s.withdraw job)
  | ret {s : TopScheduler n N J} {w : Fin N} {v : Fin n} {k : Int} {ok : Bool}
      (hw : s.worker w = .running v k) :
      Step F s (.ret w v ok) (s.setWorker w (.returned v k ok))
  /-- `finish` after a false result stores `stopped_` first. -/
  | record {s : TopScheduler n N J} {w : Fin N} {v : Fin n} {k : Int}
      (hw : s.worker w = .returned v k false) :
      Step F s (.record w) ({ s with stopped := true }.setWorker w (.stopping v k))
  /-- The locked section of `finish`, after a true result or after the store. -/
  | finish {s : TopScheduler n N J} {w : Fin N} {v : Fin n} {k : Int} {ok : Bool}
      {c : Option (Fin N)}
      (hw : s.worker w = if ok then .returned v k true else .stopping v k) (hc : s.Wakes c) :
      Step F s (.finish w v ((s.finish F v w ok k).2.1.map (·.1)))
        (((s.finish F v w ok k).1.notify c (s.finish F v w ok k).2.2).setWorker w
          (afterFinish (s.finish F v w ok k).2.1))

/-- The workers' `work` calls on a fresh scheduler. -/
def system [DecidableEq J] (F : Forest n) (threads : Int) :
    Lts (TopScheduler n N J) (Event n N J) where
  init := new F threads
  step := Step F

end TopScheduler
end Parallel
end SmfSolver
