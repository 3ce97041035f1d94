/-
  SmfSolver.Parallel.SolvePool

  The threads of a solve (`SolvePool` of `solve_pool.cpp`): workers that wait for the next
  generation, and a caller that posts a job, runs its own share and waits for the rest.

  A step is one access of one thread to what the threads share, or a whole critical section
  where nothing in it is read without the lock.  A thread that polls may give up at any
  poll that fails; a wait on a condition variable is a check of its predicate, a release of
  the lock that puts the thread to sleep, and a wake-up by a notification or by nothing at
  all.
-/
import SmfSolver.Lib.Run
import SmfSolver.Lib.Mutex
import Mathlib.Data.BitVec
import Mathlib.Data.Fintype.BigOperators

namespace SmfSolver
namespace Parallel
namespace SolvePool

open Lib

/-- What `run` is given: the function, and whether workers count a BLAS thread while they
    run it. -/
structure Job (Φ : Type) where
  fn : Φ
  countsBlas : Bool

/-- Where the caller is, in `run` with its job or in the destructor. -/
inductive CallerPc (Φ : Type)
  | idle
  /-- Waits for the lock to post. -/
  | post (j : Job Φ)
  /-- Has the lock and has written the job. -/
  | posting (j : Job Φ)
  /-- `pending_` is stored. -/
  | counted (j : Job Φ)
  /-- `generation_` is up. -/
  | posted (j : Job Φ)
  /-- The lock is free again, nobody notified yet. -/
  | notify (j : Job Φ)
  /-- About to run its own share. -/
  | share (j : Job Φ)
  | running (j : Job Φ)
  /-- Polls `pending_`. -/
  | poll (j : Job Φ)
  /-- Waits for the lock to wait on `done_`. -/
  | enter (j : Job Φ)
  | locked (j : Job Φ)
  /-- Has seen `pending_` above zero, still with the lock. -/
  | blocking (j : Job Φ)
  | asleep (j : Job Φ)
  /-- About to return. -/
  | done (j : Job Φ)
  /-- In the destructor: waits for the lock. -/
  | stop
  /-- `stop_` is set. -/
  | stopping
  /-- `generation_` is up. -/
  | stopped
  | notifyStop
  | joining
  | joined

/-- Where a worker is. -/
inductive WorkerPc (Φ : Type)
  /-- Polls `generation_`. -/
  | poll
  /-- Waits for the lock; `fresh` says that the poll has seen a new generation. -/
  | enter (fresh : Bool)
  | locked (fresh : Bool)
  /-- Has seen its own generation, still with the lock. -/
  | blocking
  | asleep
  /-- Has its job and has released the lock. -/
  | ready (j : Job Φ)
  | running (j : Job Φ)
  /-- The function has returned. -/
  | finishing (j : Job Φ)
  /-- Was the last one: waits for the lock to notify the caller. -/
  | notifying
  | notifyLocked
  | exited

/-- What happens in a run; thread `0` is the caller. -/
inductive PoolEvent (k : ℕ) (Φ : Type)
  | call (j : Job Φ)
  | ret
  | began (t : Fin (k + 1)) (j : Job Φ)
  | ended (t : Fin (k + 1)) (j : Job Φ)
  /-- The destructor is called. -/
  | destroy
  /-- A sleeper wakes up without a notification. -/
  | spurious
  /-- Anything else a thread does. -/
  | moved

/-- The members of the pool, and where its threads are; `seen` is each worker's own. -/
structure PoolState (k : ℕ) (Φ : Type) where
  mtx : Option (Fin (k + 1))
  job : Option (Job Φ)
  generation : BitVec 32
  pending : ℤ
  stop : Bool
  caller : CallerPc Φ
  worker : Fin k → WorkerPc Φ
  seen : Fin k → BitVec 32

variable {k : ℕ} {Φ : Type}

/-- `wake_.notify_all` for one worker. -/
def WorkerPc.wake : WorkerPc Φ → WorkerPc Φ
  | .asleep => .enter false
  | a => a

/-- `done_.notify_one`. -/
def CallerPc.wake : CallerPc Φ → CallerPc Φ
  | .asleep j => .enter j
  | c => c

namespace PoolState

/-- The threads have just been started. -/
def init : PoolState k Φ where
  mtx := none
  job := none
  generation := 0
  pending := 0
  stop := false
  caller := .idle
  worker _ := .poll
  seen _ := 0

/-- The caller moves on. -/
def moveCaller (s : PoolState k Φ) (c : CallerPc Φ) : PoolState k Φ := { s with caller := c }

/-- Worker `i` moves on. -/
def moveWorker (s : PoolState k Φ) (i : Fin k) (a : WorkerPc Φ) : PoolState k Φ :=
  { s with worker := Function.update s.worker i a }

/-- All sleeping workers wake up. -/
def wakeAll (s : PoolState k Φ) : PoolState k Φ := { s with worker := fun i => (s.worker i).wake }

end PoolState

open PoolState

/-- One step of one thread. -/
inductive Step : PoolState k Φ → PoolEvent k Φ → PoolState k Φ → Prop
  -- `run`; without workers the caller runs the function and returns
  | callAlone {s j} (h : s.caller = .idle) (hk : k = 0) : Step s (.call j) (s.moveCaller (.share j))
  | call {s j} (h : s.caller = .idle) (hk : k ≠ 0) : Step s (.call j) (s.moveCaller (.post j))
  | lockPost {s j} (h : s.caller = .post j) (hm : s.mtx = none) :
      Step s .moved ({ s with mtx := some 0, job := some j }.moveCaller (.posting j))
  | storePending {s j} (h : s.caller = .posting j) :
      Step s .moved ({ s with pending := k }.moveCaller (.counted j))
  | addGeneration {s j} (h : s.caller = .counted j) :
      Step s .moved ({ s with generation := s.generation + 1 }.moveCaller (.posted j))
  | unlockPost {s j} (h : s.caller = .posted j) :
      Step s .moved ({ s with mtx := none }.moveCaller (.notify j))
  | notifyAll {s j} (h : s.caller = .notify j) : Step s .moved (s.wakeAll.moveCaller (.share j))
  | callerBegin {s j} (h : s.caller = .share j) : Step s (.began 0 j) (s.moveCaller (.running j))
  | callerEnd {s j} (h : s.caller = .running j) :
      Step s (.ended 0 j) (s.moveCaller (if k = 0 then .done j else .poll j))
  | callerPolled {s j} (h : s.caller = .poll j) (h0 : s.pending = 0) :
      Step s .moved (s.moveCaller (.done j))
  | callerTimeout {s j} (h : s.caller = .poll j) (h0 : s.pending ≠ 0) :
      Step s .moved (s.moveCaller (.enter j))
  | callerLock {s j} (h : s.caller = .enter j) (hm : s.mtx = none) :
      Step s .moved ({ s with mtx := some 0 }.moveCaller (.locked j))
  | callerReady {s j} (h : s.caller = .locked j) (h0 : s.pending = 0) :
      Step s .moved ({ s with mtx := none }.moveCaller (.done j))
  | callerCheck {s j} (h : s.caller = .locked j) (h0 : s.pending ≠ 0) :
      Step s .moved (s.moveCaller (.blocking j))
  | callerSleep {s j} (h : s.caller = .blocking j) :
      Step s .moved ({ s with mtx := none }.moveCaller (.asleep j))
  | callerSpurious {s j} (h : s.caller = .asleep j) : Step s .spurious (s.moveCaller (.enter j))
  | ret {s j} (h : s.caller = .done j) : Step s .ret (s.moveCaller .idle)
  -- the destructor
  | destroy {s} (h : s.caller = .idle) : Step s .destroy (s.moveCaller .stop)
  | lockStop {s} (h : s.caller = .stop) (hm : s.mtx = none) :
      Step s .moved ({ s with mtx := some 0, stop := true }.moveCaller .stopping)
  | addStop {s} (h : s.caller = .stopping) :
      Step s .moved ({ s with generation := s.generation + 1 }.moveCaller .stopped)
  | unlockStop {s} (h : s.caller = .stopped) :
      Step s .moved ({ s with mtx := none }.moveCaller .notifyStop)
  | notifyStop {s} (h : s.caller = .notifyStop) : Step s .moved (s.wakeAll.moveCaller .joining)
  | join {s} (h : s.caller = .joining) (hall : ∀ i, s.worker i = .exited) :
      Step s .moved (s.moveCaller .joined)
  -- `worker`
  | pollFresh {s i} (h : s.worker i = .poll) (hg : s.generation ≠ s.seen i) :
      Step s .moved (s.moveWorker i (.enter true))
  | pollTimeout {s i} (h : s.worker i = .poll) (hg : s.generation = s.seen i) :
      Step s .moved (s.moveWorker i (.enter false))
  | lock {s i f} (h : s.worker i = .enter f) (hm : s.mtx = none) :
      Step s .moved ({ s with mtx := some i.succ }.moveWorker i (.locked f))
  | check {s i} (h : s.worker i = .locked false) (hg : s.generation = s.seen i) :
      Step s .moved (s.moveWorker i .blocking)
  | sleep {s i} (h : s.worker i = .blocking) :
      Step s .moved ({ s with mtx := none }.moveWorker i .asleep)
  | spurious {s i} (h : s.worker i = .asleep) : Step s .spurious (s.moveWorker i (.enter false))
  | exit {s i f} (h : s.worker i = .locked f) (hg : f = true ∨ s.generation ≠ s.seen i)
      (hs : s.stop = true) : Step s .moved ({ s with mtx := none }.moveWorker i .exited)
  | take {s i f j} (h : s.worker i = .locked f) (hg : f = true ∨ s.generation ≠ s.seen i)
      (hs : s.stop = false) (hj : s.job = some j) :
      Step s .moved ({ s with mtx := none
                              seen := Function.update s.seen i s.generation }.moveWorker i
                                (.ready j))
  | workerBegin {s i j} (h : s.worker i = .ready j) :
      Step s (.began i.succ j) (s.moveWorker i (.running j))
  | workerEnd {s i j} (h : s.worker i = .running j) :
      Step s (.ended i.succ j) (s.moveWorker i (.finishing j))
  | finishLast {s i j} (h : s.worker i = .finishing j) (h1 : s.pending = 1) :
      Step s .moved ({ s with pending := s.pending - 1 }.moveWorker i .notifying)
  | finish {s i j} (h : s.worker i = .finishing j) (h1 : s.pending ≠ 1) :
      Step s .moved ({ s with pending := s.pending - 1 }.moveWorker i .poll)
  | lockNotify {s i} (h : s.worker i = .notifying) (hm : s.mtx = none) :
      Step s .moved ({ s with mtx := some i.succ }.moveWorker i .notifyLocked)
  | notifyOne {s i} (h : s.worker i = .notifyLocked) :
      Step s .moved ({ s with mtx := none, caller := s.caller.wake }.moveWorker i .poll)

/-- The pool of `k` workers with its caller. -/
def system (k : ℕ) (Φ : Type) : Lts (PoolState k Φ) (PoolEvent k Φ) where
  init := init
  step := Step

end SolvePool
end Parallel
end SmfSolver
