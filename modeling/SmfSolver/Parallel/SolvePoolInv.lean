/-
  SmfSolver.Parallel.SolvePoolInv

  The invariant of the pool.  The caller's place tells for every worker where it can be: with
  nothing posted all workers have seen the generation and have nothing to do; while a job is
  posted a worker has not seen it, serves it, or is done with it, and `pending_` counts those
  that are not done; after the destructor they all leave.

  * `Inv.worker`, `Inv.caller`: a step of one thread that keeps the others where they are.
  * `Inv.newGeneration`, `Inv.take`, `Inv.finish`: a worker gets to know of a job, and is done.
  * `Inv.step`: every step keeps the invariant, the lock and the two wake-ups included.
-/
import SmfSolver.Parallel.SolvePool
import Mathlib.Algebra.Order.BigOperators.Group.Finset

namespace SmfSolver
namespace Parallel
namespace SolvePool

open Lib PoolState

variable {k : ℕ} {Φ : Type}

/-! ## Places -/

/-- What the caller's place means for the workers. -/
inductive Era (Φ : Type)
  | quiet
  | active (j : Job Φ)
  | ended

namespace CallerPc

/-- A job is posted from the new generation to the last worker's end. -/
def era : CallerPc Φ → Era Φ
  | .posted j | .notify j | .share j | .running j | .poll j | .enter j | .locked j | .blocking j
  | .asleep j => .active j
  | .stopped | .notifyStop | .joining | .joined => .ended
  | _ => .quiet

/-- The places with the lock. -/
def holds : CallerPc Φ → Bool
  | .posting _ | .counted _ | .posted _ | .locked _ | .blocking _ | .stopping | .stopped => true
  | _ => false

/-- The job that `job_` points to. -/
def posts : CallerPc Φ → Option (Job Φ)
  | .posting j | .counted j | .posted j | .notify j | .share j | .running j | .poll j | .enter j
  | .locked j | .blocking j | .asleep j => some j
  | _ => none

def stops : CallerPc Φ → Bool
  | .stopping | .stopped | .notifyStop | .joining | .joined => true
  | _ => false

def isCounted : CallerPc Φ → Bool
  | .counted _ => true
  | _ => false

/-- The workers' notification is still to come. -/
def willWake : CallerPc Φ → Bool
  | .posted _ | .notify _ | .stopped | .notifyStop => true
  | _ => false

/-- Waits on `done_`. -/
def waits : CallerPc Φ → Bool
  | .blocking _ | .asleep _ => true
  | _ => false

end CallerPc

namespace WorkerPc

/-- The places with the lock. -/
def holds : WorkerPc Φ → Bool
  | .locked _ | .blocking | .notifyLocked => true
  | _ => false

/-- The places before a new generation is taken. -/
def waits : WorkerPc Φ → Bool
  | .poll | .enter _ | .locked _ | .asleep | .notifying | .notifyLocked => true
  | _ => false

/-- The places without a new generation. -/
def rests : WorkerPc Φ → Bool
  | .poll | .enter false | .locked false | .blocking | .asleep | .notifying | .notifyLocked => true
  | _ => false

/-- The places with a job that is not counted off. -/
def serving : WorkerPc Φ → Bool
  | .ready _ | .running _ | .finishing _ => true
  | _ => false

/-- Serves job `j`. -/
def Serves (a : WorkerPc Φ) (j : Job Φ) : Prop := a = .ready j ∨ a = .running j ∨ a = .finishing j

/-- About to notify the caller. -/
def notifies : WorkerPc Φ → Bool
  | .notifying | .notifyLocked => true
  | _ => false

theorem waits_of_rests {a : WorkerPc Φ} (h : a.rests = true) (hh : a.holds = false) :
    a.waits = true := by
  cases a <;> simp_all [rests, holds, waits]

theorem Serves.serving {a : WorkerPc Φ} {j : Job Φ} (h : a.Serves j) : a.serving = true := by
  rcases h with rfl | rfl | rfl <;> rfl

theorem serving_eq_false_of_rests {a : WorkerPc Φ} (h : a.rests = true) : a.serving = false := by
  cases a <;> simp_all [rests, serving]

end WorkerPc

/-- Where a worker can be in an era, by what it has seen of the generation. -/
def WorkerOk (e : Era Φ) (gen seen : BitVec 32) (a : WorkerPc Φ) : Prop :=
  match e with
  | .quiet => seen = gen ∧ a.rests = true
  | .active j => (seen + 1 = gen ∧ a.waits = true) ∨ (seen = gen ∧ (a.rests = true ∨ a.Serves j))
  | .ended => (seen + 1 = gen ∧ a.waits = true) ∨ a = .exited

/-- The worker is not done with the posted job. -/
def owes (e : Era Φ) (gen seen : BitVec 32) (a : WorkerPc Φ) : Bool :=
  match e with
  | .active _ => decide (seen ≠ gen) || a.serving
  | _ => false

theorem ne_add_one (x : BitVec 32) : x ≠ x + 1 := by bv_omega

section

variable {e : Era Φ} {gen seen : BitVec 32} {a b : WorkerPc Φ}

theorem owes_congr (h : a.serving = b.serving) : owes e gen seen a = owes e gen seen b := by
  cases e <;> simp only [owes, h]

/-- A worker that has not seen the generation waits for it. -/
theorem WorkerOk.unseen (h : WorkerOk e gen seen a) (hne : gen ≠ seen) (ha : a ≠ .exited) :
    seen + 1 = gen ∧ a.waits = true ∧ e ≠ .quiet := by
  cases e with
  | quiet => exact absurd h.1.symm hne
  | active j =>
    rcases h with h | h
    · exact ⟨h.1, h.2, nofun⟩
    · exact absurd h.1.symm hne
  | ended =>
    rcases h with h | h
    · exact ⟨h.1, h.2, nofun⟩
    · exact absurd h ha

/-- A worker that has not seen the generation stays one. -/
theorem WorkerOk.fresh (h : WorkerOk e gen seen a) (hne : gen ≠ seen) (ha : a ≠ .exited)
    (hb : b.waits = true) : WorkerOk e gen seen b := by
  obtain ⟨hsucc, -, hq⟩ := h.unseen hne ha
  cases e with
  | quiet => exact absurd rfl hq
  | active j => exact .inl ⟨hsucc, hb⟩
  | ended => exact .inl ⟨hsucc, hb⟩

/-- A worker with nothing to do stays one. -/
theorem WorkerOk.idle (h : WorkerOk e gen seen a) (heq : gen = seen) (ha : a ≠ .exited)
    (hb : b.rests = true) : WorkerOk e gen seen b := by
  subst heq
  cases e with
  | quiet => exact ⟨rfl, hb⟩
  | active j => exact .inr ⟨rfl, .inl hb⟩
  | ended =>
    rcases h with h | h
    · exact absurd h.1.symm (ne_add_one _)
    · exact absurd h ha

/-- A move between places of one kind, whatever the worker has seen. -/
theorem WorkerOk.move (h : WorkerOk e gen seen a) (ha : a ≠ .exited) (hs : a.serving = false)
    (hw : a.waits = true → b.waits = true) (hr : a.rests = true → b.rests = true) :
    WorkerOk e gen seen b := by
  cases e with
  | quiet => exact ⟨h.1, hr h.2⟩
  | active j =>
    rcases h with h | ⟨heq, h | h⟩
    · exact .inl ⟨h.1, hw h.2⟩
    · exact .inr ⟨heq, .inl (hr h)⟩
    · exact absurd (hs.symm.trans h.serving) Bool.noConfusion
  | ended =>
    rcases h with h | h
    · exact .inl ⟨h.1, hw h.2⟩
    · exact absurd h ha

/-- A worker with a job has seen the generation, and its job is the posted one. -/
theorem WorkerOk.serves (h : WorkerOk e gen seen a) (hs : a.serving = true) :
    ∃ j, e = .active j ∧ seen = gen ∧ a.Serves j := by
  have hr : a.rests = false := by
    cases hr : a.rests with
    | false => rfl
    | true => rw [WorkerPc.serving_eq_false_of_rests hr] at hs; exact hs.symm
  have hw : a.waits = false := by
    cases a <;> simp_all [WorkerPc.serving, WorkerPc.waits]
  have hx : a ≠ .exited := by
    rintro rfl
    cases hs
  cases e with
  | quiet => exact absurd (hr.symm.trans h.2) Bool.noConfusion
  | active j =>
    rcases h with h | ⟨heq, h | h⟩
    · exact absurd (hw.symm.trans h.2) Bool.noConfusion
    · exact absurd (hr.symm.trans h) Bool.noConfusion
    · exact ⟨j, rfl, heq, h⟩
  | ended =>
    rcases h with h | h
    · exact absurd (hw.symm.trans h.2) Bool.noConfusion
    · exact absurd h hx

end

namespace PoolState

/-- Which thread is where the lock is held. -/
def holds (s : PoolState k Φ) (t : Fin (k + 1)) : Bool :=
  t.cases s.caller.holds fun i => (s.worker i).holds

theorem holds_moveCaller (s : PoolState k Φ) (c : CallerPc Φ) :
    (s.moveCaller c).holds = Function.update s.holds 0 c.holds := by
  funext t
  cases t using Fin.cases with
  | zero => rw [Function.update_self]; rfl
  | succ i => rw [Function.update_of_ne (Fin.succ_ne_zero i)]; rfl

theorem holds_moveWorker (s : PoolState k Φ) (i : Fin k) (a : WorkerPc Φ) :
    (s.moveWorker i a).holds = Function.update s.holds i.succ a.holds := by
  funext t
  cases t using Fin.cases with
  | zero => rw [Function.update_of_ne (Fin.succ_ne_zero i).symm]; rfl
  | succ u =>
    change (Function.update s.worker i a u).holds = _
    by_cases hu : u = i
    · rw [hu, Function.update_self, Function.update_self]
    · rw [Function.update_of_ne hu, Function.update_of_ne fun h => hu (Fin.succ_injective k h)]
      rfl

theorem holds_wakeAll (s : PoolState k Φ) : s.wakeAll.holds = s.holds := by
  funext t
  cases t using Fin.cases with
  | zero => rfl
  | succ i =>
    change (s.worker i).wake.holds = (s.worker i).holds
    cases s.worker i <;> rfl

/-- The workers that are not done. -/
def owing (s : PoolState k Φ) : ℤ :=
  ∑ i, if owes s.caller.era s.generation (s.seen i) (s.worker i) then 1 else 0

end PoolState

/-! ## The invariant -/

structure Inv (s : PoolState k Φ) : Prop where
  lock : Guarded s.mtx s.holds
  workers : ∀ i, WorkerOk s.caller.era s.generation (s.seen i) (s.worker i)
  job : ∀ j, s.caller.posts = some j → 0 < k → s.job = some j
  stop : s.stop = s.caller.stops
  pending : s.pending = if s.caller.isCounted then (k : ℤ) else s.owing
  /-- A worker asleep without having seen the generation will be notified. -/
  missed : ∀ i, s.worker i = .asleep → s.seen i ≠ s.generation → s.caller.willWake = true
  /-- A caller waiting for nobody will be notified. -/
  waiting : s.caller.waits = true → s.pending = 0 → ∃ i, (s.worker i).notifies = true

variable {s : PoolState k Φ}

theorem inv_init : Inv (init : PoolState k Φ) where
  lock t := by
    refine iff_of_false nofun ?_
    cases t using Fin.cases <;> exact Bool.noConfusion
  workers _ := ⟨rfl, rfl⟩
  job _ h := nomatch h
  stop := rfl
  pending := by
    change (0 : ℤ) = ∑ _i : Fin k, 0
    rw [Finset.sum_const_zero]
  missed _ h := nomatch h
  waiting h := nomatch h

/-- Moving one summand. -/
theorem sum_move {f g : Fin k → ℤ} (i : Fin k) (h : ∀ j, j ≠ i → f j = g j) :
    ∑ j, f j = ∑ j, g j - g i + f i := by
  rw [← Finset.add_sum_erase _ f (Finset.mem_univ i), ← Finset.add_sum_erase _ g
    (Finset.mem_univ i),
    Finset.sum_congr rfl fun j hj => h j (Finset.ne_of_mem_erase hj), add_sub_cancel_left, add_comm]

namespace Inv

/-- A step of worker `i` that changes nothing but its place and the lock. -/
theorem worker (inv : Inv s) {m : Option (Fin (k + 1))} {i : Fin k} {a : WorkerPc Φ}
    (hlock : Guarded m (Function.update s.holds i.succ a.holds))
    (hok : WorkerOk s.caller.era s.generation (s.seen i) a)
    (howes : owes s.caller.era s.generation (s.seen i) a =
      owes s.caller.era s.generation (s.seen i) (s.worker i))
    (hmissed : a = .asleep → s.seen i ≠ s.generation → s.caller.willWake = true)
    (hnotify : s.caller.waits = true → (s.worker i).notifies = true → a.notifies = true) :
    Inv ({ s with mtx := m }.moveWorker i a) where
  lock := by
    rw [holds_moveWorker]
    exact hlock
  workers u := by
    change WorkerOk _ _ _ (Function.update s.worker i a u)
    by_cases hu : u = i
    · rw [hu, Function.update_self]
      exact hok
    · rw [Function.update_of_ne hu]
      exact inv.workers u
  job := inv.job
  stop := inv.stop
  pending := by
    refine inv.pending.trans ?_
    -- it owes what it owed, and so do the others
    have hsum : PoolState.owing ({ s with mtx := m }.moveWorker i a) = s.owing := by
      refine Finset.sum_congr rfl fun u _ => ?_
      change (if owes s.caller.era s.generation (s.seen u) (Function.update s.worker i a u) = true
        then (1 : ℤ) else 0) = _
      by_cases hu : u = i
      · rw [hu, Function.update_self, howes]
      · rw [Function.update_of_ne hu]
    rw [hsum]
    rfl
  missed u := by
    change Function.update s.worker i a u = _ → _
    by_cases hu : u = i
    · rw [hu, Function.update_self]
      exact hmissed
    · rw [Function.update_of_ne hu]
      exact inv.missed u
  waiting hw h0 := by
    obtain ⟨u, hu⟩ := inv.waiting hw h0
    refine ⟨u, ?_⟩
    change (Function.update s.worker i a u).notifies = true
    by_cases hui : u = i
    · rw [hui, Function.update_self]
      exact hnotify hw (hui ▸ hu)
    · rwa [Function.update_of_ne hui]

/-- A step of the caller inside one era that leaves workers and generation alone. -/
theorem caller (inv : Inv s) {s' : PoolState k Φ} (hworker : s'.worker = s.worker)
    (hseen : s'.seen = s.seen) (hgen : s'.generation = s.generation)
    (hlock : Guarded s'.mtx (Function.update s.holds 0 s'.caller.holds))
    (hera : s'.caller.era = s.caller.era)
    (hposts : ∀ j, s'.caller.posts = some j → 0 < k → s'.job = some j)
    (hstop : s'.stop = s'.caller.stops)
    (hpending : s'.pending = if s'.caller.isCounted then (k : ℤ) else s.owing)
    (hwake : (∀ i, s.worker i ≠ .asleep) ∨ (s.caller.willWake = true → s'.caller.willWake = true))
    (hwait : s'.caller.waits = true → s'.pending = 0 → ∃ i, (s.worker i).notifies = true) :
    Inv s' where
  lock := by
    have hholds : s'.holds = Function.update s.holds 0 s'.caller.holds := by
      rw [← holds_moveCaller]
      unfold PoolState.holds
      rw [hworker]
      rfl
    rw [hholds]
    exact hlock
  workers u := by
    rw [hera, hgen, hseen, hworker]
    exact inv.workers u
  job := hposts
  stop := hstop
  pending := by
    -- what is owed is read from the workers and the caller's era
    have hsum : s'.owing = s.owing := by
      unfold PoolState.owing
      rw [hera, hgen, hseen, hworker]
    rw [hsum]
    exact hpending
  missed u hu hne := by
    rw [hworker] at hu
    rw [hseen, hgen] at hne
    rcases hwake with hno | hwake
    · exact absurd hu (hno u)
    · exact hwake (inv.missed u hu hne)
  waiting := by
    rw [hworker]
    exact hwait

/-! ## The workers' steps -/

/-- The place of worker `i`, as thread `i + 1`. -/
theorem holds_succ (s : PoolState k Φ) (i : Fin k) : s.holds i.succ = (s.worker i).holds := rfl

theorem holds_zero (s : PoolState k Φ) : s.holds 0 = s.caller.holds := rfl

/-- A worker's move between places without the lock, or between places with it. -/
theorem keepLock (inv : Inv s) {i : Fin k} {b : Bool} (hb : b = (s.worker i).holds) :
    Guarded s.mtx (Function.update s.holds i.succ b) :=
  inv.lock.keep (hb.trans (holds_succ s i).symm)

theorem keepCaller (inv : Inv s) {b : Bool} (hb : b = s.caller.holds) :
    Guarded s.mtx (Function.update s.holds 0 b) :=
  inv.lock.keep (hb.trans (holds_zero s).symm)

/-- A free lock is taken. -/
theorem takeLock (inv : Inv s) (hm : s.mtx = none) (t : Fin (k + 1)) {b : Bool} (hb : b = true) :
    Guarded (some t) (Function.update s.holds t b) := by
  have hlock := inv.lock
  rw [hm] at hlock
  rw [hb]
  exact hlock.acquire t

/-- The lock is released. -/
theorem freeLock (inv : Inv s) {t : Fin (k + 1)} (ht : s.holds t = true) {b : Bool}
    (hb : b = false) : Guarded none (Function.update s.holds t b) := by
  rw [hb]
  exact inv.lock.release ht

variable {i : Fin k}

theorem pollFresh (inv : Inv s) (h : s.worker i = .poll) (hg : s.generation ≠ s.seen i) :
    Inv (s.moveWorker i (.enter true)) :=
  inv.worker (inv.keepLock (by rw [h]; rfl))
    ((h ▸ inv.workers i).fresh hg nofun rfl) (owes_congr (by rw [h]; rfl)) nofun
    fun _ => by rw [h]; nofun

theorem pollTimeout (inv : Inv s) (h : s.worker i = .poll) (hg : s.generation = s.seen i) :
    Inv (s.moveWorker i (.enter false)) :=
  inv.worker (inv.keepLock (by rw [h]; rfl))
    ((h ▸ inv.workers i).idle hg nofun rfl) (owes_congr (by rw [h]; rfl)) nofun
    fun _ => by rw [h]; nofun

theorem lockWorker (inv : Inv s) {f : Bool} (h : s.worker i = .enter f) (hm : s.mtx = none) :
    Inv ({ s with mtx := some i.succ }.moveWorker i (.locked f)) :=
  inv.worker (inv.takeLock hm _ rfl)
    ((h ▸ inv.workers i).move nofun rfl (fun _ => rfl) fun hr => by cases f <;> exact hr)
    (owes_congr (by rw [h]; rfl)) nofun fun _ => by rw [h]; nofun

theorem check (inv : Inv s) (h : s.worker i = .locked false) (hg : s.generation = s.seen i) :
    Inv (s.moveWorker i .blocking) :=
  inv.worker (inv.keepLock (by rw [h]; rfl))
    ((h ▸ inv.workers i).idle hg nofun rfl) (owes_congr (by rw [h]; rfl)) nofun
    fun _ => by rw [h]; nofun

theorem sleep (inv : Inv s) (h : s.worker i = .blocking) :
    Inv ({ s with mtx := none }.moveWorker i .asleep) := by
  have hok : WorkerOk _ _ _ .blocking := h ▸ inv.workers i
  refine inv.worker (inv.freeLock (by rw [holds_succ, h]; rfl) rfl)
    (hok.move nofun rfl nofun fun _ => rfl) (owes_congr (by rw [h]; rfl)) (fun _ hne => ?_)
    fun _ => by rw [h]; nofun
  -- the lock has kept the generation since the check
  exact absurd (hok.unseen (Ne.symm hne) nofun).2.1 nofun

theorem spurious (inv : Inv s) (h : s.worker i = .asleep) :
    Inv (s.moveWorker i (.enter false)) :=
  inv.worker (inv.keepLock (by rw [h]; rfl))
    ((h ▸ inv.workers i).move nofun rfl (fun _ => rfl) fun _ => rfl)
    (owes_congr (by rw [h]; rfl)) nofun fun _ => by rw [h]; nofun

/-- A worker with the lock that goes on has not seen the generation. -/
theorem goes_unseen (inv : Inv s) {f : Bool} (h : s.worker i = .locked f)
    (hg : f = true ∨ s.generation ≠ s.seen i) : s.generation ≠ s.seen i := by
  rcases hg with rfl | hg
  · intro heq
    have hok : WorkerOk s.caller.era s.generation (s.seen i) (.locked true) := h ▸ inv.workers i
    cases hera : s.caller.era with
    | quiet =>
      rw [hera] at hok
      exact absurd hok.2 nofun
    | active j =>
      rw [hera] at hok
      rcases hok with hok | ⟨-, hok | hok⟩
      · exact ne_add_one _ (heq.symm.trans hok.1.symm)
      · exact absurd hok nofun
      · exact absurd hok.serving nofun
    | ended =>
      rw [hera] at hok
      rcases hok with hok | hok
      · exact ne_add_one _ (heq.symm.trans hok.1.symm)
      · cases hok
  · exact hg

/-- Nobody else has the lock. -/
theorem caller_free (inv : Inv s) (h : (s.worker i).holds = true) : s.caller.holds = false := by
  cases hc : s.caller.holds with
  | false => rfl
  | true =>
    have heq := inv.lock.unique (t := 0) (u := i.succ) hc h
    exact absurd heq.symm (Fin.succ_ne_zero i)

theorem exit (inv : Inv s) {f : Bool} (h : s.worker i = .locked f) (hs : s.stop = true) :
    Inv ({ s with mtx := none }.moveWorker i .exited) := by
  have hfree := inv.caller_free (i := i) (by rw [h]; rfl)
  have hstops : s.caller.stops = true := inv.stop.symm.trans hs
  have hera : s.caller.era = .ended := by
    generalize s.caller = c at hfree hstops
    cases c <;> simp_all [CallerPc.holds, CallerPc.stops, CallerPc.era]
  refine inv.worker (inv.freeLock (by rw [holds_succ, h]; rfl) rfl) ?_
    (owes_congr (by rw [h]; rfl)) nofun fun _ => by rw [h]; nofun
  rw [hera]
  exact .inr rfl

theorem workerBegin (inv : Inv s) {j : Job Φ} (h : s.worker i = .ready j) :
    Inv (s.moveWorker i (.running j)) := by
  have hok : WorkerOk _ _ _ (.ready j) := h ▸ inv.workers i
  obtain ⟨j', hera, hseen, hserves⟩ := hok.serves rfl
  refine inv.worker (inv.keepLock (by rw [h]; rfl)) ?_ (owes_congr (by rw [h]; rfl)) nofun
    fun _ => by rw [h]; nofun
  rw [hera]
  refine .inr ⟨hseen, .inr (.inr (.inl ?_))⟩
  rcases hserves with heq | heq | heq <;> cases heq
  rfl

theorem workerEnd (inv : Inv s) {j : Job Φ} (h : s.worker i = .running j) :
    Inv (s.moveWorker i (.finishing j)) := by
  have hok : WorkerOk _ _ _ (.running j) := h ▸ inv.workers i
  obtain ⟨j', hera, hseen, hserves⟩ := hok.serves rfl
  refine inv.worker (inv.keepLock (by rw [h]; rfl)) ?_ (owes_congr (by rw [h]; rfl)) nofun
    fun _ => by rw [h]; nofun
  rw [hera]
  refine .inr ⟨hseen, .inr (.inr (.inr ?_))⟩
  rcases hserves with heq | heq | heq <;> cases heq
  rfl

theorem lockNotify (inv : Inv s) (h : s.worker i = .notifying) (hm : s.mtx = none) :
    Inv ({ s with mtx := some i.succ }.moveWorker i .notifyLocked) :=
  inv.worker (inv.takeLock hm _ rfl)
    ((h ▸ inv.workers i).move nofun rfl (fun _ => rfl) fun _ => rfl)
    (owes_congr (by rw [h]; rfl)) nofun fun _ _ => rfl

/-- The worker takes the posted job. -/
theorem take (inv : Inv s) {f : Bool} {j : Job Φ} (h : s.worker i = .locked f)
    (hg : f = true ∨ s.generation ≠ s.seen i) (hs : s.stop = false) (hj : s.job = some j) :
    s.caller.era = .active j ∧
      Inv ({ s with mtx := none
                    seen := Function.update s.seen i s.generation }.moveWorker i (.ready j)) := by
  have hne := inv.goes_unseen h hg
  have hok : WorkerOk _ _ _ (.locked f) := h ▸ inv.workers i
  -- a worker that has not seen the generation keeps the caller in the call that posted it
  have hera : s.caller.era = .active j := by
    have hq := (hok.unseen hne nofun).2.2
    have hstops : s.caller.stops = false := inv.stop.symm.trans hs
    have hposted := fun j' hj' => inv.job j' hj' (Fin.pos i)
    generalize s.caller = c at hq hstops hposted
    cases c with
    | idle | post | posting | counted | done | stop | stopping => exact absurd rfl hq
    | stopped | notifyStop | joining | joined => cases hstops
    | posted j' | notify j' | share j' | running j' | poll j' | enter j' | locked j' | blocking j'
    | asleep j' =>
      have := (hposted j' rfl).symm.trans hj
      cases this
      rfl
  refine ⟨hera, ?_, fun u => ?_, inv.job, inv.stop, ?_, fun u => ?_, fun hw h0 => ?_⟩
  · rw [holds_moveWorker]
    exact inv.freeLock (by rw [holds_succ, h]; rfl) rfl
  · change WorkerOk s.caller.era s.generation (Function.update s.seen i s.generation u)
      (Function.update s.worker i (.ready j) u)
    by_cases hu : u = i
    · rw [hu, Function.update_self, Function.update_self, hera]
      exact .inr ⟨rfl, .inr (.inl rfl)⟩
    · rw [Function.update_of_ne hu, Function.update_of_ne hu]
      exact inv.workers u
  · refine inv.pending.trans ?_
    have hsum : PoolState.owing ({ s with mtx := none
                                          seen := Function.update s.seen i s.generation
                                 }.moveWorker i (.ready j)) = s.owing := by
      refine Finset.sum_congr rfl fun u _ => ?_
      change (if owes s.caller.era s.generation (Function.update s.seen i s.generation u)
        (Function.update s.worker i (.ready j) u) = true then (1 : ℤ) else 0) = _
      by_cases hu : u = i
      · -- it owes its share before and after
        rw [hu, Function.update_self, Function.update_self, hera, if_pos, if_pos]
        · exact Bool.or_eq_true_iff.mpr (.inl (decide_eq_true (Ne.symm hne)))
        · exact Bool.or_eq_true_iff.mpr (.inr rfl)
      · rw [Function.update_of_ne hu, Function.update_of_ne hu]
    rw [hsum]
    rfl
  · change Function.update s.worker i (.ready j) u = .asleep →
      Function.update s.seen i s.generation u ≠ s.generation → _
    by_cases hu : u = i
    · rw [hu, Function.update_self]
      nofun
    · rw [Function.update_of_ne hu, Function.update_of_ne hu]
      exact inv.missed u
  · obtain ⟨u, hu⟩ := inv.waiting hw h0
    refine ⟨u, ?_⟩
    change (Function.update s.worker i (.ready j) u).notifies = true
    rw [Function.update_of_ne]
    · exact hu
    · rintro rfl
      rw [h] at hu
      cases hu

/-- The worker counts itself off. -/
theorem finish (inv : Inv s) {j : Job Φ} (h : s.worker i = .finishing j) {a : WorkerPc Φ}
    (ha : a = .notifying ∨ a = .poll) (hlast : s.pending = 1 → a = .notifying) :
    Inv ({ s with pending := s.pending - 1 }.moveWorker i a) := by
  have hok : WorkerOk _ _ _ (.finishing j) := h ▸ inv.workers i
  obtain ⟨j', hera, hseen, -⟩ := hok.serves rfl
  have hrests : a.rests = true := by rcases ha with rfl | rfl <;> rfl
  have hcounted : s.caller.isCounted = false := by
    generalize s.caller = c at hera
    cases c <;> first | rfl | cases hera
  refine ⟨?_, fun u => ?_, inv.job, inv.stop, ?_, fun u => ?_, fun hw h0 => ?_⟩
  · rw [holds_moveWorker]
    exact inv.keepLock (by rw [h]; rcases ha with rfl | rfl <;> rfl)
  · change WorkerOk s.caller.era _ _ (Function.update s.worker i a u)
    by_cases hu : u = i
    · rw [hu, Function.update_self, hera]
      exact .inr ⟨hseen, .inl hrests⟩
    · rw [Function.update_of_ne hu]
      exact inv.workers u
  · change s.pending - 1 = if s.caller.isCounted = true then (k : ℤ) else
      ∑ u, if owes s.caller.era s.generation (s.seen u) (Function.update s.worker i a u) = true
        then (1 : ℤ) else 0
    have hpending := inv.pending
    rw [hcounted, if_neg Bool.false_ne_true] at hpending ⊢
    rw [sum_move (g := fun u => if owes s.caller.era s.generation (s.seen u) (s.worker u) = true
      then (1 : ℤ) else 0) i fun u hu => by rw [Function.update_of_ne hu], hpending]
    -- it owed its share and owes nothing now: the sum falls with the counter
    have h₁ : owes s.caller.era s.generation (s.seen i) (s.worker i) = true := by
      rw [hera, h]
      exact Bool.or_eq_true_iff.mpr (.inr rfl)
    have h₀ : owes s.caller.era s.generation (s.seen i) a = false := by
      rw [hera, hseen]
      exact Bool.or_eq_false_iff.mpr ⟨decide_eq_false (not_not.mpr rfl),
        WorkerPc.serving_eq_false_of_rests hrests⟩
    simp only [Function.update_self, h₀, h₁, Bool.false_eq_true, if_false, if_true, add_zero]
    rfl
  · change Function.update s.worker i a u = .asleep → _
    by_cases hu : u = i
    · rw [hu, Function.update_self]
      rintro rfl
      rcases ha with ha | ha <;> cases ha
    · rw [Function.update_of_ne hu]
      exact inv.missed u
  -- the last one goes on to notify
  · refine ⟨i, ?_⟩
    change (Function.update s.worker i a i).notifies = true
    have h1 : s.pending = 1 := by
      change s.pending - 1 = 0 at h0
      omega
    rw [Function.update_self, hlast h1]
    rfl

/-- The last worker wakes the caller if it sleeps. -/
theorem notifyOne (inv : Inv s) (h : s.worker i = .notifyLocked) :
    Inv ({ s with mtx := none, caller := s.caller.wake }.moveWorker i .poll) := by
  have hfree := inv.caller_free (i := i) (by rw [h]; rfl)
  have hcaller : Inv (s.moveCaller s.caller.wake) := by
    refine inv.caller rfl rfl rfl (inv.keepCaller ?_) ?_ (fun j hj hk => inv.job j ?_ hk)
      (inv.stop.trans ?_) (inv.pending.trans ?_) (.inr fun hw => ?_) fun hw _ => ?_
    all_goals
      dsimp only [moveCaller] at *
      generalize s.caller = c at *
      cases c <;> first | rfl | assumption | contradiction
  refine hcaller.worker (i := i) (a := .poll) (hcaller.freeLock (t := i.succ) ?_ rfl)
    ((h ▸ hcaller.workers i).move nofun rfl (fun _ => rfl) fun _ => rfl)
    (owes_congr (by change _ = (s.worker i).serving; rw [h]; rfl)) nofun fun hw => ?_
  · change (s.worker i).holds = true
    rw [h]
    rfl
  · change s.caller.wake.waits = true at hw
    generalize s.caller = c at hfree hw
    cases c with
    | blocking j => cases hfree
    | _ => cases hw

/-! ## The caller's steps -/

theorem quiet_owing (h : s.caller.era = .quiet) : s.owing = 0 := by
  unfold PoolState.owing
  rw [h]
  exact Finset.sum_const_zero

/-- A step between places that differ in nothing but the lock. -/
theorem along (inv : Inv s) {m : Option (Fin (k + 1))} {c : CallerPc Φ}
    (hlock : Guarded m (Function.update s.holds 0 c.holds)) (hera : c.era = s.caller.era)
    (hposts : ∀ j, c.posts = some j → s.caller.posts = some j)
    (hstops : c.stops = s.caller.stops) (hcounted : c.isCounted = s.caller.isCounted)
    (hwake : s.caller.willWake = true → c.willWake = true)
    (hwait : c.waits = true → s.pending = 0 → ∃ i, (s.worker i).notifies = true) :
    Inv ({ s with mtx := m }.moveCaller c) :=
  inv.caller rfl rfl rfl hlock hera (fun j hj hk => inv.job j (hposts j hj) hk)
    (inv.stop.trans hstops.symm) (inv.pending.trans (by rw [← hcounted]; rfl)) (.inr hwake) hwait

theorem call (inv : Inv s) {j : Job Φ} (h : s.caller = .idle) : Inv (s.moveCaller (.post j)) :=
  inv.along (inv.keepCaller (by rw [h]; rfl)) (by rw [h]; rfl) nofun (by rw [h]; rfl)
    (by rw [h]; rfl) (by rw [h]; nofun) nofun

theorem lockPost (inv : Inv s) {j : Job Φ} (h : s.caller = .post j) (hm : s.mtx = none) :
    Inv ({ s with mtx := some 0, job := some j }.moveCaller (.posting j)) :=
  inv.caller rfl rfl rfl (inv.takeLock hm 0 rfl) (by rw [h]; rfl) (fun _ hj _ => hj)
    (inv.stop.trans (by rw [h]; rfl)) (inv.pending.trans (by rw [h]; rfl))
    (.inr (by rw [h]; nofun)) nofun

theorem storePending (inv : Inv s) {j : Job Φ} (h : s.caller = .posting j) :
    Inv ({ s with pending := k }.moveCaller (.counted j)) :=
  inv.caller rfl rfl rfl (inv.keepCaller (by rw [h]; rfl)) (by rw [h]; rfl)
    (fun j' hj' hk => inv.job j' (by rw [h]; exact hj') hk)
    (inv.stop.trans (by rw [h]; rfl)) rfl (.inr (by rw [h]; nofun)) nofun

/-- A new generation, for a job or for the end: nobody has seen it. -/
theorem newGeneration (inv : Inv s) {c : CallerPc Φ} (hq : s.caller.era = .quiet)
    (hh : s.caller.holds = true) (hc : c.holds = true) (hera : c.era ≠ .quiet)
    (hposts : ∀ j, c.posts = some j → s.caller.posts = some j)
    (hstops : c.stops = s.caller.stops)
    (hcounted : c.isCounted = false ∧ (s.caller.isCounted = true ↔ c.era ≠ .ended))
    (hwake : c.willWake = true) (hwait : c.waits = false) :
    Inv ({ s with generation := s.generation + 1 }.moveCaller c) := by
  have hunseen : ∀ i, s.seen i = s.generation ∧ (s.worker i).waits = true := by
    intro i
    have hok := inv.workers i
    rw [hq] at hok
    refine ⟨hok.1, WorkerPc.waits_of_rests hok.2 ?_⟩
    -- the caller has the lock, so the worker has not
    cases hw : (s.worker i).holds with
    | false => rfl
    | true => exact absurd (inv.caller_free hw) (by rw [hh]; nofun)
  refine ⟨?_, fun i => ?_, fun j hj hk => inv.job j (hposts j hj) hk, inv.stop.trans hstops.symm,
    ?_, fun _ _ _ => hwake, fun hw => absurd (hwait.symm.trans hw) nofun⟩
  · rw [holds_moveCaller]
    exact inv.keepCaller (hc.trans hh.symm)
  · obtain ⟨hseen, hw⟩ := hunseen i
    have hsucc : s.seen i + 1 = s.generation + 1 := by rw [hseen]
    change WorkerOk c.era (s.generation + 1) (s.seen i) (s.worker i)
    cases he : c.era with
    | quiet => exact absurd he hera
    | active j => exact .inl ⟨hsucc, hw⟩
    | ended => exact .inl ⟨hsucc, hw⟩
  · change s.pending = if c.isCounted = true then (k : ℤ) else
      ∑ i, if owes c.era (s.generation + 1) (s.seen i) (s.worker i) = true then (1 : ℤ) else 0
    rw [hcounted.1, if_neg Bool.false_ne_true, inv.pending]
    cases he : c.era with
    | quiet => exact absurd he hera
    | active j =>
      rw [if_pos (hcounted.2.mpr (by rw [he]; nofun))]
      have hall : ∀ i ∈ (Finset.univ : Finset (Fin k)),
          (if owes (.active j) (s.generation + 1) (s.seen i) (s.worker i) = true then (1 : ℤ)
            else 0) = 1 := by
        intro i _
        refine if_pos (Bool.or_eq_true_iff.mpr (.inl (decide_eq_true ?_)))
        rw [(hunseen i).1]
        exact ne_add_one _
      rw [Finset.sum_congr rfl hall, Finset.sum_const, Finset.card_univ, Fintype.card_fin,
        nsmul_eq_mul, mul_one]
    | ended =>
      rw [if_neg fun hcnt => (hcounted.2.mp hcnt) he, quiet_owing hq]
      exact Finset.sum_const_zero.symm

theorem addGeneration (inv : Inv s) {j : Job Φ} (h : s.caller = .counted j) :
    Inv ({ s with generation := s.generation + 1 }.moveCaller (.posted j)) :=
  inv.newGeneration (by rw [h]; rfl) (by rw [h]; rfl) rfl nofun
    (fun _ hj => by rw [h]; exact hj) (by rw [h]; rfl)
    ⟨rfl, by rw [h]; exact iff_of_true rfl nofun⟩ rfl rfl

theorem addStop (inv : Inv s) (h : s.caller = .stopping) :
    Inv ({ s with generation := s.generation + 1 }.moveCaller .stopped) :=
  inv.newGeneration (by rw [h]; rfl) (by rw [h]; rfl) rfl nofun nofun (by rw [h]; rfl)
    ⟨rfl, by rw [h]; exact iff_of_false nofun fun hne => hne rfl⟩ rfl rfl

/-- All sleepers wake up. -/
theorem wakeAll (inv : Inv s) : Inv s.wakeAll := by
  have hok : ∀ i, WorkerOk s.caller.era s.generation (s.seen i) (s.worker i).wake := by
    intro i
    have h := inv.workers i
    generalize s.worker i = a at h
    cases a with
    | asleep => exact h.move nofun rfl (fun _ => rfl) fun _ => rfl
    | _ => exact h
  refine ⟨?_, hok, inv.job, inv.stop, ?_, fun i => ?_, fun hw h0 => ?_⟩
  · rw [holds_wakeAll]
    exact inv.lock
  · refine inv.pending.trans ?_
    have hsum : s.wakeAll.owing = s.owing := by
      refine Finset.sum_congr rfl fun i _ => ?_
      have hserving : (s.worker i).wake.serving = (s.worker i).serving := by
        cases s.worker i <;> rfl
      change (if owes s.caller.era s.generation (s.seen i) (s.worker i).wake = true
        then (1 : ℤ) else 0) = _
      rw [owes_congr hserving]
    rw [hsum]
    rfl
  · change (s.worker i).wake = .asleep → _
    cases s.worker i <;> nofun
  · obtain ⟨i, hi⟩ := inv.waiting hw h0
    refine ⟨i, ?_⟩
    change (s.worker i).wake.notifies = true
    cases ha : s.worker i <;> rw [ha] at hi <;> exact hi

theorem not_asleep_wakeAll (s : PoolState k Φ) (i : Fin k) : s.wakeAll.worker i ≠ .asleep := by
  change (s.worker i).wake ≠ .asleep
  cases s.worker i <;> nofun

theorem notifyAll (inv : Inv s) {j : Job Φ} (h : s.caller = .notify j) :
    Inv (s.wakeAll.moveCaller (.share j)) := by
  have hc : s.wakeAll.caller = .notify j := h
  have hw := inv.wakeAll
  exact hw.caller rfl rfl rfl (hw.keepCaller (by rw [hc]; rfl)) (by rw [hc]; rfl)
    (fun j' hj' hk => hw.job j' (by rw [hc]; exact hj') hk) (hw.stop.trans (by rw [hc]; rfl))
    (hw.pending.trans (by rw [hc]; rfl)) (.inl (not_asleep_wakeAll s)) nofun

theorem notifyStop (inv : Inv s) (h : s.caller = .notifyStop) :
    Inv (s.wakeAll.moveCaller .joining) := by
  have hc : s.wakeAll.caller = .notifyStop := h
  have hw := inv.wakeAll
  exact hw.caller rfl rfl rfl (hw.keepCaller (by rw [hc]; rfl)) (by rw [hc]; rfl) nofun
    (hw.stop.trans (by rw [hc]; rfl)) (hw.pending.trans (by rw [hc]; rfl))
    (.inl (not_asleep_wakeAll s)) nofun

/-- With nothing pending every worker is done with the job. -/
theorem all_done (inv : Inv s) {j : Job Φ} (h : s.caller.era = .active j) (h0 : s.pending = 0)
    (i : Fin k) : s.seen i = s.generation ∧ (s.worker i).rests = true := by
  have hcounted : s.caller.isCounted = false := by
    generalize s.caller = c at h
    cases c <;> first | rfl | cases h
  have hsum : s.owing = 0 := by
    have hpending := inv.pending
    rw [hcounted, if_neg Bool.false_ne_true] at hpending
    exact hpending.symm.trans h0
  have hnot : owes s.caller.era s.generation (s.seen i) (s.worker i) = false := by
    have hzero := (Finset.sum_eq_zero_iff_of_nonneg fun u _ => by split_ifs <;> omega).mp hsum i
      (Finset.mem_univ i)
    cases ho : owes s.caller.era s.generation (s.seen i) (s.worker i) with
    | false => rfl
    | true =>
      rw [if_pos ho] at hzero
      exact absurd hzero one_ne_zero
  have hok := inv.workers i
  rw [h] at hok hnot
  obtain ⟨hseen, hserving⟩ := Bool.or_eq_false_iff.mp hnot
  have heq : s.seen i = s.generation := not_not.mp (of_decide_eq_false hseen)
  rcases hok with hok | ⟨-, hok | hok⟩
  · exact absurd (heq.trans hok.1.symm) (ne_add_one _)
  · exact ⟨heq, hok⟩
  · exact absurd (hserving.symm.trans hok.serving) nofun

/-- The end of the wait. -/
theorem finished (inv : Inv s) {m : Option (Fin (k + 1))} {j : Job Φ}
    (hlock : Guarded m (Function.update s.holds 0 false)) (h : s.caller.era = .active j)
    (h0 : s.pending = 0) : Inv ({ s with mtx := m }.moveCaller (.done j)) := by
  have hstops : s.caller.stops = false ∧ s.caller.isCounted = false := by
    generalize s.caller = c at h
    cases c <;> first | exact ⟨rfl, rfl⟩ | cases h
  refine ⟨?_, fun i => inv.all_done h h0 i, nofun, inv.stop.trans hstops.1, ?_, fun i _ hne => ?_,
    nofun⟩
  · rw [holds_moveCaller]
    exact hlock
  · change s.pending = ∑ _i : Fin k, 0
    rw [h0, Finset.sum_const_zero]
  · exact absurd (inv.all_done h h0 i).1 hne

/-- Without workers the caller is alone. -/
theorem alone (inv : Inv s) {c : CallerPc Φ} (hk : k = 0) (hh : c.holds = s.caller.holds)
    (hstops : c.stops = s.caller.stops) (hc : s.caller.isCounted = false ∧ c.isCounted = false)
    (hwaits : c.waits = false) : Inv (s.moveCaller c) := by
  subst hk
  refine ⟨?_, fun i => i.elim0, fun _ _ h => absurd h (lt_irrefl 0), inv.stop.trans hstops.symm, ?_,
    fun i => i.elim0, fun hw => absurd (hwaits.symm.trans hw) nofun⟩
  · rw [holds_moveCaller]
    exact inv.keepCaller hh
  · have hpending := inv.pending
    rw [hc.1, if_neg Bool.false_ne_true] at hpending
    change s.pending = if c.isCounted = true then _ else _
    rw [hc.2, if_neg Bool.false_ne_true]
    exact hpending

/-- The invariant is kept. -/
theorem step (inv : Inv s) {e : PoolEvent k Φ} {s' : PoolState k Φ} (h : Step s e s') : Inv s' := by
  cases h with
  | callAlone h hk =>
    exact inv.alone hk (by rw [h]; rfl) (by rw [h]; rfl) ⟨by rw [h]; rfl, rfl⟩ rfl
  | call h _ => exact inv.call h
  | lockPost h hm => exact inv.lockPost h hm
  | storePending h => exact inv.storePending h
  | addGeneration h => exact inv.addGeneration h
  | unlockPost h =>
    exact inv.along (inv.freeLock (by rw [holds_zero, h]; rfl) rfl) (by rw [h]; rfl)
      (fun _ hj => by rw [h]; exact hj) (by rw [h]; rfl) (by rw [h]; rfl) (fun _ => rfl) nofun
  | notifyAll h => exact inv.notifyAll h
  | callerBegin h =>
    exact inv.along (inv.keepCaller (by rw [h]; rfl)) (by rw [h]; rfl)
      (fun _ hj => by rw [h]; exact hj) (by rw [h]; rfl) (by rw [h]; rfl) (by rw [h]; nofun) nofun
  -- without workers the call is over; with some the caller starts to wait
  | callerEnd h =>
    by_cases hk : k = 0
    · rw [if_pos hk]
      exact inv.alone hk (by rw [h]; rfl) (by rw [h]; rfl) ⟨by rw [h]; rfl, rfl⟩ rfl
    · rw [if_neg hk]
      exact inv.along (inv.keepCaller (by rw [h]; rfl)) (by rw [h]; rfl)
        (fun _ hj => by rw [h]; exact hj) (by rw [h]; rfl) (by rw [h]; rfl) (by rw [h]; nofun) nofun
  | callerPolled h h0 => exact inv.finished (inv.keepCaller (by rw [h]; rfl)) (by rw [h]; rfl) h0
  | callerTimeout h _ =>
    exact inv.along (inv.keepCaller (by rw [h]; rfl)) (by rw [h]; rfl)
      (fun _ hj => by rw [h]; exact hj) (by rw [h]; rfl) (by rw [h]; rfl) (by rw [h]; nofun) nofun
  | callerLock h hm =>
    exact inv.along (inv.takeLock hm 0 rfl) (by rw [h]; rfl)
      (fun _ hj => by rw [h]; exact hj) (by rw [h]; rfl) (by rw [h]; rfl) (by rw [h]; nofun) nofun
  | callerReady h h0 =>
    exact inv.finished (inv.freeLock (by rw [holds_zero, h]; rfl) rfl) (by rw [h]; rfl) h0
  -- under the lock a worker is still pending: the caller goes on to block
  | callerCheck h h0 =>
    exact inv.along (inv.keepCaller (by rw [h]; rfl)) (by rw [h]; rfl)
      (fun _ hj => by rw [h]; exact hj) (by rw [h]; rfl) (by rw [h]; rfl) (by rw [h]; nofun)
      fun _ h1 => absurd h1 h0
  | callerSleep h =>
    exact inv.along (inv.freeLock (by rw [holds_zero, h]; rfl) rfl) (by rw [h]; rfl)
      (fun _ hj => by rw [h]; exact hj) (by rw [h]; rfl) (by rw [h]; rfl) (by rw [h]; nofun)
      fun _ h0 => inv.waiting (by rw [h]; rfl) h0
  | callerSpurious h =>
    exact inv.along (inv.keepCaller (by rw [h]; rfl)) (by rw [h]; rfl)
      (fun _ hj => by rw [h]; exact hj) (by rw [h]; rfl) (by rw [h]; rfl) (by rw [h]; nofun) nofun
  | ret h =>
    exact inv.along (inv.keepCaller (by rw [h]; rfl)) (by rw [h]; rfl) nofun (by rw [h]; rfl)
      (by rw [h]; rfl) (by rw [h]; nofun) nofun
  | destroy h =>
    exact inv.along (inv.keepCaller (by rw [h]; rfl)) (by rw [h]; rfl) nofun (by rw [h]; rfl)
      (by rw [h]; rfl) (by rw [h]; nofun) nofun
  | lockStop h hm =>
    exact inv.caller rfl rfl rfl (inv.takeLock hm 0 rfl) (by rw [h]; rfl) nofun rfl
      (inv.pending.trans (by rw [h]; rfl)) (.inr (by rw [h]; nofun)) nofun
  | addStop h => exact inv.addStop h
  | unlockStop h =>
    exact inv.along (inv.freeLock (by rw [holds_zero, h]; rfl) rfl) (by rw [h]; rfl) nofun
      (by rw [h]; rfl) (by rw [h]; rfl) (fun _ => rfl) nofun
  | notifyStop h => exact inv.notifyStop h
  | join h _ =>
    exact inv.along (inv.keepCaller (by rw [h]; rfl)) (by rw [h]; rfl) nofun (by rw [h]; rfl)
      (by rw [h]; rfl) (by rw [h]; nofun) nofun
  | pollFresh h hg => exact inv.pollFresh h hg
  | pollTimeout h hg => exact inv.pollTimeout h hg
  | lock h hm => exact inv.lockWorker h hm
  | check h hg => exact inv.check h hg
  | sleep h => exact inv.sleep h
  | spurious h => exact inv.spurious h
  | exit h _ hs => exact inv.exit h hs
  | take h hg hs hj => exact (inv.take h hg hs hj).2
  | workerBegin h => exact inv.workerBegin h
  | workerEnd h => exact inv.workerEnd h
  | finishLast h h1 => exact inv.finish h (.inl rfl) fun _ => rfl
  | finish h h1 => exact inv.finish h (.inr rfl) fun h => absurd h h1
  | lockNotify h hm => exact inv.lockNotify h hm
  | notifyOne h => exact inv.notifyOne h

end Inv

theorem inv_run {tr : List (PoolEvent k Φ)} (h : (system k Φ).Run tr s) : Inv s :=
  h.invariant (P := fun _ s => Inv s) inv_init fun _ inv hs => inv.step hs

end SolvePool
end Parallel
end SmfSolver
