/-
  SmfSolver.Parallel.TaskClaim

  Phase 1 of the tree-parallel factorization: how the threads of a pool take the
  subtree tasks.  Thread `t` claims task `t` first (it is dealt to it), then takes
  tasks from the shared counter, and last claims the dealt tasks nobody claimed yet.
  The job runs under `SolvePool::run`, whose caller is thread 0 and returns when no
  worker is pending.

  A step is one atomic access of one thread.  A relaxed load of a claim flag may miss a
  claim just made, and a poll of the stop flag a stop just raised; a read-modify-write
  sees the latest value.  A worker may wake, and any thread go on, arbitrarily late.

  `phase1_tasks`: no task is begun twice, and when the caller returns with nothing failed
  every task was begun and ended exactly once, a dealt one by its thread or by one other.
-/
import SmfSolver.Lib.Run
import Mathlib.Data.Fintype.Card
import Mathlib.Logic.Function.Basic

namespace SmfSolver
namespace Parallel

open Lib

/-- How a thread came by a task. -/
inductive Way where
  | own
  | shared
  | takeover
  deriving DecidableEq

/-- Where a thread is in its share of the job. -/
inductive Pc where
  /-- Not started: the worker has not seen the job yet. -/
  | waiting
  /-- `running()`, the load and the exchange of its own task's claim. -/
  | ownPoll
  | ownLoad
  | ownXchg
  /-- In `run_task`. -/
  | task (i : ℕ) (way : Way)
  /-- `while (running())`, and the `fetch_add` of the shared counter. -/
  | loopPoll
  | fetch
  /-- The takeover loop at dealt task `i`. -/
  | scanPoll (i : ℕ)
  | scanLoad (i : ℕ)
  | scanXchg (i : ℕ)
  /-- The share is done; the pool does not know yet. -/
  | finished
  /-- The worker is no longer pending; of the caller: `run` returned. -/
  | returned
  deriving DecidableEq

/-- What happens in a run, as the tasks see it. -/
inductive TaskEvent (threads : ℕ) where
  | began (t : Fin threads) (i : ℕ) (way : Way)
  | ended (t : Fin threads) (i : ℕ)
  /-- A running task raises the stop flag. -/
  | failed (t : Fin threads)
  /-- Anything else a thread does. -/
  | moved (t : Fin threads)
  deriving DecidableEq

/-- The shared variables, and where every thread is. -/
structure Phase1 (threads : ℕ) where
  /-- The shared counter `next`. -/
  next : ℕ
  claimed : ℕ → Bool
  failed : Bool
  /-- Workers of the pool that have not finished. -/
  pending : ℕ
  pc : Fin threads → Pc

namespace Phase1

variable {threads : ℕ}

/-- The tasks dealt to a thread each. -/
def dealt (threads n : ℕ) : ℕ := min n threads

def init (threads n : ℕ) : Phase1 threads where
  next := dealt threads n
  claimed := fun _ => false
  failed := false
  pending := threads - 1
  pc := fun _ => .waiting

/-- Moves thread `t` to `a`. -/
def goto (s : Phase1 threads) (t : Fin threads) (a : Pc) : Phase1 threads :=
  { s with pc := Function.update s.pc t a }

/-- `running()` may answer `b`: it says no only when the stop flag is raised. -/
def Polls (s : Phase1 threads) (b : Bool) : Prop := b = false → s.failed = true

/-- A load of the claim flag of task `i` may answer `b`. -/
def Loads (s : Phase1 threads) (i : ℕ) (b : Bool) : Prop := b = true → s.claimed i = true

/-- `claimed[i].exchange(true)`. -/
def claim (s : Phase1 threads) (i : ℕ) : Phase1 threads :=
  { s with claimed := Function.update s.claimed i true }

/-- Where a thread goes after a task. -/
def afterTask (i : ℕ) : Way → Pc
  | .own => .loopPoll
  | .shared => .loopPoll
  | .takeover => .scanPoll (i + 1)

/-- One atomic step of one thread, of `n` tasks. -/
inductive Step (n : ℕ) : Phase1 threads → TaskEvent threads → Phase1 threads → Prop
  | start {s t} (h : s.pc t = .waiting) :
      Step n s (.moved t) (s.goto t (if t.1 < dealt threads n then .ownPoll else .loopPoll))
  | ownPoll {s t} {b : Bool} (h : s.pc t = .ownPoll) (hb : s.Polls b) :
      Step n s (.moved t) (s.goto t (if b then .ownLoad else .loopPoll))
  | ownLoad {s t} {b : Bool} (h : s.pc t = .ownLoad) (hb : s.Loads t.1 b) :
      Step n s (.moved t) (s.goto t (if b then .loopPoll else .ownXchg))
  | ownClaim {s t} (h : s.pc t = .ownXchg) (hfree : s.claimed t.1 = false) :
      Step n s (.began t t.1 .own) ((s.claim t.1).goto t (.task t.1 .own))
  | ownLost {s t} (h : s.pc t = .ownXchg) (htaken : s.claimed t.1 = true) :
      Step n s (.moved t) ((s.claim t.1).goto t .loopPoll)
  | loopPoll {s t} {b : Bool} (h : s.pc t = .loopPoll) (hb : s.Polls b) :
      Step n s (.moved t) (s.goto t (if b then .fetch else .scanPoll 0))
  | fetch {s t} (h : s.pc t = .fetch) (hlt : s.next < n) :
      Step n s (.began t s.next .shared)
        ({ s with next := s.next + 1 }.goto t (.task s.next .shared))
  | fetchNone {s t} (h : s.pc t = .fetch) (hge : n ≤ s.next) :
      Step n s (.moved t) ({ s with next := s.next + 1 }.goto t (.scanPoll 0))
  | scanPoll {s t} {i : ℕ} (h : s.pc t = .scanPoll i) (hi : i < dealt threads n) :
      Step n s (.moved t) (s.goto t (.scanLoad i))
  | scanStop {s t} {i : ℕ} (h : s.pc t = .scanPoll i)
      (hi : dealt threads n ≤ i ∨ s.Polls false) :
      Step n s (.moved t) (s.goto t .finished)
  | scanLoad {s t} {i : ℕ} {b : Bool} (h : s.pc t = .scanLoad i) (hb : s.Loads i b) :
      Step n s (.moved t) (s.goto t (if b then .scanPoll (i + 1) else .scanXchg i))
  | scanClaim {s t} {i : ℕ} (h : s.pc t = .scanXchg i) (hfree : s.claimed i = false) :
      Step n s (.began t i .takeover) ((s.claim i).goto t (.task i .takeover))
  | scanLost {s t} {i : ℕ} (h : s.pc t = .scanXchg i) (htaken : s.claimed i = true) :
      Step n s (.moved t) ((s.claim i).goto t (.scanPoll (i + 1)))
  | fail {s t} {i : ℕ} {way : Way} (h : s.pc t = .task i way) :
      Step n s (.failed t) { s with failed := true }
  | ended {s t} {i : ℕ} {way : Way} (h : s.pc t = .task i way) :
      Step n s (.ended t i) (s.goto t (afterTask i way))
  /-- A worker's share is done: it is no longer pending. -/
  | finish {s t} (h : s.pc t = .finished) (ht : t.1 ≠ 0) :
      Step n s (.moved t) ({ s with pending := s.pending - 1 }.goto t .returned)
  /-- The caller returns when no worker is pending. -/
  | finishCaller {s t} (h : s.pc t = .finished) (ht : t.1 = 0) (hpending : s.pending = 0) :
      Step n s (.moved t) (s.goto t .returned)

/-- Phase 1 with `threads` threads and `n` tasks. -/
def system (threads n : ℕ) : Lts (Phase1 threads) (TaskEvent threads) where
  init := init threads n
  step := Step n

/-! ## The invariant -/

/-- Task `i` was handed out. -/
def Taken (n : ℕ) (s : Phase1 threads) (i : ℕ) : Prop :=
  i < dealt threads n ∧ s.claimed i = true ∨ dealt threads n ≤ i ∧ i < s.next ∧ i < n

/-- The way fits the task and the thread. -/
def WayOk (threads n : ℕ) (t i : ℕ) : Way → Prop
  | .own => i = t ∧ i < dealt threads n
  | .shared => dealt threads n ≤ i ∧ i < n
  | .takeover => i < dealt threads n

/-- What a thread's place says of the tasks it is at. -/
def PcOk (threads n : ℕ) (t : ℕ) : Pc → Prop
  | .ownPoll | .ownLoad | .ownXchg => t < dealt threads n
  | .scanLoad i | .scanXchg i => i < dealt threads n
  | .task i way => WayOk threads n t i way
  | _ => True

/-- The dealt tasks a thread that is past the shared counter knows to be claimed: those
    below this one. -/
def scanned (threads n : ℕ) : Pc → Option ℕ
  | .scanPoll i | .scanLoad i | .scanXchg i => some i
  | .task i .takeover => some (i + 1)
  | .finished | .returned => some (dealt threads n)
  | _ => none

/-- The thread is past the claim of its own task. -/
def pastOwn : Pc → Bool
  | .waiting | .ownPoll | .ownLoad | .ownXchg => false
  | _ => true

/-- Neither in a task nor out of the job. -/
def isIdle : Pc → Bool
  | .task _ _ | .returned => false
  | _ => true

def isBegan (i : ℕ) : TaskEvent threads → Bool
  | .began _ j _ => j = i
  | _ => false

def isEnded (i : ℕ) : TaskEvent threads → Bool
  | .ended _ j => j = i
  | _ => false

/-- How often task `i` was begun, and ended. -/
def begun (tr : List (TaskEvent threads)) (i : ℕ) : ℕ := tr.countP (isBegan i)

def endings (tr : List (TaskEvent threads)) (i : ℕ) : ℕ := tr.countP (isEnded i)

/-- Workers that are still pending. -/
def unreturned (s : Phase1 threads) : Finset (Fin threads) :=
  Finset.univ.filter fun t => t.1 ≠ 0 ∧ s.pc t ≠ .returned

structure Inv (n : ℕ) (tr : List (TaskEvent threads)) (s : Phase1 threads) : Prop where
  next_ge : dealt threads n ≤ s.next
  pcOk : ∀ t, PcOk threads n t.1 (s.pc t)
  begun_eq : ∀ i, (Taken n s i ∧ begun tr i = 1) ∨ (¬Taken n s i ∧ begun tr i = 0)
  running : ∀ t i way, s.pc t = .task i way → Taken n s i ∧ endings tr i = 0
  unique : ∀ t u i way way', s.pc t = .task i way → s.pc u = .task i way' → t = u
  ends : ∀ i, (endings tr i = 0 ∧ (Taken n s i → ∃ t way, s.pc t = .task i way)) ∨
    endings tr i = 1 ∧ Taken n s i
  scan : s.failed = false → ∀ t j, scanned threads n (s.pc t) = some j →
    n ≤ s.next ∧ ∀ i < j, i < dealt threads n → s.claimed i = true
  own : s.failed = false → ∀ t : Fin threads, t.1 < dealt threads n →
    pastOwn (s.pc t) = true → s.claimed t.1 = true
  events : ∀ t i way, TaskEvent.began t i way ∈ tr → WayOk threads n t.1 i way ∧
    (s.failed = false → way = .takeover → i ≠ t.1)
  pending : s.pending = s.unreturned.card
  caller : ∀ t : Fin threads, t.1 = 0 → s.pc t = .returned → s.pending = 0

section Steps

variable {n : ℕ} {tr : List (TaskEvent threads)} {s s' : Phase1 threads} {t : Fin threads}
  {a b : Pc} {i : ℕ} {way : Way}

theorem begun_snoc (e : TaskEvent threads) :
    begun (tr ++ [e]) i = begun tr i + if isBegan i e then 1 else 0 := by
  rw [begun, List.countP_append, List.countP_singleton]
  rfl

theorem endings_snoc (e : TaskEvent threads) :
    endings (tr ++ [e]) i = endings tr i + if isEnded i e then 1 else 0 := by
  rw [endings, List.countP_append, List.countP_singleton]
  rfl

theorem unreturned_congr (h : ∀ u, s'.pc u = .returned ↔ s.pc u = .returned) :
    s'.unreturned = s.unreturned :=
  Finset.filter_congr fun u _ => by rw [ne_eq, ne_eq, h u]

/-- A thread moves between two places of which neither is `returned`. -/
theorem returned_update (hpc : s'.pc = Function.update s.pc t b) (ha : s.pc t ≠ .returned)
    (hb : b ≠ .returned) (u : Fin threads) : s'.pc u = .returned ↔ s.pc u = .returned := by
  rw [hpc]
  by_cases hut : u = t
  · subst hut
    rw [Function.update_self]
    exact iff_of_false hb ha
  · rw [Function.update_of_ne hut]

/-- What a move does to the shared variables: nothing but what is known already. -/
structure SameTasks (n : ℕ) (s s' : Phase1 threads) : Prop where
  taken : ∀ i, Taken n s' i ↔ Taken n s i
  failed : s'.failed = s.failed
  pending : s'.pending = s.pending
  next : s.next ≤ s'.next
  claimed : ∀ i, s.claimed i = true → s'.claimed i = true

theorem sameTasks_goto (n : ℕ) (s : Phase1 threads) (t : Fin threads) (b : Pc) :
    SameTasks n s (s.goto t b) :=
  ⟨fun _ => Iff.rfl, rfl, rfl, le_rfl, fun _ h => h⟩

/-- A claim of a task that is claimed changes nothing. -/
theorem sameTasks_claim (h : s.claimed i = true) (t : Fin threads) (b : Pc) :
    SameTasks n s ((s.claim i).goto t b) := by
  have hsame : Function.update s.claimed i true = s.claimed := by
    rw [← h, Function.update_eq_self]
  refine ⟨fun j => ?_, rfl, rfl, le_rfl, fun j hj => ?_⟩
  · simp only [Taken, goto, claim, hsame]
  · simpa only [goto, claim, hsame] using hj

theorem claimed_claim {j : ℕ} (h : s.claimed j = true) : (s.claim i).claimed j = true := by
  by_cases hj : j = i
  · subst hj
    exact Function.update_self ..
  · exact (Function.update_of_ne hj ..).trans h

/-- A claim takes the task claimed, and no other. -/
theorem taken_claim (hi : i < dealt threads n) (j : ℕ) :
    Taken n ((s.claim i).goto t b) j ↔ Taken n s j ∨ j = i := by
  by_cases hj : j = i
  · subst hj
    exact iff_of_true (.inl ⟨hi, Function.update_self ..⟩) (.inr rfl)
  · have hsame : ((s.claim i).goto t b).claimed j = s.claimed j := Function.update_of_ne hj ..
    rw [or_iff_left hj, Taken, hsame]
    exact Iff.rfl

/-- The rest of the invariant for a thread that goes from `a` to `b`, neither a task. -/
theorem Inv.moved (h : Inv n tr s) (hsame : SameTasks n s s')
    (hpc : s'.pc = Function.update s.pc t b) (hia : isIdle (s.pc t) = true)
    (hib : isIdle b = true) (hok : PcOk threads n t.1 b)
    (hscan : s.failed = false → ∀ j, scanned threads n b = some j →
      n ≤ s'.next ∧ ∀ i < j, i < dealt threads n → s'.claimed i = true)
    (hown : s.failed = false → t.1 < dealt threads n → pastOwn b = true →
      s'.claimed t.1 = true) : Inv n (tr ++ [.moved t]) s' := by
  have ha : ∀ i way, s.pc t ≠ .task i way := fun i way hc => by rw [hc] at hia; cases hia
  have hb : ∀ i way, b ≠ .task i way := fun i way hc => by rw [hc] at hib; cases hib
  have har : s.pc t ≠ .returned := fun hc => by rw [hc] at hia; cases hia
  have hbr : b ≠ .returned := fun hc => by rw [hc] at hib; cases hib
  -- the thread is in no task before the move and in none after it
  have htask : ∀ u i way, s'.pc u = .task i way ↔ s.pc u = .task i way := by
    intro u i way
    rw [hpc]
    by_cases hut : u = t
    · subst hut
      rw [Function.update_self]
      exact iff_of_false (hb i way) (ha i way)
    · rw [Function.update_of_ne hut]
  have hret := returned_update hpc har hbr
  have hbegun : ∀ i, begun (tr ++ [.moved t]) i = begun tr i := fun i => by
    rw [begun_snoc]; rfl
  have hendings : ∀ i, endings (tr ++ [.moved t]) i = endings tr i := fun i => by
    rw [endings_snoc]; rfl
  refine ⟨h.next_ge.trans hsame.next, fun u => ?_, fun i => ?_, fun u i way hu => ?_,
    fun u v i way way' hu hv => ?_, fun i => ?_, fun hf u j hj => ?_, fun hf u hu hpast => ?_,
    fun u i way he => ?_, ?_, fun u hu hr => ?_⟩
  · rw [hpc]
    by_cases hut : u = t
    · subst hut
      rwa [Function.update_self]
    · rw [Function.update_of_ne hut]
      exact h.pcOk u
  · rw [hbegun, hsame.taken]
    exact h.begun_eq i
  · rw [hendings, hsame.taken]
    exact h.running u i way ((htask u i way).mp hu)
  · exact h.unique u v i way way' ((htask u i way).mp hu) ((htask v i way').mp hv)
  · rw [hendings, hsame.taken]
    refine (h.ends i).imp_left fun ⟨h0, hrun⟩ => ⟨h0, fun hi => ?_⟩
    obtain ⟨u, way, hu⟩ := hrun hi
    exact ⟨u, way, (htask u i way).mpr hu⟩
  · rw [hsame.failed] at hf
    rw [hpc] at hj
    by_cases hut : u = t
    · subst hut
      rw [Function.update_self] at hj
      exact hscan hf j hj
    · rw [Function.update_of_ne hut] at hj
      obtain ⟨hn, hcl⟩ := h.scan hf u j hj
      exact ⟨hn.trans hsame.next, fun i hij hi => hsame.claimed i (hcl i hij hi)⟩
  · rw [hsame.failed] at hf
    rw [hpc] at hpast
    by_cases hut : u = t
    · subst hut
      rw [Function.update_self] at hpast
      exact hown hf hu hpast
    · rw [Function.update_of_ne hut] at hpast
      exact hsame.claimed _ (h.own hf u hu hpast)
  · rw [hsame.failed]
    rcases List.mem_append.mp he with he | he
    · exact h.events u i way he
    · cases List.mem_singleton.mp he
  · rw [hsame.pending, unreturned_congr hret, h.pending]
  · rw [hsame.pending]
    exact h.caller u hu ((hret u).mp hr)

/-- The invariant after a thread begins a task nobody had. -/
theorem Inv.began (h : Inv n tr s) (hpc : s'.pc = Function.update s.pc t (.task i way))
    (hia : isIdle (s.pc t) = true) (hnew : ¬Taken n s i)
    (htaken : ∀ j, Taken n s' j ↔ Taken n s j ∨ j = i) (hfailed : s'.failed = s.failed)
    (hpending : s'.pending = s.pending) (hnext : s.next ≤ s'.next)
    (hclaimed : ∀ j, s.claimed j = true → s'.claimed j = true) (hok : WayOk threads n t.1 i way)
    (hscan : s.failed = false → way = .takeover →
      n ≤ s'.next ∧ ∀ j < i + 1, j < dealt threads n → s'.claimed j = true)
    (hown : s.failed = false → t.1 < dealt threads n → s'.claimed t.1 = true)
    (hother : s.failed = false → way = .takeover → i ≠ t.1) :
    Inv n (tr ++ [.began t i way]) s' := by
  have ha : ∀ i way, s.pc t ≠ .task i way := fun i way hc => by rw [hc] at hia; cases hia
  have har : s.pc t ≠ .returned := fun hc => by rw [hc] at hia; cases hia
  have hself : s'.pc t = .task i way := by rw [hpc, Function.update_self]
  have hof : ∀ u, u ≠ t → s'.pc u = s.pc u := fun u hu => by rw [hpc, Function.update_of_ne hu]
  have hret := returned_update hpc har fun hc => (nomatch hc)
  have hbegun : ∀ j, begun (tr ++ [.began t i way]) j = begun tr j + if i = j then 1 else 0 :=
    fun j => by rw [begun_snoc, isBegan]; simp only [decide_eq_true_eq]
  have hendings : ∀ j, endings (tr ++ [.began t i way]) j = endings tr j := fun j => by
    rw [endings_snoc]; rfl
  -- nobody is in the task yet: whoever is in one has taken it
  have hnone : ∀ u way', s.pc u ≠ .task i way' := fun u way' hu =>
    hnew (h.running u i way' hu).1
  refine ⟨h.next_ge.trans hnext, fun u => ?_, fun j => ?_, fun u j way' hu => ?_,
    fun u v j way₁ way₂ hu hv => ?_, fun j => ?_, fun hf u j hj => ?_, fun hf u hu hpast => ?_,
    fun u j way' he => ?_, ?_, fun u hu hr => ?_⟩
  · by_cases hut : u = t
    · subst hut
      rw [hself]
      exact hok
    · rw [hof u hut]
      exact h.pcOk u
  -- begun once now, as it was not before
  · rw [hbegun, htaken]
    by_cases hij : i = j
    · subst hij
      rw [if_pos rfl, ((h.begun_eq i).resolve_left fun hc => hnew hc.1).2]
      exact .inl ⟨.inr rfl, rfl⟩
    · rw [if_neg hij, Nat.add_zero, or_iff_left (Ne.symm hij)]
      exact h.begun_eq j
  · rw [hendings, htaken]
    by_cases hut : u = t
    · subst hut
      obtain ⟨rfl, -⟩ := Pc.task.inj (hself.symm.trans hu)
      exact ⟨.inr rfl, ((h.ends i).resolve_right fun hc => hnew hc.2).1⟩
    · rw [hof u hut] at hu
      obtain ⟨hj, h0⟩ := h.running u j way' hu
      exact ⟨.inl hj, h0⟩
  -- two threads in one task would both be `t`
  · by_cases hut : u = t <;> by_cases hvt : v = t
    · rw [hut, hvt]
    · subst hut
      obtain ⟨rfl, -⟩ := Pc.task.inj (hself.symm.trans hu)
      exact absurd (hof v hvt ▸ hv) (hnone v way₂)
    · subst hvt
      obtain ⟨rfl, -⟩ := Pc.task.inj (hself.symm.trans hv)
      exact absurd (hof u hut ▸ hu) (hnone u way₁)
    · exact h.unique u v j way₁ way₂ (hof u hut ▸ hu) (hof v hvt ▸ hv)
  · rw [hendings, htaken]
    by_cases hij : j = i
    · subst hij
      exact .inl ⟨((h.ends j).resolve_right fun hc => hnew hc.2).1, fun _ => ⟨t, way, hself⟩⟩
    · rw [or_iff_left hij]
      refine (h.ends j).imp_left fun ⟨h0, hrun⟩ => ⟨h0, fun hj => ?_⟩
      obtain ⟨u, way', hu⟩ := hrun hj
      have hut : u ≠ t := by
        rintro rfl
        exact ha j way' hu
      exact ⟨u, way', (hof u hut).trans hu⟩
  · rw [hfailed] at hf
    by_cases hut : u = t
    · subst hut
      rw [hself] at hj
      cases way with
      | own => cases hj
      | shared => cases hj
      | takeover =>
        obtain rfl := Option.some.inj hj
        exact hscan hf rfl
    · rw [hof u hut] at hj
      obtain ⟨hn, hcl⟩ := h.scan hf u j hj
      exact ⟨hn.trans hnext, fun k hkj hk => hclaimed k (hcl k hkj hk)⟩
  · rw [hfailed] at hf
    by_cases hut : u = t
    · subst hut
      exact hown hf hu
    · rw [hof u hut] at hpast
      exact hclaimed _ (h.own hf u hu hpast)
  · rw [hfailed]
    rcases List.mem_append.mp he with he | he
    · exact h.events u j way' he
    · obtain ⟨rfl, rfl, rfl⟩ := TaskEvent.began.inj (List.mem_singleton.mp he)
      exact ⟨hok, hother⟩
  · rw [hpending, unreturned_congr hret, h.pending]
  · rw [hpending]
    exact h.caller u hu ((hret u).mp hr)

/-- The invariant after a task ends. -/
theorem Inv.ended (h : Inv n tr s) (ht : s.pc t = .task i way) :
    Inv n (tr ++ [.ended t i]) (s.goto t (afterTask i way)) := by
  have hself : (s.goto t (afterTask i way)).pc t = afterTask i way := Function.update_self ..
  have hof : ∀ u, u ≠ t → (s.goto t (afterTask i way)).pc u = s.pc u :=
    fun u hu => Function.update_of_ne hu ..
  have hafter : ∀ j way', afterTask i way ≠ .task j way' := by
    intro j way' hc
    cases way <;> cases hc
  have hret : ∀ u, (s.goto t (afterTask i way)).pc u = .returned ↔ s.pc u = .returned := by
    refine returned_update rfl ?_ ?_
    · rw [ht]
      exact fun hc => (nomatch hc)
    · cases way <;> exact fun hc => (nomatch hc)
  have hbegun : ∀ j, begun (tr ++ [.ended t i]) j = begun tr j := fun j => by
    rw [begun_snoc]; rfl
  have hendings : ∀ j, endings (tr ++ [.ended t i]) j = endings tr j + if i = j then 1 else 0 :=
    fun j => by rw [endings_snoc, isEnded]; simp only [decide_eq_true_eq]
  obtain ⟨htaken, hzero⟩ := h.running t i way ht
  refine ⟨h.next_ge, fun u => ?_, fun j => ?_, fun u j way' hu => ?_,
    fun u v j way₁ way₂ hu hv => ?_, fun j => ?_, fun hf u j hj => ?_, fun hf u hu hpast => ?_,
    fun u j way' he => ?_, ?_, fun u hu hr => ?_⟩
  · by_cases hut : u = t
    · subst hut
      rw [hself]
      cases way <;> trivial
    · rw [hof u hut]
      exact h.pcOk u
  · rw [hbegun]
    exact h.begun_eq j
  · have hut : u ≠ t := by
      rintro rfl
      exact hafter j way' (hself ▸ hu)
    rw [hof u hut] at hu
    obtain ⟨hj, h0⟩ := h.running u j way' hu
    -- the task that ended was `t`'s alone
    have hij : i ≠ j := by
      rintro rfl
      exact hut (h.unique u t i way' way hu ht)
    rw [hendings, if_neg hij]
    exact ⟨hj, h0⟩
  · have hut : u ≠ t := by
      rintro rfl
      exact hafter j way₁ (hself ▸ hu)
    have hvt : v ≠ t := by
      rintro rfl
      exact hafter j way₂ (hself ▸ hv)
    exact h.unique u v j way₁ way₂ (hof u hut ▸ hu) (hof v hvt ▸ hv)
  -- ended once now; another task keeps the thread that runs it
  · rw [hendings]
    by_cases hij : i = j
    · subst hij
      rw [if_pos rfl, hzero]
      exact .inr ⟨rfl, htaken⟩
    · rw [if_neg hij, Nat.add_zero]
      refine (h.ends j).imp_left fun ⟨h0, hrun⟩ => ⟨h0, fun hj => ?_⟩
      obtain ⟨u, way', hu⟩ := hrun hj
      have hut : u ≠ t := by
        rintro rfl
        exact hij (Pc.task.inj (ht.symm.trans hu)).1
      exact ⟨u, way', (hof u hut).trans hu⟩
  · by_cases hut : u = t
    · subst hut
      rw [hself] at hj
      cases way with
      | own => cases hj
      | shared => cases hj
      | takeover =>
        refine h.scan hf u j ?_
        rw [ht]
        exact hj
    · rw [hof u hut] at hj
      exact h.scan hf u j hj
  · by_cases hut : u = t
    · subst hut
      refine h.own hf u hu ?_
      rw [ht]
      rfl
    · rw [hof u hut] at hpast
      exact h.own hf u hu hpast
  · rcases List.mem_append.mp he with he | he
    · exact h.events u j way' he
    · cases List.mem_singleton.mp he
  · rw [unreturned_congr hret]
    exact h.pending
  · exact h.caller u hu ((hret u).mp hr)

/-- A task that raises the stop flag. -/
theorem Inv.fail (h : Inv n tr s) (t : Fin threads) :
    Inv n (tr ++ [.failed t]) { s with failed := true } := by
  have hbegun : ∀ j, begun (tr ++ [.failed t]) j = begun tr j := fun j => by
    rw [begun_snoc]; rfl
  have hendings : ∀ j, endings (tr ++ [.failed t]) j = endings tr j := fun j => by
    rw [endings_snoc]; rfl
  refine ⟨h.next_ge, h.pcOk, fun j => ?_, fun u j way hu => ?_, h.unique, fun j => ?_,
    fun hf => (nomatch hf), fun hf => (nomatch hf), fun u j way he => ?_, h.pending, h.caller⟩
  · rw [hbegun]
    exact h.begun_eq j
  · rw [hendings]
    exact h.running u j way hu
  · rw [hendings]
    exact h.ends j
  · rcases List.mem_append.mp he with he | he
    · exact ⟨(h.events u j way he).1, fun hf => (nomatch hf)⟩
    · cases List.mem_singleton.mp he

/-- A thread's share is done and the pool knows. -/
theorem Inv.finish (h : Inv n tr s) (ht : s.pc t = .finished) {k : ℕ}
    (hk : k = if t.1 ≠ 0 then s.pending - 1 else s.pending)
    (hcaller : t.1 = 0 → s.pending = 0) :
    Inv n (tr ++ [.moved t]) ({ s with pending := k }.goto t .returned) := by
  set s' := ({ s with pending := k } : Phase1 threads).goto t .returned with hs'
  have hself : s'.pc t = .returned := Function.update_self ..
  have hof : ∀ u, u ≠ t → s'.pc u = s.pc u := fun u hu => Function.update_of_ne hu ..
  have hbegun : ∀ j, begun (tr ++ [.moved t]) j = begun tr j := fun j => by
    rw [begun_snoc]; rfl
  have hendings : ∀ j, endings (tr ++ [.moved t]) j = endings tr j := fun j => by
    rw [endings_snoc]; rfl
  -- a thread that has returned is in no task, so whoever is in one now was in it before
  have hne : ∀ u j way, s'.pc u = .task j way → s.pc u = .task j way := by
    intro u j way hu
    by_cases hut : u = t
    · subst hut
      cases hself.symm.trans hu
    · rwa [hof u hut] at hu
  refine ⟨h.next_ge, fun u => ?_, fun j => ?_, fun u j way hu => ?_,
    fun u v j way₁ way₂ hu hv => h.unique u v j way₁ way₂ (hne u j way₁ hu) (hne v j way₂ hv),
    fun j => ?_, fun hf u j hj => ?_, fun hf u hu hpast => ?_, fun u j way he => ?_, ?_,
    fun u hu hr => ?_⟩
  · by_cases hut : u = t
    · subst hut
      rw [hself]
      trivial
    · rw [hof u hut]
      exact h.pcOk u
  · rw [hbegun]
    exact h.begun_eq j
  · rw [hendings]
    exact h.running u j way (hne u j way hu)
  · rw [hendings]
    refine (h.ends j).imp_left fun ⟨h0, hrun⟩ => ⟨h0, fun hj => ?_⟩
    obtain ⟨u, way, hu⟩ := hrun hj
    have hut : u ≠ t := by
      rintro rfl
      cases ht.symm.trans hu
    exact ⟨u, way, (hof u hut).trans hu⟩
  · by_cases hut : u = t
    · subst hut
      rw [hself] at hj
      refine h.scan hf u j ?_
      rw [ht]
      exact hj
    · rw [hof u hut] at hj
      exact h.scan hf u j hj
  · by_cases hut : u = t
    · subst hut
      refine h.own hf u hu ?_
      rw [ht]
      rfl
    · rw [hof u hut] at hpast
      exact h.own hf u hu hpast
  · rcases List.mem_append.mp he with he | he
    · exact h.events u j way he
    · cases List.mem_singleton.mp he
  · -- the thread leaves the pending workers, if it is one
    have hpend : s'.pending = k := rfl
    rw [hpend, hk, h.pending]
    by_cases ht0 : t.1 = 0
    -- the caller is not among the pending workers
    · rw [if_neg (not_not.mpr ht0)]
      refine congrArg Finset.card (Finset.filter_congr fun u _ => and_congr_right fun hu0 => ?_)
      have hut : u ≠ t := by
        rintro rfl
        exact hu0 ht0
      rw [hof u hut]
    · rw [if_pos ht0]
      have hmem : t ∈ s.unreturned :=
        Finset.mem_filter.mpr ⟨Finset.mem_univ t, ht0, by rw [ht]; exact fun hc => (nomatch hc)⟩
      rw [← Finset.card_erase_of_mem hmem]
      congr 1
      ext u
      simp only [unreturned, Finset.mem_erase, Finset.mem_filter, Finset.mem_univ, true_and]
      by_cases hut : u = t
      · subst hut
        rw [hself]
        exact iff_of_false (fun hc => hc.1 rfl) fun hc => hc.2 rfl
      · rw [hof u hut, and_iff_right hut]
  -- the caller returns only when no worker is pending, and none becomes pending again
  · have hpend : s'.pending = k := rfl
    rw [hpend, hk]
    by_cases hut : u = t
    · subst hut
      rw [if_neg (not_not.mpr hu)]
      exact hcaller hu
    · rw [hof u hut] at hr
      have h0 := h.caller u hu hr
      split_ifs
      · rw [h0]
      · exact h0

/-- What one step keeps. -/
theorem Inv.step {e : TaskEvent threads} (h : Inv n tr s) (hs : Step n s e s') :
    Inv n (tr ++ [e]) s' := by
  have hidle : ∀ {t a}, s.pc t = a → isIdle a = true → isIdle (s.pc t) = true :=
    fun ht ha => by rw [ht, ha]
  have hok : ∀ {t a}, s.pc t = a → PcOk threads n t.1 a := fun {t a} ht => ht ▸ h.pcOk t
  have hscan : ∀ {t a j}, s.pc t = a → s.failed = false → scanned threads n a = some j →
      n ≤ s.next ∧ ∀ i < j, i < dealt threads n → s.claimed i = true :=
    fun {t a j} ht hf hj => h.scan hf t j (by rw [ht, hj])
  have hown : ∀ {t a}, s.pc t = a → pastOwn a = true → s.failed = false →
      t.1 < dealt threads n → s.claimed t.1 = true :=
    fun {t a} ht ha hf hlt => h.own hf t hlt (by rw [ht, ha])
  cases hs with
  | start ht =>
    refine h.moved (sameTasks_goto ..) rfl (hidle ht rfl) ?_ ?_ ?_ ?_
    · split_ifs <;> rfl
    · split_ifs with hlt
      · exact hlt
      · trivial
    · intro _ j hj
      split_ifs at hj <;> cases hj
    · intro _ hlt hp
      rw [if_pos hlt] at hp
      cases hp
  -- a poll that says no ends the claim of the own task, but only after a stop
  | @ownPoll t b ht hb =>
    refine h.moved (sameTasks_goto ..) rfl (hidle ht rfl) ?_ ?_ ?_ ?_
    · cases b <;> rfl
    · have hlt : t.1 < dealt threads n := hok ht
      cases b
      · trivial
      · exact hlt
    · intro _ j hj
      cases b <;> cases hj
    · intro hf _ hp
      cases b
      · exact absurd (hb rfl) (by rw [hf]; exact Bool.false_ne_true)
      · cases hp
  | @ownLoad t b ht hb =>
    refine h.moved (sameTasks_goto ..) rfl (hidle ht rfl) ?_ ?_ ?_ ?_
    · cases b <;> rfl
    · have hlt : t.1 < dealt threads n := hok ht
      cases b
      · exact hlt
      · trivial
    · intro _ j hj
      cases b <;> cases hj
    · intro _ _ hp
      cases b
      · cases hp
      · exact hb rfl
  | @ownClaim t ht hfree =>
    have hlt : t.1 < dealt threads n := hok ht
    refine h.began rfl (hidle ht rfl) ?_ (fun j => ?_) rfl rfl le_rfl (fun j hj => ?_)
      ⟨rfl, hlt⟩ (fun _ hw => (nomatch hw)) (fun _ _ => Function.update_self ..)
      (fun _ hw => (nomatch hw))
    · rintro (⟨-, hc⟩ | ⟨hge, -⟩)
      · rw [hfree] at hc
        cases hc
      · exact absurd hlt (not_lt.mpr hge)
    · exact taken_claim hlt j
    · exact claimed_claim hj
  -- the exchange finds the flag set: somebody took the task over
  | @ownLost t ht htaken =>
    refine h.moved (sameTasks_claim htaken ..) rfl (hidle ht rfl) rfl trivial
      (fun _ j hj => (nomatch hj)) fun _ _ _ => Function.update_self ..
  | @loopPoll t b ht hb =>
    refine h.moved (sameTasks_goto ..) rfl (hidle ht rfl) ?_ ?_ ?_ ?_
    · cases b <;> rfl
    · cases b <;> trivial
    · intro hf j hj
      cases b
      · exact absurd (hb rfl) (by rw [hf]; exact Bool.false_ne_true)
      · cases hj
    · exact fun hf hlt _ => hown ht rfl hf hlt
  -- the counter hands out the task it stood at
  | @fetch t ht hlt =>
    have hge := h.next_ge
    refine h.began rfl (hidle ht rfl) ?_ (fun j => ?_) rfl rfl (Nat.le_succ _) (fun _ hj => hj)
      ⟨hge, hlt⟩ (fun _ hw => (nomatch hw)) (fun hf hl => hown ht rfl hf hl)
      (fun _ hw => (nomatch hw))
    · rintro (⟨hl, -⟩ | ⟨-, hl, -⟩)
      · exact absurd hl (not_lt.mpr hge)
      · exact lt_irrefl _ hl
    · change (_ ∨ dealt threads n ≤ j ∧ j < s.next + 1 ∧ j < n) ↔ (_ ∨ _) ∨ j = s.next
      rw [or_assoc]
      refine or_congr_right ⟨fun ⟨h₁, h₂, h₃⟩ => ?_, ?_⟩
      · rcases Nat.lt_succ_iff_lt_or_eq.mp h₂ with h₂ | h₂
        · exact .inl ⟨h₁, h₂, h₃⟩
        · exact .inr h₂
      · rintro (⟨h₁, h₂, h₃⟩ | rfl)
        · exact ⟨h₁, h₂.trans (Nat.lt_succ_self _), h₃⟩
        · exact ⟨hge, Nat.lt_succ_self _, hlt⟩
  -- the counter has run out: from here on the thread knows that it has
  | @fetchNone t ht hge =>
    refine h.moved ⟨fun j => or_congr_right ?_, rfl, rfl, Nat.le_succ _, fun _ hj => hj⟩ rfl
      (hidle ht rfl) rfl trivial ?_ fun hf hlt _ => hown ht rfl hf hlt
    · change _ ∧ j < s.next + 1 ∧ j < n ↔ _ ∧ j < s.next ∧ j < n
      omega
    · intro _ j hj
      obtain rfl := Option.some.inj hj
      exact ⟨hge.trans (Nat.le_succ _), fun i hi => absurd hi (Nat.not_lt_zero i)⟩
  | @scanPoll t i ht hi =>
    exact h.moved (sameTasks_goto ..) rfl (hidle ht rfl) rfl hi
      (fun hf j hj => hscan ht hf hj) fun hf hlt _ => hown ht rfl hf hlt
  -- the scan is over because it saw every dealt task claimed, or after a stop
  | @scanStop t i ht hi =>
    refine h.moved (sameTasks_goto ..) rfl (hidle ht rfl) rfl trivial ?_
      fun hf hlt _ => hown ht rfl hf hlt
    intro hf j hj
    obtain rfl := Option.some.inj hj
    rcases hi with hi | hi
    · obtain ⟨hn, hcl⟩ := hscan ht hf rfl
      exact ⟨hn, fun k hk hkd => hcl k (hk.trans_le hi) hkd⟩
    · exact absurd (hi rfl) (by rw [hf]; exact Bool.false_ne_true)
  -- a load that says yes is right; one that says no is checked by the exchange
  | @scanLoad t i b ht hb =>
    refine h.moved (sameTasks_goto ..) rfl (hidle ht rfl) ?_ ?_ ?_
      fun hf hlt _ => hown ht rfl hf hlt
    · cases b <;> rfl
    · have hlt : i < dealt threads n := hok ht
      cases b
      · exact hlt
      · trivial
    · intro hf j hj
      obtain ⟨hn, hcl⟩ := hscan ht hf rfl
      cases b
      · obtain rfl := Option.some.inj hj
        exact ⟨hn, hcl⟩
      · obtain rfl := Option.some.inj hj
        refine ⟨hn, fun k hk hkd => ?_⟩
        rcases Nat.lt_succ_iff_lt_or_eq.mp hk with hk | rfl
        · exact hcl k hk hkd
        · exact hb rfl
  -- a takeover: the thread has its own task behind it, so this is another's
  | @scanClaim t i ht hfree =>
    have hlt : i < dealt threads n := hok ht
    refine h.began rfl (hidle ht rfl) ?_ (fun j => taken_claim hlt j) rfl rfl le_rfl
      (fun j hj => claimed_claim hj) hlt ?_ (fun hf hl => claimed_claim (hown ht rfl hf hl)) ?_
    · rintro (⟨-, hc⟩ | ⟨hge, -⟩)
      · rw [hfree] at hc
        cases hc
      · exact absurd hlt (not_lt.mpr hge)
    · intro hf _
      obtain ⟨hn, hcl⟩ := hscan ht hf rfl
      refine ⟨hn, fun k hk hkd => ?_⟩
      rcases Nat.lt_succ_iff_lt_or_eq.mp hk with hk | rfl
      · exact claimed_claim (hcl k hk hkd)
      · exact Function.update_self ..
    · rintro hf - rfl
      rw [hown ht rfl hf hlt] at hfree
      cases hfree
  | @scanLost t i ht htaken =>
    refine h.moved (sameTasks_claim htaken ..) rfl (hidle ht rfl) rfl trivial ?_
      fun hf hlt _ => claimed_claim (hown ht rfl hf hlt)
    intro hf j hj
    obtain rfl := Option.some.inj hj
    obtain ⟨hn, hcl⟩ := hscan ht hf rfl
    refine ⟨hn, fun k hk hkd => ?_⟩
    rcases Nat.lt_succ_iff_lt_or_eq.mp hk with hk | rfl
    · exact claimed_claim (hcl k hk hkd)
    · exact Function.update_self ..
  | fail ht => exact h.fail _
  | ended ht => exact h.ended ht
  | finish ht ht0 => exact h.finish ht (if_pos ht0).symm fun h0 => absurd h0 ht0
  | finishCaller ht ht0 hp => exact h.finish ht (if_neg (not_not.mpr ht0)).symm fun _ => hp

end Steps

theorem inv_init (threads n : ℕ) : Inv n [] (init threads n) := by
  have hnot : ∀ i, ¬Taken n (init threads n) i := by
    rintro i (⟨-, hc⟩ | ⟨hge, hlt, -⟩)
    · cases hc
    · exact absurd hlt (not_lt.mpr hge)
  refine ⟨le_rfl, fun _ => trivial, fun i => .inr ⟨hnot i, rfl⟩, fun _ _ _ hc => (nomatch hc),
    fun _ _ _ _ _ hc => (nomatch hc), fun i => .inl ⟨rfl, fun hc => absurd hc (hnot i)⟩,
    fun _ _ _ hc => (nomatch hc), fun _ _ _ hc => (nomatch hc), fun _ _ _ hc => (nomatch hc), ?_,
    fun _ _ hc => (nomatch hc)⟩
  have hall : (init threads n).unreturned = Finset.univ.filter fun t : Fin threads => t.1 ≠ 0 :=
    Finset.filter_congr fun t _ => and_iff_left fun hc => (nomatch hc)
  rw [hall]
  cases threads with
  | zero => rfl
  | succ k =>
    have herase : (Finset.univ.filter fun t : Fin (k + 1) => t.1 ≠ 0) = Finset.univ.erase 0 := by
      ext t
      simp only [Finset.mem_filter, Finset.mem_univ, true_and, Finset.mem_erase, and_true, ne_eq,
        Fin.ext_iff, Fin.val_zero]
    rw [herase, Finset.card_erase_of_mem (Finset.mem_univ _), Finset.card_univ, Fintype.card_fin]
    rfl

theorem inv_run {n : ℕ} {tr : List (TaskEvent threads)} {s : Phase1 threads}
    (h : (system threads n).Run tr s) : Inv n tr s :=
  h.invariant (inv_init threads n) fun _ hinv hs => hinv.step hs

/-- The stop flag is raised by a task only. -/
theorem failed_run {n : ℕ} {tr : List (TaskEvent threads)} {s : Phase1 threads}
    (h : (system threads n).Run tr s) (hf : s.failed = true) : ∃ t, TaskEvent.failed t ∈ tr := by
  refine h.invariant (P := fun tr s => s.failed = true → ∃ t, TaskEvent.failed t ∈ tr)
    (fun hc => absurd hc Bool.false_ne_true) (fun {tr s e s'} _ ih hs hf => ?_) hf
  have hold : s.failed = true → ∃ t, TaskEvent.failed t ∈ tr ++ [e] := fun hf => by
    obtain ⟨t, ht⟩ := ih hf
    exact ⟨t, List.mem_append_left _ ht⟩
  cases hs
  case fail => exact ⟨_, List.mem_append_right _ (List.mem_singleton_self _)⟩
  all_goals exact hold hf

/-- When the caller's `run` has returned, every worker has. -/
theorem Inv.all_returned {n : ℕ} {tr : List (TaskEvent threads)} {s : Phase1 threads}
    (h : Inv n tr s) {caller : Fin threads} (hcaller : caller.1 = 0)
    (hret : s.pc caller = .returned) (t : Fin threads) : s.pc t = .returned := by
  have hempty : s.unreturned = ∅ := by
    rw [← Finset.card_eq_zero, ← h.pending]
    exact h.caller caller hcaller hret
  by_cases ht : t.1 = 0
  · obtain rfl : t = caller := Fin.ext (ht.trans hcaller.symm)
    exact hret
  · by_contra hne
    have hmem : t ∈ s.unreturned := Finset.mem_filter.mpr ⟨Finset.mem_univ t, ht, hne⟩
    rw [hempty] at hmem
    exact (Finset.notMem_empty t) hmem

/-- When all threads have returned and nothing failed, every task was begun and ended. -/
theorem Inv.all_ended {n : ℕ} {tr : List (TaskEvent threads)} {s : Phase1 threads}
    (h : Inv n tr s) (caller : Fin threads) (hret : ∀ t, s.pc t = .returned)
    (hf : s.failed = false) {i : ℕ} (hi : i < n) : begun tr i = 1 ∧ endings tr i = 1 := by
  obtain ⟨hnext, hclaimed⟩ := h.scan hf caller (dealt threads n) (by rw [hret]; rfl)
  have htaken : Taken n s i := by
    rcases lt_or_ge i (dealt threads n) with hlt | hge
    · exact .inl ⟨hlt, hclaimed i hlt hlt⟩
    · exact .inr ⟨hge, hi.trans_le hnext, hi⟩
  refine ⟨((h.begun_eq i).resolve_right fun hc => hc.1 htaken).2, ?_⟩
  rcases h.ends i with ⟨-, hrun⟩ | ⟨h1, -⟩
  · obtain ⟨t, way, ht⟩ := hrun htaken
    cases (hret t).symm.trans ht
  · exact h1

/-- Phase 1 in every interleaving.  At any point no task was begun twice, and the way a
    thread came by a task fits it.  When the caller's `run` has returned and no task
    raised the stop flag, every worker has returned, and every task was begun and ended
    exactly once: a dealt one by its own thread or by exactly one other. -/
theorem phase1_tasks {n : ℕ} {tr : List (TaskEvent threads)} {s : Phase1 threads}
    (h : (system threads n).Run tr s) :
    (∀ i, begun tr i ≤ 1 ∧ endings tr i ≤ begun tr i) ∧
      (∀ t i way, TaskEvent.began t i way ∈ tr → WayOk threads n t.1 i way) ∧
      ∀ caller : Fin threads, caller.1 = 0 → s.pc caller = .returned →
        (∀ t, TaskEvent.failed t ∉ tr) →
        (∀ t, s.pc t = .returned) ∧
        (∀ i < n, begun tr i = 1 ∧ endings tr i = 1) ∧
        ∀ i < dealt threads n, (∃ t, t.1 = i ∧ TaskEvent.began t i .own ∈ tr) ∨
          ∃ t, t.1 ≠ i ∧ TaskEvent.began t i .takeover ∈ tr := by
  have hinv := inv_run h
  refine ⟨fun i => ?_, fun t i way he => (hinv.events t i way he).1,
    fun caller hcaller hret hnofail => ?_⟩
  · rcases hinv.begun_eq i with ⟨-, h1⟩ | ⟨hnot, h0⟩
    · rw [h1]
      rcases hinv.ends i with ⟨he, -⟩ | ⟨he, -⟩ <;> omega
    · rcases hinv.ends i with ⟨he, -⟩ | ⟨-, ht⟩
      · omega
      · exact absurd ht hnot
  · have hf : s.failed = false := by
      by_contra hf
      obtain ⟨t, ht⟩ := failed_run h (Bool.not_eq_false _ ▸ hf)
      exact hnofail t ht
    have hall := hinv.all_returned hcaller hret
    have hended : ∀ i < n, begun tr i = 1 ∧ endings tr i = 1 := fun i hi =>
      hinv.all_ended caller hall hf hi
    refine ⟨hall, hended, fun i hi => ?_⟩
    have hpos : 0 < begun tr i := by
      rw [(hended i (hi.trans_le (Nat.min_le_left ..))).1]
      exact Nat.one_pos
    -- the event that began the task tells the way
    obtain ⟨e, he, hi'⟩ := List.countP_pos_iff.mp hpos
    cases e with
    | began t j way =>
      obtain rfl : j = i := of_decide_eq_true hi'
      obtain ⟨hok, hother⟩ := hinv.events t j way he
      cases way with
      | own => exact .inl ⟨t, hok.1.symm, he⟩
      | shared => exact absurd hi (not_lt.mpr hok.1)
      | takeover => exact .inr ⟨t, Ne.symm (hother hf rfl), he⟩
    | ended => cases hi'
    | failed => cases hi'
    | moved => cases hi'

/-- Two threads and three tasks.  The caller runs its own task and the shared one, and takes
    over the other dealt task; the worker wakes while it scans, loads its claim flag before
    the claim is visible, loses the exchange and finds nothing left. -/
theorem phase1_tasks_takeover :
    ∃ (tr : List (TaskEvent 2)) (s : Phase1 2), (system 2 3).Run tr s ∧
      TaskEvent.began 0 0 .own ∈ tr ∧ TaskEvent.began 0 2 .shared ∈ tr ∧
      TaskEvent.began 0 1 .takeover ∈ tr ∧ (∀ t, s.pc t = .returned) ∧
      ∀ i < 3, begun tr i = 1 ∧ endings tr i = 1 := by
  have hrunning : ∀ s : Phase1 2, s.Polls true := fun _ hc => absurd hc.symm Bool.false_ne_true
  have hunseen : ∀ (s : Phase1 2) i, s.Loads i false := fun _ _ hc => absurd hc Bool.false_ne_true
  have h : (system 2 3).Run [] (init 2 3) := .nil
  have h := h.snoc (.start (t := 0) rfl)
  have h := h.snoc (.ownPoll (t := 0) (b := true) rfl (hrunning _))
  have h := h.snoc (.ownLoad (t := 0) (b := false) rfl (hunseen _ _))
  have h := h.snoc (.ownClaim (t := 0) rfl rfl)
  have h := h.snoc (.ended (t := 0) (rfl : _ = Pc.task 0 .own))
  have h := h.snoc (.loopPoll (t := 0) (b := true) rfl (hrunning _))
  have h := h.snoc (.fetch (t := 0) rfl (show 2 < 3 by decide))
  have h := h.snoc (.ended (t := 0) (rfl : _ = Pc.task 2 .shared))
  have h := h.snoc (.loopPoll (t := 0) (b := true) rfl (hrunning _))
  have h := h.snoc (.fetchNone (t := 0) rfl (show 3 ≤ 3 from le_rfl))
  have h := h.snoc (.scanPoll (t := 0) (i := 0) rfl (by decide))
  have h := h.snoc (.scanLoad (t := 0) (i := 0) (b := true) rfl fun _ => rfl)
  have h := h.snoc (.scanPoll (t := 0) (i := 1) rfl (by decide))
  -- the worker wakes
  have h := h.snoc (.start (t := 1) rfl)
  have h := h.snoc (.ownPoll (t := 1) (b := true) rfl (hrunning _))
  have h := h.snoc (.scanLoad (t := 0) (i := 1) (b := false) rfl (hunseen _ _))
  have h := h.snoc (.scanClaim (t := 0) (i := 1) rfl rfl)
  have h := h.snoc (.ownLoad (t := 1) (b := false) rfl (hunseen _ _))
  have h := h.snoc (.ownLost (t := 1) rfl rfl)
  have h := h.snoc (.loopPoll (t := 1) (b := true) rfl (hrunning _))
  have h := h.snoc (.fetchNone (t := 1) rfl (show 3 ≤ 4 by decide))
  have h := h.snoc (.scanPoll (t := 1) (i := 0) rfl (by decide))
  have h := h.snoc (.scanLoad (t := 1) (i := 0) (b := true) rfl fun _ => rfl)
  have h := h.snoc (.scanPoll (t := 1) (i := 1) rfl (by decide))
  have h := h.snoc (.scanLoad (t := 1) (i := 1) (b := true) rfl fun _ => rfl)
  have h := h.snoc (.scanStop (t := 1) (i := 2) rfl (.inl (by decide)))
  have h := h.snoc (.finish (t := 1) rfl (by decide))
  have h := h.snoc (.ended (t := 0) (rfl : _ = Pc.task 1 .takeover))
  have h := h.snoc (.scanStop (t := 0) (i := 2) rfl (.inl (by decide)))
  have h := h.snoc (.finishCaller (t := 0) rfl rfl rfl)
  obtain ⟨-, -, hdone⟩ := phase1_tasks h
  obtain ⟨hret, hall, -⟩ := hdone 0 rfl rfl (by decide)
  exact ⟨_, _, h, by decide, by decide, by decide, hret, hall⟩

end Phase1
end Parallel
end SmfSolver
