/-
  SmfSolver.Parallel.SolvePoolRuns

  Whole runs of the pool: in every call each thread begins and ends the job once, and the
  call returns after that.

  * `Served`: the runs in which every call is complete and no function runs outside a call.
  * `Traced.step`: a call under way has the events that the places of the threads tell.
  * `Inv.exists_step`, `Step.lowers`: nobody sleeps through a notification, and no schedule
    keeps a call from returning.
  * `pool_runs`: all of it, for every run.
-/
import SmfSolver.Parallel.SolvePoolInv

namespace SmfSolver
namespace Parallel
namespace SolvePool

open Lib PoolState

variable {k : ℕ} {Φ : Type} {s : PoolState k Φ}

/-! ## What a run shows -/

/-- The thread that runs the function, if the event is of one. -/
def PoolEvent.thread : PoolEvent k Φ → Option (Fin (k + 1))
  | .began t _ | .ended t _ => some t
  | _ => none

/-- An event outside the functions and calls. -/
def PoolEvent.Quiet (e : PoolEvent k Φ) : Prop := e = .moved ∨ e = .spurious ∨ e = .destroy

/-- What happens between a call with `j` and its return: threads begin and end `j`. -/
def CallBody (j : Job Φ) (body : List (PoolEvent k Φ)) : Prop :=
  ∀ e ∈ body, e.Quiet ∨ ∃ t, e = .began t j ∨ e = .ended t j

/-- The events of thread `t`. -/
def ofThread (t : Fin (k + 1)) (body : List (PoolEvent k Φ)) : List (PoolEvent k Φ) :=
  body.filter fun e => decide (e.thread = some t)

/-- A run between two calls: in every call so far each thread has begun and ended the job of
    the call once, in this order, and nothing else; outside the calls no function runs. -/
inductive Served : List (PoolEvent k Φ) → Prop
  | nil : Served []
  | quiet {tr : List (PoolEvent k Φ)} {e : PoolEvent k Φ} (h : Served tr) (he : e.Quiet) :
      Served (tr ++ [e])
  | call {tr body : List (PoolEvent k Φ)} {j : Job Φ} (h : Served tr) (hbody : CallBody j body)
      (hall : ∀ t, ofThread t body = [.began t j, .ended t j]) :
      Served (tr ++ .call j :: body ++ [.ret])

/-! ## Shares -/

namespace CallerPc

/-- The job of the call under way. -/
def current : CallerPc Φ → Option (Job Φ)
  | .post j | .posting j | .counted j | .posted j | .notify j | .share j | .running j | .poll j
  | .enter j | .locked j | .blocking j | .asleep j | .done j => some j
  | _ => none

/-- The call under way has posted its job. -/
def hasPosted : CallerPc Φ → Bool
  | .posted _ | .notify _ | .share _ | .running _ | .poll _ | .enter _ | .locked _ | .blocking _
  | .asleep _ | .done _ => true
  | _ => false

/-- How many of its two events the caller has had in this call. -/
def progress : CallerPc Φ → ℕ
  | .running _ => 1
  | .poll _ | .enter _ | .locked _ | .blocking _ | .asleep _ | .done _ => 2
  | _ => 0

end CallerPc

/-- How many of its two events a worker has had in this call. -/
def WorkerPc.progress (posted seen : Bool) : WorkerPc Φ → ℕ
  | .ready _ => 0
  | .running _ => 1
  | .finishing _ => 2
  | _ => if posted && seen then 2 else 0

namespace PoolState

def workerProgress (s : PoolState k Φ) (i : Fin k) : ℕ :=
  (s.worker i).progress s.caller.hasPosted (decide (s.seen i = s.generation))

def progress (s : PoolState k Φ) (t : Fin (k + 1)) : ℕ :=
  t.cases s.caller.progress s.workerProgress

end PoolState

/-- The run up to a state: all calls before are served, and in the one under way every thread
    has had the events of its progress. -/
def Traced (tr : List (PoolEvent k Φ)) (s : PoolState k Φ) : Prop :=
  match s.caller.current with
  | none => Served tr
  | some j => ∃ pre body, tr = pre ++ .call j :: body ∧ Served pre ∧ CallBody j body ∧
      ∀ t, ofThread t body = [.began t j, .ended t j].take (s.progress t)

namespace Traced

variable {tr : List (PoolEvent k Φ)} {s' : PoolState k Φ} {e : PoolEvent k Φ}

/-- A step that no call sees. -/
theorem quiet (h : Traced tr s) (he : e.Quiet) (hcurrent : s'.caller.current = s.caller.current)
    (hprogress : s.caller.current ≠ none → ∀ t, s'.progress t = s.progress t) :
    Traced (tr ++ [e]) s' := by
  unfold Traced at h ⊢
  rw [hcurrent]
  cases hc : s.caller.current with
  | none =>
    rw [hc] at h
    exact h.quiet he
  | some j =>
    rw [hc] at h
    obtain ⟨pre, body, rfl, hpre, hbody, hall⟩ := h
    refine ⟨pre, body ++ [e], by rw [List.append_assoc]; rfl, hpre, fun a ha => ?_, fun t => ?_⟩
    · rcases List.mem_append.mp ha with ha | ha
      · exact hbody a ha
      · exact .inl (List.mem_singleton.mp ha ▸ he)
    · have hthread : e.thread = none := by rcases he with rfl | rfl | rfl <;> rfl
      have hout : ofThread t [e] = [] := by
        unfold ofThread
        rw [List.filter_singleton, hthread]
        rfl
      have happ : ofThread t (body ++ [e]) = ofThread t body := by
        unfold ofThread at hout ⊢
        rw [List.filter_append, hout, List.append_nil]
      rw [happ, hall, hprogress (by rw [hc]; nofun)]

/-- A thread's next event. -/
theorem event (h : Traced tr s) {j : Job Φ} {t : Fin (k + 1)} {n : ℕ} (hn : n < 2)
    (hcurrent : s.caller.current = some j) (hcurrent' : s'.caller.current = some j)
    (hbefore : s.progress t = n) (hafter : s'.progress t = n + 1)
    (hother : ∀ u, u ≠ t → s'.progress u = s.progress u) :
    Traced (tr ++ [if n = 0 then .began t j else .ended t j]) s' := by
  unfold Traced at h ⊢
  rw [hcurrent] at h
  rw [hcurrent']
  obtain ⟨pre, body, rfl, hpre, hbody, hall⟩ := h
  generalize he : (if n = 0 then PoolEvent.began t j else .ended t j) = e
  have hkind : e = .began t j ∨ e = .ended t j := by
    rw [← he]
    split_ifs
    · exact .inl rfl
    · exact .inr rfl
  have hthread : e.thread = some t := by rcases hkind with rfl | rfl <;> rfl
  refine ⟨pre, body ++ [e], by rw [List.append_assoc]; rfl, hpre, fun a ha => ?_, fun u => ?_⟩
  · rcases List.mem_append.mp ha with ha | ha
    · exact hbody a ha
    · exact .inr ⟨t, List.mem_singleton.mp ha ▸ hkind⟩
  -- the event is the thread's own next one, and no other's
  · have happ : ofThread u (body ++ [e]) = ofThread u body ++ ofThread u [e] :=
      List.filter_append ..
    by_cases hu : u = t
    · subst hu
      have hone : ofThread u [e] = [e] := by
        unfold ofThread
        rw [List.filter_singleton, decide_eq_true hthread]
        rfl
      rw [happ, hall, hone, hbefore, hafter, ← he]
      obtain rfl | rfl : n = 0 ∨ n = 1 := by omega
      · rfl
      · rfl
    · have hnone : ofThread u [e] = [] := by
        unfold ofThread
        rw [List.filter_singleton, hthread, decide_eq_false fun h => hu (Option.some.inj h).symm]
        rfl
      rw [happ, hall, hnone, List.append_nil, hother u hu]

/-- A step of worker `i` between places of the same progress. -/
theorem worker (h : Traced tr s) (he : e.Quiet) (i : Fin k) (a : WorkerPc Φ)
    (hworker : s'.worker = Function.update s.worker i a) (hseen : s'.seen = s.seen)
    (hgen : s'.generation = s.generation)
    (hcaller : s'.caller.current = s.caller.current ∧
      s'.caller.hasPosted = s.caller.hasPosted ∧ s'.caller.progress = s.caller.progress)
    (ha : ∀ b, a.progress s.caller.hasPosted b = (s.worker i).progress s.caller.hasPosted b) :
    Traced (tr ++ [e]) s' := by
  refine h.quiet he hcaller.1 fun _ t => ?_
  cases t using Fin.cases with
  | zero => exact hcaller.2.2
  | succ u =>
    change (s'.worker u).progress s'.caller.hasPosted _ = (s.worker u).progress _ _
    rw [hworker, hseen, hgen, hcaller.2.1]
    by_cases hu : u = i
    · rw [hu, Function.update_self, ha]
    · rw [Function.update_of_ne hu]

/-- A step of the caller between places of the same progress. -/
theorem caller (h : Traced tr s) (he : e.Quiet)
    (hworker : ∀ i b, (s'.worker i).progress s'.caller.hasPosted b =
      (s.worker i).progress s'.caller.hasPosted b)
    (hseen : s'.seen = s.seen) (hgen : s'.generation = s.generation)
    (hcurrent : s'.caller.current = s.caller.current)
    (hposted : s'.caller.hasPosted = s.caller.hasPosted)
    (hprogress : s'.caller.progress = s.caller.progress) : Traced (tr ++ [e]) s' := by
  refine h.quiet he hcurrent fun _ t => ?_
  cases t using Fin.cases with
  | zero => exact hprogress
  | succ u =>
    change (s'.worker u).progress s'.caller.hasPosted _ = (s.worker u).progress _ _
    rw [hworker, hseen, hgen, hposted]

/-- A new call starts with no events. -/
theorem call (h : Traced tr s) {j : Job Φ} (hidle : s.caller = .idle)
    (hcurrent : s'.caller.current = some j) (hzero : ∀ t, s'.progress t = 0) :
    Traced (tr ++ [.call j]) s' := by
  unfold Traced at h ⊢
  rw [hidle] at h
  rw [hcurrent]
  exact ⟨tr, [], rfl, h, fun _ h => absurd h List.not_mem_nil, fun t => by rw [hzero]; rfl⟩

/-- A call returns when every thread has had its events. -/
theorem ret (h : Traced tr s) {j : Job Φ} (hcurrent : s.caller.current = some j)
    (hcurrent' : s'.caller.current = none) (htwo : ∀ t, s.progress t = 2) :
    Traced (tr ++ [.ret]) s' := by
  unfold Traced at h ⊢
  rw [hcurrent] at h
  rw [hcurrent']
  obtain ⟨pre, body, rfl, hpre, hbody, hall⟩ := h
  exact hpre.call hbody fun t => by rw [hall, htwo]; rfl

end Traced

/-- A worker at rest has had no event of a call that has not posted, and both of one that has. -/
theorem progress_rests {a : WorkerPc Φ} (h : a.rests = true) (p b : Bool) :
    a.progress p b = if p && b then 2 else 0 := by
  cases a <;> first | rfl | cases h

theorem progress_waits {a : WorkerPc Φ} (h : a.waits = true) (p b : Bool) :
    a.progress p b = if p && b then 2 else 0 := by
  cases a <;> first | rfl | cases h

/-- A worker with a job is in the call under way, with the job of the call. -/
theorem Inv.serving_call (inv : Inv s) {i : Fin k} {j : Job Φ} (h : (s.worker i).Serves j) :
    s.caller.current = some j ∧ s.caller.hasPosted = true ∧ s.seen i = s.generation := by
  obtain ⟨j', hera, hseen, hserves⟩ := (inv.workers i).serves h.serving
  have hj : j' = j := by
    rcases h with h | h | h <;> rcases hserves with h' | h' | h' <;> rw [h]
      at h' <;> cases h' <;> rfl
  subst hj
  have hcaller : s.caller.current = some j' ∧ s.caller.hasPosted = true := by
    generalize s.caller = c at hera
    cases c <;> cases hera <;> exact ⟨rfl, rfl⟩
  exact ⟨hcaller.1, hcaller.2, hseen⟩

/-- A worker's next event. -/
theorem Traced.workerEvent {tr : List (PoolEvent k Φ)} (h : Traced tr s) {i : Fin k} {j : Job Φ}
    {n : ℕ} (hn : n < 2) (hcurrent : s.caller.current = some j) (a : WorkerPc Φ)
    {e : PoolEvent k Φ} (he : e = if n = 0 then .began i.succ j else .ended i.succ j)
    (hbefore : ∀ b, (s.worker i).progress s.caller.hasPosted b = n)
    (hafter : ∀ b, a.progress s.caller.hasPosted b = n + 1) :
    Traced (tr ++ [e]) (s.moveWorker i a) := by
  rw [he]
  refine h.event hn hcurrent hcurrent (hbefore _) ?_ fun u hu => ?_
  · change (Function.update s.worker i a i).progress _ _ = _
    rw [Function.update_self]
    exact hafter _
  · cases u using Fin.cases with
    | zero => rfl
    | succ v =>
      change (Function.update s.worker i a v).progress _ _ = _
      rw [Function.update_of_ne fun h => hu (congrArg Fin.succ h)]
      rfl

/-- A worker that counts itself off has had its events. -/
theorem Traced.counted {tr : List (PoolEvent k Φ)} {s' : PoolState k Φ} {e : PoolEvent k Φ}
    (h : Traced tr s) (he : e.Quiet) {i : Fin k} {j : Job Φ} (a : WorkerPc Φ)
    (ha : a.rests = true) (hworker : s' = { s with worker := s'.worker, pending := s'.pending })
    (hposted : s.caller.hasPosted = true) (hseen : s.seen i = s.generation)
    (hw : s.worker i = .finishing j) (hmove : s'.worker = Function.update s.worker i a) :
    Traced (tr ++ [e]) s' := by
  rw [hworker]
  refine h.quiet he rfl fun _ t => ?_
  cases t using Fin.cases with
  | zero => rfl
  | succ u =>
    change (s'.worker u).progress s.caller.hasPosted (decide (s.seen u = s.generation)) =
      (s.worker u).progress _ _
    rw [hmove]
    by_cases hu : u = i
    · rw [hu, Function.update_self, hw, progress_rests ha, hposted, hseen, decide_eq_true rfl]
      rfl
    · rw [Function.update_of_ne hu]

theorem Traced.step {tr : List (PoolEvent k Φ)} {s' : PoolState k Φ} {e : PoolEvent k Φ}
    (h : Traced tr s) (inv : Inv s) (hs : Step s e s') : Traced (tr ++ [e]) s' := by
  have hmoved : (PoolEvent.moved : PoolEvent k Φ).Quiet := .inl rfl
  have hspurious : (PoolEvent.spurious : PoolEvent k Φ).Quiet := .inr (.inl rfl)
  cases hs with
  | callAlone hc hk =>
    subst hk
    refine h.call hc rfl fun t => ?_
    rw [Fin.fin_one_eq_zero t]
    rfl
  | call hc _ =>
    refine h.call hc rfl fun t => ?_
    cases t using Fin.cases with
    | zero => rfl
    | succ i =>
      have hok := inv.workers i
      rw [hc] at hok
      exact progress_rests hok.2 false _
  | lockPost hc _ =>
    exact h.caller hmoved (fun _ _ => rfl) rfl rfl (by rw [hc]; rfl) (by rw [hc]; rfl)
      (by rw [hc]; rfl)
  | storePending hc =>
    exact h.caller hmoved (fun _ _ => rfl) rfl rfl (by rw [hc]; rfl) (by rw [hc]; rfl)
      (by rw [hc]; rfl)
  -- the call is posted: the workers at rest have had none of its events
  | addGeneration hc =>
    refine h.quiet hmoved (by rw [hc]; rfl) fun _ t => ?_
    cases t using Fin.cases with
    | zero => change _ = s.caller.progress; rw [hc]; rfl
    | succ i =>
      have hok := inv.workers i
      rw [hc] at hok
      have hnew : decide (s.seen i = s.generation + 1) = false :=
        decide_eq_false (hok.1 ▸ ne_add_one _)
      change (s.worker i).progress true (decide (s.seen i = s.generation + 1)) =
        (s.worker i).progress s.caller.hasPosted _
      rw [hc, progress_rests hok.2, progress_rests hok.2, hnew]
      rfl
  | unlockPost hc =>
    exact h.caller hmoved (fun _ _ => rfl) rfl rfl (by rw [hc]; rfl) (by rw [hc]; rfl)
      (by rw [hc]; rfl)
  | notifyAll hc =>
    refine h.caller hmoved (fun i b => ?_) rfl rfl (by rw [hc]; rfl) (by rw [hc]; rfl)
      (by rw [hc]; rfl)
    change (s.worker i).wake.progress _ b = _
    cases s.worker i <;> rfl
  | callerBegin hc =>
    refine h.event (n := 0) (by omega) (by rw [hc]; rfl) rfl ?_ rfl fun u hu => ?_
    · change s.caller.progress = 0
      rw [hc]
      rfl
    · obtain ⟨i, rfl⟩ := Fin.exists_succ_eq_of_ne_zero hu
      change (s.worker i).progress true _ = (s.worker i).progress s.caller.hasPosted _
      rw [hc]
      rfl
  | @callerEnd j hc =>
    refine h.event (n := 1) (by omega) (by rw [hc]; rfl) ?_ ?_ ?_ fun u hu => ?_
    · change (if k = 0 then CallerPc.done j else .poll j).current = _
      split_ifs <;> rfl
    · change s.caller.progress = 1
      rw [hc]
      rfl
    · change (if k = 0 then CallerPc.done j else .poll j).progress = _
      split_ifs <;> rfl
    · obtain ⟨i, rfl⟩ := Fin.exists_succ_eq_of_ne_zero hu
      change (s.worker i).progress (if k = 0 then CallerPc.done j else .poll j).hasPosted _ =
        (s.worker i).progress s.caller.hasPosted _
      rw [hc]
      split_ifs <;> rfl
  | callerPolled hc _ | callerTimeout hc _ | callerLock hc _ | callerReady hc _ | callerCheck hc _
  | callerSleep hc =>
    exact h.caller hmoved (fun _ _ => rfl) rfl rfl (by rw [hc]; rfl) (by rw [hc]; rfl)
      (by rw [hc]; rfl)
  | callerSpurious hc =>
    exact h.caller hspurious (fun _ _ => rfl) rfl rfl (by rw [hc]; rfl) (by rw [hc]; rfl)
      (by rw [hc]; rfl)
  -- no worker is pending, so each is at rest with both events behind it
  | ret hc =>
    refine h.ret (by rw [hc]; rfl) rfl fun t => ?_
    cases t using Fin.cases with
    | zero => change s.caller.progress = 2; rw [hc]; rfl
    | succ i =>
      have hok := inv.workers i
      rw [hc] at hok
      change (s.worker i).progress s.caller.hasPosted _ = 2
      rw [hc, progress_rests hok.2, hok.1, decide_eq_true rfl]
      rfl
  | destroy hc =>
    exact h.caller (.inr (.inr rfl)) (fun _ _ => rfl) rfl rfl (by rw [hc]; rfl) (by rw [hc]; rfl)
      (by rw [hc]; rfl)
  | lockStop hc _ | unlockStop hc | join hc _ =>
    exact h.caller hmoved (fun _ _ => rfl) rfl rfl (by rw [hc]; rfl) (by rw [hc]; rfl)
      (by rw [hc]; rfl)
  | addStop hc => exact h.quiet hmoved (by rw [hc]; rfl) fun hne => absurd (by rw [hc]; rfl) hne
  | notifyStop hc => exact h.quiet hmoved (by rw [hc]; rfl) fun hne => absurd (by rw [hc]; rfl) hne
  | @pollFresh i hw _ | @pollTimeout i hw _ | @lock i _ hw _ | @check i hw _ | @sleep i hw
  | @exit i _ hw _ _ | @lockNotify i hw _ =>
    exact h.worker hmoved i _ rfl rfl rfl ⟨rfl, rfl, rfl⟩ fun b => by rw [hw]; rfl
  | @spurious i hw =>
    exact h.worker hspurious i _ rfl rfl rfl ⟨rfl, rfl, rfl⟩ fun b => by rw [hw]; rfl
  -- the worker has seen the generation, and has had no event of it yet
  | @take i f j hw hg hst hj =>
    have hne := inv.goes_unseen hw hg
    refine h.quiet hmoved rfl fun _ t => ?_
    cases t using Fin.cases with
    | zero => rfl
    | succ u =>
      change (Function.update s.worker i (.ready j) u).progress s.caller.hasPosted
        (decide (Function.update s.seen i s.generation u = s.generation)) =
          (s.worker u).progress s.caller.hasPosted (decide (s.seen u = s.generation))
      by_cases hu : u = i
      · rw [hu, hw, Function.update_self, Function.update_self, decide_eq_false (Ne.symm hne),
          progress_waits (a := .locked f) rfl, Bool.and_false]
        rfl
      · rw [Function.update_of_ne hu, Function.update_of_ne hu]
  | @workerBegin i j hw =>
    obtain ⟨hcurrent, -⟩ := inv.serving_call (j := j) (i := i) (.inl hw)
    exact h.workerEvent (n := 0) (by omega) hcurrent (.running j) rfl
      (fun b => by rw [hw]; rfl) fun _ => rfl
  | @workerEnd i j hw =>
    obtain ⟨hcurrent, -⟩ := inv.serving_call (j := j) (i := i) (.inr (.inl hw))
    exact h.workerEvent (n := 1) (by omega) hcurrent (.finishing j) rfl
      (fun b => by rw [hw]; rfl) fun _ => rfl
  | @finishLast i j hw _ =>
    obtain ⟨-, hposted, hseen⟩ := inv.serving_call (j := j) (i := i) (.inr (.inr hw))
    exact h.counted hmoved .notifying rfl rfl hposted hseen hw rfl
  | @finish i j hw _ =>
    obtain ⟨-, hposted, hseen⟩ := inv.serving_call (j := j) (i := i) (.inr (.inr hw))
    exact h.counted hmoved .poll rfl rfl hposted hseen hw rfl
  | @notifyOne i hw =>
    refine h.worker hmoved i _ rfl rfl rfl ?_ fun b => by rw [hw]; rfl
    change s.caller.wake.current = _ ∧ s.caller.wake.hasPosted = _ ∧ s.caller.wake.progress = _
    cases s.caller <;> exact ⟨rfl, rfl, rfl⟩

/-! ## Nobody waits for ever -/

/-- The holder of the lock, if it is a worker, can go on. -/
theorem Inv.holder_steps (inv : Inv s) {i : Fin k} (h : (s.worker i).holds = true) :
    ∃ e s', Step s e s' ∧ e ≠ .spurious := by
  cases hw : s.worker i with
  | locked f =>
    by_cases hg : f = true ∨ s.generation ≠ s.seen i
    · cases hs : s.stop with
      | true => exact ⟨_, _, .exit hw hg hs, nofun⟩
      | false =>
        -- the generation is that of a posted job
        have hok : WorkerOk _ _ _ (.locked f) := hw ▸ inv.workers i
        have hq := (hok.unseen (inv.goes_unseen hw hg) nofun).2.2
        have hstops : s.caller.stops = false := inv.stop.symm.trans hs
        obtain ⟨j, hj⟩ : ∃ j, s.caller.posts = some j := by
          generalize s.caller = c at hq hstops
          cases c <;> first | exact ⟨_, rfl⟩ | exact absurd rfl hq | cases hstops
        exact ⟨_, _, .take hw hg hs (inv.job j hj (Fin.pos i)), nofun⟩
    · obtain ⟨hf, heq⟩ := not_or.mp hg
      rw [Bool.not_eq_true] at hf
      subst hf
      exact ⟨_, _, .check hw (not_not.mp heq), nofun⟩
  | blocking => exact ⟨_, _, .sleep hw, nofun⟩
  | notifyLocked => exact ⟨_, _, .notifyOne hw, nofun⟩
  | _ => rw [hw] at h; cases h

/-- A thread that waits for the lock gets it, or its holder goes on. -/
theorem Inv.lock_steps (inv : Inv s) (hc : s.caller.holds = false)
    (hfree : s.mtx = none → ∃ e s', Step s e s' ∧ e ≠ .spurious) :
    ∃ e s', Step s e s' ∧ e ≠ .spurious := by
  cases hm : s.mtx with
  | none => exact hfree hm
  | some t =>
    have hholds := (inv.lock t).mp hm
    cases t using Fin.cases with
    | zero => exact absurd (hc.symm.trans hholds) nofun
    | succ i => exact inv.holder_steps hholds

/-- A worker that has not seen the generation, or has a job, can go on. -/
theorem Inv.worker_steps (inv : Inv s) (hc : s.caller.holds = false) {i : Fin k}
    (hwake : s.caller.willWake = false)
    (h : (s.generation ≠ s.seen i ∧ s.worker i ≠ .exited) ∨ (s.worker i).serving = true ∨
      (s.worker i).notifies = true) :
    ∃ e s', Step s e s' ∧ e ≠ .spurious := by
  cases hw : s.worker i with
  | ready j => exact ⟨_, _, .workerBegin hw, nofun⟩
  | running j => exact ⟨_, _, .workerEnd hw, nofun⟩
  | finishing j =>
    by_cases h1 : s.pending = 1
    · exact ⟨_, _, .finishLast hw h1, nofun⟩
    · exact ⟨_, _, .finish hw h1, nofun⟩
  | notifying => exact inv.lock_steps hc fun hm => ⟨_, _, .lockNotify hw hm, nofun⟩
  | locked f => exact inv.holder_steps (i := i) (by rw [hw]; rfl)
  | blocking => exact inv.holder_steps (i := i) (by rw [hw]; rfl)
  | notifyLocked => exact inv.holder_steps (i := i) (by rw [hw]; rfl)
  | enter f => exact inv.lock_steps hc fun hm => ⟨_, _, .lock hw hm, nofun⟩
  | poll =>
    rw [hw] at h
    rcases h with ⟨hne, -⟩ | h | h
    · exact ⟨_, _, .pollFresh hw hne, nofun⟩
    · cases h
    · cases h
  -- asleep it has seen the generation, or somebody is about to wake it
  | asleep =>
    rw [hw] at h
    rcases h with ⟨hne, -⟩ | h | h
    · exact absurd (hwake.symm.trans (inv.missed i hw (Ne.symm hne))) nofun
    · cases h
    · cases h
  | exited =>
    rw [hw] at h
    rcases h with ⟨-, hx⟩ | h | h
    · exact absurd rfl hx
    · cases h
    · cases h

/-- As long as somebody is counted, a worker can go on. -/
theorem Inv.pending_steps (inv : Inv s) {j : Job Φ} (hera : s.caller.era = .active j)
    (hc : s.caller.holds = false) (hwake : s.caller.willWake = false) (h0 : s.pending ≠ 0) :
    ∃ e s', Step s e s' ∧ e ≠ .spurious := by
  obtain ⟨i, hi⟩ : ∃ i, owes s.caller.era s.generation (s.seen i) (s.worker i) = true := by
    by_contra hnone
    rw [not_exists] at hnone
    have hcounted : s.caller.isCounted = false := by
      generalize s.caller = c at hera
      cases c <;> first | rfl | cases hera
    have hpending := inv.pending
    rw [hcounted, if_neg Bool.false_ne_true] at hpending
    exact h0 (hpending.trans (Finset.sum_eq_zero fun i _ => if_neg (hnone i)))
  rw [hera] at hi
  refine inv.worker_steps (i := i) hc hwake ?_
  rcases Bool.or_eq_true_iff.mp hi with hseen | hserving
  · refine .inl ⟨Ne.symm (of_decide_eq_true hseen), fun hx => ?_⟩
    have hok := inv.workers i
    rw [hera, hx] at hok
    rcases hok with h | ⟨-, h | h⟩
    · exact absurd h.2 nofun
    · exact absurd h nofun
    · exact absurd h.serving nofun
  · exact .inr (.inl hserving)

/-- With a call or the destructor under way some thread can go on, without a spurious
    wake-up. -/
theorem Inv.exists_step (inv : Inv s) (hidle : s.caller ≠ .idle) (hjoined : s.caller ≠ .joined) :
    ∃ e s', Step s e s' ∧ e ≠ .spurious := by
  cases hc : s.caller with
  | idle => exact absurd hc hidle
  | joined => exact absurd hc hjoined
  | post j => exact inv.lock_steps (by rw [hc]; rfl) fun hm => ⟨_, _, .lockPost hc hm, nofun⟩
  | posting j => exact ⟨_, _, .storePending hc, nofun⟩
  | counted j => exact ⟨_, _, .addGeneration hc, nofun⟩
  | posted j => exact ⟨_, _, .unlockPost hc, nofun⟩
  | notify j => exact ⟨_, _, .notifyAll hc, nofun⟩
  | share j => exact ⟨_, _, .callerBegin hc, nofun⟩
  | running j => exact ⟨_, _, .callerEnd hc, nofun⟩
  | poll j =>
    by_cases h0 : s.pending = 0
    · exact ⟨_, _, .callerPolled hc h0, nofun⟩
    · exact ⟨_, _, .callerTimeout hc h0, nofun⟩
  | enter j => exact inv.lock_steps (by rw [hc]; rfl) fun hm => ⟨_, _, .callerLock hc hm, nofun⟩
  | locked j =>
    by_cases h0 : s.pending = 0
    · exact ⟨_, _, .callerReady hc h0, nofun⟩
    · exact ⟨_, _, .callerCheck hc h0, nofun⟩
  | blocking j => exact ⟨_, _, .callerSleep hc, nofun⟩
  | asleep j =>
    by_cases h0 : s.pending = 0
    -- the last worker has counted itself off and is on its way to notify
    · obtain ⟨i, hi⟩ := inv.waiting (by rw [hc]; rfl) h0
      exact inv.worker_steps (i := i) (by rw [hc]; rfl) (by rw [hc]; rfl) (.inr (.inr hi))
    · exact inv.pending_steps (j := j) (by rw [hc]; rfl) (by rw [hc]; rfl) (by rw [hc]; rfl) h0
  | done j => exact ⟨_, _, .ret hc, nofun⟩
  | stop => exact inv.lock_steps (by rw [hc]; rfl) fun hm => ⟨_, _, .lockStop hc hm, nofun⟩
  | stopping => exact ⟨_, _, .addStop hc, nofun⟩
  | stopped => exact ⟨_, _, .unlockStop hc, nofun⟩
  | notifyStop => exact ⟨_, _, .notifyStop hc, nofun⟩
  | joining =>
    by_cases hall : ∀ i, s.worker i = .exited
    · exact ⟨_, _, .join hc hall, nofun⟩
    -- a worker that has not left has the stop still to see
    · obtain ⟨i, hi⟩ := not_forall.mp hall
      have hok := inv.workers i
      rw [hc] at hok
      have hne : s.generation ≠ s.seen i := by
        rw [← (hok.resolve_right hi).1]
        exact (ne_add_one _).symm
      exact inv.worker_steps (i := i) (by rw [hc]; rfl) (by rw [hc]; rfl) (.inl ⟨hne, hi⟩)

/-! ## No schedule goes on for ever -/

/-- What a worker can still do before it sleeps, with or without a new generation. -/
def WorkerPc.rank (unseen : Bool) : WorkerPc Φ → ℕ
  | .exited => 0
  | .asleep => if unseen then 17 else 0
  | .blocking => 1
  | .locked _ => if unseen then 15 else 2
  | .enter _ => if unseen then 16 else 3
  | .poll => if unseen then 17 else 4
  | .notifyLocked => if unseen then 23 else 10
  | .notifying => if unseen then 24 else 11
  | .finishing _ => 12
  | .running _ => 13
  | .ready _ => 14

/-- What the caller can still do: a notification and a generation give every one of `k`
    workers something to do again. -/
def CallerPc.rank (k : ℕ) : CallerPc Φ → ℕ
  | .idle | .joined => 0
  | .done _ | .joining => 1
  | .asleep _ => 2
  | .blocking _ => 3
  | .locked _ => 4
  | .enter _ => 5
  | .poll _ => 6
  | .running _ => 7
  | .share _ => 8
  | .notify _ | .notifyStop => 9 + 4 * k
  | .posted _ | .stopped => 10 + 4 * k
  | .counted _ | .stopping => 11 + 30 * k
  | .posting _ | .stop => 12 + 30 * k
  | .post _ => 13 + 30 * k

namespace PoolState

def workerRank (s : PoolState k Φ) (i : Fin k) : ℕ :=
  (s.worker i).rank (decide (s.generation ≠ s.seen i))

/-- The steps that are left until the next call. -/
def rank (s : PoolState k Φ) : ℕ := s.caller.rank k + ∑ i, s.workerRank i

variable {s' : PoolState k Φ}

theorem rank_lt_of_worker (i : Fin k) (hother : ∀ u, u ≠ i → s'.workerRank u = s.workerRank u)
    (hlt : s'.caller.rank k + s'.workerRank i < s.caller.rank k + s.workerRank i) :
    s'.rank < s.rank := by
  have hrest : ∑ u ∈ Finset.univ.erase i, s'.workerRank u =
      ∑ u ∈ Finset.univ.erase i, s.workerRank u :=
    Finset.sum_congr rfl fun u hu => hother u (Finset.ne_of_mem_erase hu)
  have hafter := Finset.add_sum_erase Finset.univ s'.workerRank (Finset.mem_univ i)
  have hbefore := Finset.add_sum_erase Finset.univ s.workerRank (Finset.mem_univ i)
  unfold rank
  omega

theorem rank_lt_of_caller (d : ℕ) (hrank : ∀ u, s'.workerRank u ≤ s.workerRank u + d)
    (hlt : s'.caller.rank k + d * k < s.caller.rank k) : s'.rank < s.rank := by
  have hsum : ∑ i, s'.workerRank i ≤ ∑ i, s.workerRank i + d * k := by
    refine (Finset.sum_le_sum fun u _ => hrank u).trans ?_
    rw [Finset.sum_add_distrib, Finset.sum_const, Finset.card_univ, Fintype.card_fin, nsmul_eq_mul,
      Nat.cast_id, mul_comm]
  unfold rank
  omega

/-- A step of worker `i` with the caller where it is. -/
theorem rank_lt_move (i : Fin k) (a : WorkerPc Φ)
    (hworker : s'.worker = Function.update s.worker i a)
    (hseen : s'.seen = s.seen) (hgen : s'.generation = s.generation)
      (hcaller : s'.caller = s.caller)
    (hlt : a.rank (decide (s.generation ≠ s.seen i)) < s.workerRank i) : s'.rank < s.rank := by
  have hself : s'.workerRank i = a.rank (decide (s.generation ≠ s.seen i)) := by
    unfold workerRank
    rw [hworker, hseen, hgen, Function.update_self]
  refine rank_lt_of_worker i (fun u hu => ?_) (by rw [hself, hcaller]; omega)
  unfold workerRank
  rw [hworker, hseen, hgen, Function.update_of_ne hu]

/-- A step of the caller with the workers where they are. -/
theorem rank_lt_caller (hworker : s'.worker = s.worker) (hseen : s'.seen = s.seen)
    (hgen : s'.generation = s.generation) (hlt : s'.caller.rank k < s.caller.rank k) :
    s'.rank < s.rank := by
  refine rank_lt_of_caller 0 (fun u => ?_) (by omega)
  unfold workerRank
  rw [hworker, hseen, hgen]
  exact Nat.le_add_right _ _

end PoolState

theorem WorkerPc.rank_le (a : WorkerPc Φ) (b : Bool) : a.rank true ≤ a.rank b + 17 := by
  cases a <;> cases b <;> simp [rank]

theorem WorkerPc.wake_rank (a : WorkerPc Φ) (b : Bool) : a.wake.rank b ≤ a.rank b + 4 := by
  cases a <;> cases b <;> simp [rank, wake]

/-- A step that is no call and no spurious wake-up brings the threads nearer to their rest. -/
theorem Step.lowers (inv : Inv s) {e : PoolEvent k Φ} {s' : PoolState k Φ} (h : Step s e s')
    (hspurious : e ≠ .spurious) (hdestroy : e ≠ .destroy) (hcall : ∀ j, e ≠ .call j) :
    s'.rank < s.rank := by
  cases h with
  | callAlone | call => exact absurd rfl (hcall _)
  | destroy => exact absurd rfl hdestroy
  | callerSpurious | spurious => exact absurd rfl hspurious
  | lockPost hc | storePending hc | unlockPost hc | callerBegin hc | callerPolled hc
  | callerTimeout hc | callerLock hc | callerReady hc | callerCheck hc | callerSleep hc | ret hc
  | lockStop hc | unlockStop hc | join hc =>
    refine rank_lt_caller rfl rfl rfl ?_
    rw [hc]
    simp only [moveCaller, CallerPc.rank]
    omega
  | callerEnd hc =>
    refine rank_lt_caller rfl rfl rfl ?_
    rw [hc]
    simp only [moveCaller]
    split_ifs <;> simp only [CallerPc.rank] <;> omega
  -- every worker may now have to go round once: the rank of the post pays for that
  | addGeneration hc | addStop hc =>
    refine rank_lt_of_caller 17 (fun u => ?_) ?_
    · change (s.worker u).rank (decide (s.generation + 1 ≠ s.seen u)) ≤ s.workerRank u + 17
      have hok := inv.workers u
      rw [hc] at hok
      rw [hok.1, decide_eq_true (ne_add_one _).symm]
      exact (s.worker u).rank_le _
    · rw [hc]
      simp only [moveCaller, CallerPc.rank]
      omega
  -- a wake-up costs each worker four steps at most
  | notifyAll hc | notifyStop hc =>
    refine rank_lt_of_caller 4 (fun u => (s.worker u).wake_rank _) ?_
    rw [hc]
    simp only [moveCaller, wakeAll, CallerPc.rank]
    omega
  | @pollFresh i hw hg =>
    refine rank_lt_move i _ rfl rfl rfl rfl ?_
    unfold workerRank
    rw [hw, decide_eq_true hg]
    simp [WorkerPc.rank]
  | @pollTimeout i hw hg =>
    refine rank_lt_move i _ rfl rfl rfl rfl ?_
    unfold workerRank
    rw [hw, decide_eq_false (not_not.mpr hg)]
    simp [WorkerPc.rank]
  | @lock i f hw =>
    refine rank_lt_move i _ rfl rfl rfl rfl ?_
    unfold workerRank
    rw [hw]
    cases decide (s.generation ≠ s.seen i) <;> simp [WorkerPc.rank]
  | @check i hw hg =>
    refine rank_lt_move i _ rfl rfl rfl rfl ?_
    unfold workerRank
    rw [hw, decide_eq_false (not_not.mpr hg)]
    simp [WorkerPc.rank]
  -- a worker about to sleep has seen the generation, or the lock would show it
  | @sleep i hw =>
    have hok : WorkerOk _ _ _ .blocking := hw ▸ inv.workers i
    have hseen : s.generation = s.seen i := by
      by_contra hne
      exact absurd (hok.unseen hne nofun).2.1 nofun
    refine rank_lt_move i _ rfl rfl rfl rfl ?_
    unfold workerRank
    rw [hw, decide_eq_false (not_not.mpr hseen)]
    simp [WorkerPc.rank]
  | @exit i f hw hg =>
    refine rank_lt_move i _ rfl rfl rfl rfl ?_
    unfold workerRank
    rw [hw, decide_eq_true (inv.goes_unseen hw hg)]
    simp [WorkerPc.rank]
  | @take i f j hw hg _ _ =>
    refine rank_lt_of_worker i (fun u hu => ?_) ?_
    · change (Function.update s.worker i (.ready j) u).rank
        (decide (s.generation ≠ Function.update s.seen i s.generation u)) = _
      rw [Function.update_of_ne hu, Function.update_of_ne hu]
      rfl
    · change s.caller.rank k + (Function.update s.worker i (.ready j) i).rank _ < _
      unfold workerRank
      rw [Function.update_self, hw, decide_eq_true (inv.goes_unseen hw hg)]
      simp [WorkerPc.rank]
  | @workerBegin i j hw | @workerEnd i j hw =>
    refine rank_lt_move i _ rfl rfl rfl rfl ?_
    unfold workerRank
    rw [hw]
    simp [WorkerPc.rank]
  | @finishLast i j hw _ | @finish i j hw _ =>
    have hseen := (inv.serving_call (j := j) (i := i) (.inr (.inr hw))).2.2
    refine rank_lt_move i _ rfl rfl rfl rfl ?_
    unfold workerRank
    rw [hw, decide_eq_false (not_not.mpr hseen.symm)]
    simp [WorkerPc.rank]
  | @lockNotify i hw =>
    refine rank_lt_move i _ rfl rfl rfl rfl ?_
    unfold workerRank
    rw [hw]
    cases decide (s.generation ≠ s.seen i) <;> simp [WorkerPc.rank]
  | @notifyOne i hw =>
    refine rank_lt_of_worker i (fun u hu => ?_) ?_
    · change (Function.update s.worker i .poll u).rank _ = _
      rw [Function.update_of_ne hu]
      rfl
    · -- waking the caller costs less than the lock was worth
      have hwake : s.caller.wake.rank k ≤ s.caller.rank k + 3 := by
        cases s.caller <;> simp [CallerPc.wake, CallerPc.rank]
      change s.caller.wake.rank k + (Function.update s.worker i .poll i).rank
        (decide (s.generation ≠ s.seen i)) < _
      unfold workerRank
      rw [Function.update_self, hw]
      cases decide (s.generation ≠ s.seen i) <;> simp only [WorkerPc.rank, if_true, if_false,
        Bool.false_eq_true] <;> omega

/-- Every run of a pool of any size, whatever the interleaving.  All calls that have returned
    were served in full, and no thread has run anything outside them; in the call under way
    every thread has at most begun and ended the job of the call.  While a call is under way
    some thread can go on without a spurious wake-up, and each such step brings the call
    nearer to its return. -/
theorem pool_runs {tr : List (PoolEvent k Φ)} {s : PoolState k Φ} (h : (system k Φ).Run tr s) :
    (Served tr ∨ ∃ j pre body, s.caller.current = some j ∧ tr = pre ++ .call j :: body ∧
      Served pre ∧ CallBody j body ∧ ∀ t, ofThread t body <+: [.began t j, .ended t j]) ∧
    (s.caller ≠ .idle → s.caller ≠ .joined → ∃ e s', Step s e s' ∧ e ≠ .spurious) ∧
    ∀ e s', Step s e s' → e ≠ .spurious → e ≠ .destroy → (∀ j, e ≠ .call j) →
      s'.rank < s.rank := by
  have inv := inv_run h
  refine ⟨?_, inv.exists_step, fun e s' hs => hs.lowers inv⟩
  have hinit : Traced ([] : List (PoolEvent k Φ)) (system k Φ).init := Served.nil
  have htraced : Traced tr s :=
    h.invariant (P := Traced) hinit fun hrun ih hs => ih.step (inv_run hrun) hs
  unfold Traced at htraced
  cases hc : s.caller.current with
  | none =>
    rw [hc] at htraced
    exact .inl htraced
  | some j =>
    rw [hc] at htraced
    obtain ⟨pre, body, htr, hpre, hbody, hall⟩ := htraced
    exact .inr ⟨j, pre, body, rfl, htr, hpre, hbody, fun t => hall t ▸ List.take_prefix _ _⟩

/-- One worker, two calls.  In the first the worker sees the generation before it is notified
    and is done before the caller polls; it is still to notify when the second call starts.
    In the second the worker sleeps until it is notified, and so does the caller. -/
theorem pool_runs_twice : ∃ (tr : List (PoolEvent 1 ℕ)) (s : PoolState 1 ℕ),
    (system 1 ℕ).Run tr s ∧ .call ⟨7, true⟩ ∈ tr ∧ .call ⟨8, false⟩ ∈ tr ∧
      tr.getLast? = some .ret ∧ Served tr := by
  have run := (Lts.Run.nil (L := system 1 ℕ)).snoc (.call (j := ⟨7, true⟩) rfl one_ne_zero)
  have run := run.snoc (.lockPost rfl rfl)
  have run := run.snoc (.storePending rfl)
  have run := run.snoc (.addGeneration rfl)
  have run := run.snoc (.unlockPost rfl)
  have run := run.snoc (.pollFresh (i := 0) rfl (by decide))
  have run := run.snoc (.lock (i := 0) rfl rfl)
  have run := run.snoc (.take (i := 0) rfl (.inl rfl) rfl rfl)
  have run := run.snoc (.workerBegin (i := 0) rfl)
  have run := run.snoc (.notifyAll rfl)
  have run := run.snoc (.callerBegin rfl)
  have run := run.snoc (.callerEnd rfl)
  have run := run.snoc (.workerEnd (i := 0) rfl)
  have run := run.snoc (.finishLast (i := 0) rfl rfl)
  have run := run.snoc (.callerPolled rfl rfl)
  have run := run.snoc (.ret rfl)
  -- the second call
  have run := run.snoc (.call (j := ⟨8, false⟩) rfl one_ne_zero)
  have run := run.snoc (.lockNotify (i := 0) rfl rfl)
  have run := run.snoc (.notifyOne (i := 0) rfl)
  have run := run.snoc (.pollTimeout (i := 0) rfl (by decide))
  have run := run.snoc (.lock (i := 0) rfl rfl)
  have run := run.snoc (.check (i := 0) rfl (by decide))
  have run := run.snoc (.sleep (i := 0) rfl)
  have run := run.snoc (.lockPost rfl rfl)
  have run := run.snoc (.storePending rfl)
  have run := run.snoc (.addGeneration rfl)
  have run := run.snoc (.unlockPost rfl)
  have run := run.snoc (.notifyAll rfl)
  have run := run.snoc (.callerBegin rfl)
  have run := run.snoc (.callerEnd rfl)
  have run := run.snoc (.callerTimeout rfl (by decide))
  have run := run.snoc (.callerLock rfl rfl)
  have run := run.snoc (.callerCheck rfl (by decide))
  have run := run.snoc (.callerSleep rfl)
  have run := run.snoc (.lock (i := 0) rfl rfl)
  have run := run.snoc (.take (i := 0) rfl (.inr (by decide)) rfl rfl)
  have run := run.snoc (.workerBegin (i := 0) rfl)
  have run := run.snoc (.workerEnd (i := 0) rfl)
  have run := run.snoc (.finishLast (i := 0) rfl rfl)
  have run := run.snoc (.lockNotify (i := 0) rfl rfl)
  have run := run.snoc (.notifyOne (i := 0) rfl)
  have run := run.snoc (.callerLock rfl rfl)
  have run := run.snoc (.callerReady rfl rfl)
  have run := run.snoc (.ret rfl)
  refine ⟨_, _, run, by simp, by simp, rfl, (pool_runs run).1.resolve_right ?_⟩
  rintro ⟨j, -, -, h, -⟩
  exact absurd h (Option.some_ne_none j).symm

end SolvePool
end Parallel
end SmfSolver
