/-
  SmfSolver.Parallel.TopSchedulerProgress

  The workers of a `TopScheduler` never wait for each other for ever.  Without a stop, a node
  whose children are all completed is listed, held or completed (`Core.Waits`), so when no
  worker has a node and one is left, there is one to take (`Live.runnable`).

  The nodes still to be handed out and the helper places on offer are the supply the workers
  share; a hand-out and a place taken use it up, and every other step brings its worker
  nearer to the end of what it is at (`Worker.rank`).  `completes`: every run of the workers
  can be continued until all of them have returned from `work`.
-/
import SmfSolver.Lib.Progress
import SmfSolver.Parallel.TopSchedulerRuns

namespace SmfSolver
namespace Parallel

open Lib

variable {n N : Nat}

/-! ## No node is forgotten -/

namespace Core

/-- The counts of open children are exact, and who waits for none is with the scheduler. -/
structure Waits (F : Forest n) (c : Core n N) : Prop where
  pend : ∀ p, c.pending p ≤ (c.uncompleted F p).card
  listed : ∀ p, c.pending p ≤ 0 → p ∈ c.ready ∨ c.Held p ∨ p ∈ c.nodes

variable {F : Forest n} {total : Int} {c c' : Core n N} {w : Fin N} {v : Fin n} {k : Int}

/-- A completed node that nobody counts. -/
theorem Waits.complete (h : c.Waits F) (hw : c.hold w = some (v, k)) (hv : F.parent v = none) :
    (c.complete v w k).Waits F where
  pend p := by
    have hnot : v ∉ c.uncompleted F p := fun hc => by
      rw [uncompleted, Finset.mem_filter, hv] at hc
      cases hc.2.1
    rw [uncompleted_complete, Finset.erase_eq_of_notMem hnot]
    exact h.pend p
  listed p hp := by
    rw [nodes_complete, List.mem_append, List.mem_singleton]
    rcases h.listed p hp with hr | ⟨u, k', hu⟩ | hn
    · exact .inl hr
    · by_cases huw : u = w
      · subst huw
        cases hw.symm.trans hu
        exact .inr (.inr (.inr rfl))
      · exact .inr (.inl ⟨u, k', (Function.update_of_ne huw ..).trans hu⟩)
    · exact .inr (.inr (.inl hn))

/-- A completed node that its parent counts; the worker may go on with the parent. -/
theorem Waits.count (h : c.Waits F) (hinv : c.Inv F total) (hw : c.hold w = some (v, k)) {p : Fin n}
    (hp : F.parent v = some p) {free : Int} {next : Option (Fin n × Int)}
    (hnext : next = none ∧ c.pending p ≠ 1 ∨ ∃ k', next = some (p, k')) :
    Waits F { c.complete v w k with
      pending := Function.update c.pending p (c.pending p - 1)
      free := free
      hold := Function.update c.hold w next } where
  pend q := by
    have hv : v ∉ c.nodes := fun hn => hinv.fresh v ⟨w, k, hw⟩ (List.mem_append_right _ hn)
    have hunc : uncompleted F { c.complete v w k with
        pending := Function.update c.pending p (c.pending p - 1)
        free := free
        hold := Function.update c.hold w next } q = (c.uncompleted F q).erase v :=
      uncompleted_complete F c v w k q
    rw [hunc]
    by_cases hq : q = p
    · subst hq
      have hmem : v ∈ c.uncompleted F q := by
        rw [uncompleted, Finset.mem_filter]
        exact ⟨Finset.mem_univ v, hp, hv⟩
      have hcard := Finset.card_erase_add_one hmem
      have hle := h.pend q
      simp only [Function.update_self]
      omega
    · have hnot : v ∉ c.uncompleted F q := fun hc => by
        rw [uncompleted, Finset.mem_filter, hp] at hc
        exact hq (Option.some.inj hc.2.1).symm
      rw [Finset.erase_eq_of_notMem hnot]
      simp only [Function.update_of_ne hq]
      exact h.pend q
  listed q hq := by
    have hnodes : nodes { c.complete v w k with
        pending := Function.update c.pending p (c.pending p - 1)
        free := free
        hold := Function.update c.hold w next } = c.nodes ++ [v] := nodes_complete c v w k
    rw [hnodes, List.mem_append, List.mem_singleton]
    -- the parent goes on with the worker, or its count was not the one to reach zero
    have hold : (∃ k', next = some (q, k')) ∨ c.pending q ≤ 0 := by
      by_cases hqp : q = p
      · subst hqp
        rcases hnext with ⟨-, hne⟩ | hsome
        · simp only [Function.update_self] at hq
          exact .inr (by omega)
        · exact .inl hsome
      · simp only [Function.update_of_ne hqp] at hq
        exact .inr hq
    rcases hold with ⟨k', hk'⟩ | hle
    · exact .inr (.inl ⟨w, k', by simp only [Function.update_self, hk']⟩)
    · rcases h.listed q hle with hr | ⟨u, k', hu⟩ | hn
      · exact .inl hr
      · by_cases huw : u = w
        · subst huw
          cases hw.symm.trans hu
          exact .inr (.inr (.inr rfl))
        · exact .inr (.inl ⟨u, k', (Function.update_of_ne huw ..).trans hu⟩)
      · exact .inr (.inr (.inl hn))

/-- What one step keeps while no stop is recorded and a node is left.  A node is dropped
    only after a stop. -/
theorem Waits.step {J : Type} {e : Event n N J} (hinv : c.Inv F total)
    (h : c.stopped = false → 0 < c.remaining → c.Waits F) (hs : TopScheduler.CoreStep F c e c')
    (hdrop : ∀ w v, e = .finish w v none → c'.completed = c.completed → c.stopped = true)
    (hgo : c'.stopped = false) (hleft : 0 < c'.remaining) : c'.Waits F := by
  cases hs with
  | quiet _ => exact h hgo hleft
  -- the node that was last in the list is held now
  | @take w l v k hstop hw hl hk hle =>
    have hold := h hgo hleft
    refine ⟨hold.pend, fun p hp => ?_⟩
    rcases hold.listed p hp with hr | ⟨u, k', hu⟩ | hn
    · rw [hl, List.mem_append, List.mem_singleton] at hr
      rcases hr with hr | rfl
      · exact .inl hr
      · exact .inr (.inl ⟨w, k, Function.update_self ..⟩)
    · have huw : u ≠ w := fun hc => by rw [hc, hw] at hu; cases hu
      exact .inr (.inl ⟨u, k', (Function.update_of_ne huw ..).trans hu⟩)
    · exact .inr (.inr hn)
  | record => cases hgo
  | @drop w v k hw =>
    have hstop : c.stopped = true := hdrop w v rfl rfl
    cases hgo.symm.trans hstop
  | @complete _ w v k next hw hc =>
    cases hc with
    -- a root, or the last node, or a stop
    | uncounted hwhy =>
      have hold := h hgo (by simp only [Core.complete] at hleft; omega)
      refine hold.complete hw ?_
      rcases hwhy with hroot | hone | hstop
      · exact hroot
      · simp only [Core.complete] at hleft
        omega
      · cases hgo.symm.trans hstop
    | counted hp hpend =>
      have hold := h hgo (by simp only [Core.complete] at hleft; omega)
      exact hold.count hinv hw hp (.inl ⟨rfl, hpend⟩)
    | continued hstop hp hpend _ _ =>
      have hold := h hgo (by simp only [Core.complete] at hleft; omega)
      exact hold.count hinv hw hp (.inr ⟨_, rfl⟩)

end Core

namespace TopScheduler

variable {J : Type} {F : Forest n} {threads : Int} {tr : List (Event n N J)}
  {s t : TopScheduler n N J} {e : Event n N J} {w u : Fin N} {v : Fin n} {k : Int}
  {c : Option (Fin N)}

/-! ## The offers -/

@[simp] theorem offers_setWorker (s : TopScheduler n N J) (w : Fin N) (a : Worker n J) :
    (s.setWorker w a).offers = s.offers := rfl

@[simp] theorem offers_wakeOneIfRunnable (s : TopScheduler n N J) (c : Option (Fin N)) :
    (s.wakeOneIfRunnable c).offers = s.offers := by
  unfold wakeOneIfRunnable
  split
  · cases c <;> rfl
  · rfl

@[simp] theorem offers_notify (s : TopScheduler n N J) (c : Option (Fin N)) (a : Notify) :
    (s.notify c a).offers = s.offers := by
  cases a with
  | nobody => rfl
  | one => exact offers_wakeOneIfRunnable s c
  | everybody => rfl

@[simp] theorem offers_acquireWakes (s : TopScheduler n N J) (c : Option (Fin N)) (a : Task n J) :
    (acquireWakes s c a).offers = s.offers := by
  cases a with
  | none => rfl
  | node => exact offers_wakeOneIfRunnable s c
  | help => exact offers_wakeOneIfRunnable s c

@[simp] theorem finish_offers (F : Forest n) (s : TopScheduler n N J) (v : Fin n) (w : Fin N)
    (ok : Bool) (k : Int) : (s.finish F v w ok k).1.offers = s.offers := by
  unfold finish
  cases ok with
  | false => rfl
  | true =>
    simp only [Bool.true_eq_false, if_false]
    split
    · rfl
    split
    · rfl
    cases F.parent v with
    | none => rfl
    | some p => simp only; split <;> rfl

/-- `finish` with a true result completes its node. -/
theorem finish_completed (F : Forest n) (s : TopScheduler n N J) (v : Fin n) (w : Fin N) (k : Int) :
    (s.finish F v w true k).1.completed = s.completed ++ [(v, w)] := by
  unfold finish
  simp only [Bool.true_eq_false, if_false]
  split
  · rfl
  split
  · rfl
  cases F.parent v with
  | none => rfl
  | some p => simp only; split <;> rfl

/-- The helper places on offer. -/
def slots (s : TopScheduler n N J) : ℕ := (s.offers.map fun o => o.2.toNat).sum

/-- What `acquire` does to the offers: nothing, or it takes a place. -/
theorem acquire_offers (hpos : ∀ o ∈ s.offers, 0 < o.2) :
    (∀ o ∈ s.acquire.1.offers, 0 < o.2) ∧
      (s.acquire.1.offers = s.offers ∧ (∀ job, s.acquire.2 ≠ .help job) ∨
        s.acquire.1.slots < s.slots) := by
  -- a place of the newest offer is taken, and an offer without places goes
  have hoffer : (∀ o ∈ s.acquireOffer.1.offers, 0 < o.2) ∧
      (s.acquireOffer.1.offers = s.offers ∧ (∀ job, s.acquireOffer.2 ≠ .help job) ∨
        s.acquireOffer.1.slots < s.slots) := by
    unfold acquireOffer slots
    split
    · rename_i job places hlast
      obtain ⟨rest, hrest⟩ := List.getLast?_eq_some_iff.mp hlast
      have hplaces : 0 < places := hpos (job, places) (by simp [hrest])
      have hrestpos : ∀ o ∈ rest, 0 < o.2 := fun o ho => hpos o (by simp [hrest, ho])
      simp only [hrest, List.dropLast_concat]
      split
      · refine ⟨hrestpos, .inr ?_⟩
        simp only [List.map_append, List.sum_append, List.map_cons, List.map_nil, List.sum_cons,
          List.sum_nil]
        omega
      · refine ⟨fun o ho => ?_, .inr ?_⟩
        · rcases List.mem_append.mp ho with ho | ho
          · exact hrestpos o ho
          · rw [List.mem_singleton.mp ho]
            show 0 < places - 1
            omega
        · simp only [List.map_append, List.sum_append, List.map_cons, List.map_nil, List.sum_cons,
            List.sum_nil]
          omega
    · exact ⟨hpos, .inl ⟨rfl, nofun⟩⟩
  unfold acquire
  split
  · exact ⟨hpos, .inl ⟨rfl, nofun⟩⟩
  split
  · split
    · exact ⟨hpos, .inl ⟨rfl, nofun⟩⟩
    · exact hoffer
  · exact hoffer

/-! ## The invariant of a scheduler that goes on -/

/-- A stop is stored before its worker takes the lock, an offer has a place, and without a
    stop no node is forgotten. -/
structure Live (F : Forest n) (s : TopScheduler n N J) : Prop where
  stopping : ∀ w v k, s.worker w = .stopping v k → s.stopped = true
  offers : ∀ o ∈ s.offers, 0 < o.2
  waits : s.stopped = false → 0 < s.remaining → s.core.Waits F

section Steps

variable [DecidableEq J]

/-- An offer has a place for a helper. -/
theorem offers_step (h : Step F s e t) (hpos : ∀ o ∈ s.offers, 0 < o.2) :
    ∀ o ∈ t.offers, 0 < o.2 := by
  cases h with
  | acquire =>
    rw [offers_setWorker, offers_acquireWakes]
    exact (acquire_offers hpos).1
  | reacquire _ _ _ hs₁ =>
    subst hs₁
    rw [offers_setWorker, offers_acquireWakes]
    exact (acquire_offers (s := { s with sleepers := s.sleepers - 1 }) hpos).1
  | offer hw hslots hc =>
    rw [offers_wakeOneIfRunnable]
    intro o ho
    rcases List.mem_append.mp ho with ho | ho
    · exact hpos o ho
    · rw [List.mem_singleton.mp ho]
      exact hslots
  | withdraw => exact fun o ho => hpos o (List.mem_of_mem_eraseP ho)
  | finish =>
    rw [offers_setWorker, offers_notify, finish_offers]
    exact hpos
  | sleep => exact hpos
  | resleep => exact hpos
  | wakeup => exact hpos
  | helped => exact hpos
  | call => exact hpos
  | offerNone => exact hpos
  | ret => exact hpos
  | record => exact hpos

/-- A node is dropped by a worker that has stored a stop. -/
theorem dropped_step {next : Option (Fin n)} (h : Step F s (.finish w v next) t)
    (hsame : t.completed = s.completed) : ∃ k, s.worker w = .stopping v k := by
  generalize hev : (Event.finish w v next : Event n N J) = e at h
  cases h with
  | @finish w v k ok c hw hc =>
    cases hev
    cases ok with
    | false => exact ⟨k, by simpa using hw⟩
    | true =>
      have hnotify := core_notify (hc.congr (finish_worker F s v w true k))
        (s.finish F v w true k).2.2
      have hcompleted : (s.finish F v w true k).1.completed = s.completed :=
        (congrArg Core.completed hnotify).symm.trans hsame
      rw [finish_completed] at hcompleted
      exact absurd hcompleted (by simp)
  | acquire hw hr hc => revert hev; cases s.acquire.2 <;> simp [acquireEvent]
  | reacquire hw hr hc hs₁ =>
    subst hs₁
    revert hev
    cases (TopScheduler.acquire { s with sleepers := s.sleepers - 1 }).2 <;> simp [acquireEvent]
  | _ => cases hev

theorem Live.step (hinv : s.core.Inv F (max 1 threads)) (h : Live F s) (hs : Step F s e t) :
    Live F t where
  stopping w v k hw := by
    rcases step_came hs w with heq | hcame
    · exact (stopped_step (step_core hs)).1 (h.stopping w v k (heq ▸ hw))
    · rw [hw] at hcame
      obtain rfl : e = .record w := hcame
      exact (record_step hs).2
  offers := offers_step hs h.offers
  waits := Core.Waits.step hinv h.waits (step_core hs) fun w v he hsame => by
    subst he
    obtain ⟨k, hk⟩ := dropped_step hs hsame
    exact h.stopping w v k hk

end Steps

theorem live_new (F : Forest n) (threads : Int) :
    Live F (new F threads : TopScheduler n N J) where
  stopping := nofun
  offers := nofun
  waits _ _ := by
    have hcount : ∀ p, (new F threads : TopScheduler n N J).core.pending p =
        ((new F threads : TopScheduler n N J).core.uncompleted F p).card := by
      intro p
      have hset : (new F threads : TopScheduler n N J).core.uncompleted F p =
          ((List.finRange n).filter fun i => F.parent i = some p).toFinset := by
        ext i
        simp [Core.uncompleted, Core.nodes, core, new]
      rw [hset, List.toFinset_card_of_nodup ((List.nodup_finRange n).filter _)]
      simp [core, new, List.countP_eq_length_filter]
    refine ⟨fun p => (hcount p).le, fun p hp => .inl ?_⟩
    have hzero : (new F threads : TopScheduler n N J).core.pending p = 0 := by
      have hge := hcount p
      omega
    simpa [core, new] using hzero

/-- When no worker has a node, there is something to take, or nothing is left to do. -/
theorem Live.runnable (h : Live F s) (hinv : s.core.Inv F (max 1 threads))
    (hnone : ∀ w, s.core.hold w = none) : s.runnable := by
  by_cases hover : s.remaining = 0 ∨ s.stopped = true
  · exact .inr hover
  obtain ⟨hrem, hstop⟩ := not_or.mp hover
  have hlen : s.completed.length ≤ n := by
    have hnodup := (List.nodup_append.mp hinv.nodup).2.1
    simpa [Core.nodes, core] using hnodup.length_le_card
  have hleft : s.remaining = n - s.completed.length := hinv.remaining
  have hwaits := h.waits (by simpa using hstop) (by omega)
  -- a node that is left, with no such node below it
  have hopen : ∃ v, v ∉ s.core.nodes := by
    by_contra hall
    push Not at hall
    have hcard : Fintype.card (Fin n) ≤ s.core.nodes.length := by
      rw [← Finset.card_univ]
      exact (Finset.card_le_card fun v _ => List.mem_toFinset.mpr (hall v)).trans
        (List.toFinset_card_le _)
    rw [Fintype.card_fin, Core.nodes, List.length_map] at hcard
    have hcompleted : n ≤ s.completed.length := hcard
    omega
  obtain ⟨v, hv, hmin⟩ := F.wf.has_min {v | v ∉ s.core.nodes} hopen
  have hchildren : s.core.uncompleted F v = ∅ :=
    Finset.filter_eq_empty_iff.mpr fun i _ hi => hmin i hi.2 hi.1
  have hpend := hwaits.pend v
  rw [hchildren, Finset.card_empty] at hpend
  have hready : v ∈ s.core.ready := by
    rcases hwaits.listed v hpend with hr | ⟨w, k, hw⟩ | hn
    · exact hr
    · cases (hnone w).symm.trans hw
    · exact absurd hn hv
  have hfree : s.core.free = max 1 threads := by
    have hshares := hinv.shares
    simp only [Core.shares, hnone, Option.map_none, Option.getD_none, Finset.sum_const_zero,
      add_zero] at hshares
    exact hshares
  refine .inl (.inl ⟨List.ne_nil_of_mem hready, ?_⟩)
  exact (zero_lt_one.trans_le (le_max_left 1 threads)).trans_eq hfree.symm

/-! ## What is left to do -/

/-- The nodes that are still to be handed out. -/
def toDo (s : TopScheduler n N J) : Finset (Fin n) :=
  (Finset.univ.filter fun v => 0 < s.pending v) ∪ s.ready.toFinset

/-- What the workers share: those nodes, and the helper places. -/
def supply (s : TopScheduler n N J) : ℕ := s.toDo.card + s.slots

theorem mem_toDo : v ∈ s.toDo ↔ 0 < s.pending v ∨ v ∈ s.ready := by
  rw [toDo, Finset.mem_union, Finset.mem_filter, List.mem_toFinset]
  exact or_congr_left (and_iff_right (Finset.mem_univ v))

theorem toDo_step (h : CoreStep F s.core e t.core) : t.toDo ⊆ s.toDo := by
  intro v hv
  by_contra hnot
  rw [mem_toDo, not_or] at hnot
  obtain ⟨hready, hpend⟩ := spent_step h hnot.2 (not_lt.mp hnot.1)
  exact (mem_toDo.mp hv).elim (not_lt.mpr hpend) hready

/-- Who is handed a node has it. -/
theorem held_of_handsOut {a b : Core n N} (h : CoreStep F a e b) (he : e.handsOut v) :
    b.Held v := by
  cases h with
  | quiet hq => exact absurd he (hq v)
  | @take w l v k =>
    cases he
    exact ⟨w, k, Function.update_self ..⟩
  | record => exact absurd he id
  | drop hw => simp [Event.handsOut] at he
  | @complete _ w v k next hw hc =>
    cases hc with
    | uncounted _ => simp [Event.handsOut] at he
    | counted _ _ => simp [Event.handsOut] at he
    | @continued p k' =>
      simp only [Event.handsOut, Option.map_some, Option.some.injEq] at he
      subst he
      exact ⟨w, k', Function.update_self ..⟩

/-- A node handed out is one less. -/
theorem toDo_handsOut (hinv : s.core.Inv F (max 1 threads)) (h : CoreStep F s.core e t.core)
    (he : e.handsOut v) : t.toDo.card < s.toDo.card := by
  have hinv' := hinv.step h
  have hheld := held_of_handsOut h he
  refine Finset.card_lt_card (Finset.ssubset_iff_subset_ne.mpr ⟨toDo_step h, fun hc => ?_⟩)
  have hold : v ∈ s.toDo := by
    rw [mem_toDo]
    rcases (handsOut_waiting h he).2 with hr | hone
    · exact .inr hr
    · exact .inl (by rw [show s.pending v = 1 from hone]; exact zero_lt_one)
  rw [← hc, mem_toDo] at hold
  rcases hold with hpend | hready
  · exact absurd hpend (not_lt.mpr (hinv'.spent v (.inr (.inl hheld))))
  · exact hinv'.fresh v hheld (List.mem_append_left _ hready)

end TopScheduler

/-- A bound on the steps of a worker before it is through with what it is at. -/
def Worker.rank {J : Type} : Worker n J → ℕ
  | .done => 0
  | .idle | .awake => 1
  | .sleeping | .helping _ | .stopping _ _ => 2
  | .returned _ _ _ => 3
  | .running _ _ => 15
  | .holding _ _ => 16

namespace TopScheduler

variable {J : Type} {F : Forest n} {threads : Int} {tr : List (Event n N J)}
  {s t : TopScheduler n N J} {e : Event n N J} {w u : Fin N} {v : Fin n} {k : Int}
  {c : Option (Fin N)} {a : Worker n J}

/-! ## Wake-ups set nobody back -/

@[simp] theorem worker_setWorker_self (s : TopScheduler n N J) (w : Fin N) (a : Worker n J) :
    (s.setWorker w a).worker w = a := Function.update_self ..

theorem worker_setWorker_of_ne (s : TopScheduler n N J) (a : Worker n J) (h : u ≠ w) :
    (s.setWorker w a).worker u = s.worker u := Function.update_of_ne h ..

theorem rank_wakeOneIfRunnable (hc : s.Wakes c) (u : Fin N) :
    ((s.wakeOneIfRunnable c).worker u).rank ≤ (s.worker u).rank := by
  unfold wakeOneIfRunnable
  split
  · cases c with
    | none => exact le_rfl
    | some w =>
      have hw : s.worker w = .sleeping := hc
      by_cases hu : u = w
      · subst hu
        rw [notifyOne, worker_setWorker_self, hw]
        exact Nat.le_succ 1
      · rw [notifyOne, worker_setWorker_of_ne _ _ hu]
  · exact le_rfl

theorem rank_notify (hc : s.Wakes c) (b : Notify) (u : Fin N) :
    ((s.notify c b).worker u).rank ≤ (s.worker u).rank := by
  cases b with
  | nobody => exact le_rfl
  | one => exact rank_wakeOneIfRunnable hc u
  | everybody =>
    simp only [notify, notifyAll]
    cases s.worker u with
    | sleeping => exact Nat.le_succ 1
    | _ => exact le_rfl

theorem rank_acquireWakes (hc : s.Wakes c) (b : Task n J) (u : Fin N) :
    ((acquireWakes s c b).worker u).rank ≤ (s.worker u).rank := by
  cases b with
  | none => exact le_rfl
  | node => exact rank_wakeOneIfRunnable hc u
  | help => exact rank_wakeOneIfRunnable hc u

theorem exists_wakes (s : TopScheduler n N J) : ∃ c, s.Wakes c := by
  by_cases h : ∃ w, s.worker w = .sleeping
  · exact h.imp' some fun _ hw => hw
  · exact ⟨none, fun w hw => h ⟨w, hw⟩⟩

/-- A worker moves, and nothing else changes. -/
theorem advances_setWorker (s' : TopScheduler n N J) (hsupply : s'.supply = s.supply)
    (hworker : s'.worker = s.worker) (hlt : a.rank < (s.worker w).rank) :
    Advances supply (fun s w => (s.worker w).rank) s (s'.setWorker w a) := by
  refine .of_own (i := w) hsupply.le ?_ fun u hu => ?_
  · rwa [worker_setWorker_self]
  · rw [worker_setWorker_of_ne _ _ hu, hworker]

/-! ## A worker outside of the run functions goes on -/

section Steps

variable [DecidableEq J]

/-- The step `e` to `t` advances the run, and is not the return of a run function. -/
structure Goes (F : Forest n) (s : TopScheduler n N J) (e : Event n N J)
    (t : TopScheduler n N J) : Prop where
  step : Step F s e t
  not_ret : ∀ w v ok, e ≠ .ret w v ok
  advances : Advances supply (fun s w => (s.worker w).rank) s t

/-- What `acquire` gives is taken from the supply, or the worker leaves. -/
theorem advances_acquire {s₁ : TopScheduler n N J} (hinv : s.core.Inv F (max 1 threads))
    (hlive : Live F s) (hw : 0 < (s.worker w).rank) (hworker : s₁.worker = s.worker)
    (hoffers : s₁.offers = s.offers) (hc : s.Wakes c)
    (hs : Step F s (acquireEvent w s₁.acquire.2)
      ((acquireWakes s₁.acquire.1 c s₁.acquire.2).setWorker w (afterAcquire s₁.acquire.2))) :
    Advances supply (fun s w => (s.worker w).rank) s
      ((acquireWakes s₁.acquire.1 c s₁.acquire.2).setWorker w (afterAcquire s₁.acquire.2)) := by
  have hcore := step_core hs
  have hnodes := Finset.card_le_card (toDo_step hcore)
  have htake := (acquire_offers (s := s₁) (hoffers ▸ hlive.offers)).2
  have hslots : s₁.slots = s.slots := by rw [slots, hoffers, slots]
  have hsame : ((acquireWakes s₁.acquire.1 c s₁.acquire.2).setWorker w
      (afterAcquire s₁.acquire.2)).slots = s₁.acquire.1.slots := by
    rw [slots, offers_setWorker, offers_acquireWakes, slots]
  have hplaces : s₁.acquire.1.slots ≤ s.slots := by
    rcases htake with ⟨heq, -⟩ | hlt
    · rw [slots, heq, hoffers, slots]
    · exact hlt.le.trans_eq hslots
  have hawake := rank_acquireWakes (hc.congr ((acquire_worker s₁).trans hworker)) s₁.acquire.2
  -- with nothing to take the worker leaves; a node or a place is one less in the supply
  generalize htask : s₁.acquire.2 = task at hs hcore hnodes htake hsame hawake ⊢
  cases task with
  | none =>
    refine .of_own (i := w) ?_ ?_ fun u hu => ?_
    · simp only [supply, hsame]
      omega
    · rwa [worker_setWorker_self]
    · rw [worker_setWorker_of_ne _ _ hu]
      refine (hawake u).trans_eq ?_
      rw [acquire_worker, hworker]
  | node v k =>
    have hlt := toDo_handsOut (v := v) hinv hcore rfl
    refine .of_shared ?_
    simp only [supply, hsame]
    omega
  | help job =>
    rcases htake with ⟨-, hno⟩ | hlt
    · exact absurd rfl (hno job)
    · refine .of_shared ?_
      simp only [supply, hsame]
      omega

/-- `acquire`, by a worker that need not wait. -/
theorem goes_acquire (hinv : s.core.Inv F (max 1 threads)) (hlive : Live F s)
    (hw : s.worker w = .idle ∨ s.worker w = .awake) (hr : s.runnable) : ∃ e t, Goes F s e t := by
  obtain ⟨c, hc⟩ := exists_wakes s
  have hret : ∀ (b : Task n J) w' v ok, acquireEvent w b ≠ .ret w' v ok := by
    intro b
    cases b <;> nofun
  have hpos : 0 < (s.worker w).rank := by rcases hw with h | h <;> rw [h] <;> exact zero_lt_one
  rcases hw with hw | hw
  · have hs := Step.acquire (F := F) hw hr hc
    exact ⟨_, _, hs, hret _, advances_acquire hinv hlive hpos rfl rfl hc hs⟩
  · have hs := Step.reacquire (F := F) hw hr hc rfl
    exact ⟨_, _, hs, hret _, advances_acquire hinv hlive hpos rfl rfl hc hs⟩

/-- The locked section of `finish`. -/
theorem goes_finish (hinv : s.core.Inv F (max 1 threads)) (ok : Bool)
    (hw : s.worker w = if ok then .returned v k true else .stopping v k) :
    ∃ e t, Goes F s e t := by
  obtain ⟨c, hc⟩ := exists_wakes s
  have hs := Step.finish (F := F) hw hc
  have hcore := step_core hs
  have hnodes := Finset.card_le_card (toDo_step hcore)
  have hnotify := rank_notify (hc.congr (finish_worker F s v w ok k)) (s.finish F v w ok k).2.2
  have hsame : (((s.finish F v w ok k).1.notify c (s.finish F v w ok k).2.2).setWorker w
      (afterFinish (s.finish F v w ok k).2.1)).slots = s.slots := by
    rw [slots, offers_setWorker, offers_notify, finish_offers, slots]
  refine ⟨_, _, hs, nofun, ?_⟩
  generalize hnext : (s.finish F v w ok k).2.1 = next at hs hcore hnodes hsame ⊢
  cases next with
  | none =>
    refine .of_own (i := w) ?_ ?_ fun u hu => ?_
    · simp only [supply, hsame]
      omega
    · rw [worker_setWorker_self, hw]
      cases ok <;> simp [afterFinish, Worker.rank]
    · rw [worker_setWorker_of_ne _ _ hu]
      refine (hnotify u).trans_eq ?_
      rw [finish_worker]
  | some p =>
    have hlt := toDo_handsOut (v := p.1) hinv hcore rfl
    refine .of_shared ?_
    simp only [supply, hsame]
    omega

/-- While a worker has not left, and none is in a run function, one goes on. -/
theorem Live.advance (hlive : Live F s) (hinv : s.core.Inv F (max 1 threads))
    (hnot : ¬∀ w, s.worker w = .done) (hrun : ∀ w v k, s.worker w ≠ .running v k) :
    ∃ e t, Goes F s e t := by
  -- a worker with something in hand goes on with it
  by_cases hbusy : ∃ w, 1 < (s.worker w).rank ∧ s.worker w ≠ .sleeping
  · obtain ⟨w, hw, hawake⟩ := hbusy
    cases hpc : s.worker w with
    | helping job =>
      exact ⟨_, _, .helped hpc, (fun _ _ _ hc => by cases hc),
        advances_setWorker s rfl rfl (by simp [hpc, Worker.rank])⟩
    | holding v k =>
      exact ⟨_, _, .call hpc, (fun _ _ _ hc => by cases hc),
        advances_setWorker s rfl rfl (by simp [hpc, Worker.rank])⟩
    | running v k => exact absurd hpc (hrun w v k)
    | returned v k ok =>
      cases ok with
      | true => exact goes_finish hinv true hpc
      | false =>
        exact ⟨_, _, .record hpc, (fun _ _ _ hc => by cases hc),
          advances_setWorker { s with stopped := true } rfl rfl (by simp [hpc, Worker.rank])⟩
    | stopping v k => exact goes_finish hinv false hpc
    | sleeping => exact absurd hpc hawake
    | idle => simp [hpc, Worker.rank] at hw
    | awake => simp [hpc, Worker.rank] at hw
    | done => simp [hpc, Worker.rank] at hw
  · -- nobody has a node: whoever looks finds something to take, or leaves
    have hplace : ∀ w, s.worker w = .idle ∨ s.worker w = .awake ∨ s.worker w = .sleeping ∨
        s.worker w = .done := by
      intro w
      by_contra hc
      refine hbusy ⟨w, ?_, fun h => hc (.inr (.inr (.inl h)))⟩
      cases hpc : s.worker w <;> simp_all [Worker.rank]
    have hr := hlive.runnable hinv fun w => by
      rcases hplace w with h | h | h | h <;> simp [core, h, Worker.hold?]
    obtain ⟨w, hw⟩ := not_forall.mp hnot
    rcases hplace w with h | h | h | h
    · exact goes_acquire hinv hlive (.inl h) hr
    · exact goes_acquire hinv hlive (.inr h) hr
    · exact ⟨_, _, .wakeup h, (fun _ _ _ hc => by cases hc),
        advances_setWorker s rfl rfl (by simp [h, Worker.rank])⟩
    · exact absurd h hw

/-- Every run of the workers can be continued until all of them have returned: a run
    function that is called may return at any time. -/
theorem completes (h : (system F threads).Run tr s) :
    ∃ tr' s', (system F threads).Run (tr ++ tr') s' ∧ ∀ w, s'.worker w = .done := by
  have hlive : ∀ {tr s}, (system (N := N) (J := J) F threads).Run tr s → Live F s := fun hrun =>
    hrun.invariant (P := fun _ s => Live F s) (live_new F threads)
      fun hrun hlive hs => hlive.step (trace_run hrun).inv hs
  refine h.complete supply (fun s w => (s.worker w).rank) fun {tr s} hrun hnot => ?_
  by_cases hin : ∃ w v k, s.worker w = .running v k
  · obtain ⟨w, v, k, hw⟩ := hin
    have hs : Step F s (.ret w v true) _ := .ret hw
    exact ⟨_, _, hs, advances_setWorker s rfl rfl (by simp [hw, Worker.rank])⟩
  · have hout : ∀ w v k, s.worker w ≠ .running v k := fun w v k hw => hin ⟨w, v, k, hw⟩
    obtain ⟨e, t, hgo⟩ := (hlive hrun).advance (trace_run hrun).inv hnot hout
    exact ⟨e, t, hgo.step, hgo.advances⟩

end Steps

end TopScheduler
end Parallel
end SmfSolver
