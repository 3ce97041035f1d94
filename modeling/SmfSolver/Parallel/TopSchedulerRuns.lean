/-
  SmfSolver.Parallel.TopSchedulerRuns

  What every interleaving of the workers keeps.  `Core` is the part of the
  scheduler's state that decides who gets which node; `step_cases` says once what
  a step can do to it, and every invariant is read off those cases:

    * most steps leave the core alone;
    * `acquire` may move the newest listed node to a worker;
    * a false result is recorded, and its node dropped;
    * `finish` completes a node and may hand its parent to the same worker.

  `Inv` is the invariant of the core, `Trace` ties it to what has happened, and
  `work_correct` assembles the scheduler's contract from both.
-/
import SmfSolver.Parallel.TopScheduler
import Mathlib.Tactic.Linarith
import Mathlib.Data.Fin.VecNotation

namespace SmfSolver
namespace Parallel

open Lib

/-- Who has which node, and with which share; the lists and counters that decide it. -/
structure Core (n N : Nat) where
  pending : Fin n → Int
  ready : List (Fin n)
  completed : List (Fin n × Fin N)
  free : Int
  remaining : Int
  stopped : Bool
  hold : Fin N → Option (Fin n × Int)

variable {n N : Nat}

/-- The core after node `v` was completed by worker `w`, which held it with share `k`. -/
def Core.complete (c : Core n N) (v : Fin n) (w : Fin N) (k : Int) : Core n N :=
  { c with
    free := c.free + k
    completed := c.completed ++ [(v, w)]
    remaining := c.remaining - 1
    hold := Function.update c.hold w none }

namespace TopScheduler

variable {J : Type}

/-- The core of a scheduler state. -/
def core (s : TopScheduler n N J) : Core n N where
  pending := s.pending
  ready := s.ready
  completed := s.completed
  free := s.free
  remaining := s.remaining
  stopped := s.stopped
  hold := fun w => (s.worker w).hold?

/-! ## Operations that leave the core alone -/

theorem core_setWorker (s : TopScheduler n N J) (w : Fin N) (a : Worker n J) :
    (s.setWorker w a).core = { s.core with hold := Function.update s.core.hold w a.hold? } := by
  simp only [core, setWorker, Core.mk.injEq, true_and]
  funext u
  by_cases hu : u = w
  · subst hu; simp
  · simp [Function.update_of_ne hu]

/-- A worker that changes without taking up or giving back a node leaves the core alone. -/
theorem core_setWorker_same {s : TopScheduler n N J} {w : Fin N} {a : Worker n J}
    (h : a.hold? = (s.worker w).hold?) : (s.setWorker w a).core = s.core := by
  have hw : Function.update s.core.hold w a.hold? = s.core.hold := by
    rw [h]; exact Function.update_eq_self w _
  rw [core_setWorker, hw]

@[simp] theorem core_notifyAll (s : TopScheduler n N J) : s.notifyAll.core = s.core := by
  simp only [core, notifyAll, Core.mk.injEq, true_and]
  funext w
  cases s.worker w <;> rfl

theorem core_notifyOne {s : TopScheduler n N J} {c : Option (Fin N)} (hc : s.Wakes c) :
    (s.notifyOne c).core = s.core := by
  cases c with
  | none => rfl
  | some w =>
    have hw : s.worker w = .sleeping := hc
    exact core_setWorker_same (by rw [hw]; rfl)

theorem core_wakeOneIfRunnable {s : TopScheduler n N J} {c : Option (Fin N)} (hc : s.Wakes c) :
    (s.wakeOneIfRunnable c).core = s.core := by
  unfold wakeOneIfRunnable
  split
  · exact core_notifyOne hc
  · rfl

theorem core_notify {s : TopScheduler n N J} {c : Option (Fin N)} (hc : s.Wakes c) (k : Notify) :
    (s.notify c k).core = s.core := by
  cases k with
  | nobody => rfl
  | one => exact core_wakeOneIfRunnable hc
  | everybody => exact core_notifyAll s

theorem core_acquireWakes {s : TopScheduler n N J} {c : Option (Fin N)} (hc : s.Wakes c)
    (t : Task n J) : (acquireWakes s c t).core = s.core := by
  cases t with
  | none => rfl
  | node v k => exact core_wakeOneIfRunnable hc
  | help job => exact core_wakeOneIfRunnable hc

/-! ## The locked sections -/

theorem shareOf_pos (free : Int) (ready : List (Fin n)) : 1 ≤ shareOf free ready :=
  le_max_left _ _

/-- A share never exceeds the free threads it is taken from. -/
theorem shareOf_le {free : Int} (ready : List (Fin n)) (h : 1 ≤ free) :
    shareOf free ready ≤ free := by
  refine max_le h ?_
  exact Int.ediv_le_self _ (by omega)

/-- What `acquire` can do: hand out the newest listed node with a share of the
    free threads, or leave the core alone. -/
theorem acquire_cases (s : TopScheduler n N J) :
    (∃ l v k, s.acquire.2 = .node v k ∧ s.stopped = false ∧ s.ready = l ++ [v] ∧ 1 ≤ k ∧
      k ≤ s.free ∧ s.acquire.1.core = { s.core with ready := l, free := s.free - k }) ∨
    (s.acquire.1.core = s.core ∧ (afterAcquire s.acquire.2).hold? = none ∧
      (s.acquire.2 = .none → s.runnable → s.remaining = 0 ∨ s.stopped = true)) := by
  -- without a node to hand out: an offer, or nothing, and then nothing was runnable
  have hoffer : ¬(s.ready ≠ [] ∧ 0 < s.free) →
      s.acquireOffer.1.core = s.core ∧ (afterAcquire s.acquireOffer.2).hold? = none ∧
      (s.acquireOffer.2 = .none → s.runnable → s.remaining = 0 ∨ s.stopped = true) := by
    intro hready
    unfold acquireOffer
    split
    · exact ⟨rfl, rfl, by simp⟩
    · rename_i h
      refine ⟨rfl, rfl, fun _ hr => hr.resolve_left fun ht => ?_⟩
      exact ht.elim hready fun h' => h' (by simpa using h)
  unfold acquire
  split
  · rename_i h
    exact .inr ⟨rfl, rfl, fun _ _ => h.symm⟩
  rename_i hrun
  push Not at hrun
  split
  · rename_i v hv
    obtain ⟨l, hl⟩ := List.getLast?_eq_some_iff.mp hv
    split
    · rename_i hfree
      refine .inl ⟨l, v, _, rfl, by simpa using hrun.1, hl, shareOf_pos _ _,
        shareOf_le _ (by omega), ?_⟩
      simp [core, hl]
    · rename_i hfree
      exact .inr (hoffer fun h => hfree h.2)
  · rename_i hv
    exact .inr (hoffer fun h => h.1 (by simpa using hv))

/-- What the locked section of `finish` does with a true result: the node is
    completed, its parent counts it, and a parent that waited for this child
    alone goes on with the same worker. -/
inductive Completes (F : Forest n) (c : Core n N) (v : Fin n) (w : Fin N) (k : Int) :
    Core n N → Option (Fin n × Int) → Prop
  /-- Nothing is counted: `v` is a root, or the last node, or the scheduler was stopped. -/
  | uncounted (h : F.parent v = none ∨ c.remaining = 1 ∨ c.stopped = true) :
      Completes F c v w k (c.complete v w k) none
  | counted {p : Fin n} (hp : F.parent v = some p) (hpend : c.pending p ≠ 1) :
      Completes F c v w k
        { c.complete v w k with pending := Function.update c.pending p (c.pending p - 1) } none
  | continued {p : Fin n} {k' : Int} (hstop : c.stopped = false) (hp : F.parent v = some p)
      (hpend : c.pending p = 1) (hk' : 1 ≤ k') (hle : 1 ≤ c.free + k → k' ≤ c.free + k) :
      Completes F c v w k
        { c.complete v w k with
          pending := Function.update c.pending p (c.pending p - 1)
          free := c.free + k - k'
          hold := Function.update c.hold w (some (p, k')) } (some (p, k'))

/-- The locked section of `finish`, followed by the worker's own move, on the core. -/
theorem finish_cases (F : Forest n) (s : TopScheduler n N J) (v : Fin n) (w : Fin N) (k : Int) :
    (s.finish F v w false k).2 = (none, .everybody) ∧
    (s.finish F v w false k).1.core = { s.core with free := s.free + k } ∧
    Completes F s.core v w k
      { (s.finish F v w true k).1.core with
        hold := Function.update s.core.hold w
          (afterFinish (J := J) (s.finish F v w true k).2.1).hold? }
      (s.finish F v w true k).2.1 := by
  refine ⟨rfl, rfl, ?_⟩
  unfold finish
  simp only [Bool.true_eq_false, if_false]
  split
  · rename_i h
    exact .uncounted (.inr (.inl (by simp only [core]; omega)))
  split
  · rename_i h
    exact .uncounted (.inr (.inr h))
  rename_i hstop
  split
  · rename_i hp
    exact .uncounted (.inl hp)
  · rename_i p hp
    split
    · rename_i hpend
      exact .continued (by simpa [core] using hstop) hp (by simp only [core]; omega)
        (shareOf_pos _ _) (shareOf_le _)
    · rename_i hpend
      exact .counted hp (by simp only [core]; omega)

/-! ## The steps on the core -/

/-- What a step can do to the core, with the event that names it. -/
inductive CoreStep (F : Forest n) : Core n N → Event n N J → Core n N → Prop
  | quiet {c : Core n N} {e : Event n N J} (he : ∀ v, ¬e.handsOut v) : CoreStep F c e c
  | take {c : Core n N} {w : Fin N} {l : List (Fin n)} {v : Fin n} {k : Int}
      (hstop : c.stopped = false) (hw : c.hold w = none) (hl : c.ready = l ++ [v])
      (hk : 1 ≤ k) (hle : k ≤ c.free) :
      CoreStep F c (.take w v)
        { c with ready := l, free := c.free - k, hold := Function.update c.hold w (some (v, k)) }
  | record {c : Core n N} {w : Fin N} : CoreStep F c (.record w) { c with stopped := true }
  | drop {c : Core n N} {w : Fin N} {v : Fin n} {k : Int} (hw : c.hold w = some (v, k)) :
      CoreStep F c (.finish w v none)
        { c with free := c.free + k, hold := Function.update c.hold w none }
  | complete {c c' : Core n N} {w : Fin N} {v : Fin n} {k : Int} {next : Option (Fin n × Int)}
      (hw : c.hold w = some (v, k)) (hc : Completes F c v w k c' next) :
      CoreStep F c (.finish w v (next.map (·.1))) c'

/-- `acquire` by a worker that holds nothing, on the core. -/
theorem acquire_core {F : Forest n} {s s₁ : TopScheduler n N J} {w : Fin N}
    {c : Option (Fin N)} (hw : s.core.hold w = none) (hs₁ : s₁.core = s.core)
    (hc : s₁.acquire.1.Wakes c) :
    CoreStep F s.core (acquireEvent w s₁.acquire.2)
      ((acquireWakes s₁.acquire.1 c s₁.acquire.2).setWorker w
        (afterAcquire s₁.acquire.2)).core := by
  rw [core_setWorker, core_acquireWakes hc]
  rcases acquire_cases s₁ with ⟨l, v, k, ht, hstop, hready, hk, hle, hcore⟩ | ⟨hcore, hhold, -⟩
  · rw [hcore, ht]
    have hfree : s₁.free = s.core.free := congrArg Core.free hs₁
    rw [hs₁, hfree]
    refine CoreStep.take ?_ hw ?_ hk (hfree ▸ hle)
    · exact (congrArg Core.stopped hs₁).symm.trans hstop
    · exact (congrArg Core.ready hs₁).symm.trans hready
  · have hupd : Function.update s.core.hold w none = s.core.hold := by
      rw [← hw]; exact Function.update_eq_self w _
    have hnone : ∀ v, ¬(acquireEvent (n := n) w s₁.acquire.2).handsOut v := by
      intro v
      revert hhold
      cases s₁.acquire.2 <;> simp [acquireEvent, afterAcquire, Worker.hold?, Event.handsOut]
    rw [hcore, hs₁, hhold, hupd]
    exact .quiet hnone

/-- `acquire` keeps the workers, so who may be woken is the same before and after it. -/
theorem acquire_worker (s : TopScheduler n N J) : s.acquire.1.worker = s.worker := by
  have hoffer : s.acquireOffer.1.worker = s.worker := by
    unfold acquireOffer; split <;> rfl
  unfold acquire
  split
  · rfl
  split
  · split
    · rfl
    · exact hoffer
  · exact hoffer

theorem Wakes.congr {s t : TopScheduler n N J} {c : Option (Fin N)} (h : s.Wakes c)
    (ht : t.worker = s.worker) : t.Wakes c := by
  unfold Wakes at *
  rw [ht]
  exact h

theorem finish_worker (F : Forest n) (s : TopScheduler n N J) (v : Fin n) (w : Fin N) (ok : Bool)
    (k : Int) : (s.finish F v w ok k).1.worker = s.worker := by
  unfold finish
  cases ok with
  | false => rfl
  | true =>
    simp only [Bool.true_eq_false, if_false]
    split
    · rfl
    split
    · rfl
    cases F.parent v with
    | none => rfl
    | some p => simp only; split <;> rfl

/-- Every step of the workers is a step of the core. -/
theorem step_core [DecidableEq J] {F : Forest n} {s t : TopScheduler n N J} {e : Event n N J}
    (h : Step F s e t) : CoreStep F s.core e t.core := by
  cases h with
  | sleep hw hr =>
    rw [core_setWorker_same (by simp [hw, Worker.hold?])]
    exact .quiet fun v => id
  | resleep hw hr =>
    rw [core_setWorker_same (by simp [hw, Worker.hold?])]
    exact .quiet fun v => id
  | wakeup hw =>
    rw [core_setWorker_same (by simp [hw, Worker.hold?])]
    exact .quiet fun v => id
  | acquire hw hr hc =>
    refine acquire_core (by simp [core, hw, Worker.hold?]) rfl (hc.congr (acquire_worker s))
  | reacquire hw hr hc hs₁ =>
    subst hs₁
    refine acquire_core (by simp [core, hw, Worker.hold?]) rfl (hc.congr (acquire_worker _))
  | helped hw =>
    rw [core_setWorker_same (by simp [hw, Worker.hold?])]
    exact .quiet fun v => id
  | call hw =>
    rw [core_setWorker_same (by simp [hw, Worker.hold?])]
    exact .quiet fun v => id
  -- the offers are not part of the core
  | @offer w v k job slots c hw hslots hc =>
    have hc' : (s.addOffer job slots).Wakes c := hc.congr rfl
    rw [core_wakeOneIfRunnable hc']
    exact .quiet fun v => id
  | offerNone hw hslots => exact .quiet fun v => id
  | withdraw hw => exact .quiet fun v => id
  | ret hw =>
    rw [core_setWorker_same (by simp [hw, Worker.hold?])]
    exact .quiet fun v => id
  | record hw =>
    rw [core_setWorker_same (by simp [hw, Worker.hold?])]
    exact .record
  -- a failed run drops its node, any other completes it
  | @finish w v k ok c hw hc =>
    have hhold : s.core.hold w = some (v, k) := by
      cases ok <;> simp_all [core, Worker.hold?]
    rw [core_setWorker, core_notify (hc.congr (finish_worker F s v w ok k))]
    obtain ⟨h2, h1, hcomp⟩ := finish_cases F s v w k
    cases ok with
    | false =>
      rw [h2, h1]
      exact .drop hhold
    | true =>
      have hsame : (s.finish F v w true k).1.core.hold = s.core.hold := by
        simp [core, finish_worker]
      rw [hsame]
      exact .complete hhold hcomp

end TopScheduler

/-! ## The invariant of the core -/

namespace Core

/-- The completed nodes, in completion order. -/
def nodes (c : Core n N) : List (Fin n) := c.completed.map (·.1)

/-- Some worker has node `v`. -/
def Held (c : Core n N) (v : Fin n) : Prop := ∃ w k, c.hold w = some (v, k)

/-- The children of `p` that are not completed. -/
def uncompleted (F : Forest n) (c : Core n N) (p : Fin n) : Finset (Fin n) :=
  Finset.univ.filter fun i => F.parent i = some p ∧ i ∉ c.nodes

/-- The shares held by the workers. -/
def shares (c : Core n N) : Int := ∑ w, ((c.hold w).map (·.2)).getD 0

/-- Children come before their parents. -/
def Topological (F : Forest n) (l : List (Fin n)) : Prop :=
  ∀ pre v post, l = pre ++ v :: post → ∀ c, F.parent c = some v → c ∈ pre

/-- What every interleaving keeps.  A node whose count of open children reached
    zero is listed, held, completed or dropped, and stays so (`spent`); that its
    count cannot reach zero again is what keeps it from being handed out twice. -/
structure Inv (F : Forest n) (total : Int) (c : Core n N) : Prop where
  pend : ∀ p, ((c.uncompleted F p).card : Int) ≤ c.pending p
  spent : ∀ v, v ∈ c.ready ∨ c.Held v ∨ v ∈ c.nodes → c.pending v ≤ 0
  nodup : (c.ready ++ c.nodes).Nodup
  fresh : ∀ v, c.Held v → v ∉ c.ready ++ c.nodes
  unique : ∀ w w' v k k', c.hold w = some (v, k) → c.hold w' = some (v, k') → w = w'
  shares : c.free + c.shares = total
  free_nonneg : 0 ≤ c.free
  share_pos : ∀ w v k, c.hold w = some (v, k) → 1 ≤ k
  remaining : c.remaining = n - c.completed.length
  topological : Topological F c.nodes

/-- A node with no open child has only completed children. -/
theorem Inv.children_completed {F : Forest n} {total : Int} {c : Core n N} (h : c.Inv F total)
    {v i : Fin n} (hv : c.pending v ≤ 0) (hi : F.parent i = some v) : i ∈ c.nodes := by
  by_contra hni
  have hmem : i ∈ c.uncompleted F v := by simp [uncompleted, hi, hni]
  have hpos : 0 < (c.uncompleted F v).card := Finset.card_pos.mpr ⟨i, hmem⟩
  have := h.pend v
  omega

/-- The parent of a node that is not completed is neither listed, held nor completed. -/
theorem Inv.parent_waits {F : Forest n} {total : Int} {c : Core n N} (h : c.Inv F total)
    {v p : Fin n} (hp : F.parent v = some p) (hv : v ∉ c.nodes) :
    p ∉ c.ready ∧ ¬c.Held p ∧ p ∉ c.nodes := by
  have hpos : ¬c.pending p ≤ 0 := fun hle => hv (h.children_completed hle hp)
  exact ⟨fun hr => hpos (h.spent p (.inl hr)), fun hh => hpos (h.spent p (.inr (.inl hh))),
    fun hn => hpos (h.spent p (.inr (.inr hn)))⟩

/-- Changing what one worker holds changes the sum of the shares by the difference. -/
theorem shares_update (hold : Fin N → Option (Fin n × Int)) (w : Fin N)
    (a : Option (Fin n × Int)) :
    (∑ u, ((Function.update hold w a u).map (·.2)).getD 0) =
      (∑ u, ((hold u).map (·.2)).getD 0) - ((hold w).map (·.2)).getD 0 + (a.map (·.2)).getD 0 := by
  have hrest : ∑ u ∈ Finset.univ.erase w, ((Function.update hold w a u).map (·.2)).getD 0 =
      ∑ u ∈ Finset.univ.erase w, ((hold u).map (·.2)).getD 0 := by
    refine Finset.sum_congr rfl fun u hu => ?_
    rw [Function.update_of_ne (Finset.ne_of_mem_erase hu)]
  have h₁ := Finset.add_sum_erase Finset.univ
    (fun u => ((Function.update hold w a u).map (·.2)).getD 0) (Finset.mem_univ w)
  have h₂ := Finset.add_sum_erase Finset.univ
    (fun u => ((hold u).map (·.2)).getD 0) (Finset.mem_univ w)
  simp only [Function.update_self] at h₁
  linarith

theorem hold_update_eq_some {hold : Fin N → Option (Fin n × Int)} {w u : Fin N}
    {a : Option (Fin n × Int)} {x : Fin n × Int} (h : Function.update hold w a u = some x) :
    (u = w ∧ a = some x) ∨ (u ≠ w ∧ hold u = some x) := by
  by_cases hu : u = w
  · subst hu; exact .inl ⟨rfl, by simpa using h⟩
  · exact .inr ⟨hu, by rwa [Function.update_of_ne hu] at h⟩

/-- Handing a node out keeps the invariant, when nobody has it and no child of it is open. -/
theorem Inv.handOut {F : Forest n} {total : Int} {c : Core n N} (h : c.Inv F total) {w : Fin N}
    {v : Fin n} {k : Int} (hw : c.hold w = none) (hspent : c.pending v ≤ 0)
    (hfresh : v ∉ c.ready ++ c.nodes) (hheld : ¬c.Held v) (hk : 1 ≤ k) (hle : k ≤ c.free) :
    Inv F total { c with free := c.free - k, hold := Function.update c.hold w (some (v, k)) } where
  pend := h.pend
  -- only `w` holds something new, and it is `v`
  spent u hu := by
    rcases hu with hu | ⟨w', k', hu⟩ | hu
    · exact h.spent u (.inl hu)
    · rcases hold_update_eq_some hu with ⟨-, heq⟩ | ⟨-, heq⟩
      · cases heq; exact hspent
      · exact h.spent u (.inr (.inl ⟨w', k', heq⟩))
    · exact h.spent u (.inr (.inr hu))
  nodup := h.nodup
  fresh u hu := by
    obtain ⟨w', k', hu⟩ := hu
    rcases hold_update_eq_some hu with ⟨-, heq⟩ | ⟨-, heq⟩
    · cases heq; exact hfresh
    · exact h.fresh u ⟨w', k', heq⟩
  unique w₁ w₂ u k₁ k₂ h₁ h₂ := by
    rcases hold_update_eq_some h₁ with ⟨e₁, heq₁⟩ | ⟨-, heq₁⟩ <;>
      rcases hold_update_eq_some h₂ with ⟨e₂, heq₂⟩ | ⟨-, heq₂⟩
    · exact e₁.trans e₂.symm
    · cases heq₁; exact absurd ⟨w₂, k₂, heq₂⟩ hheld
    · cases heq₂; exact absurd ⟨w₁, k₁, heq₁⟩ hheld
    · exact h.unique w₁ w₂ u k₁ k₂ heq₁ heq₂
  -- what the worker gets the free threads lose
  shares := by
    have hsum := shares_update c.hold w (some (v, k))
    have hinv := h.shares
    simp only [Core.shares, hw, Option.map_none, Option.map_some, Option.getD_none,
      Option.getD_some] at hsum hinv ⊢
    linarith
  free_nonneg := by simpa using hle
  share_pos w' u k' hu := by
    rcases hold_update_eq_some hu with ⟨-, heq⟩ | ⟨-, heq⟩
    · cases heq; exact hk
    · exact h.share_pos w' u k' heq
  remaining := h.remaining
  topological := h.topological

/-- A worker that gives its node back, completed or not, frees its share. -/
theorem Inv.giveBack_shares {F : Forest n} {total : Int} {c : Core n N} (h : c.Inv F total)
    {w : Fin N} {v : Fin n} {k : Int} (hw : c.hold w = some (v, k)) :
    c.free + k + ∑ u, ((Function.update c.hold w none u).map (·.2)).getD 0 = total := by
  have hsum := shares_update c.hold w none
  have hinv := h.shares
  simp only [Core.shares, hw, Option.map_none, Option.map_some, Option.getD_none,
    Option.getD_some] at hsum hinv
  linarith

/-- A dropped node frees its share and leaves everything else. -/
theorem Inv.drop {F : Forest n} {total : Int} {c : Core n N} (h : c.Inv F total) {w : Fin N}
    {v : Fin n} {k : Int} (hw : c.hold w = some (v, k)) :
    Inv F total { c with free := c.free + k, hold := Function.update c.hold w none } := by
  have hback : ∀ {w' u k'}, Function.update c.hold w none w' = some (u, k') →
      c.hold w' = some (u, k') := by
    intro w' u k' hu
    rcases hold_update_eq_some hu with ⟨-, heq⟩ | ⟨-, heq⟩
    · cases heq
    · exact heq
  have hkpos := h.share_pos w v k hw
  refine ⟨h.pend, ?_, h.nodup, ?_, ?_, h.giveBack_shares hw, ?_, ?_, h.remaining, h.topological⟩
  · rintro u (hu | ⟨w', k', hu⟩ | hu)
    · exact h.spent u (.inl hu)
    · exact h.spent u (.inr (.inl ⟨w', k', hback hu⟩))
    · exact h.spent u (.inr (.inr hu))
  · rintro u ⟨w', k', hu⟩
    exact h.fresh u ⟨w', k', hback hu⟩
  · exact fun w₁ w₂ u k₁ k₂ h₁ h₂ => h.unique w₁ w₂ u k₁ k₂ (hback h₁) (hback h₂)
  · have := h.free_nonneg
    simp only
    omega
  · exact fun w' u k' hu => h.share_pos w' u k' (hback hu)

theorem nodes_complete (c : Core n N) (v : Fin n) (w : Fin N) (k : Int) :
    (c.complete v w k).nodes = c.nodes ++ [v] := by
  simp [complete, nodes]

/-- Appending a node whose children are all listed keeps the order topological. -/
theorem Topological.append {F : Forest n} {l : List (Fin n)} {v : Fin n} (h : Topological F l)
    (hv : ∀ i, F.parent i = some v → i ∈ l) : Topological F (l ++ [v]) := by
  intro pre u post heq i hi
  rcases List.eq_nil_or_concat post with rfl | ⟨post, b, rfl⟩
  · obtain ⟨rfl, hu⟩ := List.append_inj' heq rfl
    cases hu
    exact hv i hi
  · rw [List.concat_eq_append, ← List.cons_append, ← List.append_assoc] at heq
    obtain ⟨rfl, -⟩ := List.append_inj' heq rfl
    exact h pre u post rfl i hi

/-- A completed node leaves the open children of its parent, and only those. -/
theorem uncompleted_complete (F : Forest n) (c : Core n N) (v : Fin n) (w : Fin N) (k : Int)
    (p : Fin n) : (c.complete v w k).uncompleted F p = (c.uncompleted F p).erase v := by
  ext i
  simp only [uncompleted, nodes_complete, Finset.mem_filter, Finset.mem_univ, true_and,
    Finset.mem_erase, List.mem_append, List.mem_singleton, not_or]
  tauto

/-- Completing a held node keeps the invariant, before its parent counts it. -/
theorem Inv.complete {F : Forest n} {total : Int} {c : Core n N} (h : c.Inv F total) {w : Fin N}
    {v : Fin n} {k : Int} (hw : c.hold w = some (v, k)) : Inv F total (c.complete v w k) := by
  have hv : c.Held v := ⟨w, k, hw⟩
  have hdrop := h.drop hw
  have hfresh := h.fresh v hv
  refine ⟨?_, ?_, ?_, ?_, hdrop.unique, hdrop.shares, hdrop.free_nonneg, hdrop.share_pos, ?_, ?_⟩
  -- one node more is completed, and no count has changed
  · intro p
    have hle : ((c.complete v w k).uncompleted F p).card ≤ (c.uncompleted F p).card := by
      rw [uncompleted_complete]
      exact Finset.card_le_card (Finset.erase_subset _ _)
    have := h.pend p
    have hpend : (c.complete v w k).pending p = c.pending p := rfl
    omega
  · intro u hu
    rw [nodes_complete, List.mem_append, List.mem_singleton] at hu
    rcases hu with hu | hu | hu | rfl
    · exact h.spent u (.inl hu)
    · exact hdrop.spent u (.inr (.inl hu))
    · exact h.spent u (.inr (.inr hu))
    · exact h.spent u (.inr (.inl hv))
  · rw [nodes_complete, ← List.append_assoc]
    refine List.Nodup.append h.nodup (List.nodup_singleton v) ?_
    intro u hu hu'
    rw [List.mem_singleton] at hu'
    subst hu'
    exact hfresh hu
  · intro u hu
    have hmem := hdrop.fresh u hu
    obtain ⟨w', k', hu⟩ := hu
    rcases hold_update_eq_some hu with ⟨-, heq⟩ | ⟨hne, heq⟩
    · cases heq
    · have huv : u ≠ v := by
        rintro rfl
        exact hne (h.unique w' w u k' k heq hw)
      rw [nodes_complete, ← List.append_assoc, List.mem_append, List.mem_singleton]
      exact fun hor => hor.elim hmem huv
  · have := h.remaining
    simp only [Core.complete, List.length_append, List.length_singleton]
    omega
  · rw [nodes_complete]
    exact h.topological.append fun i hi => h.children_completed (h.spent v (.inr (.inl hv))) hi

/-- The parent's own count follows the completion of one of its children. -/
theorem Inv.count {F : Forest n} {total : Int} {c : Core n N} (h : c.Inv F total) {w : Fin N}
    {v p : Fin n} {k : Int} (hw : c.hold w = some (v, k)) (hp : F.parent v = some p) :
    Inv F total { c.complete v w k with
      pending := Function.update c.pending p (c.pending p - 1) } := by
  have hc := h.complete hw
  have hv : v ∉ c.nodes := fun hn => h.fresh v ⟨w, k, hw⟩ (List.mem_append_right _ hn)
  have hle : ∀ q, Function.update c.pending p (c.pending p - 1) q ≤ c.pending q := by
    intro q
    by_cases hq : q = p
    · subst hq; simp
    · simp [Function.update_of_ne hq]
  refine ⟨?_, fun u hu => (hle u).trans (hc.spent u hu), hc.nodup, hc.fresh, hc.unique, hc.shares,
    hc.free_nonneg, hc.share_pos, hc.remaining, hc.topological⟩
  intro q
  by_cases hq : q = p
  · subst hq
    have hmem : v ∈ c.uncompleted F q := by simp [uncompleted, hp, hv]
    have hcard : ((c.complete v w k).uncompleted F q).card + 1 = (c.uncompleted F q).card := by
      rw [uncompleted_complete]
      exact Finset.card_erase_add_one hmem
    have := h.pend q
    simp only [Function.update_self]
    have hunf : ({ c.complete v w k with
        pending := Function.update c.pending q (c.pending q - 1) } : Core n N).uncompleted F q =
        (c.complete v w k).uncompleted F q := rfl
    rw [hunf]
    omega
  · simp only [Function.update_of_ne hq]
    exact hc.pend q

/-- Every step of the core keeps the invariant. -/
theorem Inv.step {J : Type} {F : Forest n} {total : Int} {c c' : Core n N} {e : Event n N J}
    (h : c.Inv F total) (hs : TopScheduler.CoreStep F c e c') : c'.Inv F total := by
  cases hs with
  | quiet he => exact h
  | record => exact ⟨h.pend, h.spent, h.nodup, h.fresh, h.unique, h.shares, h.free_nonneg,
      h.share_pos, h.remaining, h.topological⟩
  | drop hw => exact h.drop hw
  | @take w l v k hstop hw hl hk hle =>
    have hnodup := h.nodup
    rw [hl, List.append_assoc, List.singleton_append] at hnodup
    have hv : v ∉ l ++ c.nodes := (List.nodup_middle.mp hnodup).notMem
    have hready : v ∈ c.ready := by simp [hl]
    have hsub : ∀ u, u ∈ l → u ∈ c.ready := fun u hu => by simp [hl, hu]
    -- the last of the ready list is taken off it and handed out
    have hl' : Inv F total { c with ready := l } := by
      refine ⟨h.pend, ?_, (List.nodup_middle.mp hnodup).of_cons, ?_, h.unique, h.shares,
        h.free_nonneg, h.share_pos, h.remaining, h.topological⟩
      · rintro u (hu | hu | hu)
        · exact h.spent u (.inl (hsub u hu))
        · exact h.spent u (.inr (.inl hu))
        · exact h.spent u (.inr (.inr hu))
      · intro u hu hmem
        refine h.fresh u hu ?_
        rcases List.mem_append.mp hmem with hm | hm
        · exact List.mem_append_left _ (hsub u hm)
        · exact List.mem_append_right _ hm
    exact hl'.handOut hw (h.spent v (.inl hready)) hv
      (fun hh => h.fresh v hh (List.mem_append_left _ hready)) hk hle
  | @complete _ w v k next hw hc =>
    cases hc with
    | uncounted _ => exact h.complete hw
    | counted hp _ => exact h.count hw hp
    -- the last child done, the worker goes on with the parent, which nobody has
    | @continued p k' hstop hp hpend hk' hle =>
      have hv : v ∉ c.nodes := fun hn => h.fresh v ⟨w, k, hw⟩ (List.mem_append_right _ hn)
      obtain ⟨hnr, hnh, hnn⟩ := h.parent_waits hp hv
      have hpv : p ≠ v := by
        rintro rfl
        exact hnh ⟨w, k, hw⟩
      have hk : 1 ≤ k := h.share_pos w v k hw
      have hfree : k' ≤ c.free + k := hle (by have := h.free_nonneg; omega)
      have hout := (h.count hw hp).handOut (w := w) (v := p) (k := k')
        (by simp [Core.complete]) (by simp [hpend])
        (by
          intro hmem
          rcases List.mem_append.mp hmem with hm | hm
          · exact hnr hm
          · have hm' : p ∈ c.nodes ++ [v] := by rw [← nodes_complete c v w k]; exact hm
            rcases List.mem_append.mp hm' with hm' | hm'
            · exact hnn hm'
            · exact hpv (by simpa using hm'))
        (by
          rintro ⟨w', k'', hu⟩
          rcases hold_update_eq_some hu with ⟨-, heq⟩ | ⟨-, heq⟩
          · cases heq
          · exact hnh ⟨w', k'', heq⟩)
        hk' (by simpa [Core.complete] using hfree)
      simpa [Core.complete] using hout

end Core

namespace TopScheduler

variable {J : Type}

/-- A fresh scheduler satisfies the invariant. -/
theorem inv_new (F : Forest n) (threads : Int) :
    (new F threads : TopScheduler n N J).core.Inv F (max 1 threads) := by
  have hnone : ∀ v, ¬(new F threads : TopScheduler n N J).core.Held v := by
    rintro v ⟨w, k, h⟩
    cases h
  refine ⟨?_, ?_, ?_, fun v hv => absurd hv (hnone v), ?_, ?_, ?_, ?_, ?_, ?_⟩
  -- a node waits for its children, and none is completed
  · intro p
    have hset : (new F threads : TopScheduler n N J).core.uncompleted F p =
        ((List.finRange n).filter fun i => F.parent i = some p).toFinset := by
      ext i
      simp [Core.uncompleted, Core.nodes, core, new]
    have hcount : (new F threads : TopScheduler n N J).core.pending p =
        (((List.finRange n).filter fun i => decide (F.parent i = some p)).length : Int) := by
      simp [core, new, List.countP_eq_length_filter]
    rw [hset, hcount]
    exact_mod_cast List.toFinset_card_le _
  · rintro v (hv | hv | hv)
    · have hmem : v ∈ (new F threads : TopScheduler n N J).ready := hv
      have hz : (new F threads : TopScheduler n N J).pending v = 0 := by
        simpa [new] using (List.mem_filter.mp hmem).2
      exact hz.le
    · exact absurd hv (hnone v)
    · simp [Core.nodes, core, new] at hv
  · simpa [Core.nodes, core, new] using (List.nodup_finRange n).filter _
  · intro w w' v k k' h
    cases h
  · simp [Core.shares, core, new, Worker.hold?]
  · simp [core, new]
  · intro w v k h
    cases h
  · simp [core, new]
  · intro pre v post heq
    simp [Core.nodes, core, new] at heq

/-! ## The invariant of a run -/

/-- What must have happened for a worker to arrive at a place. -/
def Came (u : Fin N) (e : Event n N J) : Worker n J → Prop
  | .holding v _ => e.handsOut v
  | .running v _ => e = .call u v
  | .returned v _ ok => e = .ret u v ok
  | .stopping _ _ => e = .record u
  | .done => e = .leave u
  | _ => True

theorem came_setWorker {s : TopScheduler n N J} {e : Event n N J} {w u : Fin N} {a b : Worker n J}
    (h : s.worker u = b ∨ Came u e (s.worker u)) (ha : Came w e a) :
    (s.setWorker w a).worker u = b ∨ Came u e ((s.setWorker w a).worker u) := by
  by_cases hu : u = w
  · subst hu
    exact .inr (by simpa [setWorker] using ha)
  · simpa [setWorker, Function.update_of_ne hu] using h

theorem came_wakeOneIfRunnable {s : TopScheduler n N J} {e : Event n N J} {u : Fin N}
    (c : Option (Fin N)) :
    (s.wakeOneIfRunnable c).worker u = s.worker u ∨
      Came u e ((s.wakeOneIfRunnable c).worker u) := by
  unfold wakeOneIfRunnable
  split
  · cases c with
    | none => exact .inl rfl
    | some w => exact came_setWorker (.inl rfl) trivial
  · exact .inl rfl

theorem came_notify {s : TopScheduler n N J} {e : Event n N J} {u : Fin N} (c : Option (Fin N))
    (k : Notify) :
    (s.notify c k).worker u = s.worker u ∨ Came u e ((s.notify c k).worker u) := by
  cases k with
  | nobody => exact .inl rfl
  | one => exact came_wakeOneIfRunnable c
  | everybody =>
    simp only [notify, notifyAll]
    cases s.worker u with
    | sleeping => exact .inr trivial
    | _ => exact .inl rfl

theorem came_acquireWakes {s : TopScheduler n N J} {e : Event n N J} {u : Fin N}
    (c : Option (Fin N)) (t : Task n J) :
    (acquireWakes s c t).worker u = s.worker u ∨ Came u e ((acquireWakes s c t).worker u) := by
  cases t with
  | none => exact .inl rfl
  | node v k => exact came_wakeOneIfRunnable c
  | help job => exact came_wakeOneIfRunnable c

theorem came_afterAcquire (w : Fin N) (t : Task n J) :
    Came w (acquireEvent w t) (afterAcquire t) := by
  cases t <;> simp [Came, acquireEvent, afterAcquire, Event.handsOut]

theorem came_acquire {s s₁ : TopScheduler n N J} (hs₁ : s₁.worker = s.worker) (w u : Fin N)
    (c : Option (Fin N)) :
    ((acquireWakes s₁.acquire.1 c s₁.acquire.2).setWorker w
        (afterAcquire s₁.acquire.2)).worker u = s.worker u ∨
      Came u (acquireEvent w s₁.acquire.2)
        (((acquireWakes s₁.acquire.1 c s₁.acquire.2).setWorker w
          (afterAcquire s₁.acquire.2)).worker u) := by
  refine came_setWorker ?_ (came_afterAcquire _ _)
  rw [← hs₁, ← acquire_worker s₁]
  exact came_acquireWakes _ _

/-- A worker that is not where it was got there by the step's event. -/
theorem step_came [DecidableEq J] {F : Forest n} {s t : TopScheduler n N J} {e : Event n N J}
    (h : Step F s e t) (u : Fin N) : t.worker u = s.worker u ∨ Came u e (t.worker u) := by
  cases h with
  | sleep hw hr => exact came_setWorker (.inl rfl) trivial
  | resleep hw hr => exact came_setWorker (.inl rfl) trivial
  | wakeup hw => exact came_setWorker (.inl rfl) trivial
  | acquire hw hr hc => exact came_acquire rfl _ u _
  | reacquire hw hr hc hs₁ => subst hs₁; exact came_acquire rfl _ u _
  | helped hw => exact came_setWorker (.inl rfl) trivial
  | call hw => exact came_setWorker (.inl rfl) rfl
  | offer hw hslots hc => exact came_wakeOneIfRunnable _
  | offerNone hw hslots => exact .inl rfl
  | withdraw hw => exact .inl rfl
  | ret hw => exact came_setWorker (.inl rfl) rfl
  | record hw => exact came_setWorker (.inl rfl) rfl
  | @finish w v k ok c hw hc =>
    refine came_setWorker ?_ ?_
    · rw [← finish_worker F s v w ok k]
      exact came_notify _ _
    · cases hn : (s.finish F v w ok k).2.1 with
      | none => trivial
      | some p => simp [Came, afterFinish, Event.handsOut]

/-- A step that hands `v` out finds it listed, or finds its count at one. -/
theorem handsOut_waiting {F : Forest n} {c c' : Core n N} {e : Event n N J} {v : Fin n}
    (h : CoreStep F c e c') (he : e.handsOut v) :
    c.stopped = false ∧ (v ∈ c.ready ∨ c.pending v = 1) := by
  cases h with
  | quiet hq => exact absurd he (hq v)
  | take hstop hw hl hk hle =>
    cases he
    exact ⟨hstop, .inl (by simp [hl])⟩
  | record => exact absurd he id
  | drop hw => simp [Event.handsOut] at he
  | complete hw hc =>
    cases hc with
    | uncounted _ => simp [Event.handsOut] at he
    | counted _ _ => simp [Event.handsOut] at he
    | continued hstop hp hpend _ _ =>
      simp only [Event.handsOut, Option.map_some, Option.some.injEq] at he
      subst he
      exact ⟨hstop, .inr hpend⟩

/-- A node that is out of the list with no open child stays so. -/
theorem spent_step {F : Forest n} {c c' : Core n N} {e : Event n N J} {v : Fin n}
    (h : CoreStep F c e c') (hr : v ∉ c.ready) (hp : c.pending v ≤ 0) :
    v ∉ c'.ready ∧ c'.pending v ≤ 0 := by
  have hdec : ∀ p, Function.update c.pending p (c.pending p - 1) v ≤ 0 := by
    intro p
    by_cases hv : v = p
    · subst hv; simp; omega
    · simpa [Function.update_of_ne hv] using hp
  cases h with
  | quiet _ => exact ⟨hr, hp⟩
  | take hstop hw hl hk hle =>
    rw [hl, List.mem_append] at hr
    exact ⟨fun hm => hr (.inl hm), hp⟩
  | record => exact ⟨hr, hp⟩
  | drop _ => exact ⟨hr, hp⟩
  | complete hw hc =>
    cases hc with
    | uncounted _ => exact ⟨hr, hp⟩
    | counted _ _ => exact ⟨hr, hdec _⟩
    | continued _ _ _ _ _ => exact ⟨hr, hdec _⟩

/-- The stop flag is never cleared, and it is set by the record of a false result. -/
theorem stopped_step {F : Forest n} {c c' : Core n N} {e : Event n N J} (h : CoreStep F c e c') :
    (c.stopped = true → c'.stopped = true) ∧
      (c'.stopped = true → c.stopped = true ∨ ∃ w, e = .record w) := by
  cases h with
  | quiet _ => exact ⟨id, .inl⟩
  | take _ _ _ _ _ => exact ⟨id, .inl⟩
  | record => exact ⟨fun _ => rfl, fun _ => .inr ⟨_, rfl⟩⟩
  | drop _ => exact ⟨id, .inl⟩
  | complete _ hc => cases hc <;> exact ⟨id, .inl⟩

/-- A step that completes a node finds its worker back from a run that returned true. -/
theorem completed_step [DecidableEq J] {F : Forest n} {s t : TopScheduler n N J}
    {e : Event n N J} (h : Step F s e t) :
    t.completed = s.completed ∨ ∃ w v k, s.worker w = .returned v k true ∧
      t.completed = s.completed ++ [(v, w)] := by
  have hcore := step_core h
  have hfin : ∀ {c c' : Core n N} {e : Event n N J}, CoreStep F c e c' →
      (∀ w v next, e ≠ .finish w v next) → c'.completed = c.completed := by
    intro c c' e hs he
    cases hs with
    | quiet _ => rfl
    | take _ _ _ _ _ => rfl
    | record => rfl
    | drop _ => exact absurd rfl (he _ _ _)
    | complete _ _ => exact absurd rfl (he _ _ _)
  -- only `finish` completes a node, and only after a run that returned true
  by_cases he : ∀ w v next, e ≠ .finish w v next
  · exact .inl (hfin hcore he)
  · push Not at he
    obtain ⟨w, v, next, rfl⟩ := he
    generalize hev : (Event.finish w v next : Event n N J) = e' at h
    cases h with
    | @finish w v k ok c hw hc =>
      cases ok with
      | false =>
        left
        have h₁ := (finish_cases F s v w k).2.1
        have h₂ := core_notify (hc.congr (finish_worker F s v w false k))
          (s.finish F v w false k).2.2
        exact (congrArg Core.completed h₂).trans (congrArg Core.completed h₁)
      | true =>
        refine .inr ⟨w, v, k, by simpa using hw, ?_⟩
        have h₁ := (finish_cases F s v w k).2.2
        have h₂ := core_notify (hc.congr (finish_worker F s v w true k))
          (s.finish F v w true k).2.2
        refine (congrArg Core.completed h₂).trans ?_
        generalize (s.finish F v w true k).2.1 = next' at h₁
        generalize hcc : ({ (s.finish F v w true k).1.core with
          hold := Function.update s.core.hold w (afterFinish (J := J) next').hold? } : Core n N)
          = c' at h₁
        have hcompl : c'.completed = (s.finish F v w true k).1.core.completed := by rw [← hcc]
        rw [← hcompl]
        cases h₁ <;> rfl
    | acquire hw hr hc => revert hev; cases s.acquire.2 <;> simp [acquireEvent]
    | reacquire hw hr hc hs₁ => revert hev; subst hs₁; cases
      (TopScheduler.acquire _).2 <;> simp [acquireEvent]
    | _ => cases hev

/-- `work` returns only when every node is completed or the scheduler is stopped. -/
theorem leave_step [DecidableEq J] {F : Forest n} {s t : TopScheduler n N J} {w : Fin N}
    (h : Step F s (.leave w) t) : s.remaining = 0 ∨ s.stopped = true := by
  generalize hev : (Event.leave w : Event n N J) = e at h
  cases h with
  | acquire hw hr hc =>
    rcases acquire_cases s with ⟨l, v, k, ht, -⟩ | ⟨-, -, hnone⟩
    · rw [ht] at hev; cases hev
    · refine hnone ?_ hr
      revert hev
      cases s.acquire.2 <;> simp [acquireEvent]
  | reacquire hw hr hc hs₁ =>
    subst hs₁
    rcases acquire_cases { s with sleepers := s.sleepers - 1 } with ⟨l, v, k, ht, -⟩ | ⟨-, -, hnone⟩
    · rw [ht] at hev; cases hev
    · refine hnone ?_ hr
      revert hev
      cases (TopScheduler.acquire { s with sleepers := s.sleepers - 1 }).2 <;> simp [acquireEvent]
  | _ => cases hev

/-- A call of the run function comes from a worker that was handed the node. -/
theorem call_step [DecidableEq J] {F : Forest n} {s t : TopScheduler n N J} {w : Fin N}
    {v : Fin n} (h : Step F s (.call w v) t) :
    (∃ k, s.worker w = .holding v k) ∧ ∀ u k, t.worker u = .holding v k →
      s.worker u = .holding v k ∧ u ≠ w := by
  generalize hev : (Event.call w v : Event n N J) = e at h
  cases h with
  | call hw =>
    cases hev
    refine ⟨⟨_, hw⟩, fun u k hu => ?_⟩
    by_cases huw : u = w
    · subst huw; simp [setWorker] at hu
    · exact ⟨by simpa [setWorker, Function.update_of_ne huw] using hu, huw⟩
  | acquire hw hr hc => revert hev; cases s.acquire.2 <;> simp [acquireEvent]
  | reacquire hw hr hc hs₁ =>
    subst hs₁
    revert hev
    cases (TopScheduler.acquire { s with sleepers := s.sleepers - 1 }).2 <;> simp [acquireEvent]
  | _ => cases hev

/-- A worker stays in its run function until that returns. -/
theorem running_step [DecidableEq J] {F : Forest n} {s t : TopScheduler n N J} {e : Event n N J}
    (h : Step F s e t) {u : Fin N} {v : Fin n} {k : Int} (hu : s.worker u = .running v k) :
    t.worker u = .running v k ∨ ∃ ok, e = .ret u v ok := by
  -- the step of another worker, of one that sleeps too, leaves this one where it is
  have hset : ∀ {w : Fin N} {a b : Worker n J} {s' : TopScheduler n N J}, s.worker w = b →
      (∀ v k, b ≠ .running v k) → s'.worker u = .running v k →
      (s'.setWorker w a).worker u = .running v k := by
    intro w a b s' hw hb hs'
    have huw : u ≠ w := fun hc => hb v k (by rw [← hw, ← hc, hu])
    rw [← hs']
    exact Function.update_of_ne huw ..
  -- a wake-up moves a sleeping worker only
  have hone : ∀ {s' : TopScheduler n N J} {c : Option (Fin N)}, s'.worker = s.worker →
      s.Wakes c → (s'.notifyOne c).worker u = .running v k := by
    intro s' c hs' hc
    cases c with
    | none => exact (congrFun hs' u).trans hu
    | some w =>
      have huw : u ≠ w := fun he => by
        have hw : s.worker w = .sleeping := hc
        rw [← he, hu] at hw
        cases hw
      exact (Function.update_of_ne huw ..).trans ((congrFun hs' u).trans hu)
  have hwake : ∀ {s' : TopScheduler n N J} {c : Option (Fin N)}, s'.worker = s.worker →
      s.Wakes c → (s'.wakeOneIfRunnable c).worker u = .running v k := by
    intro s' c hs' hc
    unfold wakeOneIfRunnable
    split
    · exact hone hs' hc
    · exact (congrFun hs' u).trans hu
  have hacq : ∀ {s' : TopScheduler n N J} {c : Option (Fin N)} (a : Task n J),
      s'.worker = s.worker → s.Wakes c → (acquireWakes s' c a).worker u = .running v k := by
    intro s' c a hs' hc
    cases a with
    | none => exact (congrFun hs' u).trans hu
    | node => exact hwake hs' hc
    | help => exact hwake hs' hc
  cases h with
  | sleep hw _ => exact .inl (hset hw nofun hu)
  | resleep hw _ => exact .inl (hset hw nofun hu)
  | wakeup hw => exact .inl (hset hw nofun hu)
  | acquire hw _ hc => exact .inl (hset hw nofun (hacq _ (acquire_worker s) hc))
  | reacquire hw _ hc hs₁ =>
    subst hs₁
    exact .inl (hset hw nofun (hacq _ (acquire_worker _) hc))
  | helped hw => exact .inl (hset hw nofun hu)
  | call hw => exact .inl (hset hw nofun hu)
  | offer hw _ hc => exact .inl (hwake rfl hc)
  | offerNone _ _ => exact .inl hu
  | withdraw _ => exact .inl hu
  | @ret w v' k' ok hw =>
    by_cases huw : u = w
    · subst huw
      cases hu.symm.trans hw
      exact .inr ⟨ok, rfl⟩
    · exact .inl ((Function.update_of_ne huw ..).trans hu)
  | record hw => exact .inl (hset hw nofun hu)
  | @finish w v' k' ok c hw hc =>
    refine .inl (hset hw (fun _ _ => by cases ok <;> nofun) ?_)
    have hfin := finish_worker F s v' w ok k'
    generalize (s.finish F v' w ok k').1 = s' at hfin
    cases (s.finish F v' w ok k').2.2 with
    | nobody => exact (congrFun hfin u).trans hu
    | one => exact hwake hfin hc
    | everybody =>
      have hkeep : s'.worker u = .running v k := (congrFun hfin u).trans hu
      simp only [notify, notifyAll, hkeep]

/-- A return comes from a worker in the run function of the node. -/
theorem ret_step [DecidableEq J] {F : Forest n} {s t : TopScheduler n N J} {w : Fin N}
    {v : Fin n} {ok : Bool} (h : Step F s (.ret w v ok) t) :
    ∃ k, s.worker w = .running v k ∧ t.worker w = .returned v k ok := by
  generalize hev : (Event.ret w v ok : Event n N J) = e at h
  cases h with
  | ret hw =>
    cases hev
    exact ⟨_, hw, Function.update_self ..⟩
  | acquire hw hr hc => revert hev; cases s.acquire.2 <;> simp [acquireEvent]
  | reacquire hw hr hc hs₁ =>
    subst hs₁
    revert hev
    cases (TopScheduler.acquire { s with sleepers := s.sleepers - 1 }).2 <;> simp [acquireEvent]
  | _ => cases hev

/-- A result is recorded by a worker back from a run that returned false. -/
theorem record_step [DecidableEq J] {F : Forest n} {s t : TopScheduler n N J} {w : Fin N}
    (h : Step F s (.record w) t) :
    (∃ v k, s.worker w = .returned v k false) ∧ t.stopped = true := by
  generalize hev : (Event.record w : Event n N J) = e at h
  cases h with
  | record hw => cases hev; exact ⟨⟨_, _, hw⟩, rfl⟩
  | acquire hw hr hc => revert hev; cases s.acquire.2 <;> simp [acquireEvent]
  | reacquire hw hr hc hs₁ =>
    subst hs₁
    revert hev
    cases (TopScheduler.acquire { s with sleepers := s.sleepers - 1 }).2 <;> simp [acquireEvent]
  | _ => cases hev

/-- How the state of a run reflects what has happened in it. -/
structure Trace (F : Forest n) (threads : Int) (tr : List (Event n N J))
    (s : TopScheduler n N J) : Prop where
  inv : s.core.Inv F (max 1 threads)
  call_once : ∀ v, tr.countP (Event.isCall v) ≤ 1
  called : ∀ w v, .call w v ∈ tr → v ∉ s.ready ∧ s.pending v ≤ 0 ∧ ∀ u k, s.worker u ≠ .holding v k
  returned : ∀ w v k ok, s.worker w = .returned v k ok → .ret w v ok ∈ tr
  completed : ∀ w v, (v, w) ∈ s.completed → .ret w v true ∈ tr
  recorded : ∀ w, .record w ∈ tr → s.stopped = true
  stopped : s.stopped = true → ∃ w v, .ret w v false ∈ tr
  done : ∀ w, s.worker w = .done → s.completed.length = n ∨ s.stopped = true

theorem trace_new (F : Forest n) (threads : Int) :
    Trace F threads [] (new F threads : TopScheduler n N J) := by
  refine ⟨inv_new F threads, ?_, ?_, ?_, ?_, ?_, ?_, ?_⟩ <;> simp [new]

/-- The number of completed nodes that the counter of remaining ones leaves. -/
theorem Trace.completed_length {F : Forest n} {threads : Int} {tr : List (Event n N J)}
    {s : TopScheduler n N J} (h : Trace F threads tr s) (hr : s.remaining = 0) :
    s.completed.length = n := by
  have := h.inv.remaining
  simp only [core] at this
  omega

/-- A node is called at most once: once called, it is not held back by any worker. -/
theorem Trace.call_step [DecidableEq J] {F : Forest n} {threads : Int} {tr : List (Event n N J)}
    {s t : TopScheduler n N J} {e : Event n N J} (h : Trace F threads tr s) (hs : Step F s e t) :
    (∀ v, (tr ++ [e]).countP (Event.isCall v) ≤ 1) ∧
    ∀ w v, .call w v ∈ tr ++ [e] →
      v ∉ t.ready ∧ t.pending v ≤ 0 ∧ ∀ u k, t.worker u ≠ .holding v k := by
  constructor
  · intro v
    rw [List.countP_append, List.countP_singleton]
    by_cases hcall : Event.isCall v e = true
    -- a node that was called is held back by nobody, so it cannot be called now
    · have hzero : tr.countP (Event.isCall v) = 0 := by
        rw [List.countP_eq_zero]
        intro a ha hav
        cases a <;> cases e <;> simp only [Event.isCall, decide_eq_true_eq, Bool.false_eq_true]
          at hcall hav
        subst hav
        subst hcall
        obtain ⟨⟨k, hk⟩, -⟩ := TopScheduler.call_step hs
        exact (h.called _ _ ha).2.2 _ k hk
      simp [hzero, hcall]
    · simpa [hcall] using h.call_once v
  · intro w v hmem
    rcases List.mem_append.mp hmem with hold | hnew
    · obtain ⟨hr, hp, hh⟩ := h.called w v hold
      obtain ⟨hr', hp'⟩ := spent_step (step_core hs) hr hp
      refine ⟨hr', hp', fun u k hu => ?_⟩
      rcases step_came hs u with heq | hcame
      · exact hh u k (heq ▸ hu)
      -- a node called before is not handed out again
      · rw [hu] at hcame
        obtain ⟨-, hready | hone⟩ := handsOut_waiting (step_core hs) hcame
        · exact hr hready
        · have : s.pending v = 1 := hone
          omega
    · obtain rfl : Event.call w v = e := by simpa using hnew
      obtain ⟨⟨k, hk⟩, hkeep⟩ := TopScheduler.call_step hs
      have hheld : s.core.Held v := ⟨w, k, by simp [core, hk, Worker.hold?]⟩
      have hready : v ∉ s.core.ready := fun hm => h.inv.fresh v hheld (List.mem_append_left _ hm)
      obtain ⟨hr', hp'⟩ := spent_step (step_core hs) hready (h.inv.spent v (.inr (.inl hheld)))
      refine ⟨hr', hp', fun u k' hu => ?_⟩
      obtain ⟨hu', hne⟩ := hkeep u k' hu
      exact hne (h.inv.unique u w v k' k (by simp [core, hu', Worker.hold?])
        (by simp [core, hk, Worker.hold?]))

theorem trace_step [DecidableEq J] {F : Forest n} {threads : Int} {tr : List (Event n N J)}
    {s t : TopScheduler n N J} {e : Event n N J} (h : Trace F threads tr s) (hs : Step F s e t) :
    Trace F threads (tr ++ [e]) t := by
  have hstop := stopped_step (step_core hs)
  -- all completed is all there is
  have hlen : s.completed.length = n → t.completed.length = n := by
    intro hn
    have hle : t.completed.length ≤ n := by
      have hnodup := (List.nodup_append.mp (h.inv.step (step_core hs)).nodup).2.1
      simpa [Core.nodes, core] using hnodup.length_le_card
    rcases completed_step hs with heq | ⟨w, v, k, -, heq⟩
    · rw [heq]; exact hn
    · rw [heq, List.length_append, List.length_singleton] at hle
      omega
  refine ⟨h.inv.step (step_core hs), (h.call_step hs).1, (h.call_step hs).2, ?_, ?_, ?_, ?_, ?_⟩
  · intro w v k ok hw
    rcases step_came hs w with heq | hcame
    · exact List.mem_append_left _ (h.returned w v k ok (heq ▸ hw))
    · rw [hw] at hcame
      have heq : e = .ret w v ok := hcame
      simp [heq]
  · intro w v hmem
    rcases completed_step hs with heq | ⟨w', v', k, hw', heq⟩
    · exact List.mem_append_left _ (h.completed w v (heq ▸ hmem))
    · rw [heq, List.mem_append, List.mem_singleton] at hmem
      rcases hmem with hmem | hmem
      · exact List.mem_append_left _ (h.completed w v hmem)
      · cases hmem
        exact List.mem_append_left _ (h.returned _ _ k true hw')
  · intro w hmem
    rcases List.mem_append.mp hmem with hold | hnew
    · exact hstop.1 (h.recorded w hold)
    · obtain rfl : Event.record w = e := by simpa using hnew
      exact (record_step hs).2
  · intro ht
    rcases hstop.2 ht with hs' | ⟨w, rfl⟩
    · obtain ⟨w, v, hmem⟩ := h.stopped hs'
      exact ⟨w, v, List.mem_append_left _ hmem⟩
    · obtain ⟨⟨v, k, hw⟩, -⟩ := record_step hs
      exact ⟨w, v, List.mem_append_left _ (h.returned w v k false hw)⟩
  · intro w hw
    rcases step_came hs w with heq | hcame
    · exact (h.done w (heq ▸ hw)).imp hlen hstop.1
    · rw [hw] at hcame
      obtain rfl : e = .leave w := hcame
      exact (leave_step hs).imp (fun hr => hlen (h.completed_length hr)) hstop.1

/-- Every run of the workers keeps its trace invariant. -/
theorem trace_run [DecidableEq J] {F : Forest n} {threads : Int} {tr : List (Event n N J)}
    {s : TopScheduler n N J} (h : (system F threads).Run tr s) : Trace F threads tr s :=
  h.invariant (trace_new F threads) fun _ ih hs => trace_step ih hs

/-! ## The scheduler's contract -/

/-- What `TopScheduler::work` promises of a run `tr` that led to `s`. -/
structure WorkSpec (F : Forest n) (threads : Int) (tr : List (Event n N J))
    (s : TopScheduler n N J) : Prop where
  /-- Each run function is called at most once ... -/
  call_once : ∀ v, tr.countP (Event.isCall v) ≤ 1
  /-- ... and only after those of all children have returned true. -/
  after_children : ∀ pre w v post, tr = pre ++ .call w v :: post →
    ∀ c, F.parent c = some v → ∃ u, .ret u c true ∈ pre
  /-- The shares of the nodes being worked on and the free threads make up the total. -/
  shares : s.free + ∑ w, (((s.worker w).hold?).map (·.2)).getD 0 = max 1 threads
  shares_le : ∑ w, (((s.worker w).hold?).map (·.2)).getD 0 ≤ max 1 threads
  /-- After the record of a false result no node is handed out. -/
  none_after_record : ∀ pre w post, tr = pre ++ .record w :: post →
    ∀ e ∈ post, ∀ v, ¬e.handsOut v
  /-- Children are completed before their parents. -/
  topological : Core.Topological F (s.completed.map (·.1))
  /-- When every worker has returned and no run returned false, every node was
      completed exactly once. -/
  all_completed : (∀ w, s.worker w = .done) → (∀ w v, .ret w v false ∉ tr) →
    ∀ v, (s.completed.map (·.1)).count v = 1

/-- **The scheduler's contract.**  For every forest, every number of workers (at
    least one) and every interleaving of their `work` calls. -/
theorem work_correct [DecidableEq J] (F : Forest n) (threads : Int) (hN : 0 < N)
    {tr : List (Event n N J)} {s : TopScheduler n N J}
    (h : (system F threads).Run tr s) : WorkSpec F threads tr s := by
  have ht := trace_run h
  have hshares : s.free + ∑ w, (((s.worker w).hold?).map (·.2)).getD 0 = max 1 threads :=
    ht.inv.shares
  have hfree : 0 ≤ s.free := ht.inv.free_nonneg
  have hnodup : (s.completed.map (·.1)).Nodup := (List.nodup_append.mp ht.inv.nodup).2.1
  refine ⟨ht.call_once, ?_, hshares, by linarith, ?_, ht.inv.topological, ?_⟩
  · rintro pre w v post rfl c hc
    obtain ⟨t, u, hpre, hs, -⟩ := h.step_of_mem
    have htpre := trace_run hpre
    obtain ⟨⟨k, hk⟩, -⟩ := call_step hs
    -- the worker that calls holds the node, whose children are completed
    have hheld : t.core.Held v := ⟨w, k, by simp [core, hk, Worker.hold?]⟩
    have hmem := htpre.inv.children_completed (htpre.inv.spent v (.inr (.inl hheld))) hc
    obtain ⟨⟨c', u⟩, hcu, rfl⟩ := List.mem_map.mp hmem
    exact ⟨u, htpre.completed u c' hcu⟩
  · rintro pre w post rfl e he v hv
    obtain ⟨l, r, rfl⟩ := List.append_of_mem he
    have h' : (system F threads).Run ((pre ++ .record w :: l) ++ e :: r) s := by simpa using h
    obtain ⟨t, u, hpre, hs, -⟩ := h'.step_of_mem
    have hstop : t.stopped = true := (trace_run hpre).recorded w (by simp)
    have hgo : t.stopped = false := (handsOut_waiting (step_core hs) hv).1
    rw [hstop] at hgo
    cases hgo
  · intro hdone hok v
    have hlen : s.completed.length = n := by
      refine (ht.done ⟨0, hN⟩ (hdone _)).resolve_right fun hstop => ?_
      obtain ⟨w, v, hmem⟩ := ht.stopped hstop
      exact hok w v hmem
    refine List.count_eq_one_of_mem hnodup ?_
    -- as many completions as nodes, each node once
    have huniv : (s.completed.map (·.1)).toFinset = Finset.univ := by
      refine Finset.eq_univ_of_card _ ?_
      rw [List.toFinset_card_of_nodup hnodup, List.length_map, hlen, Fintype.card_fin]
    exact List.mem_toFinset.mp (huniv ▸ Finset.mem_univ v)

/-- Three nodes, 0 and 1 the children of 2. -/
def fork : Forest 3 where
  parent := ![some (Fin.last 2), some (Fin.last 2), none]
  wf := by
    refine Subrelation.wf (r := fun c p : Fin 3 => c < p) ?_ wellFounded_lt
    intro c p h
    revert h
    revert c p
    decide

/-- Two workers run the two leaves at the same time.  The first to end finds nothing to take
    and waits; the other goes on with the root and wakes it when that is done. -/
theorem work_correct_fork : ∃ s : TopScheduler 3 2 Unit,
    (∀ w, s.worker w = .done) ∧
    WorkSpec fork 4
      [.take 0 1, .take 1 0, .call 1 0, .call 0 1, .ret 0 1 true, .finish 0 1 none, .sleep 0,
        .ret 1 0 true, .finish 1 0 (some 2), .call 1 2, .ret 1 2 true, .finish 1 2 none, .leave 0,
        .leave 1] s := by
  have h : (system (J := Unit) (N := 2) fork 4).Run [] (new fork 4) := .nil
  have h := h.snoc (Step.acquire (w := 0) (c := none) rfl (by decide) (by decide))
  have h := h.snoc (Step.acquire (w := 1) (c := none) rfl (by decide) (by decide))
  have h := h.snoc (Step.call (w := 1) (v := 0) (k := 2) (by decide))
  have h := h.snoc (Step.call (w := 0) (v := 1) (k := 2) (by decide))
  have h := h.snoc (@Step.ret 3 2 Unit _ fork _ 0 1 2 true (by decide))
  have h := h.snoc (@Step.finish 3 2 Unit _ fork _ 0 1 2 true none (by decide) (by decide))
  have h := h.snoc (Step.sleep (w := 0) (by decide) (by decide))
  have h := h.snoc (@Step.ret 3 2 Unit _ fork _ 1 0 2 true (by decide))
  -- the root follows, with all four threads
  have h := h.snoc (@Step.finish 3 2 Unit _ fork _ 1 0 2 true (some 0) (by decide) (by decide))
  have h := h.snoc (Step.call (w := 1) (v := 2) (k := 4) (by decide))
  have h := h.snoc (@Step.ret 3 2 Unit _ fork _ 1 2 4 true (by decide))
  have h := h.snoc (@Step.finish 3 2 Unit _ fork _ 1 2 4 true (some 0) (by decide) (by decide))
  have h := h.snoc (Step.reacquire (w := 0) (c := none) (by decide) (by decide) (by decide) rfl)
  have h := h.snoc (Step.acquire (w := 1) (c := none) (by decide) (by decide) (by decide))
  exact ⟨_, by decide, work_correct fork 4 (by decide) h⟩

end TopScheduler
end Parallel
end SmfSolver
