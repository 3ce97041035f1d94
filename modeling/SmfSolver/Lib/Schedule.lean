/-
  SmfSolver.Lib.Schedule

  Items run by threads, in whatever order a scheduler finds.

  A scheduler is a transition system whose labels say when a thread begins an item and when
  it ends it.  It is `Lawful` when a thread is in one item at a time, no item begins twice,
  and an item begins only when those it waits for have ended.  What the threads do inside
  their items, access by access, is a `Task`.

  * `Task.invariant`: what holds while all items are fresh, and is kept when an item begins,
    by every access inside it and when it ends, holds whatever the interleaving is.
  * `Task.sound`: so it holds, with all items done, when the threads have left.
  * `claimed_lawful`: threads that take lists of items from a shared counter are such a
    scheduler; an item waits for those before it in its list.
-/
import SmfSolver.Lib.Run
import Mathlib.Data.List.Nodup
import Mathlib.Logic.Function.Basic
import Mathlib.Logic.Relation
import Mathlib.Order.Nat

namespace SmfSolver
namespace Lib

universe u v

variable {ι : Type*} {T : ℕ}

/-! ## Schedules -/

/-- What a label says of the items. -/
inductive Mark (ι : Type*) (T : ℕ) where
  | moves
  | begins (t : Fin T) (i : ι)
  | ends (t : Fin T) (i : ι)

namespace Mark

def begun : Mark ι T → Option ι
  | .begins _ i => some i
  | _ => none

def ended : Mark ι T → Option ι
  | .ends _ i => some i
  | _ => none

end Mark

/-- A transition system that runs items on `T` threads. -/
structure Schedule (ι : Type*) (T : ℕ) (S : Type u) (E : Type v) where
  lts : Lts S E
  mark : E → Mark ι T
  /-- The item that a thread is in. -/
  inside : S → Fin T → Option ι

variable {S : Type u} {E : Type v}

namespace Schedule

/-- The items that begin in a run. -/
def begun (P : Schedule ι T S E) (tr : List E) : List ι := tr.filterMap fun e => (P.mark e).begun

def ended (P : Schedule ι T S E) (tr : List E) : List ι := tr.filterMap fun e => (P.mark e).ended

/-- The promises of a scheduler: `waits i j` says that `j` waits for `i`. -/
structure Lawful (P : Schedule ι T S E) (waits : ι → ι → Prop) (Item : ι → Prop)
    (Exited : S → Prop) : Prop where
  start : ∀ t, P.inside P.lts.init t = none
  moves : ∀ {tr s e s'}, P.lts.Run tr s → P.lts.step s e s' → P.mark e = .moves →
    P.inside s' = P.inside s
  begins : ∀ {tr s e s' t i}, P.lts.Run tr s → P.lts.step s e s' → P.mark e = .begins t i →
    P.inside s t = none ∧ P.inside s' = Function.update (P.inside s) t (some i)
  ends : ∀ {tr s e s' t i}, P.lts.Run tr s → P.lts.step s e s' → P.mark e = .ends t i →
    P.inside s t = some i ∧ P.inside s' = Function.update (P.inside s) t none
  once : ∀ {tr s}, P.lts.Run tr s → (P.begun tr).Nodup
  item : ∀ {tr s}, P.lts.Run tr s → ∀ i ∈ P.begun tr, Item i
  order : ∀ {tr s}, P.lts.Run tr s → ∀ i j, waits i j → j ∈ P.begun tr → i ∈ P.ended tr
  finished : ∀ {tr s}, P.lts.Run tr s → Exited s → ∀ i, Item i → i ∈ P.ended tr

variable {P : Schedule ι T S E} {tr : List E} {e : E} {t : Fin T} {i : ι}

theorem begun_snoc : P.begun (tr ++ [e]) = P.begun tr ++ (P.mark e).begun.toList := by
  rw [begun, begun, List.filterMap_append]
  cases h : (P.mark e).begun <;> simp [h]

theorem ended_snoc : P.ended (tr ++ [e]) = P.ended tr ++ (P.mark e).ended.toList := by
  rw [ended, ended, List.filterMap_append]
  cases h : (P.mark e).ended <;> simp [h]

end Schedule

/-! ## Tasks -/

/-- What threads do inside their items: `access t m w m' w'` is one access of thread `t` to
    the memory. -/
structure Task (ι : Type*) (T : ℕ) (M W : Type*) where
  idle : W
  enters : ι → W → Prop
  access : Fin T → M → W → M → W → Prop
  leaves : ι → W → Prop

/-- The scheduler, the memory, and where the threads are in their items. -/
structure Busy (S M W : Type*) (T : ℕ) where
  sched : S
  mem : M
  work : Fin T → W

variable {M W : Type*} (P : Schedule ι T S E) (A : Task ι T M W)

/-- A step of the scheduler, or an access of a thread inside its item. -/
inductive Task.Step : Busy S M W T → Option E → Busy S M W T → Prop
  | move {s e d} (h : P.lts.step s.sched e d) (hm : P.mark e = .moves) :
      Step s (some e) { s with sched := d }
  | enter {s e d t i w} (h : P.lts.step s.sched e d) (hm : P.mark e = .begins t i)
      (hw : A.enters i w) :
      Step s (some e) { s with sched := d, work := Function.update s.work t w }
  | access {s t i m w} (h : P.inside s.sched t = some i)
      (ha : A.access t s.mem (s.work t) m w) :
      Step s none { s with mem := m, work := Function.update s.work t w }
  | leave {s e d t i} (h : P.lts.step s.sched e d) (hm : P.mark e = .ends t i)
      (hw : A.leaves i (s.work t)) :
      Step s (some e) { s with sched := d, work := Function.update s.work t A.idle }

/-- The task on the scheduler, from the memory `m₀`. -/
def Task.system (m₀ : M) : Lts (Busy S M W T) (Option E) where
  init := ⟨P.lts.init, m₀, fun _ => A.idle⟩
  step := Task.Step P A

/-! ## The invariant rule -/

/-- How far an item is. -/
inductive Status (T : ℕ) where
  | fresh
  | running (t : Fin T)
  | done

/-- The statuses tell the labels of a run. -/
structure Status.Tracks (st : ι → Status T) (P : Schedule ι T S E) (tr : List E) (s : S) :
    Prop where
  fresh : ∀ i, st i = .fresh ↔ i ∉ P.begun tr
  running : ∀ i t, st i = .running t ↔ P.inside s t = some i
  done : ∀ i, st i = .done ↔ i ∈ P.ended tr

/-- A thread is in one item. -/
theorem Status.Tracks.running_unique {P : Schedule ι T S E} {st : ι → Status T} {tr : List E}
    {s : S}
    (h : Status.Tracks st P tr s) {i j : ι} {t : Fin T} (hj : st j = .running t)
    (hi : st i = .running t) : j = i :=
  Option.some.inj (((h.running j t).mp hj).symm.trans ((h.running i t).mp hi))

namespace Task

variable {P A} {waits : ι → ι → Prop} {Item : ι → Prop} {Exited : S → Prop} {m₀ : M}
  {tr : List (Option E)} {s : Busy S M W T}

/-- The labels of the scheduler in a run. -/
def schedTrace (tr : List (Option E)) : List E := tr.filterMap id

theorem schedTrace_snoc {e : Option E} : schedTrace (tr ++ [e]) = schedTrace tr ++ e.toList := by
  rw [schedTrace, List.filterMap_append]
  cases e <;> rfl

/-- A run of the task is one of the scheduler. -/
theorem sched_run (h : (A.system P m₀).Run tr s) : P.lts.Run (schedTrace tr) s.sched := by
  induction h with
  | nil => exact .nil
  | snoc _ hs ih =>
    rw [schedTrace_snoc]
    cases hs with
    | move h _ | enter h _ _ | leave h _ _ => exact ih.snoc h
    | access h ha => exact (List.append_nil _).symm ▸ ih

/-- Nothing begins or ends. -/
theorem tracks_move (hP : P.Lawful waits Item Exited) {st : ι → Status T} {tr : List E} {d d' : S}
    {e : E} (hrun : P.lts.Run tr d) (hst : Status.Tracks st P tr d) (hstep : P.lts.step d e d')
    (hm : P.mark e = .moves) : Status.Tracks st P (tr ++ [e]) d' := by
  have hbegun : P.begun (tr ++ [e]) = P.begun tr := by
    rw [Schedule.begun_snoc, hm]
    exact List.append_nil _
  have hended : P.ended (tr ++ [e]) = P.ended tr := by
    rw [Schedule.ended_snoc, hm]
    exact List.append_nil _
  have hin := hP.moves hrun hstep hm
  refine ⟨fun i => ?_, fun i t => ?_, fun i => ?_⟩
  · rw [hbegun]
    exact hst.fresh i
  · rw [hin]
    exact hst.running i t
  · rw [hended]
    exact hst.done i

variable [DecidableEq ι] {J : (ι → Status T) → M → (Fin T → W) → Prop}

/-- An item begins: it was fresh, and those it waits for are done. -/
theorem tracks_begin (hP : P.Lawful waits Item Exited) {st : ι → Status T} {tr : List E} {d d' : S}
    {e : E} {t : Fin T} {i : ι} (hrun : P.lts.Run tr d) (hst : Status.Tracks st P tr d)
    (hstep : P.lts.step d e d') (hm : P.mark e = .begins t i) :
    Item i ∧ st i = .fresh ∧ (∀ j, Relation.TransGen waits j i → st j = .done) ∧
      (∀ j, st j ≠ .running t) ∧
      Status.Tracks (Function.update st i (.running t)) P (tr ++ [e]) d' := by
  obtain ⟨hnone, hin⟩ := hP.begins hrun hstep hm
  have hrun' := hrun.snoc hstep
  have hbegun : P.begun (tr ++ [e]) = P.begun tr ++ [i] := by
    rw [Schedule.begun_snoc, hm]
    rfl
  have hended : P.ended (tr ++ [e]) = P.ended tr := by
    rw [Schedule.ended_snoc, hm]
    exact List.append_nil _
  have hmem : i ∈ P.begun (tr ++ [e]) := by
    rw [hbegun]
    exact List.mem_append_right _ (List.mem_singleton_self i)
  -- each item begins once, so this one had not
  have hnew : i ∉ P.begun tr := by
    have honce := hP.once hrun'
    rw [hbegun] at honce
    intro hc
    exact (List.nodup_append.mp honce).2.2 i hc i (List.mem_singleton_self i) rfl
  have hfresh := (hst.fresh i).mpr hnew
  refine ⟨hP.item hrun' i hmem, hfresh, fun j hj => ?_, fun j hj => ?_, ?_⟩
  · -- an item that is done has begun, so those it waits for are done too
    have hdone : ∀ k l, waits k l → l ∈ P.begun (tr ++ [e]) → st k = .done := by
      intro k l hkl hl
      apply (hst.done k).mpr
      rw [← hended]
      exact hP.order hrun' k l hkl hl
    induction hj using Relation.TransGen.head_induction_on with
    | single hwaits => exact hdone _ i hwaits hmem
    | @head k l hwaits _ ih =>
      refine hdone k l hwaits ?_
      rw [hbegun]
      refine List.mem_append_left _ (by_contra fun hno => ?_)
      rw [(hst.fresh l).mpr hno] at ih
      cases ih
  -- the thread was in no item
  · have hc := (hst.running j t).mp hj
    rw [hnone] at hc
    cases hc
  · refine ⟨fun j => ?_, fun j u => ?_, fun j => ?_⟩
    · rw [hbegun, List.mem_append, List.mem_singleton, not_or, ← hst.fresh]
      by_cases hj : j = i
      · subst hj
        rw [Function.update_self]
        exact ⟨fun hc => (by cases hc), fun hc => absurd rfl hc.2⟩
      · rw [Function.update_of_ne hj]
        exact (and_iff_left hj).symm
    · rw [hin]
      by_cases hj : j = i
      · subst hj
        rw [Function.update_self]
        by_cases hu : u = t
        · subst hu
          rw [Function.update_self]
          exact iff_of_true rfl rfl
        · rw [Function.update_of_ne hu, ← hst.running, hfresh]
          refine iff_of_false (fun hc => hu ?_) fun hc => by cases hc
          exact (Status.running.inj hc).symm
      · rw [Function.update_of_ne hj]
        by_cases hu : u = t
        · subst hu
          rw [Function.update_self, hst.running, hnone]
          exact iff_of_false (fun hc => by cases hc) fun hc => hj (Option.some.inj hc).symm
        · rw [Function.update_of_ne hu, hst.running]
    · rw [hended, ← hst.done]
      by_cases hj : j = i
      · subst hj
        rw [Function.update_self, hfresh]
        exact iff_of_false (fun hc => by cases hc) fun hc => by cases hc
      · rw [Function.update_of_ne hj]

/-- An item ends. -/
theorem tracks_end (hP : P.Lawful waits Item Exited) {st : ι → Status T} {tr : List E} {d d' : S}
    {e : E} {t : Fin T} {i : ι} (hrun : P.lts.Run tr d) (hst : Status.Tracks st P tr d)
    (hstep : P.lts.step d e d') (hm : P.mark e = .ends t i) : st i = .running t ∧
      Status.Tracks (Function.update st i .done) P (tr ++ [e]) d' := by
  obtain ⟨hsome, hin⟩ := hP.ends hrun hstep hm
  have hbegun : P.begun (tr ++ [e]) = P.begun tr := by
    rw [Schedule.begun_snoc, hm]
    exact List.append_nil _
  have hended : P.ended (tr ++ [e]) = P.ended tr ++ [i] := by
    rw [Schedule.ended_snoc, hm]
    rfl
  have hrunning := (hst.running i t).mpr hsome
  -- each clause for `i`, whose status changes, and for every other item
  refine ⟨hrunning, fun j => ?_, fun j u => ?_, fun j => ?_⟩
  · rw [hbegun, ← hst.fresh]
    by_cases hj : j = i
    · subst hj
      rw [Function.update_self, hrunning]
      exact iff_of_false (fun hc => by cases hc) fun hc => by cases hc
    · rw [Function.update_of_ne hj]
  · rw [hin]
    by_cases hu : u = t
    · subst hu
      rw [Function.update_self]
      refine iff_of_false (fun hc => ?_) fun hc => by cases hc
      by_cases hj : j = i
      · subst hj
        rw [Function.update_self] at hc
        cases hc
      · rw [Function.update_of_ne hj, hst.running, hsome] at hc
        exact hj (Option.some.inj hc).symm
    · rw [Function.update_of_ne hu, ← hst.running]
      by_cases hj : j = i
      · subst hj
        rw [Function.update_self, hrunning]
        refine iff_of_false (fun hc => by cases hc) fun hc => hu ?_
        exact (Status.running.inj hc).symm
      · rw [Function.update_of_ne hj]
  · rw [hended, List.mem_append, List.mem_singleton, ← hst.done]
    by_cases hj : j = i
    · subst hj
      rw [Function.update_self]
      exact iff_of_true rfl (.inr rfl)
    · rw [Function.update_of_ne hj]
      exact (or_iff_left hj).symm

/-- The invariant rule. -/
theorem invariant (hP : P.Lawful waits Item Exited)
    (hinit : J (fun _ => .fresh) m₀ fun _ => A.idle)
    (henter : ∀ {st m work t i w}, J st m work → Item i → st i = .fresh →
      (∀ j, Relation.TransGen waits j i → st j = .done) → (∀ j, st j ≠ .running t) →
      A.enters i w →
      J (Function.update st i (.running t)) m (Function.update work t w))
    (haccess : ∀ {st m work t i m' w}, J st m work → st i = .running t →
      (∀ j, st j = .running t → j = i) → A.access t m (work t) m' w →
      J st m' (Function.update work t w))
    (hleave : ∀ {st m work t i}, J st m work → st i = .running t →
      (∀ j, st j = .running t → j = i) → A.leaves i (work t) →
      J (Function.update st i .done) m (Function.update work t A.idle))
    (h : (A.system P m₀).Run tr s) :
    ∃ st, J st s.mem s.work ∧ Status.Tracks st P (schedTrace tr) s.sched := by
  have hstart : Status.Tracks (fun _ : ι => .fresh) P [] P.lts.init := by
    refine ⟨fun i => iff_of_true rfl List.not_mem_nil, fun i t => ?_, fun i => ?_⟩
    · rw [hP.start t]
      exact iff_of_false (fun hc => by cases hc) fun hc => by cases hc
    · exact iff_of_false (fun hc => by cases hc) List.not_mem_nil
  refine h.invariant (P := fun tr s => ∃ st, J st s.mem s.work ∧
    Status.Tracks st P (schedTrace tr) s.sched) ⟨_, hinit, hstart⟩ ?_
  rintro tr s e s' hrun ⟨st, hJ, hst⟩ hstep
  have hsched := sched_run hrun
  rw [schedTrace_snoc]
  -- a control step moves no item, the other three are the rule's three conditions
  cases hstep with
  | move hd hm => exact ⟨st, hJ, tracks_move hP hsched hst hd hm⟩
  | @enter _ d t i w hd hm hw =>
    obtain ⟨hitem, hfresh, hwaits, hnone, htracks⟩ := tracks_begin hP hsched hst hd hm
    exact ⟨_, henter hJ hitem hfresh hwaits hnone hw, htracks⟩
  | @access t i m w hin ha =>
    rw [Option.toList_none, List.append_nil]
    exact ⟨st, haccess hJ ((hst.running i t).mpr hin) (fun j hj => hst.running_unique hj
      ((hst.running i t).mpr hin)) ha, hst⟩
  | @leave e d t i hd hm hw =>
    obtain ⟨hrunning, htracks⟩ := tracks_end hP hsched hst hd hm
    exact ⟨_, hleave hJ hrunning (fun j hj => hst.running_unique hj hrunning) hw, htracks⟩

/-- When the threads have left, all items are done. -/
theorem sound (hP : P.Lawful waits Item Exited)
    (hinit : J (fun _ => .fresh) m₀ fun _ => A.idle)
    (henter : ∀ {st m work t i w}, J st m work → Item i → st i = .fresh →
      (∀ j, Relation.TransGen waits j i → st j = .done) → (∀ j, st j ≠ .running t) →
      A.enters i w →
      J (Function.update st i (.running t)) m (Function.update work t w))
    (haccess : ∀ {st m work t i m' w}, J st m work → st i = .running t →
      (∀ j, st j = .running t → j = i) → A.access t m (work t) m' w →
      J st m' (Function.update work t w))
    (hleave : ∀ {st m work t i}, J st m work → st i = .running t →
      (∀ j, st j = .running t → j = i) → A.leaves i (work t) →
      J (Function.update st i .done) m (Function.update work t A.idle))
    (h : (A.system P m₀).Run tr s) (hexit : Exited s.sched) :
    ∃ st, J st s.mem s.work ∧ ∀ i, Item i → st i = .done := by
  obtain ⟨st, hJ, hst⟩ := invariant hP hinit henter haccess hleave h
  exact ⟨st, hJ, fun i hi => (hst.done i).mpr (hP.finished (sched_run h) hexit i hi)⟩

end Task

/-! ## Lists claimed from a counter -/

/-- Where a thread is that takes lists of items from a shared counter. -/
inductive ClaimPc (ι : Type*) where
  /-- About to take a list. -/
  | claim
  /-- In list `n`, between two items; `rest` is left of it. -/
  | inside (n : ℕ) (rest : List ι)
  /-- In item `i` of list `n`. -/
  | busy (n : ℕ) (i : ι) (rest : List ι)
  | exited

structure ClaimState (ι : Type*) (T : ℕ) where
  next : ℕ
  pc : Fin T → ClaimPc ι

namespace ClaimState

/-- Moves thread `t` to `a`. -/
def goto (s : ClaimState ι T) (t : Fin T) (a : ClaimPc ι) : ClaimState ι T :=
  { s with pc := Function.update s.pc t a }

theorem goto_self (s : ClaimState ι T) (t : Fin T) (a : ClaimPc ι) : (s.goto t a).pc t = a :=
  Function.update_self ..

theorem goto_of_ne (s : ClaimState ι T) {t u : Fin T} (a : ClaimPc ι) (h : u ≠ t) :
    (s.goto t a).pc u = s.pc u :=
  Function.update_of_ne h ..

/-- One step of thread `t`. -/
inductive Step (jobs : List (List ι)) : ClaimState ι T → Mark ι T → ClaimState ι T → Prop
  | take {s t job} (h : s.pc t = .claim) (hjob : jobs[s.next]? = some job) :
      Step jobs s .moves ({ s with next := s.next + 1 }.goto t (.inside s.next job))
  | none {s t} (h : s.pc t = .claim) (hend : jobs.length ≤ s.next) :
      Step jobs s .moves ({ s with next := s.next + 1 }.goto t .exited)
  | begin {s t n i rest} (h : s.pc t = .inside n (i :: rest)) :
      Step jobs s (.begins t i) (s.goto t (.busy n i rest))
  | finish {s t n i rest} (h : s.pc t = .busy n i rest) :
      Step jobs s (.ends t i) (s.goto t (.inside n rest))
  | back {s t n} (h : s.pc t = .inside n []) : Step jobs s .moves (s.goto t .claim)

end ClaimState

/-- The item of a thread. -/
def ClaimPc.item : ClaimPc ι → Option ι
  | .busy _ i _ => some i
  | _ => none

/-- The list of a thread, and what is left of it. -/
def ClaimPc.job : ClaimPc ι → Option (ℕ × List ι)
  | .inside n rest => some (n, rest)
  | .busy n i rest => some (n, i :: rest)
  | _ => none

/-- Threads that take the lists `jobs` one after another from a shared counter. -/
def claimed (T : ℕ) (jobs : List (List ι)) : Schedule ι T (ClaimState ι T) (Mark ι T) where
  lts := ⟨⟨0, fun _ => .claim⟩, ClaimState.Step jobs⟩
  mark := id
  inside s t := (s.pc t).item

/-- Lists not taken are untouched, those that a thread has left are done, and a thread
    inside one has done the items before its own. -/
structure ClaimInv (jobs : List (List ι)) (begun ended : List ι) (s : ClaimState ι T) : Prop where
  once : begun.Nodup
  item : ∀ i ∈ begun, i ∈ jobs.flatten
  order : ∀ job ∈ jobs, ∀ i j, [i, j].Sublist job → j ∈ begun → i ∈ ended
  untaken : ∀ n job, jobs[n]? = some job → s.next ≤ n → ∀ i ∈ job, i ∉ begun
  left : ∀ n job, jobs[n]? = some job → n < s.next →
    (∀ t rest, (s.pc t).job ≠ some (n, rest)) → ∀ i ∈ job, i ∈ ended
  inside : ∀ t n rest, (s.pc t).job = some (n, rest) → n < s.next ∧ ∃ before,
    jobs[n]? = some (before ++ rest) ∧ ∀ i ∈ before, i ∈ ended
  fresh : ∀ t n rest, s.pc t = .inside n rest → ∀ i ∈ rest, i ∉ begun
  rest : ∀ t n j rest, s.pc t = .busy n j rest → ∀ i ∈ rest, i ∉ begun
  alone : ∀ t u n l l', (s.pc t).job = some (n, l) → (s.pc u).job = some (n, l') → t = u
  exited : ∀ t, s.pc t = .exited → jobs.length ≤ s.next

section Claimed

variable {jobs : List (List ι)} {begun ended : List ι} {s : ClaimState ι T} {t : Fin T} {n : ℕ}
  {i : ι} {rest : List ι}

theorem claimInv_init : ClaimInv jobs [] [] ((claimed T jobs).lts.init : ClaimState ι T) where
  once := List.nodup_nil
  item _ hi := absurd hi List.not_mem_nil
  order _ _ _ _ _ hj := absurd hj List.not_mem_nil
  untaken _ _ _ _ _ _ := List.not_mem_nil
  left _ _ _ hlt := absurd hlt (Nat.not_lt_zero _)
  inside _ _ _ h := by cases h
  fresh _ _ _ h := by cases h
  rest _ _ _ _ h := by cases h
  alone _ _ _ _ _ h := by cases h
  exited _ h := by cases h

/-- Two lists that share an item are one. -/
theorem same_job (hnodup : jobs.flatten.Nodup) {k : ℕ} {job job' : List ι}
    (hn : jobs[n]? = some job)
    (hk : jobs[k]? = some job') (hi : i ∈ job) (hi' : i ∈ job') : n = k := by
  obtain ⟨hnlt, rfl⟩ := List.getElem?_eq_some_iff.mp hn
  obtain ⟨hklt, rfl⟩ := List.getElem?_eq_some_iff.mp hk
  have hpair := (List.nodup_flatten.mp hnodup).2
  rcases Nat.lt_trichotomy n k with hlt | heq | hlt
  · exact absurd hi'
      (List.disjoint_left.mp (List.pairwise_iff_getElem.mp hpair n k hnlt hklt hlt) hi)
  · exact heq
  · exact absurd hi (List.disjoint_left.mp
      (List.pairwise_iff_getElem.mp hpair k n hklt hnlt hlt) hi')

/-- A thread takes a list, or finds none left. -/
theorem ClaimInv.claim (h : ClaimInv jobs begun ended s) (ht : s.pc t = .claim) {a : ClaimPc ι}
    (ha : (∃ job, jobs[s.next]? = some job ∧ a = .inside s.next job) ∨
      jobs.length ≤ s.next ∧ a = .exited) :
    ClaimInv jobs begun ended ({ s with next := s.next + 1 }.goto t a) := by
  let s' : ClaimState ι T := { s with next := s.next + 1 }.goto t a
  have hself : s'.pc t = a := Function.update_self ..
  have hother : ∀ u, u ≠ t → s'.pc u = s.pc u := fun u hu => Function.update_of_ne hu ..
  -- nobody was in the list that is taken
  have hnew : ∀ u l, (s.pc u).job ≠ some (s.next, l) := fun u l hu =>
    absurd (h.inside u _ l hu).1 (lt_irrefl _)
  have hjob : ∀ k l, a.job = some (k, l) → k = s.next ∧ jobs[s.next]? = some l := by
    intro k l hl
    rcases ha with ⟨job, hjob, rfl⟩ | ⟨-, rfl⟩
    · cases hl
      exact ⟨rfl, hjob⟩
    · cases hl
  refine ⟨h.once, h.item, h.order, fun k job hk hle => h.untaken k job hk (Nat.le_of_succ_le hle),
    fun k job hk hlt hno => ?_, fun u k l hu => ?_, fun u k l hu => ?_, fun u k j l hu => ?_,
    fun u v k l l' hu hv => ?_, fun u hu => ?_⟩
  · rcases Nat.lt_succ_iff_lt_or_eq.mp hlt with hlt | rfl
    · refine h.left k job hk hlt fun u l hu => ?_
      have hut : u ≠ t := by
        rintro rfl
        rw [ht] at hu
        cases hu
      exact hno u l (by rw [show _ = s.pc u from hother u hut, hu])
    · rcases ha with ⟨job', hjob', rfl⟩ | ⟨hend, rfl⟩
      · exact absurd (by rw [show _ = _ from hself]; rfl) (hno t job')
      · rw [List.getElem?_eq_none hend] at hk
        cases hk
  · by_cases hut : u = t
    · subst hut
      obtain ⟨rfl, hl⟩ := hjob k l (hself ▸ hu)
      exact ⟨Nat.lt_succ_self _, [], hl, fun i hi => absurd hi List.not_mem_nil⟩
    · obtain ⟨hlt, hrest⟩ := h.inside u k l ((hother u hut).symm ▸ hu)
      exact ⟨Nat.lt_succ_of_lt hlt, hrest⟩
  · by_cases hut : u = t
    · subst hut
      obtain ⟨rfl, hl⟩ := hjob k l (by rw [show a = _ from hself.symm.trans hu]; rfl)
      exact h.untaken _ l hl le_rfl
    · exact h.fresh u k l ((hother u hut).symm.trans hu)
  · by_cases hut : u = t
    · subst hut
      rcases ha with ⟨job, -, rfl⟩ | ⟨-, rfl⟩
      · cases hself.symm.trans hu
      · cases hself.symm.trans hu
    · exact h.rest u k j l ((hother u hut).symm.trans hu)
  · by_cases hut : u = t
    · by_cases hvt : v = t
      · rw [hut, hvt]
      · subst hut
        obtain ⟨rfl, -⟩ := hjob k l (hself ▸ hu)
        exact absurd ((hother v hvt).symm ▸ hv) (hnew v l')
    · have hu' : (s.pc u).job = some (k, l) := (hother u hut).symm ▸ hu
      by_cases hvt : v = t
      · subst hvt
        obtain ⟨rfl, -⟩ := hjob k l' (hself ▸ hv)
        exact absurd hu' (hnew u l)
      · exact h.alone u v k l l' hu' ((hother v hvt).symm ▸ hv)
  · by_cases hut : u = t
    · subst hut
      rcases ha with ⟨job, -, rfl⟩ | ⟨hend, -⟩
      · cases hself.symm.trans hu
      · exact hend.trans (Nat.le_succ _)
    · exact (h.exited u ((hother u hut).symm.trans hu)).trans (Nat.le_succ _)

/-- A thread stays in its list. -/
theorem ClaimInv.stay (h : ClaimInv jobs begun ended s) {begun' ended' : List ι} {a : ClaimPc ι}
    {l l' : List ι} (ht : (s.pc t).job = some (n, l)) (ha : a.job = some (n, l'))
    (honce : begun'.Nodup) (hitem : ∀ i ∈ begun', i ∈ jobs.flatten)
    (horder : ∀ job ∈ jobs, ∀ i j, [i, j].Sublist job → j ∈ begun' → i ∈ ended')
    (hended : ∀ i ∈ ended, i ∈ ended')
    (hafter : ∃ before, jobs[n]? = some (before ++ l') ∧ ∀ i ∈ before, i ∈ ended')
    (hother : ∀ i ∈ begun', ∀ k job, k ≠ n → jobs[k]? = some job → i ∈ job → i ∈ begun)
    (hfresh : ∀ k rest, a = .inside k rest → ∀ i ∈ rest, i ∉ begun')
    (hrest : ∀ k j rest, a = .busy k j rest → ∀ i ∈ rest, i ∉ begun') :
    ClaimInv jobs begun' ended' (s.goto t a) := by
  -- list `n` is `t`'s alone, so what begins in it concerns no other thread
  have hne : ∀ u, u ≠ t → ∀ k l, (s.pc u).job = some (k, l) → k ≠ n := by
    rintro u hut k l₂ hu rfl
    exact hut (h.alone u t k l₂ l hu ht)
  have hin : ∀ u, u ≠ t → ∀ k l, (s.pc u).job = some (k, l) → ∀ i ∈ l, i ∈ begun' → i ∈ begun := by
    intro u hut k l₂ hu i hi hb
    obtain ⟨-, before, hjob, -⟩ := h.inside u k l₂ hu
    exact hother i hb k _ (hne u hut k l₂ hu) hjob (List.mem_append_right _ hi)
  refine ⟨honce, hitem, horder, fun k job hk hle i hi hb => ?_, fun k job hk hlt hno i hi => ?_,
    fun u k l₂ hu => ?_, fun u k l₂ hu i hi hb => ?_, fun u k j l₂ hu i hi hb => ?_,
    fun u v k l₁ l₂ hu hv => ?_, fun u hu => ?_⟩
  · have hkn : k ≠ n := by
      rintro rfl
      exact absurd (h.inside t k l ht).1 (not_lt.mpr hle)
    exact h.untaken k job hk hle i hi (hother i hb k job hkn hk hi)
  -- a list that somebody has left stays done: it is not `n`, which `t` is in
  · refine hended i (h.left k job hk hlt (fun u l₂ hu => ?_) i hi)
    by_cases hut : u = t
    · subst hut
      rw [ht] at hu
      cases hu
      exact hno u l' (by rw [ClaimState.goto_self, ha])
    · exact hno u l₂ (by rw [s.goto_of_ne a hut, hu])
  · by_cases hut : u = t
    · subst hut
      rw [ClaimState.goto_self, ha] at hu
      cases hu
      exact ⟨(h.inside u n l ht).1, hafter⟩
    · rw [s.goto_of_ne a hut] at hu
      obtain ⟨hlt, before, hjob, hbefore⟩ := h.inside u k l₂ hu
      exact ⟨hlt, before, hjob, fun i hi => hended i (hbefore i hi)⟩
  · by_cases hut : u = t
    · subst hut
      rw [ClaimState.goto_self] at hu
      exact hfresh k l₂ hu i hi hb
    · rw [s.goto_of_ne a hut] at hu
      exact h.fresh u k l₂ hu i hi (hin u hut k l₂ (by rw [hu]; rfl) i hi hb)
  · by_cases hut : u = t
    · subst hut
      rw [ClaimState.goto_self] at hu
      exact hrest k j l₂ hu i hi hb
    · rw [s.goto_of_ne a hut] at hu
      have hjob : (s.pc u).job = some (k, j :: l₂) := by
        rw [hu]
        rfl
      exact h.rest u k j l₂ hu i hi (hin u hut k _ hjob i (List.mem_cons_of_mem j hi) hb)
  · by_cases hut : u = t
    · by_cases hvt : v = t
      · rw [hut, hvt]
      · subst hut
        rw [ClaimState.goto_self, ha] at hu
        rw [s.goto_of_ne a hvt] at hv
        cases hu
        exact absurd rfl (hne v hvt n l₂ hv)
    · rw [s.goto_of_ne a hut] at hu
      by_cases hvt : v = t
      · subst hvt
        rw [ClaimState.goto_self, ha] at hv
        cases hv
        exact absurd rfl (hne u hut n l₁ hu)
      · rw [s.goto_of_ne a hvt] at hv
        exact h.alone u v k l₁ l₂ hu hv
  · by_cases hut : u = t
    · subst hut
      rw [ClaimState.goto_self] at hu
      rw [hu] at ha
      cases ha
    · rw [s.goto_of_ne a hut] at hu
      exact h.exited u hu

/-- An item begins. -/
theorem ClaimInv.begin (h : ClaimInv jobs begun ended s) (hnodup : jobs.flatten.Nodup)
    (ht : s.pc t = .inside n (i :: rest)) :
    ClaimInv jobs (begun ++ [i]) ended (s.goto t (.busy n i rest)) := by
  have hin : (s.pc t).job = some (n, i :: rest) := by
    rw [ht]
    rfl
  obtain ⟨-, before, hjob, hbefore⟩ := h.inside t n _ hin
  have hmem : before ++ i :: rest ∈ jobs := List.mem_of_getElem? hjob
  have hi : i ∈ before ++ i :: rest := List.mem_append_right _ List.mem_cons_self
  have hlist : (before ++ i :: rest).Nodup := (List.nodup_flatten.mp hnodup).1 _ hmem
  have hnew : ∀ j ∈ i :: rest, j ∉ begun := h.fresh t n _ ht
  have hapart : i ∉ rest := (List.nodup_cons.mp (List.nodup_append.mp hlist).2.1).1
  refine h.stay hin rfl ?_ (fun j hj => ?_) (fun job hjob' j k hjk hk => ?_) (fun _ hj => hj)
    ⟨before, hjob, hbefore⟩ (fun j hj k job hkn hk hjmem => ?_)
    (fun _ _ hc => by cases hc) fun k j l hc j' hj' hb => ?_
  · refine List.nodup_append.mpr ⟨h.once, List.nodup_singleton i, fun a ha b hb hab => ?_⟩
    obtain rfl := List.mem_singleton.mp hb
    exact hnew b List.mem_cons_self (hab ▸ ha)
  · rcases List.mem_append.mp hj with hj | hj
    · exact h.item j hj
    · obtain rfl := List.mem_singleton.mp hj
      exact List.mem_flatten.mpr ⟨_, hmem, hi⟩
  · rcases List.mem_append.mp hk with hk | hk
    · exact h.order job hjob' j k hjk hk
    · obtain rfl := List.mem_singleton.mp hk
      -- the items before it in its list are those before it in any list
      obtain ⟨q, hq⟩ := List.mem_iff_getElem?.mp hjob'
      obtain rfl := same_job hnodup hq hjob (hjk.subset (by simp)) hi
      obtain rfl := Option.some.inj (hq.symm.trans hjob)
      apply hbefore
      by_contra hno
      have hsplit : [j, k].Sublist (k :: rest) := by
        rw [List.sublist_append_iff] at hjk
        obtain ⟨l₁, l₂, hl, hl₁, hl₂⟩ := hjk
        cases l₁ with
        | nil => exact hl.symm ▸ hl₂
        | cons a l₁ =>
          rw [List.cons_append, List.cons.injEq] at hl
          exact absurd (hl₁.subset (hl.1 ▸ List.mem_cons_self)) hno
      cases hsplit with
      | cons _ hsub => exact hapart (hsub.subset (by simp))
      | cons_cons _ hsub => exact hapart (hsub.subset (by simp))
  · rcases List.mem_append.mp hj with hj | hj
    · exact hj
    · obtain rfl := List.mem_singleton.mp hj
      exact absurd (same_job hnodup hk hjob hjmem hi) hkn
  · cases hc
    rcases List.mem_append.mp hb with hb | hb
    · exact hnew j' (List.mem_cons_of_mem _ hj') hb
    · obtain rfl := List.mem_singleton.mp hb
      exact hapart hj'

/-- An item ends. -/
theorem ClaimInv.finish (h : ClaimInv jobs begun ended s) (ht : s.pc t = .busy n i rest) :
    ClaimInv jobs begun (ended ++ [i]) (s.goto t (.inside n rest)) := by
  have hin : (s.pc t).job = some (n, i :: rest) := by
    rw [ht]
    rfl
  obtain ⟨-, before, hjob, hbefore⟩ := h.inside t n _ hin
  refine h.stay hin rfl h.once h.item (fun job hjob' j k hjk hk => ?_)
    (fun j hj => List.mem_append_left _ hj) ⟨before ++ [i], ?_, fun j hj => ?_⟩
    (fun j hj _ _ _ _ _ => hj) (fun k l hc j hj => ?_) fun _ _ _ hc => by cases hc
  · exact List.mem_append_left _ (h.order job hjob' j k hjk hk)
  · rw [List.append_assoc]
    exact hjob
  · rcases List.mem_append.mp hj with hj | hj
    · exact List.mem_append_left _ (hbefore j hj)
    · exact List.mem_append_right _ hj
  · cases hc
    exact h.rest t n i rest ht j hj

/-- A thread is through with its list. -/
theorem ClaimInv.back (h : ClaimInv jobs begun ended s) (ht : s.pc t = .inside n []) :
    ClaimInv jobs begun ended (s.goto t .claim) := by
  have hin : (s.pc t).job = some (n, []) := by
    rw [ht]
    rfl
  obtain ⟨-, before, hjob, hbefore⟩ := h.inside t n _ hin
  rw [List.append_nil] at hjob
  have hjobs : ∀ u k l, ((s.goto t .claim).pc u).job = some (k, l) →
      u ≠ t ∧ (s.pc u).job = some (k, l) := by
    intro u k l hu
    by_cases hut : u = t
    · rw [hut, ClaimState.goto_self] at hu
      cases hu
    · exact ⟨hut, by rwa [s.goto_of_ne _ hut] at hu⟩
  have hpcs : ∀ u a, a ≠ .claim → (s.goto t .claim).pc u = a → s.pc u = a := by
    intro u a ha hu
    by_cases hut : u = t
    · rw [hut, ClaimState.goto_self] at hu
      exact absurd hu.symm ha
    · rwa [s.goto_of_ne _ hut] at hu
  refine ⟨h.once, h.item, h.order, h.untaken, fun k job hk hlt hno j hj => ?_,
    fun u k l hu => h.inside u k l (hjobs u k l hu).2,
    fun u k l hu => h.fresh u k l (hpcs u _ (fun hc => by cases hc) hu),
    fun u k j l hu => h.rest u k j l (hpcs u _ (fun hc => by cases hc) hu),
    fun u v k l l' hu hv => h.alone u v k l l' (hjobs u k l hu).2 (hjobs v k l' hv).2,
    fun u hu => h.exited u (hpcs u _ (fun hc => by cases hc) hu)⟩
  -- the list just finished has been done item by item; the others are as before
  by_cases hkn : k = n
  · subst hkn
    obtain rfl := Option.some.inj (hk.symm.trans hjob)
    exact hbefore j hj
  · refine h.left k job hk hlt (fun u l hu => ?_) j hj
    have hut : u ≠ t := by
      rintro rfl
      rw [hin] at hu
      cases hu
      exact hkn rfl
    exact hno u l (by rw [s.goto_of_ne _ hut, hu])

theorem claimInv_of_run (hnodup : jobs.flatten.Nodup) {tr : List (Mark ι T)}
    (h : (claimed T jobs).lts.Run tr s) :
    ClaimInv jobs ((claimed T jobs).begun tr) ((claimed T jobs).ended tr) s := by
  refine h.invariant (P := fun tr s => ClaimInv jobs ((claimed T jobs).begun tr)
    ((claimed T jobs).ended tr) s) claimInv_init ?_
  intro tr s e s' _ hinv hstep
  rw [Schedule.begun_snoc, Schedule.ended_snoc]
  cases hstep with
  | take ht hjob =>
    show ClaimInv jobs (_ ++ []) (_ ++ []) _
    rw [List.append_nil, List.append_nil]
    exact hinv.claim ht (.inl ⟨_, hjob, rfl⟩)
  | none ht hend =>
    show ClaimInv jobs (_ ++ []) (_ ++ []) _
    rw [List.append_nil, List.append_nil]
    exact hinv.claim ht (.inr ⟨hend, rfl⟩)
  | begin ht =>
    show ClaimInv jobs (_ ++ [_]) (_ ++ []) _
    rw [List.append_nil]
    exact hinv.begin hnodup ht
  | finish ht =>
    show ClaimInv jobs (_ ++ []) (_ ++ [_]) _
    rw [List.append_nil]
    exact hinv.finish ht
  | back ht =>
    show ClaimInv jobs (_ ++ []) (_ ++ []) _
    rw [List.append_nil, List.append_nil]
    exact hinv.back ht

/-- Claimed lists are a schedule: an item waits for those before it in its list. -/
theorem claimed_lawful (hnodup : jobs.flatten.Nodup) (t : Fin T) :
    (claimed T jobs).Lawful (fun i j => ∃ job ∈ jobs, [i, j].Sublist job) (· ∈ jobs.flatten)
      fun s => ∀ t, s.pc t = .exited where
  start _ := rfl
  moves {tr s e s'} _ hs hm := by
    funext u
    have hkeep : ∀ (t : Fin T) (a : ClaimPc ι), a.item = (s.pc t).item →
        (Function.update s.pc t a u).item = (s.pc u).item := by
      intro t a ha
      by_cases hut : u = t
      · rw [hut, Function.update_self, ha]
      · rw [Function.update_of_ne hut]
    cases hs with
    | take ht _ | none ht _ | back ht => exact hkeep _ _ (by rw [ht]; rfl)
    | begin ht | finish ht => cases hm
  begins {tr s e s' t i} _ hs hm := by
    cases hs with
    | begin ht =>
      cases hm
      refine ⟨?_, Function.comp_update ClaimPc.item s.pc t _⟩
      show (s.pc t).item = none
      rw [ht]
      rfl
    | _ => cases hm
  ends {tr s e s' t i} _ hs hm := by
    cases hs with
    | finish ht =>
      cases hm
      refine ⟨?_, Function.comp_update ClaimPc.item s.pc t _⟩
      show (s.pc t).item = some i
      rw [ht]
      rfl
    | _ => cases hm
  -- the rest is the invariant's
  once h := (claimInv_of_run hnodup h).once
  item h := (claimInv_of_run hnodup h).item
  order h i j := by
    rintro ⟨job, hjob, hij⟩ hj
    exact (claimInv_of_run hnodup h).order job hjob i j hij hj
  finished {tr s} h hexit i hi := by
    have hinv := claimInv_of_run hnodup h
    obtain ⟨job, hjob, hi⟩ := List.mem_flatten.mp hi
    obtain ⟨n, hn⟩ := List.mem_iff_getElem?.mp hjob
    obtain ⟨hlt, -⟩ := List.getElem?_eq_some_iff.mp hn
    refine hinv.left n job hn (hlt.trans_le (hinv.exited t (hexit t))) (fun u l hu => ?_) i hi
    rw [hexit u] at hu
    cases hu

end Claimed

end Lib
end SmfSolver
