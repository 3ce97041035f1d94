/-
  SmfSolver.Parallel.EarlyGate

  The conditional early stop of a work-limited factorization.  Every front reports its
  work before it runs (`reach`); a cursor walks the postorder over the works reported so
  far and decides once, at the front where the running sum passes the threshold.

  On the subtree engine the reports come from many threads.  A report stores its work
  relaxed, adds it to a shared total, and takes the lock only when the total is past the
  threshold.  A step is one atomic access of one report, and a report is named by its
  front: each front reports at most once.  The first load of the verdict may miss one just
  stored; a relaxed load of a work may miss it unless its report's add came before the
  reader's own (`View`).

  `reach_decides`: no report answers stop unless the sequential decision does, and when
  all fronts up to the crossing have reported the crossing is decided, with a report that
  answered stop if that is the decision.
-/
import SmfSolver.Lib.Run
import Mathlib.Algebra.Order.BigOperators.Group.Finset
import Mathlib.Tactic.Linarith

namespace SmfSolver
namespace Parallel

open Lib

/-- The gate's verdict: `kOpen`, `kGo`, `kStop`. -/
inductive Verdict where
  | isOpen
  | go
  | stop
  deriving DecidableEq

/-- What the gate is set up with, and the work every front reports. -/
structure EarlyGate where
  postorder : List ℕ
  nodup : postorder.Nodup
  /-- Columns and rows of the fronts. -/
  width : ℕ → ℕ
  frontSize : ℕ → ℕ
  width_pos : ∀ s, 0 < width s
  frontSize_pos : ∀ s, 0 < frontSize s
  work : ℕ → ℕ
  at_ : ℤ
  proj : ℚ

namespace EarlyGate

/-- The sequential part of the gate: the cursor, the works and the delay-free work of the
    fronts it has passed, and the verdict. -/
structure Cursor where
  cursor : ℕ
  done : ℤ
  freeDone : ℚ
  verdict : Verdict

def Cursor.start : Cursor := ⟨0, 0, 0, .isOpen⟩

variable (G : EarlyGate)

abbrev ns : ℕ := G.postorder.length

/-- `postorder[k]`. -/
def front (k : ℕ) : ℕ := G.postorder.getD k 0

/-- Delay-free work of a front. -/
def free (s : ℕ) : ℚ := G.width s * G.frontSize s * G.frontSize s

/-- The front at the cursor, with work `w`. -/
def step (c : Cursor) (w : ℤ) : Cursor :=
  let freeDone := c.freeDone + G.free (G.front c.cursor)
  { cursor := c.cursor + 1
    done := c.done + w
    freeDone := freeDone
    verdict :=
      if c.done ≤ G.at_ ∧ G.at_ < c.done + w then
        if G.proj * freeDone < (c.done + w : ℤ) then .stop else .go
      else c.verdict }

/-- `reach` of the serial engine: the front that reports is the one at the cursor. -/
def serialReach (c : Cursor) (w : ℤ) : Cursor × Bool :=
  if c.verdict ≠ .isOpen then (c, decide (c.verdict = .stop))
  else (G.step c w, decide ((G.step c w).verdict = .stop))

/-! ## The sequential decision -/

/-- Work of the first `k` fronts in postorder, and their delay-free work. -/
def doneUpTo (k : ℕ) : ℤ := ((G.postorder.map fun s => (G.work s : ℤ)).take k).sum

def freeUpTo (k : ℕ) : ℚ := ((G.postorder.map G.free).take k).sum

/-- The running sum first passes the threshold at postorder index `k`. -/
def Crosses (k : ℕ) : Prop := k < G.ns ∧ G.doneUpTo k ≤ G.at_ ∧ G.at_ < G.doneUpTo (k + 1)

instance (k : ℕ) : Decidable (G.Crosses k) := inferInstanceAs (Decidable (_ ∧ _))

/-- The crossing, if there is one. -/
def crossing : Option ℕ := (List.range G.ns).find? fun k => decide (G.Crosses k)

/-- What is decided at index `k`: stop iff the work up to there is more than `proj` times
    the delay-free work. -/
def decisionAt (k : ℕ) : Verdict :=
  if G.proj < G.doneUpTo (k + 1) / G.freeUpTo (k + 1) then .stop else .go

/-- What a walk over the first `n` fronts decides. -/
def decidedBy (n : ℕ) : Verdict :=
  match G.crossing with
  | none => .isOpen
  | some k => if k < n then G.decisionAt k else .isOpen

/-- The sequential decision. -/
def decision : Verdict := G.decidedBy G.ns

/-- The fronts up to index `k`. -/
def upTo (k : ℕ) : Finset ℕ := (G.postorder.take (k + 1)).toFinset

section Sequential

variable {G} {c : Cursor} {k n : ℕ}

theorem front_eq (h : k < G.ns) : G.front k = G.postorder[k] :=
  (List.getElem_eq_getD 0).symm

theorem free_pos (s : ℕ) : 0 < G.free s := by
  have hw : (0 : ℚ) < G.width s := Nat.cast_pos.mpr (G.width_pos s)
  have hf : (0 : ℚ) < G.frontSize s := Nat.cast_pos.mpr (G.frontSize_pos s)
  exact mul_pos (mul_pos hw hf) hf

theorem doneUpTo_succ (h : k < G.ns) :
    G.doneUpTo (k + 1) = G.doneUpTo k + G.work (G.front k) := by
  have hlt : k < (G.postorder.map fun s => (G.work s : ℤ)).length := by rwa [List.length_map]
  rw [doneUpTo, List.sum_take_succ _ _ hlt, List.getElem_map, ← front_eq h, doneUpTo]

theorem freeUpTo_succ (h : k < G.ns) :
    G.freeUpTo (k + 1) = G.freeUpTo k + G.free (G.front k) := by
  have hlt : k < (G.postorder.map G.free).length := by rwa [List.length_map]
  rw [freeUpTo, List.sum_take_succ _ _ hlt, List.getElem_map, ← front_eq h, freeUpTo]

theorem freeUpTo_nonneg (k : ℕ) : 0 ≤ G.freeUpTo k := by
  refine List.sum_nonneg fun x hx => ?_
  obtain ⟨s, -, rfl⟩ := List.mem_map.mp (List.mem_of_mem_take hx)
  exact (free_pos s).le

theorem freeUpTo_pos (h : k < G.ns) : 0 < G.freeUpTo (k + 1) := by
  rw [freeUpTo_succ h]
  exact add_pos_of_nonneg_of_pos (freeUpTo_nonneg k) (free_pos _)

theorem doneUpTo_mono {a b : ℕ} (h : a ≤ b) : G.doneUpTo a ≤ G.doneUpTo b := by
  refine monotone_nat_of_le_succ (f := G.doneUpTo) (fun k => ?_) h
  rcases lt_or_ge k G.ns with h | h
  · rw [doneUpTo_succ h]
    exact le_add_of_nonneg_right (Nat.cast_nonneg _)
  · have hlen : (G.postorder.map fun s => (G.work s : ℤ)).length ≤ k := by
      rwa [List.length_map]
    rw [doneUpTo, doneUpTo, List.take_of_length_le hlen, List.take_of_length_le
      (hlen.trans k.le_succ)]

/-- The works are non-negative, so the sum passes the threshold at one place only. -/
theorem Crosses.unique (hk : G.Crosses k) (hn : G.Crosses n) : k = n := by
  have key : ∀ {a b : ℕ}, G.Crosses a → G.Crosses b → ¬a < b := by
    intro a b ha hb hab
    have hle : G.doneUpTo (a + 1) ≤ G.doneUpTo b := doneUpTo_mono hab
    exact absurd (hle.trans hb.2.1) (not_le.mpr ha.2.2)
  exact le_antisymm (not_lt.mp (key hn hk)) (not_lt.mp (key hk hn))

theorem crosses_of_crossing (h : G.crossing = some k) : G.Crosses k :=
  of_decide_eq_true (List.find?_some (p := fun k => decide (G.Crosses k)) h)

theorem crossing_eq_some : G.crossing = some k ↔ G.Crosses k := by
  constructor
  · exact crosses_of_crossing
  · intro h
    cases hc : G.crossing with
    | none =>
      have hnot := List.find?_eq_none.mp hc k (List.mem_range.mpr h.1)
      exact absurd (decide_eq_true h) hnot
    | some n =>
      rw [(crosses_of_crossing hc).unique h]

theorem decidedBy_eq (h : G.Crosses k) :
    G.decidedBy n = if k < n then G.decisionAt k else .isOpen := by
  rw [decidedBy, crossing_eq_some.mpr h]

theorem decisionAt_ne_open : G.decisionAt k ≠ .isOpen := by
  unfold decisionAt
  split <;> nofun

theorem decision_eq (h : G.Crosses k) : G.decision = G.decisionAt k := by
  rw [decision, decidedBy_eq h, if_pos h.1]

/-- A decision stands. -/
theorem decidedBy_succ (h : G.decidedBy n ≠ .isOpen) : G.decidedBy (n + 1) = G.decidedBy n := by
  cases hc : G.crossing with
  | none => rw [decidedBy, decidedBy, hc]
  | some k =>
    have hk := crossing_eq_some.mp hc
    rw [decidedBy_eq hk] at h
    split at h
    next hlt => rw [decidedBy_eq hk, decidedBy_eq hk, if_pos hlt, if_pos (Nat.lt_succ_of_lt hlt)]
    next => exact absurd rfl h

/-- What a walk over some of the fronts decided is the sequential decision. -/
theorem decidedBy_eq_decision (h : G.decidedBy n ≠ .isOpen) : G.decidedBy n = G.decision := by
  cases hc : G.crossing with
  | none => exact absurd (by rw [decidedBy, hc]) h
  | some k =>
    have hk := crossing_eq_some.mp hc
    rw [decidedBy_eq hk] at h ⊢
    split at h
    next hlt => rw [if_pos hlt, decision_eq hk]
    next => exact absurd rfl h

/-- The test of the code, without the quotient. -/
theorem decisionAt_eq (h : k < G.ns) : G.decisionAt k =
    if G.proj * G.freeUpTo (k + 1) < G.doneUpTo (k + 1) then .stop else .go := by
  rw [decisionAt, if_congr (lt_div_iff₀ (freeUpTo_pos h)) rfl rfl]

variable (G) in
/-- The cursor has walked the first `cursor` fronts. -/
structure CursorOk (c : Cursor) : Prop where
  le : c.cursor ≤ G.ns
  done : c.done = G.doneUpTo c.cursor
  freeDone : c.freeDone = G.freeUpTo c.cursor
  verdict : c.verdict = G.decidedBy c.cursor

theorem cursorOk_start : G.CursorOk .start where
  le := Nat.zero_le _
  done := rfl
  freeDone := rfl
  verdict := by
    cases hc : G.crossing with
    | none => rw [decidedBy, hc]; rfl
    | some k =>
      exact ((decidedBy_eq (n := 0) (crossing_eq_some.mp hc)).trans
        (if_neg (Nat.not_lt_zero k))).symm

/-- A step over the front at the cursor, with its work. -/
theorem CursorOk.step (h : G.CursorOk c) (hlt : c.cursor < G.ns) :
    G.CursorOk (G.step c (G.work (G.front c.cursor))) := by
  have hdone : c.done + (G.work (G.front c.cursor) : ℤ) = G.doneUpTo (c.cursor + 1) := by
    rw [h.done, doneUpTo_succ hlt]
  have hfree : c.freeDone + G.free (G.front c.cursor) = G.freeUpTo (c.cursor + 1) := by
    rw [h.freeDone, freeUpTo_succ hlt]
  refine ⟨hlt, hdone, hfree, ?_⟩
  simp only [EarlyGate.step]
  rw [hdone, hfree, h.done]
  by_cases hcross : G.Crosses c.cursor
  · rw [if_pos ⟨hcross.2.1, hcross.2.2⟩, decidedBy_eq hcross, if_pos (Nat.lt_succ_self _),
      decisionAt_eq hlt]
  · rw [if_neg fun hc => hcross ⟨hlt, hc.1, hc.2⟩, h.verdict]
    cases hc : G.crossing with
    | none => rw [decidedBy, decidedBy, hc]
    | some k =>
      have hk := crossing_eq_some.mp hc
      have hne : k ≠ c.cursor := fun he => hcross (he ▸ hk)
      have hiff : k < c.cursor ↔ k < c.cursor + 1 := by omega
      rw [decidedBy_eq hk, decidedBy_eq hk, if_congr hiff rfl rfl]

/-- A cursor that met no crossing has the front where the sum crosses still before it. -/
theorem CursorOk.le_of_open (h : G.CursorOk c) (hopen : c.verdict = .isOpen)
    (hk : G.Crosses k) : c.cursor ≤ k := by
  by_contra hlt
  have hv := h.verdict
  rw [decidedBy_eq hk, if_pos (not_le.mp hlt)] at hv
  exact decisionAt_ne_open (hv.symm.trans hopen)

theorem CursorOk.eq_decision (h : G.CursorOk c) (hv : c.verdict ≠ .isOpen) :
    c.verdict = G.decision := by
  rw [h.verdict] at hv ⊢
  exact decidedBy_eq_decision hv

end Sequential

/-! ## The serial engine -/

/-- The gate after the first `n` fronts reported in postorder. -/
def serialRun : ℕ → Cursor
  | 0 => .start
  | n + 1 => (G.serialReach (serialRun n) (G.work (G.front n))).1

section Serial

variable {G} {n : ℕ}

theorem serialReach_stop (c : Cursor) (w : ℤ) :
    (G.serialReach c w).2 = decide ((G.serialReach c w).1.verdict = .stop) := by
  unfold serialReach
  split <;> rfl

/-- Until it decides, the cursor is at the next front to report. -/
theorem serialRun_cursorOk (hn : n ≤ G.ns) : G.CursorOk (G.serialRun n) ∧
    (G.serialRun n).verdict = G.decidedBy n ∧
    ((G.serialRun n).verdict = .isOpen → (G.serialRun n).cursor = n) := by
  induction n with
  | zero => exact ⟨cursorOk_start, cursorOk_start.verdict, fun _ => rfl⟩
  | succ n ih =>
    obtain ⟨hok, hv, hcur⟩ := ih (Nat.le_of_succ_le hn)
    rw [serialRun, serialReach]
    split
    next hdecided =>
      refine ⟨hok, ?_, fun hopen => absurd hopen hdecided⟩
      rw [decidedBy_succ (hv ▸ hdecided), hv]
    next hopen =>
      have hc := hcur (not_ne_iff.mp hopen)
      have hstep := hok.step (hc.symm ▸ hn)
      rw [hc] at hstep
      have hcur' : (G.step (G.serialRun n) (G.work (G.front n))).cursor = n + 1 := by
        rw [step, hc]
      exact ⟨hstep, hstep.verdict.trans (by rw [hcur']), fun _ => hcur'⟩

/-- The serial engine: the report of the front at postorder index `n` answers stop iff the
    sum crossed by then and the decision there is to stop. -/
theorem serialReach_decides (hn : n < G.ns) :
    (G.serialReach (G.serialRun n) (G.work (G.front n))).2 =
      decide (G.decidedBy (n + 1) = .stop) := by
  have hv := (serialRun_cursorOk (Nat.succ_le_of_lt hn)).2.1
  rw [serialRun] at hv
  rw [serialReach_stop, hv]

end Serial

/-! ## Reports from many threads -/

/-- What the add of a report has seen: the fronts whose reports had added their work by
    then, its own among them. -/
abbrev View := Finset ℕ

/-- Where the report of a front is. -/
inductive Pc where
  /-- Not reported, or before the first load of the verdict. -/
  | idle
  /-- Before the store of the work, and before the `fetch_add`. -/
  | storing
  | adding
  /-- Before the lock; the total was past the threshold. -/
  | locking (view : View)
  /-- Under the lock: at the loop's test, at the load of the work at the cursor, and at
      `step` with the work loaded. -/
  | walking (view : View)
  | loading (view : View)
  | stepping (view : View) (w : ℤ)
  | returned (stop : Bool)
  deriving DecidableEq

/-- What the reports share, and where each of them is. -/
structure State where
  /-- The reported works, -1 where there is none yet. -/
  works : ℕ → ℤ
  total : ℤ
  cur : Cursor
  /-- The report that holds the lock. -/
  lock : Option ℕ
  /-- The fronts whose work is in the total. -/
  added : View
  pc : ℕ → Pc

def init : State where
  works := fun _ => -1
  total := 0
  cur := .start
  lock := none
  added := ∅
  pc := fun _ => .idle

variable {G} in
/-- The report of front `x` goes to `a`. -/
def State.goto (s : State) (x : ℕ) (a : Pc) : State :=
  { s with pc := Function.update s.pc x a }

/-- `stopped()`. -/
def State.stopped (s : State) : Bool := decide (s.cur.verdict = .stop)

/-- A load of the work of front `y` may answer `v`: the work stored, or none when the
    reader's add has not seen the report of `y`. -/
def State.Loads (s : State) (view : View) (y : ℕ) (v : ℤ) : Prop :=
  v = s.works y ∨ v = -1 ∧ y ∉ view

/-- The loop of the walk goes on. -/
def State.walks (G : EarlyGate) (s : State) : Prop :=
  s.cur.verdict = .isOpen ∧ s.cur.cursor < G.ns

instance (s : State) : Decidable (s.walks G) := inferInstanceAs (Decidable (_ ∧ _))

/-- One atomic step of the report of front `x`. -/
inductive Step : State → ℕ → State → Prop
  /-- The load of the verdict answers open; it may miss a verdict just stored. -/
  | enter {s x} (h : s.pc x = .idle) (hx : x ∈ G.postorder) : Step s x (s.goto x .storing)
  | enterDecided {s x} (h : s.pc x = .idle) (hx : x ∈ G.postorder)
      (hv : s.cur.verdict ≠ .isOpen) : Step s x (s.goto x (.returned s.stopped))
  | store {s x} (h : s.pc x = .storing) :
      Step s x ({ s with works := Function.update s.works x (G.work x) }.goto x .adding)
  /-- The `fetch_add` that leaves the total at most the threshold. -/
  | addBelow {s x} (h : s.pc x = .adding) (hat : s.total + G.work x ≤ G.at_) :
      Step s x ({ s with total := s.total + G.work x, added := insert x s.added }.goto x
        (.returned false))
  | addAbove {s x} (h : s.pc x = .adding) (hat : G.at_ < s.total + G.work x) :
      Step s x ({ s with total := s.total + G.work x, added := insert x s.added }.goto x
        (.locking (insert x s.added)))
  | lock {s x} {view : View} (h : s.pc x = .locking view) (hfree : s.lock = none) :
      Step s x ({ s with lock := some x }.goto x (.walking view))
  | test {s x} {view : View} (h : s.pc x = .walking view) (hgo : s.walks G) :
      Step s x (s.goto x (.loading view))
  | exit {s x} {view : View} (h : s.pc x = .walking view) (hend : ¬s.walks G) :
      Step s x ({ s with lock := none }.goto x (.returned s.stopped))
  | load {s x} {view : View} {v : ℤ} (h : s.pc x = .loading view)
      (hv : s.Loads view (G.front s.cur.cursor) v) (hpos : 0 ≤ v) :
      Step s x (s.goto x (.stepping view v))
  /-- No work there yet: the walk ends. -/
  | loadNone {s x} {view : View} {v : ℤ} (h : s.pc x = .loading view)
      (hv : s.Loads view (G.front s.cur.cursor) v) (hneg : v < 0) :
      Step s x ({ s with lock := none }.goto x (.returned s.stopped))
  | step {s x} {view : View} {w : ℤ} (h : s.pc x = .stepping view w) :
      Step s x ({ s with cur := G.step s.cur w }.goto x (.walking view))

/-- The gate with the reports of all fronts under way at once. -/
def system : Lts State ℕ where
  init := init
  step := G.Step

/-! ## The invariant -/

/-- A view of the report of front `x`. -/
def ViewOk (s : State) (x : ℕ) (view : View) : Prop := x ∈ view ∧ view ⊆ s.added

/-- What the place of the report of front `x` says. -/
def CallOk (s : State) (x : ℕ) : Pc → Prop
  | .idle | .storing => x ∉ s.added
  | .adding => x ∉ s.added ∧ s.works x = G.work x
  | .locking view => ViewOk s x view
  | .walking view => ViewOk s x view ∧ s.lock = some x
  | .loading view => ViewOk s x view ∧ s.lock = some x ∧ s.walks G
  | .stepping view w =>
      ViewOk s x view ∧ s.lock = some x ∧ s.walks G ∧ w = G.work (G.front s.cur.cursor)
  | .returned b => (b = true → s.cur.verdict = .stop) ∧
      (x ∉ s.added → s.cur.verdict ≠ .isOpen ∧ b = s.stopped)

/-- The view of a report that is at the lock or under it. -/
def Pc.view? : Pc → Option View
  | .locking view | .walking view | .loading view | .stepping view _ => some view
  | _ => none

/-- A decision is made, and answered if it is to stop. -/
def Answered (s : State) : Prop :=
  s.cur.verdict ≠ .isOpen ∧ (s.cur.verdict = .stop → ∃ x, s.pc x = .returned true)

structure Inv (s : State) : Prop where
  cursor : G.CursorOk s.cur
  total : s.total = ∑ x ∈ s.added, (G.work x : ℤ)
  works : ∀ x, s.works x = G.work x ∨ s.works x = -1
  stored : ∀ x ∈ s.added, s.works x = G.work x
  call : ∀ x, G.CallOk s x (s.pc x)
  /-- The crossing's fronts all added: a report that saw all of them is on its way to the
      decision, or has been there. -/
  decides : ∀ k, G.Crosses k → G.upTo k ⊆ s.added → Answered s ∨
    ∃ x ∈ G.upTo k, ∃ view, (s.pc x).view? = some view ∧ G.upTo k ⊆ view

section Steps

variable {G} {s s' : State} {x y k : ℕ} {a b : Pc} {view : View}

@[simp]
theorem goto_self : (s.goto x a).pc x = a := Function.update_self ..

theorem goto_of_ne (h : y ≠ x) : (s.goto x a).pc y = s.pc y := Function.update_of_ne h ..

/-- What a step of one report leaves the report of another front `y`. -/
structure Keeps (s s' : State) (y : ℕ) : Prop where
  added : s.added ⊆ s'.added
  notAdded : y ∉ s.added → y ∉ s'.added
  works : s'.works y = s.works y
  verdict : s.cur.verdict ≠ .isOpen → s'.cur.verdict = s.cur.verdict
  lock : s.lock = some y → s'.lock = some y ∧ s'.cur = s.cur

theorem CallOk.keeps (hk : Keeps s s' y) (h : G.CallOk s y a) : G.CallOk s' y a := by
  have hwalks : s.lock = some y → s.walks G → s'.walks G := fun hl hw => by
    rw [State.walks, (hk.lock hl).2]
    exact hw
  have hview : ∀ {view}, ViewOk s y view → ViewOk s' y view := fun hv =>
    ⟨hv.1, hv.2.trans hk.added⟩
  cases a with
  | idle => exact hk.notAdded h
  | storing => exact hk.notAdded h
  | adding => exact ⟨hk.notAdded h.1, hk.works.trans h.2⟩
  | locking view => exact hview h
  | walking view => exact ⟨hview h.1, (hk.lock h.2).1⟩
  | loading view => exact ⟨hview h.1, (hk.lock h.2.1).1, hwalks h.2.1 h.2.2⟩
  | stepping view w =>
    obtain ⟨hsub, hl, hw, hval⟩ := h
    refine ⟨hview hsub, (hk.lock hl).1, hwalks hl hw, ?_⟩
    rw [(hk.lock hl).2]
    exact hval
  | returned b =>
    refine ⟨fun hb => ?_, fun hy => ?_⟩
    · have hv := h.1 hb
      rw [hk.verdict (hv ▸ nofun)]
      exact hv
    · obtain ⟨hv, hb⟩ := h.2 fun hc => hy (hk.added hc)
      refine ⟨(hk.verdict hv).symm ▸ hv, ?_⟩
      rw [hb, State.stopped, State.stopped, hk.verdict hv]

theorem mem_upTo (h : k < G.ns) {n : ℕ} (hn : n ≤ k) : G.front n ∈ G.upTo k := by
  rw [front_eq (hn.trans_lt h), upTo, List.mem_toFinset, List.mem_take_iff_getElem]
  exact ⟨n, lt_min (Nat.lt_succ_of_le hn) (hn.trans_lt h), rfl⟩

theorem sum_upTo (k : ℕ) : ∑ x ∈ G.upTo k, (G.work x : ℤ) = G.doneUpTo (k + 1) := by
  have hnodup : (G.postorder.take (k + 1)).Nodup := (List.take_sublist _ _).nodup G.nodup
  rw [upTo, List.sum_toFinset _ hnodup, doneUpTo, List.map_take]

/-- When the fronts up to the crossing are among those added, the sum is past the
    threshold. -/
theorem Crosses.lt_sum (h : G.Crosses k) (hsub : G.upTo k ⊆ view) :
    G.at_ < ∑ x ∈ view, (G.work x : ℤ) := by
  refine h.2.2.trans_le ?_
  rw [← sum_upTo]
  exact Finset.sum_le_sum_of_subset_of_nonneg hsub fun x _ _ => Nat.cast_nonneg _

theorem Answered.goto (h : Answered s) (hcur : s'.cur = s.cur)
    (hpc : s'.pc = Function.update s.pc x b) (hnr : ∀ c, s.pc x ≠ .returned c) : Answered s' := by
  refine ⟨hcur ▸ h.1, fun hv => ?_⟩
  obtain ⟨y, hy⟩ := h.2 (hcur ▸ hv)
  have hyx : y ≠ x := fun he => hnr true (he ▸ hy)
  exact ⟨y, by rw [hpc, Function.update_of_ne hyx, hy]⟩

theorem call_update (h : ∀ y, G.CallOk s y (s.pc y)) (hpc : s'.pc = Function.update s.pc x b)
    (hkeeps : ∀ y, y ≠ x → Keeps s s' y) (hx : G.CallOk s' x b) (y : ℕ) :
    G.CallOk s' y (s'.pc y) := by
  rw [hpc]
  by_cases hyx : y = x
  · subst hyx
    rwa [Function.update_self]
  · rw [Function.update_of_ne hyx]
    exact (h y).keeps (hkeeps y hyx)

/-- A step that leaves the works, the total and the cursor as they are.  A report that
    leaves the lock has decided every crossing it has seen. -/
theorem Inv.quiet (h : G.Inv s) (hcur : s'.cur = s.cur) (hworks : s'.works = s.works)
    (htotal : s'.total = s.total) (hadded : s'.added = s.added)
    (hpc : s'.pc = Function.update s.pc x b) (hnr : ∀ c, s.pc x ≠ .returned c)
    (hlock : ∀ y, y ≠ x → s.lock = some y → s'.lock = some y) (hx : G.CallOk s' x b)
    (hview : ∀ view, (s.pc x).view? = some view →
      b.view? = some view ∨ ∀ k, G.Crosses k → G.upTo k ⊆ view → Answered s') : G.Inv s' := by
  have hkeeps : ∀ y, y ≠ x → Keeps s s' y := fun y hyx =>
    { added := hadded ▸ subset_rfl
      notAdded := fun hy => hadded ▸ hy
      works := by rw [hworks]
      verdict := fun _ => by rw [hcur]
      lock := fun hl => ⟨hlock y hyx hl, hcur⟩ }
  refine ⟨hcur ▸ h.cursor, by rw [htotal, hadded, h.total], fun y => hworks ▸ h.works y,
    fun y hy => hworks ▸ h.stored y (hadded ▸ hy), call_update h.call hpc hkeeps hx,
    fun k hk hsub => ?_⟩
  rcases h.decides k hk (hadded ▸ hsub) with hans | ⟨y, hy, view, hyview, hsubv⟩
  · exact .inl (hans.goto hcur hpc hnr)
  · by_cases hyx : y = x
    · subst hyx
      rcases hview view hyview with hb | hb
      · exact .inr ⟨y, hy, view, by rw [hpc, Function.update_self, hb], hsubv⟩
      · exact .inl (hb k hk hsubv)
    · exact .inr ⟨y, hy, view, by rw [hpc, Function.update_of_ne hyx, hyview], hsubv⟩

/-- A report that ends its walk with the lock given back. -/
theorem Inv.leave (h : G.Inv s) (hl : s.lock = some x) (ha : (s.pc x).view? = some view)
    (hend : ∀ k, G.Crosses k → G.upTo k ⊆ view → s.cur.verdict ≠ .isOpen)
    (hx : ViewOk s x view) : G.Inv ({ s with lock := none }.goto x (.returned s.stopped)) := by
  have hnr : ∀ c, s.pc x ≠ .returned c := fun c hc => by rw [hc] at ha; cases ha
  refine h.quiet rfl rfl rfl rfl rfl hnr (fun y hyx hy => ?_) 
    ⟨of_decide_eq_true, absurd (hx.2 hx.1)⟩
    fun view' hview' => .inr fun k hk hsub => ?_
  · exact absurd (Option.some.inj (hy.symm.trans hl)) hyx
  · obtain rfl : view = view' := Option.some.inj (ha.symm.trans hview')
    refine ⟨hend k hk hsub, fun hv => ⟨x, ?_⟩⟩
    have hstop : s.stopped = true := decide_eq_true hv
    rw [goto_self, hstop]

/-- A report adds its work to the total: one that is told to go on completes no crossing,
    and the other sees all that was added. -/
theorem Inv.add (h : G.Inv s) (ha : s.pc x = .adding)
    (hx : G.CallOk ({ s with total := s.total + G.work x, added := insert x s.added }.goto x b) x b)
    (hb : s.total + G.work x ≤ G.at_ ∨ b.view? = some (insert x s.added)) :
    G.Inv ({ s with total := s.total + G.work x, added := insert x s.added }.goto x b) := by
  obtain ⟨hnot, hstored⟩ : x ∉ s.added ∧ s.works x = G.work x := by
    have hcall := h.call x
    rwa [ha] at hcall
  have hnr : ∀ c, s.pc x ≠ .returned c := fun c hc => by rw [hc] at ha; cases ha
  have htotal : s.total + G.work x = ∑ y ∈ insert x s.added, (G.work y : ℤ) := by
    rw [Finset.sum_insert hnot, h.total, add_comm]
  refine ⟨h.cursor, htotal, h.works, fun y hy => ?_, call_update h.call rfl (fun y hyx => ?_) hx,
    fun k hk hsub => ?_⟩
  · rcases Finset.mem_insert.mp hy with rfl | hy
    · exact hstored
    · exact h.stored y hy
  · exact
      { added := Finset.subset_insert _ _
        notAdded := fun hy hc => (Finset.mem_insert.mp hc).elim hyx hy
        works := rfl
        verdict := fun _ => rfl
        lock := fun hl => ⟨hl, rfl⟩ }
  · by_cases hmem : x ∈ G.upTo k
    · -- the last of the crossing's fronts: the total is past the threshold
      rcases hb with hle | hview
      · exact absurd (hk.lt_sum hsub) (not_lt.mpr (htotal ▸ hle))
      · exact .inr ⟨x, hmem, insert x s.added, by rw [goto_self, hview], hsub⟩
    -- the crossing was complete before
    · have hsub' : G.upTo k ⊆ s.added := (Finset.subset_insert_iff_of_notMem hmem).mp hsub
      rcases h.decides k hk hsub' with hans | ⟨y, hy, view, hview, hsubv⟩
      · exact .inl (hans.goto rfl rfl hnr)
      · have hyx : y ≠ x := fun he => hmem (he ▸ hy)
        exact .inr ⟨y, hy, view, by rw [goto_of_ne hyx]; exact hview, hsubv⟩

theorem inv_init : G.Inv init where
  cursor := cursorOk_start
  total := rfl
  works := fun _ => .inr rfl
  stored := fun x hx => absurd hx (Finset.notMem_empty x)
  call := fun x => Finset.notMem_empty x
  decides := fun k hk hsub => by
    have hmem : G.front k ∈ G.upTo k := mem_upTo hk.1 le_rfl
    exact absurd (hsub hmem) (Finset.notMem_empty _)

/-- The cursor steps over the front whose work was loaded. -/
theorem Inv.walk {w : ℤ} (h : G.Inv s) (ha : s.pc x = .stepping view w) :
    G.Inv ({ s with cur := G.step s.cur w }.goto x (.walking view)) := by
  obtain ⟨hview, hl, hw, rfl⟩ : ViewOk s x view ∧ s.lock = some x ∧ s.walks G ∧
      w = G.work (G.front s.cur.cursor) := by
    have hcall := h.call x
    rwa [ha] at hcall
  refine ⟨h.cursor.step hw.2, h.total, h.works, h.stored,
    call_update h.call rfl (fun y hyx => ?_) ⟨hview, hl⟩, fun k hk hsub => ?_⟩
  · exact
      { added := subset_rfl
        notAdded := id
        works := rfl
        verdict := fun hv => absurd hw.1 hv
        lock := fun hy => absurd (Option.some.inj (hy.symm.trans hl)) hyx }
  · rcases h.decides k hk hsub with hans | ⟨y, hy, view', hyview, hsubv⟩
    · exact absurd hw.1 hans.1
    · refine .inr ⟨y, hy, view', ?_, hsubv⟩
      by_cases hyx : y = x
      · subst hyx
        rw [ha] at hyview
        rw [goto_self]
        exact hyview
      · rw [goto_of_ne hyx]
        exact hyview

theorem Inv.store (h : G.Inv s) (ha : s.pc x = .storing) :
    G.Inv ({ s with works := Function.update s.works x (G.work x) }.goto x .adding) := by
  have hnot : x ∉ s.added := by
    have hcall := h.call x
    rwa [ha] at hcall
  have hother : ∀ {y}, y ≠ x → Function.update s.works x (G.work x : ℤ) y = s.works y :=
    fun hyx => Function.update_of_ne hyx ..
  have hnr : ∀ c, s.pc x ≠ .returned c := fun c hc => by rw [hc] at ha; cases ha
  refine ⟨h.cursor, h.total, fun y => ?_, fun y hy => ?_,
    call_update h.call rfl (fun y hyx => ?_) ⟨hnot, Function.update_self ..⟩, fun k hk hsub => ?_⟩
  · by_cases hyx : y = x
    · subst hyx
      exact .inl (Function.update_self ..)
    · exact (h.works y).imp (hother hyx).trans (hother hyx).trans
  · exact (hother fun he => hnot (he ▸ hy)).trans (h.stored y hy)
  · exact
      { added := subset_rfl
        notAdded := id
        works := hother hyx
        verdict := fun _ => rfl
        lock := fun hl => ⟨hl, rfl⟩ }
  · rcases h.decides k hk hsub with hans | ⟨y, hy, view, hview, hsubv⟩
    · exact .inl (hans.goto rfl rfl hnr)
    · have hyx : y ≠ x := fun he => by rw [he, ha] at hview; cases hview
      exact .inr ⟨y, hy, view, by rw [goto_of_ne hyx]; exact hview, hsubv⟩

theorem inv_step (h : G.Inv s) (hs : G.Step s x s') : G.Inv s' := by
  have hcall := h.call x
  cases hs with
  | enter ha hx =>
    rw [ha] at hcall
    exact h.quiet rfl rfl rfl rfl rfl (by rw [ha]; nofun) (fun _ _ => id) hcall
      (by rw [ha]; nofun)
  | enterDecided ha hx hv =>
    rw [ha] at hcall
    exact h.quiet rfl rfl rfl rfl rfl (by rw [ha]; nofun) (fun _ _ => id)
      ⟨of_decide_eq_true, fun _ => ⟨hv, rfl⟩⟩ (by rw [ha]; nofun)
  | store ha => exact h.store ha
  | addBelow ha hat =>
    exact h.add ha ⟨nofun, absurd (Finset.mem_insert_self x s.added)⟩ (.inl hat)
  | addAbove ha hat =>
    exact h.add ha ⟨Finset.mem_insert_self x s.added, subset_rfl⟩ (.inr rfl)
  | lock ha hfree =>
    rw [ha] at hcall
    refine h.quiet rfl rfl rfl rfl rfl (by rw [ha]; nofun) (fun y _ hy => ?_) ⟨hcall, rfl⟩
      fun view hview => .inl (by rw [ha] at hview; exact hview)
    rw [hfree] at hy
    cases hy
  | test ha hgo =>
    rw [ha] at hcall
    exact h.quiet rfl rfl rfl rfl rfl (by rw [ha]; nofun) (fun _ _ => id) ⟨hcall.1, hcall.2, hgo⟩
      fun view hview => .inl (by rw [ha] at hview; exact hview)
  | exit ha hend =>
    rw [ha] at hcall
    refine h.leave hcall.2 (by rw [ha]; rfl) (fun k hk _ hopen => hend ⟨hopen, ?_⟩) hcall.1
    exact (h.cursor.le_of_open hopen hk).trans_lt hk.1
  | @load view v ha hv hpos =>
    rw [ha] at hcall
    obtain ⟨hview, hl, hw⟩ := hcall
    have hval : v = G.work (G.front s.cur.cursor) := by
      rcases hv with rfl | ⟨rfl, -⟩
      · exact (h.works _).resolve_right fun hc => by omega
      · omega
    exact h.quiet rfl rfl rfl rfl rfl (by rw [ha]; nofun) (fun _ _ => id) ⟨hview, hl, hw, hval⟩
      fun view hview => .inl (by rw [ha] at hview; exact hview)
  | @loadNone view v ha hv hneg =>
    rw [ha] at hcall
    obtain ⟨hview, hl, hw⟩ := hcall
    refine h.leave hl (by rw [ha]; rfl) (fun k hk hsub hopen => ?_) hview
    -- the front at the cursor is in the view, so its work is there
    have hmem := hsub (mem_upTo hk.1 (h.cursor.le_of_open hopen hk))
    rcases hv with rfl | ⟨-, hnot⟩
    · rw [h.stored _ (hview.2 hmem)] at hneg
      omega
    · exact hnot hmem
  | step ha => exact h.walk ha

theorem inv_run {tr : List ℕ} (h : (G.system).Run tr s) : G.Inv s :=
  h.invariant (P := fun _ s => G.Inv s) inv_init fun _ hinv hs => inv_step hinv hs

end Steps

/-! ## The decision of a run -/

variable {G} {tr : List ℕ} {s : State}

/-- No report answers stop but by the sequential decision; and once every front up to the
    crossing has reported, the verdict is the sequential decision, and was answered if it
    is to stop. -/
theorem reach_decides (h : (G.system).Run tr s) :
    ((∃ x, s.pc x = .returned true) → G.decision = .stop) ∧
      ∀ k, G.crossing = some k → (∀ x ∈ G.postorder.take (k + 1), ∃ b, s.pc x = .returned b) →
        s.cur.verdict = G.decision ∧ (G.decision = .stop → ∃ x, s.pc x = .returned true) := by
  have hinv := inv_run h
  have hcall : ∀ {x b}, s.pc x = .returned b → (b = true → s.cur.verdict = .stop) ∧
      (x ∉ s.added → s.cur.verdict ≠ .isOpen ∧ b = s.stopped) := fun {x b} hx => by
    have hx' := hinv.call x
    rwa [hx] at hx'
  refine ⟨fun ⟨x, hx⟩ => ?_, fun k hcross hall => ?_⟩
  · have hv := (hcall hx).1 rfl
    rw [← hinv.cursor.eq_decision (hv ▸ nofun), hv]
  · have hk := crosses_of_crossing hcross
    have hret : ∀ x ∈ G.upTo k, ∃ b, s.pc x = .returned b := fun x hx =>
      hall x (List.mem_toFinset.mp hx)
    -- all the crossing's fronts have returned; either they all added, or one did not
    have hans : Answered s := by
      by_cases hsub : G.upTo k ⊆ s.added
      · rcases hinv.decides k hk hsub with hans | ⟨x, hx, view, hview, -⟩
        · exact hans
        · obtain ⟨b, hb⟩ := hret x hx
          rw [hb] at hview
          cases hview
      · -- a front that reported and did not add found the verdict
        obtain ⟨x, hx, hnot⟩ := Finset.not_subset.mp hsub
        obtain ⟨b, hb⟩ := hret x hx
        obtain ⟨hv, hstop⟩ := (hcall hb).2 hnot
        refine ⟨hv, fun hs => ⟨x, ?_⟩⟩
        have htrue : s.stopped = true := decide_eq_true hs
        rw [hb, hstop, htrue]
    have heq := hinv.cursor.eq_decision hans.1
    exact ⟨heq, fun hs => hans.2 (heq.trans hs)⟩

/-- Two fronts of one row and work 5; the sum passes 6 at the second of them. -/
def twoFronts : EarlyGate where
  postorder := [0, 1]
  nodup := by decide
  width := fun _ => 1
  frontSize := fun _ => 1
  width_pos := fun _ => Nat.one_pos
  frontSize_pos := fun _ => Nat.one_pos
  work := fun _ => 5
  at_ := 6
  proj := 1

/-- The second front reports first and is told to go on; the report of the first front
    walks over both and answers stop. -/
theorem reach_decides_twoFronts :
    ∃ (tr : List ℕ) (s : State), (twoFronts.system).Run tr s ∧ s.pc 1 = .returned false ∧
      s.pc 0 = .returned true ∧ twoFronts.decision = .stop ∧ s.cur.verdict = .stop := by
  have hstored : ∀ {s : State} {view : View} {y}, s.Loads view y (s.works y) :=
    fun {_ _ _} => .inl rfl
  -- front 1 adds and goes on; front 0 takes the lock and walks over both
  have run := ((((((((((((((Lts.Run.nil (L := twoFronts.system)).snoc
    (Step.enter (x := 1) rfl (by decide))).snoc
    (Step.store (x := 1) rfl)).snoc
    (Step.addBelow (x := 1) rfl (by decide))).snoc
    (Step.enter (x := 0) rfl (by decide))).snoc
    (Step.store (x := 0) rfl)).snoc
    (Step.addAbove (x := 0) rfl (by decide))).snoc
    (Step.lock (x := 0) rfl rfl)).snoc
    (Step.test (x := 0) rfl (by decide +kernel))).snoc
    (Step.load (x := 0) (v := 5) rfl hstored (by decide))).snoc
    (Step.step (x := 0) rfl)).snoc
    (Step.test (x := 0) rfl (by decide +kernel))).snoc
    (Step.load (x := 0) (v := 5) rfl hstored (by decide))).snoc
    (Step.step (x := 0) rfl)).snoc
    (Step.exit (x := 0) rfl (by decide +kernel))
  have hcross : twoFronts.crossing = some 1 := by decide +kernel
  obtain ⟨hsound, hdecided⟩ := reach_decides run
  refine ⟨_, _, run, rfl, ?_, ?_, ?_⟩
  · decide +kernel
  · exact hsound ⟨0, by decide +kernel⟩
  · refine (hdecided 1 hcross fun x hx => ?_).1.trans (hsound ⟨0, by decide +kernel⟩)
    have hx : x = 0 ∨ x = 1 := List.mem_pair.mp hx
    rcases hx with rfl | rfl
    · exact ⟨true, by decide +kernel⟩
    · exact ⟨false, rfl⟩

end EarlyGate
end Parallel
end SmfSolver
