/-
  SmfSolver.Parallel.FrontLimits

  The two limits a factorization can run under: `max_negative_pivots` and the work limit.
  Each is a count that only grows, and the factorization stops when it has passed its cap.
  A front's work is known before the front runs, so the work limit is also tested there,
  against a count that may be stale.

  `Tally` is what the threads share while they run fronts, and where each of them is
  between the call of `process_front` and the end of the counting.  A step is one atomic
  access of one thread; a relaxed load of the work count may see an older value.

  Which fronts a thread takes, and when, is left open here.  The invariant of the tally
  (`Tally.Inv`) needs only that no front is taken twice: a stop then means that the whole
  run's total passes the cap (`Inv.failed`), and when all fronts went through without a stop
  it does not (`Inv.total_le_cap`).
-/
import SmfSolver.Lib.Run
import SmfSolver.Multifrontal.ProcessFront
import Mathlib.Algebra.Order.BigOperators.Group.List
import Mathlib.Data.List.Nodup
import Mathlib.Data.List.Perm.Subperm
import Mathlib.Tactic.Linarith

namespace SmfSolver
namespace Parallel

open Lib

/-- The two counts with a limit. -/
inductive Limit where
  | negatives
  | work
  deriving DecidableEq

/-- The error an exceeded limit raises. -/
def Limit.error : Limit → Multifrontal.ErrorCode
  | .negatives => .inertiaExceeded
  | .work => .workLimitExceeded

/-- The limits of a factorization, and what every front adds to the counts. -/
structure FrontLimits where
  numElig : ℕ → ℕ
  rows : ℕ → ℕ
  negative : ℕ → ℕ
  /-- Armed from 0 on. -/
  negLimit : ℤ
  workCap : ℤ

namespace FrontLimits

variable (E : FrontLimits)

/-- Eligible columns x rows^2. -/
def work (s : ℕ) : ℕ := E.numElig s * E.rows s * E.rows s

def amount : Limit → ℕ → ℕ
  | .negatives => E.negative
  | .work => E.work

def cap : Limit → ℤ
  | .negatives => E.negLimit
  | .work => E.workCap

/-- What the fronts of a list add together. -/
def total (l : Limit) (fronts : List ℕ) : ℤ := (fronts.map fun s => (E.amount l s : ℤ)).sum

/-- The limit is armed, and the fronts' total passes its cap. -/
def Past (l : Limit) (fronts : List ℕ) : Prop := 0 ≤ E.cap l ∧ E.cap l < E.total l fronts

/-- The one-thread engine's loop over the fronts: the counts of `main.st`. -/
def serialLoop : List ℕ → ℤ → ℤ → Multifrontal.ErrorCode
  | [], _, _ => .success
  | s :: rest, frontWork, negative =>
    -- process_front's test before the kernel
    if 0 ≤ E.workCap ∧ E.workCap < frontWork + E.work s then .workLimitExceeded
    else if 0 ≤ E.negLimit ∧ E.negLimit < negative + E.negative s then .inertiaExceeded
    else if 0 ≤ E.workCap ∧ E.workCap < frontWork + E.work s then .workLimitExceeded
    else serialLoop rest (frontWork + E.work s) (negative + E.negative s)

end FrontLimits

/-! ## The shared counts -/

/-- Where a thread is with a front. -/
inductive Site where
  | idle
  /-- In `process_front`, before the kernel. -/
  | check (s : ℕ)
  /-- `process_front` returned an error, which is not stored yet. -/
  | failing
  /-- Before the `fetch_add` of a count, and after one that passed the limit. -/
  | add (l : Limit) (s : ℕ)
  | raise (l : Limit) (s : ℕ)
  /-- Both counts are done. -/
  | counted (s : ℕ)
  /-- The error is stored: the thread leaves its fronts. -/
  | halted
  deriving DecidableEq

/-- Where a thread goes after a count. -/
def Limit.next (s : ℕ) : Limit → Site
  | .negatives => .add .work s
  | .work => .counted s

/-- `negatives`, `work_done` and `failed`, and where every thread is. -/
structure Tally (threads : ℕ) where
  count : Limit → ℤ
  failed : Multifrontal.ErrorCode
  site : Fin threads → Site

/-- What happens to a front. -/
inductive TallyEvent (threads : ℕ) where
  | began (t : Fin threads) (s : ℕ)
  | added (t : Fin threads) (l : Limit) (s : ℕ)
  /-- The front is through: the loop goes on. -/
  | passed (t : Fin threads) (s : ℕ)
  | moved (t : Fin threads)
  deriving DecidableEq

namespace Tally

variable {threads : ℕ}

def init (threads : ℕ) : Tally threads where
  count := fun _ => 0
  failed := .success
  site := fun _ => .idle

def goto (y : Tally threads) (t : Fin threads) (a : Site) : Tally threads :=
  { y with site := Function.update y.site t a }

@[simp] theorem goto_site_self (y : Tally threads) (t : Fin threads) (a : Site) :
    (y.goto t a).site t = a := Function.update_self ..

theorem goto_site_of_ne (y : Tally threads) {t u : Fin threads} (a : Site) (h : u ≠ t) :
    (y.goto t a).site u = y.site u := Function.update_of_ne h ..

/-- `running()`, or a load of `failed`, may answer `b`: it tells of a stop only when there
    is one. -/
def Polls (y : Tally threads) (b : Bool) : Prop := b = false → y.failed ≠ .success

/-- A relaxed load of the work count may see `done`. -/
def Loads (y : Tally threads) (done : ℤ) : Prop := 0 ≤ done ∧ done ≤ y.count .work

/-- `fetch_add`. -/
def addTo (y : Tally threads) (l : Limit) (added : ℕ) : Tally threads :=
  { y with count := Function.update y.count l (y.count l + added) }

/-- `failed.compare_exchange_strong(ok, error)`. -/
def raise (y : Tally threads) (e : Multifrontal.ErrorCode) : Tally threads :=
  { y with failed := if y.failed = .success then e else y.failed }

/-- One step of a thread inside a front. -/
inductive Front (E : FrontLimits) :
    Tally threads → TallyEvent threads → Tally threads → Prop
  /-- The front would take the count past the limit. -/
  | refuse {y : Tally threads} {t : Fin threads} {s : ℕ} {done : ℤ} (h : y.site t = .check s)
      (harmed : 0 ≤ E.workCap) (hload : y.Loads done) (hlt : E.workCap < done + E.work s) :
      Front E y (.moved t) (y.goto t .failing)
  /-- The front runs. -/
  | run {y : Tally threads} {t : Fin threads} {s : ℕ} {done : ℤ} (h : y.site t = .check s)
      (hload : y.Loads done) (hle : 0 ≤ E.workCap → done + E.work s ≤ E.workCap) :
      Front E y (.moved t) (y.goto t (.add .negatives s))
  | store {y : Tally threads} {t : Fin threads} (h : y.site t = .failing) :
      Front E y (.moved t) ({ y with failed := .workLimitExceeded }.goto t .halted)
  /-- Nothing to add, or the limit is not armed. -/
  | skip {y : Tally threads} {t : Fin threads} {l : Limit} {s : ℕ} (h : y.site t = .add l s)
      (hskip : E.cap l < 0 ∨ E.amount l s = 0) :
      Front E y (.added t l s) (y.goto t (l.next s))
  | add {y : Tally threads} {t : Fin threads} {l : Limit} {s : ℕ} (h : y.site t = .add l s)
      (harmed : 0 ≤ E.cap l) (hpos : 0 < E.amount l s) :
      Front E y (.added t l s) ((y.addTo l (E.amount l s)).goto t
        (if y.count l + E.amount l s ≤ E.cap l then l.next s else .raise l s))
  | raise {y : Tally threads} {t : Fin threads} {l : Limit} {s : ℕ} (h : y.site t = .raise l s) :
      Front E y (.moved t) ((y.raise l.error).goto t (l.next s))

/-- One step of a thread: it takes a front, does a step of it, or leaves it. -/
inductive Step (E : FrontLimits) : Tally threads → TallyEvent threads → Tally threads → Prop
  | begin {y : Tally threads} {t : Fin threads} (s : ℕ) (h : y.site t = .idle) :
      Step E y (.began t s) (y.goto t (.check s))
  | front {y y' : Tally threads} {e : TallyEvent threads} (h : Front E y e y') : Step E y e y'
  | pass {y : Tally threads} {t : Fin threads} {s : ℕ} (h : y.site t = .counted s) :
      Step E y (.passed t s) (y.goto t .idle)
  | leave {y : Tally threads} {t : Fin threads} (h : y.site t = .halted) :
      Step E y (.moved t) (y.goto t .idle)

/-! ## What the counts say -/

/-- The front a thread is at. -/
def front : Site → Option ℕ
  | .check s | .add _ s | .raise _ s | .counted s => some s
  | _ => none

/-- The thread has not counted the front yet. -/
def before (l : Limit) : Site → Bool
  | .check _ => true
  | .add l' _ => l' = l ∨ l' = .negatives
  | .raise l' _ => l' ≠ l ∧ l' = .negatives
  | _ => false

def begunOf : TallyEvent threads → Option ℕ
  | .began _ s => some s
  | _ => none

def addedOf (l : Limit) : TallyEvent threads → Option ℕ
  | .added _ l' s => if l' = l then some s else none
  | _ => none

def passedOf : TallyEvent threads → Option (Fin threads × ℕ)
  | .passed t s => some (t, s)
  | _ => none

/-- The fronts that are through, each with its thread, in order. -/
def through (tr : List (TallyEvent threads)) : List (Fin threads × ℕ) := tr.filterMap passedOf

/-- The fronts taken, and those counted, in order. -/
def begun (tr : List (TallyEvent threads)) : List ℕ := tr.filterMap begunOf

def added (l : Limit) (tr : List (TallyEvent threads)) : List ℕ := tr.filterMap (addedOf l)

/-- The invariant, with the fronts `all` and no limit armed but `l`. -/
structure Inv (E : FrontLimits) (all : List ℕ) (l : Limit) (tr : List (TallyEvent threads))
    (y : Tally threads) : Prop where
  mem_all : ∀ s ∈ begun tr, s ∈ all
  mem_begun : ∀ s ∈ added l tr, s ∈ begun tr
  added_nodup : (added l tr).Nodup
  count : 0 ≤ E.cap l → y.count l = E.total l (added l tr)
  /-- A front that a thread is at was taken, and by no other thread. -/
  front_begun : ∀ t s, front (y.site t) = some s → s ∈ begun tr
  unique : ∀ t u s, front (y.site t) = some s → front (y.site u) = some s → t = u
  added_iff : ∀ t s, front (y.site t) = some s → (s ∈ added l tr ↔ before l (y.site t) = false)
  through_nodup : ((through tr).map Prod.snd).Nodup
  through_front : ∀ t s, front (y.site t) = some s → s ∉ (through tr).map Prod.snd
  through_added : ∀ s ∈ (through tr).map Prod.snd, s ∈ added l tr
  /-- Who stops the run, or is about to, knows that the total passes the cap. -/
  failed : y.failed ≠ .success → y.failed = l.error ∧ E.Past l all
  failing : ∀ t, y.site t = .failing → l = .work ∧ E.Past l all
  raising : ∀ t l' s, y.site t = .raise l' s → l' = l ∧ E.Past l all
  halted : ∀ t, y.site t = .halted → y.failed ≠ .success
  /-- A count past the cap is seen by the thread that took it there. -/
  passes : 0 ≤ E.cap l → E.cap l < y.count l → y.failed ≠ .success ∨ ∃ t s, y.site t = .raise l s

section Steps

variable {E : FrontLimits} {all : List ℕ} {l : Limit} {tr : List (TallyEvent threads)}
  {y y' : Tally threads} {e : TallyEvent threads} {t : Fin threads} {a b : Site} {s : ℕ}

theorem total_snoc (fronts : List ℕ) :
    E.total l (fronts ++ [s]) = E.total l fronts + E.amount l s := by
  rw [FrontLimits.total, List.map_append, List.sum_append, List.map_singleton, List.sum_singleton]
  rfl

/-- Fronts taken once each add up to the total at most. -/
theorem total_le {fronts : List ℕ} (h : fronts.Nodup) (hsub : fronts ⊆ all) :
    E.total l fronts ≤ E.total l all := by
  obtain ⟨fronts', hperm, hsublist⟩ := h.subperm hsub
  have hsum : E.total l fronts' = E.total l fronts := (hperm.map _).sum_eq
  rw [← hsum]
  refine (hsublist.map _).sum_le_sum fun x hx => ?_
  obtain ⟨s, -, rfl⟩ := List.mem_map.mp hx
  exact Int.natCast_nonneg _

/-- All fronts, taken once each, add up to the total. -/
theorem total_eq {fronts : List ℕ} (h : fronts.Nodup) (hsub : fronts ⊆ all) (hall : all.Nodup)
    (hsup : all ⊆ fronts) : E.total l fronts = E.total l all :=
  le_antisymm (total_le h hsub) (total_le hall hsup)

@[simp] theorem begun_snoc : begun (tr ++ [e]) = begun tr ++ (begunOf e).toList := by
  rw [begun, List.filterMap_append]
  cases e <;> rfl

theorem through_snoc : through (tr ++ [e]) = through tr ++ (passedOf e).toList := by
  rw [through, List.filterMap_append]
  cases e <;> rfl

theorem mem_through {x : Fin threads × ℕ} : x ∈ through tr ↔ TallyEvent.passed x.1 x.2 ∈ tr := by
  rw [through, List.mem_filterMap]
  constructor
  · rintro ⟨e, he, hx⟩
    cases e with
    | passed t s =>
      cases hx
      exact he
    | began => cases hx
    | added => cases hx
    | moved => cases hx
  · exact fun h => ⟨_, h, rfl⟩

theorem mem_through_snd : s ∈ (through tr).map Prod.snd ↔ ∃ t, TallyEvent.passed t s ∈ tr := by
  rw [List.mem_map]
  constructor
  · rintro ⟨x, hx, rfl⟩
    exact ⟨x.1, mem_through.mp hx⟩
  · rintro ⟨t, ht⟩
    exact ⟨(t, s), mem_through.mpr ht, rfl⟩

@[simp] theorem added_snoc : added l (tr ++ [e]) = added l tr ++ (addedOf l e).toList := by
  rw [added, List.filterMap_append, List.filterMap_cons]
  cases addedOf l e <;> rfl

/-- What is at a site after thread `t` went to `b`. -/
theorem site_update {u : Fin threads} (hsite : y'.site = Function.update y.site t b)
    {p : Site → Prop} (h : p (y'.site u)) : u = t ∧ p b ∨ u ≠ t ∧ p (y.site u) := by
  rw [hsite] at h
  by_cases hu : u = t
  · subst hu
    rw [Function.update_self] at h
    exact .inl ⟨rfl, h⟩
  · rw [Function.update_of_ne hu] at h
    exact .inr ⟨hu, h⟩

/-- What a site `b` a thread may go to says of the run. -/
structure SiteOk (E : FrontLimits) (all : List ℕ) (l : Limit) (failed : Multifrontal.ErrorCode)
    (b : Site) :
    Prop where
  failing : b = .failing → l = .work ∧ E.Past l all
  raising : ∀ l' s, b = .raise l' s → l' = l ∧ E.Past l all
  halted : b = .halted → failed ≠ .success

theorem siteOk_next {failed : Multifrontal.ErrorCode} (l' : Limit) :
    SiteOk E all l failed (l'.next s) where
  failing h := by cases l' <;> cases h
  raising _ _ h := by cases l' <;> cases h
  halted h := by cases l' <;> cases h

/-- The part of the invariant about stops, for a thread that goes to `b`. -/
theorem Inv.sites (h : Inv E all l tr y) (hsite : y'.site = Function.update y.site t b)
    (hfailed : y.failed ≠ .success → y'.failed ≠ .success) (hb : SiteOk E all l y'.failed b)
    (u : Fin threads) : SiteOk E all l y'.failed (y'.site u) := by
  rw [hsite]
  by_cases hu : u = t
  · subst hu
    rwa [Function.update_self]
  · rw [Function.update_of_ne hu]
    exact ⟨h.failing u, h.raising u, fun hc => hfailed (h.halted u hc)⟩

/-- A thread goes on to `b` with its front, or leaves it, and counts nothing of `l`. -/
theorem Inv.keep (h : Inv E all l tr y) (hsite : y'.site = Function.update y.site t b)
    (hcount : y'.count l = y.count l) (hbegun : begunOf e = none) (hadded : addedOf l e = none)
    (hfront : ∀ s, front b = some s →
      front (y.site t) = some s ∧ before l b = before l (y.site t))
    (hpassed : ∀ u s, e = .passed u s → y.site t = .counted s ∧ b = .idle)
    (hmono : y.failed ≠ .success → y'.failed ≠ .success)
    (hfailed : y'.failed ≠ .success → y'.failed = l.error ∧ E.Past l all)
    (hb : SiteOk E all l y'.failed b)
    (hraise : ∀ s, y.site t = .raise l s → y'.failed ≠ .success) : Inv E all l (tr ++ [e]) y' := by
  have hbegun' : begun (tr ++ [e]) = begun tr := by
    rw [begun_snoc, hbegun, Option.toList_none, List.append_nil]
  have hadded' : added l (tr ++ [e]) = added l tr := by
    rw [added_snoc, hadded, Option.toList_none, List.append_nil]
  have hold : ∀ u s, front (y'.site u) = some s → front (y.site u) = some s := by
    intro u s hu
    rcases site_update (p := fun a => front a = some s) hsite hu with ⟨rfl, hb'⟩ | ⟨-, hu'⟩
    · exact (hfront s hb').1
    · exact hu'
  have hsites := h.sites hsite hmono hb
  -- the front that is through now, if any, was the thread's
  have hnow : ∀ x, x ∈ (through (tr ++ [e])).map Prod.snd → x ∈ (through tr).map Prod.snd ∨
      y.site t = .counted x ∧ b = .idle := by
    intro x hx
    obtain ⟨u, hu⟩ := mem_through_snd.mp hx
    rcases List.mem_append.mp hu with hu | hu
    · exact .inl (mem_through_snd.mpr ⟨u, hu⟩)
    · exact .inr (hpassed u x (List.mem_singleton.mp hu).symm)
  refine ⟨?_, ?_, ?_, ?_, ?_, fun u v s hu hv => h.unique u v s (hold u s hu) (hold v s hv), ?_, ?_,
    ?_, ?_, hfailed, fun u => (hsites u).failing, fun u => (hsites u).raising,
    fun u => (hsites u).halted, ?_⟩
  · rw [hbegun']
    exact h.mem_all
  · rw [hbegun', hadded']
    exact h.mem_begun
  · rw [hadded']
    exact h.added_nodup
  · rw [hadded', hcount]
    exact h.count
  · intro u s hu
    rw [hbegun']
    exact h.front_begun u s (hold u s hu)
  · intro u s hu
    rw [hadded', h.added_iff u s (hold u s hu), hsite]
    by_cases hut : u = t
    · subst hut
      rw [hsite, Function.update_self] at hu
      rw [Function.update_self, (hfront s hu).2]
    · rw [Function.update_of_ne hut]
  · rw [through_snoc, List.map_append]
    cases hp : passedOf e with
    | none => exact (List.append_nil _).symm ▸ h.through_nodup
    | some z =>
      have hz : e = .passed z.1 z.2 := by cases e <;> cases hp; rfl
      have hfresh : z.2 ∉ (through tr).map Prod.snd :=
        h.through_front t z.2 (by rw [(hpassed _ _ hz).1]; rfl)
      exact List.nodup_append.mpr ⟨h.through_nodup, List.nodup_singleton _,
        fun x hx w hw => (List.mem_singleton.mp hw).symm ▸ fun hc => hfresh (hc ▸ hx)⟩
  · intro u x hu hx
    rcases hnow x hx with hx | ⟨hcounted, hidle⟩
    · exact h.through_front u x (hold u x hu) hx
    · obtain rfl := h.unique u t x (hold u x hu) (by rw [hcounted]; rfl)
      rw [hsite, Function.update_self, hidle] at hu
      cases hu
  · intro x hx
    rw [hadded']
    rcases hnow x hx with hx | ⟨hcounted, -⟩
    · exact h.through_added x hx
    · exact (h.added_iff t x (by rw [hcounted]; rfl)).mpr (by rw [hcounted]; rfl)
  · intro harmed hlt
    rw [hcount] at hlt
    rcases h.passes harmed hlt with hf | ⟨u, s, hu⟩
    · exact .inl (hmono hf)
    · by_cases hut : u = t
      · exact .inl (hraise s (hut ▸ hu))
      · refine .inr ⟨u, s, ?_⟩
        rw [hsite, Function.update_of_ne hut, hu]

/-- A thread counts its front. -/
theorem Inv.count_front (h : Inv E all l tr y) (ht : y.site t = .add l s)
    (hsite : y'.site = Function.update y.site t b)
    (hcount : 0 ≤ E.cap l → y'.count l = y.count l + E.amount l s) (hf : y'.failed = y.failed)
    (hfront : front b = some s) (hbefore : before l b = false)
    (hb : SiteOk E all l y'.failed b)
    (hpast : 0 ≤ E.cap l → E.cap l < y'.count l → E.cap l < y.count l ∨ ∃ s, b = .raise l s) :
    Inv E all l (tr ++ [.added t l s]) y' := by
  have hts : front (y.site t) = some s := by rw [ht]; rfl
  -- the thread is still before the count of `l`, so its front is not in it
  have hnew : s ∉ added l tr := by
    rw [h.added_iff t s hts, ht]
    cases l <;> exact Bool.noConfusion
  have hbegun' : begun (tr ++ [.added t l s]) = begun tr := by
    rw [begun_snoc]
    exact List.append_nil _
  have hadded' : added l (tr ++ [.added t l s]) = added l tr ++ [s] := by
    rw [added_snoc, addedOf, if_pos rfl]
    rfl
  have hold : ∀ u x, front (y'.site u) = some x → front (y.site u) = some x := by
    intro u x hu
    rcases site_update (p := fun a => front a = some x) hsite hu with ⟨rfl, hb'⟩ | ⟨-, hu'⟩
    · rw [hts, ← hfront, hb']
    · exact hu'
  have hsites := h.sites hsite (fun hc => by rwa [hf]) hb
  have hthrough : through (tr ++ [.added t l s]) = through tr := by
    rw [through_snoc]
    exact List.append_nil _
  refine ⟨?_, ?_, ?_, ?_, ?_, fun u v s hu hv => h.unique u v s (hold u s hu) (hold v s hv), ?_, ?_,
    ?_, ?_, by rw [hf]; exact h.failed, fun u => (hsites u).failing, fun u => (hsites u).raising,
    fun u => (hsites u).halted, ?_⟩
  · rw [hbegun']
    exact h.mem_all
  · intro x hx
    rw [hbegun']
    rw [hadded'] at hx
    rcases List.mem_append.mp hx with hx | hx
    · exact h.mem_begun x hx
    · rw [List.mem_singleton.mp hx]
      exact h.front_begun t s hts
  · rw [hadded']
    exact List.nodup_append.mpr ⟨h.added_nodup, List.nodup_singleton s,
      fun x hx z hz => (List.mem_singleton.mp hz).symm ▸ fun hc => hnew (hc ▸ hx)⟩
  · intro harmed
    rw [hadded', total_snoc, hcount harmed, h.count harmed]
  · intro u x hu
    rw [hbegun']
    exact h.front_begun u x (hold u x hu)
  · intro u x hu
    rw [hadded', List.mem_append, List.mem_singleton, h.added_iff u x (hold u x hu)]
    by_cases hut : u = t
    · subst hut
      obtain rfl : s = x := Option.some.inj (hts.symm.trans (hold u x hu))
      rw [hsite, Function.update_self]
      exact iff_of_true (.inr rfl) hbefore
    · rw [hsite, Function.update_of_ne hut]
      refine or_iff_left fun hc => hut (h.unique u t s ?_ hts)
      rw [← hc]
      exact hold u x hu
  · rw [hthrough]
    exact h.through_nodup
  · intro u x hu
    rw [hthrough]
    exact h.through_front u x (hold u x hu)
  · intro x hx
    rw [hadded']
    exact List.mem_append_left _ (h.through_added x (hthrough ▸ hx))
  -- past the limit: the thread that took the count there raises, or one did before
  · intro harmed hlt
    have hraising : y'.failed ≠ .success ∨ ∃ u x, y.site u = .raise l x ∨ u = t ∧
        b = .raise l x := by
      rcases hpast harmed hlt with hlt | ⟨x, hx⟩
      · rcases h.passes harmed hlt with hc | ⟨u, x, hu⟩
        · exact .inl (by rwa [hf])
        · exact .inr ⟨u, x, .inl hu⟩
      · exact .inr ⟨t, x, .inr ⟨rfl, hx⟩⟩
    rcases hraising with hc | ⟨u, x, hu | ⟨rfl, hx⟩⟩
    · exact .inl hc
    · refine .inr ⟨u, x, ?_⟩
      have hut : u ≠ t := fun hc => by rw [← hc, hu] at ht; cases ht
      rw [hsite, Function.update_of_ne hut, hu]
    · exact .inr ⟨u, x, by rw [hsite, Function.update_self, hx]⟩

/-- A thread takes a front that nobody took. -/
theorem Inv.begin (h : Inv E all l tr y) (ht : y.site t = .idle) (hs : s ∈ all)
    (hnew : s ∉ begun tr) : Inv E all l (tr ++ [.began t s]) (y.goto t (.check s)) := by
  have hbegun' : begun (tr ++ [.began t s]) = begun tr ++ [s] := begun_snoc
  have hadded' : added l (tr ++ [.began t s]) = added l tr := by
    rw [added_snoc]
    exact List.append_nil _
  have hnot : ∀ u, front (y.site u) ≠ some s := fun u hu => hnew (h.front_begun u s hu)
  -- the fronts in work are those from before and `s`
  have hold : ∀ u x, front ((y.goto t (.check s)).site u) = some x →
      u = t ∧ x = s ∨ u ≠ t ∧ front (y.site u) = some x := by
    intro u x hu
    exact (site_update (p := fun a => front a = some x) rfl hu).imp_left
      (And.imp_right fun hc => (Option.some.inj hc).symm)
  have hsite : (y.goto t (.check s)).site = Function.update y.site t (.check s) := rfl
  have hsites := h.sites hsite id ⟨nofun, nofun, nofun⟩
  have hthrough : through (tr ++ [.began t s]) = through tr := by
    rw [through_snoc]
    exact List.append_nil _
  refine ⟨?_, ?_, ?_, ?_, ?_, ?_, ?_, ?_, ?_, ?_, h.failed, fun u => (hsites u).failing,
    fun u => (hsites u).raising, fun u => (hsites u).halted, ?_⟩
  · intro x hx
    rw [hbegun'] at hx
    rcases List.mem_append.mp hx with hx | hx
    · exact h.mem_all x hx
    · rwa [List.mem_singleton.mp hx]
  · intro x hx
    rw [hbegun']
    exact List.mem_append_left _ (h.mem_begun x (hadded' ▸ hx))
  · rw [hadded']
    exact h.added_nodup
  · rw [hadded']
    exact h.count
  · intro u x hu
    rw [hbegun']
    rcases hold u x hu with ⟨-, rfl⟩ | ⟨-, hu⟩
    · exact List.mem_append_right _ (List.mem_singleton_self _)
    · exact List.mem_append_left _ (h.front_begun u x hu)
  · intro u v x hu hv
    rcases hold u x hu with ⟨hut, hx⟩ | ⟨-, hu'⟩ <;> rcases hold v x hv with ⟨hvt, hx'⟩ | ⟨-, hv'⟩
    · exact hut.trans hvt.symm
    · exact absurd (hx ▸ hv') (hnot v)
    · exact absurd (hx' ▸ hu') (hnot u)
    · exact h.unique u v x hu' hv'
  · intro u x hu
    rw [hadded']
    by_cases hut : u = t
    · subst hut
      obtain rfl : s = x := by
        rw [goto_site_self] at hu
        exact Option.some.inj hu
      rw [goto_site_self]
      exact iff_of_false (fun hc => hnew (h.mem_begun s hc)) Bool.noConfusion
    · rw [goto_site_of_ne _ _ hut] at hu ⊢
      exact h.added_iff u x hu
  · rw [hthrough]
    exact h.through_nodup
  · intro u x hu
    rw [hthrough]
    rcases hold u x hu with ⟨-, rfl⟩ | ⟨-, hu⟩
    · exact fun hc => hnew (h.mem_begun x (h.through_added x hc))
    · exact h.through_front u x hu
  · rw [hthrough, hadded']
    exact h.through_added
  · intro harmed hlt
    refine (h.passes harmed hlt).imp_right ?_
    rintro ⟨u, x, hu⟩
    have hut : u ≠ t := fun hc => by rw [← hc, hu] at ht; cases ht
    exact ⟨u, x, by rw [goto_site_of_ne _ _ hut, hu]⟩

/-- What a step of a front does besides counting. -/
structure Moves (y : Tally threads) (e : TallyEvent threads) (y' : Tally threads) (t : Fin threads)
    (b : Site) : Prop where
  site : y'.site = Function.update y.site t b
  idle : y.site t ≠ .idle
  idle' : b ≠ .idle
  front : ∀ x, Tally.front b = some x → Tally.front (y.site t) = some x
  begun : begunOf e = none
  passed : ∀ u x, e ≠ .passed u x
  /-- A stop stays. -/
  failed : y.failed ≠ .success → y'.failed ≠ .success
  stop : y'.failed ≠ y.failed → y'.failed ≠ .success

theorem Front.moves (h : Front E y e y') : ∃ t b, Moves y e y' t b := by
  have hne : ∀ {t a}, y.site t = a → a ≠ .idle → y.site t ≠ .idle := fun ht ha => by rwa [ht]
  have hfront : ∀ {t a b}, y.site t = a → (∀ x, front b = some x → front a = some x) →
      ∀ x, front b = some x → front (y.site t) = some x := fun ht hb x hx => by
    rw [ht]
    exact hb x hx
  have hnext : ∀ {l : Limit} {s : ℕ}, l.next s ≠ .idle ∧ front (l.next s) = some s := by
    intro l s
    cases l <;> exact ⟨nofun, rfl⟩
  cases h with
  | @refuse t _ _ ht => exact ⟨t, _, rfl, hne ht nofun, nofun, hfront ht nofun, rfl, nofun, id,
      fun hc => absurd rfl hc⟩
  | @run t _ _ ht => exact ⟨t, _, rfl, hne ht nofun, nofun, hfront ht fun _ => id, rfl, nofun, id,
      fun hc => absurd rfl hc⟩
  | @store t ht => exact ⟨t, _, rfl, hne ht nofun, nofun, hfront ht nofun, rfl, nofun,
      fun _ => nofun, fun _ => nofun⟩
  | @skip t l s ht => exact ⟨t, _, rfl, hne ht nofun, hnext.1, hfront ht fun x hx =>
    hnext.2.symm.trans hx,
      rfl, nofun, id, fun hc => absurd rfl hc⟩
  -- within the limit on to the next count, past it on to the raise
  | @add t l s ht =>
    refine ⟨t, _, rfl, hne ht nofun, ?_, hfront ht fun x hx => ?_, rfl, nofun, id,
      fun hc => absurd rfl hc⟩
    · split_ifs
      · exact hnext.1
      · nofun
    · split_ifs at hx
      · exact hnext.2.symm.trans hx
      · exact hx
  | @raise t l s ht =>
    refine ⟨t, _, rfl, hne ht nofun, hnext.1, hfront ht fun x hx =>
      hnext.2.symm.trans hx, rfl, nofun,
      fun hc => ?_, fun hc => ?_⟩
    · have hkeep : (y.raise l.error).failed = y.failed := if_neg hc
      exact fun he => hc (hkeep.symm.trans he)
    -- the status changes only if there was none
    · by_cases hok : y.failed = .success
      · have hnew : (y.raise l.error).failed = l.error := if_pos hok
        exact fun he => by cases l <;> cases hnew.symm.trans he
      · exact absurd (if_neg hok) hc

/-- A front that a thread has not counted is not in the count. -/
theorem Inv.count_add_le (h : Inv E all l tr y) (harmed : 0 ≤ E.cap l)
    (ht : front (y.site t) = some s)
    (hb : before l (y.site t) = true) : y.count l + E.amount l s ≤ E.total l all := by
  have hnew : s ∉ added l tr := by
    rw [h.added_iff t s ht, hb]
    exact Bool.noConfusion
  have hnodup : (added l tr ++ [s]).Nodup :=
    List.nodup_append.mpr ⟨h.added_nodup, List.nodup_singleton s,
      fun x hx z hz => (List.mem_singleton.mp hz).symm ▸ fun hc => hnew (hc ▸ hx)⟩
  rw [h.count harmed, ← total_snoc]
  refine total_le hnodup fun x hx => h.mem_all x ?_
  rcases List.mem_append.mp hx with hx | hx
  · exact h.mem_begun x hx
  · exact List.mem_singleton.mp hx ▸ h.front_begun t s ht

/-- What one step of a front keeps, when no limit is armed but `l`. -/
theorem Inv.front_step (h : Inv E all l tr y)
    (honly : ∀ l', l' ≠ l → E.cap l' < 0) (hs : Front E y e y') : Inv E all l (tr ++ [e]) y' := by
  have hl : ∀ {l'}, 0 ≤ E.cap l' → l' = l := fun {l'} hc => by
    by_contra hne
    exact absurd (honly l' hne) (not_lt.mpr hc)
  cases hs with
  -- what is counted is at most the sum over the fronts, so the sum passes the limit too
  | @refuse t s done ht hcap hload hlt =>
    obtain rfl : Limit.work = l := hl hcap
    have hle := h.count_add_le hcap (by rw [ht]; rfl) (by rw [ht]; rfl)
    have hpast : E.Past .work all := ⟨hcap, hlt.trans_le ((add_le_add_left hload.2 _).trans hle)⟩
    refine h.keep rfl rfl rfl rfl nofun nofun id h.failed ⟨fun _ => ⟨rfl, hpast⟩, nofun, nofun⟩ ?_
    intro x hx
    rw [ht] at hx
    cases hx
  | @run t s done ht hload hle =>
    refine h.keep rfl rfl rfl rfl (fun x hx => ?_) nofun id h.failed ⟨nofun, nofun, nofun⟩ ?_
    · rw [ht]
      exact ⟨hx, by cases l <;> rfl⟩
    · intro x hx
      rw [ht] at hx
      cases hx
  | @store t ht =>
    obtain ⟨rfl, hpast⟩ := h.failing t ht
    exact h.keep rfl rfl rfl rfl nofun nofun (fun _ => nofun) (fun _ => ⟨rfl, hpast⟩)
      ⟨nofun, nofun, fun _ => nofun⟩ fun _ _ => nofun
  -- for `l` itself a skipped front counts nothing
  | @skip t l' s ht hskip =>
    by_cases hll : l' = l
    · subst hll
      refine h.count_front ht rfl (fun harmed => ?_) rfl ?_ ?_ (siteOk_next l') fun _ => .inl
      · rw [hskip.resolve_left (not_lt.mpr harmed)]
        exact (Int.add_zero _).symm
      · cases l' <;> rfl
      · cases l' <;> rfl
    · refine h.keep rfl rfl rfl ?_ (fun x hx => ?_) nofun id h.failed (siteOk_next l') ?_
      · rw [addedOf, if_neg hll]
      · rw [ht]
        cases l' <;> cases l <;> first | exact ⟨hx, rfl⟩ | exact absurd rfl hll
      · intro x hx
        rw [ht] at hx
        cases hx
  -- an armed count is the count of `l`; past the limit the thread goes on to raise
  | @add t l' s ht hcap hpos =>
    obtain rfl := hl hcap
    have hcount : ((y.addTo l' (E.amount l' s)).goto t
        (if y.count l' + E.amount l' s ≤ E.cap l' then l'.next s else .raise l' s)).count l' =
        y.count l' + E.amount l' s := Function.update_self ..
    have hle := h.count_add_le (s := s) hcap (by rw [ht]; rfl) (by rw [ht]; cases l' <;> rfl)
    refine h.count_front ht rfl (fun _ => hcount) rfl ?_ ?_ ?_ ?_
    · split_ifs
      · cases l' <;> rfl
      · rfl
    · split_ifs
      · cases l' <;> rfl
      · cases l' <;> rfl
    · split_ifs with hin
      · exact siteOk_next l'
      · refine ⟨nofun, fun l'' x hx => ?_, nofun⟩
        cases hx
        exact ⟨rfl, hcap, (not_le.mp hin).trans_le hle⟩
    · intro _ hlt
      rw [hcount] at hlt
      exact .inr ⟨s, by rw [if_neg (not_le.mpr hlt)]⟩
  -- the first to raise sets the status, the next find it set
  | @raise t l' s ht =>
    obtain ⟨rfl, hpast⟩ := h.raising t l' s ht
    have hraised : (y.raise l'.error).failed ≠ .success ∧ (y.failed ≠ .success →
        (y.raise l'.error).failed = l'.error) := by
      unfold raise
      split_ifs with hc
      · exact ⟨by cases l' <;> nofun, fun _ => rfl⟩
      · exact ⟨hc, fun _ => (h.failed hc).1⟩
    refine h.keep rfl rfl rfl rfl (fun x hx => ?_) nofun (fun _ => hraised.1) (fun _ => ?_)
      (siteOk_next l') fun _ _ => hraised.1
    · rw [ht]
      cases l' <;> exact ⟨hx, rfl⟩
    · refine ⟨?_, hpast⟩
      by_cases hc : y.failed = .success
      · exact if_pos hc
      · exact hraised.2 hc

/-- What one step keeps.  A front is taken only if nobody took it. -/
theorem Inv.step (h : Inv E all l tr y)
    (honly : ∀ l', l' ≠ l → E.cap l' < 0) (hs : Step E y e y')
    (hnew : ∀ t s, e = .began t s → s ∈ all ∧ s ∉ begun tr) : Inv E all l (tr ++ [e]) y' := by
  cases hs with
  | begin s ht => exact h.begin ht (hnew _ s rfl).1 (hnew _ s rfl).2
  | front hf => exact h.front_step honly hf
  | @pass t s ht =>
    refine h.keep rfl rfl rfl rfl nofun (fun u x hu => ?_) id h.failed ⟨nofun, nofun, nofun⟩ ?_
    · cases hu
      exact ⟨ht, rfl⟩
    · intro x hx
      rw [ht] at hx
      cases hx
  | @leave t ht =>
    refine h.keep rfl rfl rfl rfl nofun nofun id h.failed ⟨nofun, nofun, nofun⟩ ?_
    intro x hx
    rw [ht] at hx
    cases hx

/-- Without a stop, and when no thread is at a front, the count is within the cap; when all
    fronts are through, it is the total. -/
theorem Inv.total_le_cap (h : Inv E all l tr y) (harmed : 0 ≤ E.cap l) (hall : all.Nodup)
    (hf : y.failed = .success)
    (hidle : ∀ t, y.site t = .idle) (hpassed : ∀ s ∈ all, ∃ t, TallyEvent.passed t s ∈ tr) :
    E.total l all ≤ E.cap l := by
  have htotal : E.total l (added l tr) = E.total l all := by
    refine total_eq h.added_nodup (fun s hs => h.mem_all s (h.mem_begun s hs)) hall fun s hs => ?_
    exact h.through_added s (mem_through_snd.mpr (hpassed s hs))
  rw [← htotal, ← h.count harmed]
  by_contra hlt
  rcases h.passes harmed (not_le.mp hlt) with hc | ⟨t, s, ht⟩
  · exact hc hf
  · rw [hidle t] at ht
    cases ht

theorem inv_init : Inv E all l [] (init threads) where
  mem_all := nofun
  mem_begun := nofun
  added_nodup := List.nodup_nil
  count := fun _ => rfl
  front_begun := nofun
  unique := nofun
  added_iff := nofun
  through_nodup := List.nodup_nil
  through_front := nofun
  through_added := nofun
  failed h := absurd rfl h
  failing := nofun
  raising := nofun
  halted := nofun
  passes harmed h := absurd h (not_lt.mpr harmed)

end Steps

end Tally
end Parallel
end SmfSolver
