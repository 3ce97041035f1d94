/-
  SmfSolver.Lib.Trace

  Properties of what comes before and after the events of a list that grows at its end.

  `AtEach H x R`: at each `x` of `H`, the part before it has `R`.  `SinceEach H x Q`: the
  part after each `x` of `H` has `Q`.  For each, the rule for one more event
  (`atEach_snoc`, `sinceEach_snoc`) says what is left to show.
-/
import Mathlib.Data.List.Induction

namespace SmfSolver
namespace Lib

universe u

variable {ε : Type u} {H pre post : List ε} {x e : ε} {R Q : List ε → Prop}

/-- A split of a list with one more element at its end. -/
theorem append_singleton_eq_append_cons :
    H ++ [e] = pre ++ x :: post ↔
      (∃ post', post = post' ++ [e] ∧ H = pre ++ x :: post') ∨ post = [] ∧ pre = H ∧ x = e := by
  constructor
  · intro h
    induction post using List.reverseRecOn with
    | nil =>
      obtain ⟨hH, he⟩ := List.append_inj' h rfl
      exact .inr ⟨rfl, hH.symm, (List.singleton_inj.mp he).symm⟩
    | append_singleton post a _ =>
      rw [← List.cons_append, ← List.append_assoc] at h
      obtain ⟨hH, he⟩ := List.append_inj' h rfl
      obtain rfl := List.singleton_inj.mp he
      exact .inl ⟨post, rfl, hH⟩
  · rintro (⟨post', rfl, rfl⟩ | ⟨rfl, rfl, rfl⟩)
    · rw [List.append_assoc, List.cons_append]
    · rfl

/-- At each `x`, the part before it has `R`. -/
def AtEach (H : List ε) (x : ε) (R : List ε → Prop) : Prop :=
  ∀ pre post, H = pre ++ x :: post → R pre

/-- The part after each `x` has `Q`. -/
def SinceEach (H : List ε) (x : ε) (Q : List ε → Prop) : Prop :=
  ∀ pre post, H = pre ++ x :: post → Q post

theorem atEach_nil : AtEach [] x R := fun pre post h => by cases pre <;> cases h

theorem sinceEach_nil : SinceEach [] x Q := fun pre post h => by cases pre <;> cases h

theorem atEach_snoc : AtEach (H ++ [e]) x R ↔ AtEach H x R ∧ (x = e → R H) := by
  constructor
  · intro h
    refine ⟨fun pre post hH => h pre (post ++ [e]) ?_, fun he => h H [] (by rw [he])⟩
    rw [hH, List.append_assoc, List.cons_append]
  · rintro ⟨hH, he⟩ pre post h
    rcases append_singleton_eq_append_cons.mp h with ⟨post', -, h'⟩ | ⟨-, rfl, hx⟩
    · exact hH pre post' h'
    · exact he hx

theorem sinceEach_snoc :
    SinceEach (H ++ [e]) x Q ↔ SinceEach H x (fun post => Q (post ++ [e])) ∧ (x = e → Q []) := by
  constructor
  · intro h
    refine ⟨fun pre post hH => h pre (post ++ [e]) ?_, fun he => h H [] (by rw [he])⟩
    rw [hH, List.append_assoc, List.cons_append]
  · rintro ⟨hH, he⟩ pre post h
    rcases append_singleton_eq_append_cons.mp h with ⟨post', rfl, h'⟩ | ⟨rfl, -, hx⟩
    · exact hH pre post' h'
    · exact he hx

/-- The rule for an event that is no `x`. -/
theorem AtEach.snoc (h : AtEach H x R) (he : x ≠ e) : AtEach (H ++ [e]) x R :=
  atEach_snoc.mpr ⟨h, fun hc => absurd hc he⟩

theorem SinceEach.mono {Q' : List ε → Prop} (h : SinceEach H x Q) (hQ : ∀ post, Q post → Q' post) :
    SinceEach H x Q' := fun pre post hH => hQ post (h pre post hH)

/-! ## Two components

The runs of a system put together from two, of which one or both take part in a step. -/

universe v

variable {α : Type u} {β : Type v} {tr : List (Option α × Option β)} {a : Option α}
  {b : Option β}

/-- What the first component, and the second, did in a run. -/
def left (tr : List (Option α × Option β)) : List α := tr.filterMap Prod.fst

def right (tr : List (Option α × Option β)) : List β := tr.filterMap Prod.snd

@[simp] theorem left_nil : left ([] : List (Option α × Option β)) = [] := rfl

@[simp] theorem right_nil : right ([] : List (Option α × Option β)) = [] := rfl

@[simp] theorem left_snoc : left (tr ++ [(a, b)]) = left tr ++ a.toList := by
  rw [left, List.filterMap_append]
  cases a <;> rfl

@[simp] theorem right_snoc : right (tr ++ [(a, b)]) = right tr ++ b.toList := by
  rw [right, List.filterMap_append]
  cases b <;> rfl

end Lib
end SmfSolver
