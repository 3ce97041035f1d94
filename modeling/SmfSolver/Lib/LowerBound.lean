/-
  SmfSolver.Lib.LowerBound

  Binary search in a sorted list (`std::lower_bound` and `std::binary_search`), and the
  insertion of a new element where the search ends.

  * `lowerBound_spec`: the search parts a sorted list at the value.
  * `binarySearch_iff`: it finds exactly the members.
  * `mem_insertNew`, `insertNew_sorted`: a sorted list without repetition stays one.
-/
import Mathlib.Order.Lattice
import Mathlib.Tactic.Common

namespace SmfSolver
namespace Lib

variable {α : Type*} [LinearOrder α]

/-- `std::lower_bound` among the `len` elements from `first`: halve, and go on behind the
    middle if it is smaller. -/
def lowerBoundFrom (l : List α) (w : α) (first len : ℕ) : ℕ :=
  if len = 0 then first
  else
    match l[first + len / 2]? with
    | some x =>
      if x < w then lowerBoundFrom l w (first + len / 2 + 1) (len - len / 2 - 1)
      else lowerBoundFrom l w first (len / 2)
    | none => first
termination_by len

/-- The first position whose element is not smaller than `w`. -/
def lowerBound (l : List α) (w : α) : ℕ := lowerBoundFrom l w 0 l.length

/-- `std::binary_search`: the element where the search ends is not greater either. -/
def binarySearch (l : List α) (w : α) : Bool :=
  match l[lowerBound l w]? with
  | some x => decide (¬w < x)
  | none => false

/-- Insert `w` at its lower bound unless the list has it. -/
def insertNew (l : List α) (w : α) : List α :=
  if binarySearch l w then l else l.take (lowerBound l w) ++ w :: l.drop (lowerBound l w)

variable {l : List α} {w : α}

theorem lowerBoundFrom_spec (hs : l.Pairwise (· < ·)) {first len : ℕ}
    (hlen : first + len ≤ l.length) (hlow : ∀ (i : ℕ) x, i < first → l[i]? = some x → x < w)
    (hhigh : ∀ (i : ℕ) x, first + len ≤ i → l[i]? = some x → w ≤ x) :
    lowerBoundFrom l w first len ≤ l.length ∧
      (∀ (i : ℕ) x, i < lowerBoundFrom l w first len → l[i]? = some x → x < w) ∧
      ∀ (i : ℕ) x, lowerBoundFrom l w first len ≤ i → l[i]? = some x → w ≤ x := by
  have hmono : ∀ (i j : ℕ) (x y : α), i ≤ j → l[i]? = some x → l[j]? = some y → x ≤ y := by
    intro i j x y hij hx hy
    rcases Nat.eq_or_lt_of_le hij with rfl | hij
    · exact (Option.some.inj (hx.symm.trans hy)).le
    · obtain ⟨hi, rfl⟩ := List.getElem?_eq_some_iff.mp hx
      obtain ⟨hj, rfl⟩ := List.getElem?_eq_some_iff.mp hy
      exact (List.pairwise_iff_getElem.mp hs i j hi hj hij).le
  -- on the length still searched, which every comparison halves
  induction len using Nat.strongRecOn generalizing first with
  | _ len ih =>
    rw [lowerBoundFrom]
    by_cases hzero : len = 0
    · rw [if_pos hzero]
      subst hzero
      exact ⟨hlen, hlow, hhigh⟩
    · rw [if_neg hzero]
      have hmid : first + len / 2 < l.length := by omega
      rw [List.getElem?_eq_getElem hmid]
      by_cases hlt : l[first + len / 2] < w
      · -- the middle is smaller: so is everything before it
        simp only [if_pos hlt]
        refine ih (len - len / 2 - 1) (by omega) (by omega) ?_ ?_
        · intro i x hi hx
          exact (hmono i _ x _ (by omega) hx (List.getElem?_eq_getElem hmid)).trans_lt hlt
        · exact fun i x hi => hhigh i x (by omega)
      · -- the middle is not smaller: nor is anything behind it
        simp only [if_neg hlt]
        refine ih (len / 2) (by omega) (by omega) hlow ?_
        intro i x hi hx
        exact (not_lt.mp hlt).trans (hmono _ i _ x hi (List.getElem?_eq_getElem hmid) hx)

/-- The search parts a sorted list at the value. -/
theorem lowerBound_spec (hs : l.Pairwise (· < ·)) :
    lowerBound l w ≤ l.length ∧ (∀ x ∈ l.take (lowerBound l w), x < w) ∧
      ∀ x ∈ l.drop (lowerBound l w), w ≤ x := by
  obtain ⟨hle, hlow, hhigh⟩ := @lowerBoundFrom_spec α _ l w hs 0 l.length
    (by omega) (by omega) fun i x hi hx => by
      rw [List.getElem?_eq_none (by omega)] at hx
      cases hx
  refine ⟨hle, fun x hx => ?_, fun x hx => ?_⟩
  · obtain ⟨i, hi, rfl⟩ := List.mem_take_iff_getElem.mp hx
    exact hlow i _ (by unfold lowerBound at hi; omega) (List.getElem?_eq_getElem (by omega))
  · obtain ⟨i, hi, rfl⟩ := List.mem_drop_iff_getElem.mp hx
    exact hhigh (lowerBound l w + i) _ (Nat.le_add_right _ _) (List.getElem?_eq_getElem (by omega))

/-- The search finds the members and nothing else. -/
theorem binarySearch_iff (hs : l.Pairwise (· < ·)) : binarySearch l w = true ↔ w ∈ l := by
  obtain ⟨hle, hlow, hhigh⟩ := lowerBound_spec (w := w) hs
  have hdrop : w ∈ l ↔ w ∈ l.drop (lowerBound l w) := by
    constructor
    · intro h
      rw [← List.take_append_drop (lowerBound l w) l, List.mem_append] at h
      exact h.resolve_left fun hmem => lt_irrefl w (hlow w hmem)
    · exact List.mem_of_mem_drop
  unfold binarySearch
  cases hx : l[lowerBound l w]? with
  | none =>
    rw [hdrop, List.drop_eq_nil_of_le (List.getElem?_eq_none_iff.mp hx)]
    simp
  | some x =>
    obtain ⟨hlt, rfl⟩ := List.getElem?_eq_some_iff.mp hx
    have hcons := List.drop_eq_getElem_cons hlt
    have hsd : (l.drop (lowerBound l w)).Pairwise (· < ·) := hs.sublist (List.drop_sublist _ _)
    rw [hcons] at hsd
    have hfirst := hhigh _ (hcons ▸ List.mem_cons_self)
    rw [hdrop, hcons, List.mem_cons, decide_eq_true_iff]
    constructor
    · intro hnot
      exact .inl (le_antisymm hfirst (not_lt.mp hnot))
    · rintro (heq | hmem)
      · exact heq ▸ lt_irrefl _
      · exact ((List.pairwise_cons.mp hsd).1 w hmem).not_gt

theorem mem_insertNew (hs : l.Pairwise (· < ·)) {x : α} : x ∈ insertNew l w ↔ x = w ∨ x ∈ l := by
  unfold insertNew
  by_cases hw : binarySearch l w = true
  · rw [if_pos hw]
    exact ⟨.inr, fun h => h.elim (fun heq => heq ▸ (binarySearch_iff hs).mp hw) id⟩
  · rw [if_neg hw, List.mem_append, List.mem_cons, or_left_comm, ← List.mem_append,
      List.take_append_drop]

theorem insertNew_sorted (hs : l.Pairwise (· < ·)) : (insertNew l w).Pairwise (· < ·) := by
  unfold insertNew
  by_cases hw : binarySearch l w = true
  · rwa [if_pos hw]
  · rw [if_neg hw]
    obtain ⟨-, hlow, hhigh⟩ := lowerBound_spec (w := w) hs
    have hbehind : ∀ x ∈ l.drop (lowerBound l w), w < x := by
      intro x hx
      refine (hhigh x hx).lt_of_ne ?_
      rintro rfl
      exact hw ((binarySearch_iff hs).mpr (List.mem_of_mem_drop hx))
    rw [List.pairwise_append, List.pairwise_cons]
    refine ⟨hs.sublist (List.take_sublist _ _),
      ⟨hbehind, hs.sublist (List.drop_sublist _ _)⟩, fun a ha b hb => ?_⟩
    rcases List.mem_cons.mp hb with rfl | hb
    · exact hlow a ha
    · exact (hlow a ha).trans (hbehind b hb)

end Lib
end SmfSolver
