/-
  SmfSolver.Lib.Slice

  Slices of lists that are put together from pieces, and tables filled by a list of
  writes.

  * `slice_flatten`: a slice inside the `k`-th piece is a slice of that piece.
  * `assign_of_mem`: after writes to different places, each place has what was written.
  * `flatten_filter_perm`: a list dealt to `n` places, in order, is a permutation of it.
  * `exists_part`, `part_unique`: boundaries that do not go back cut a range into parts.
  * `Cut.append`: the cuts of two lists make a cut of their concatenation.
-/
import Mathlib.Algebra.BigOperators.Fin
import Mathlib.Data.List.Nodup
import Mathlib.Logic.Function.Basic

namespace SmfSolver
namespace Lib

universe u v

variable {α : Type u} {β : Type v}

/-! ## Slices -/

/-- The `len` elements from `off` on. -/
def slice (xs : List α) (off len : ℕ) : List α := (xs.drop off).take len

/-- Where the `k`-th piece begins. -/
def offset (pieces : List (List α)) (k : ℕ) : ℕ := ((pieces.take k).map List.length).sum

variable {xs ys : List α} {pieces : List (List α)} {off len k : ℕ}

theorem slice_append_left (h : off + len ≤ xs.length) :
    slice (xs ++ ys) off len = slice xs off len := by
  have hoff : off ≤ xs.length := by omega
  rw [slice, slice, List.drop_append_of_le_length hoff, List.take_append_of_le_length]
  rw [List.length_drop]
  omega

theorem slice_append_right : slice (xs ++ ys) (xs.length + off) len = slice ys off len := by
  rw [slice, slice, ← List.drop_drop, List.drop_left]

/-- The whole of the second part. -/
theorem slice_append_all : slice (xs ++ ys) xs.length ys.length = ys := by
  rw [slice, List.drop_left, List.take_length]

theorem offset_zero : offset pieces 0 = 0 := rfl

theorem offset_succ : offset (xs :: pieces) (k + 1) = xs.length + offset pieces k := by
  rw [offset, List.take_succ_cons, List.map_cons, List.sum_cons, offset]

/-- A slice inside a piece. -/
theorem slice_flatten (h : pieces[k]? = some xs) (hle : off + len ≤ xs.length) :
    slice pieces.flatten (offset pieces k + off) len = slice xs off len := by
  induction pieces generalizing k with
  | nil => cases h
  | cons ys pieces ih =>
    rw [List.flatten_cons]
    cases k with
    | zero =>
      rw [List.getElem?_cons_zero, Option.some.injEq] at h
      subst h
      rw [offset_zero, Nat.zero_add, slice_append_left hle]
    | succ k =>
      rw [List.getElem?_cons_succ] at h
      rw [offset_succ, Nat.add_assoc, slice_append_right, ih h]

/-- A place inside a piece is a place of the whole. -/
theorem offset_add_le (h : pieces[k]? = some xs) (hle : off ≤ xs.length) :
    offset pieces k + off ≤ pieces.flatten.length := by
  induction pieces generalizing k with
  | nil => cases h
  | cons ys pieces ih =>
    rw [List.flatten_cons, List.length_append]
    cases k with
    | zero =>
      obtain rfl := Option.some.inj h
      rw [offset_zero, Nat.zero_add]
      exact Nat.le_add_right_of_le hle
    | succ k =>
      have hrest := ih (k := k) h
      rw [offset_succ]
      omega

theorem length_slice (hle : off + len ≤ xs.length) : (slice xs off len).length = len := by
  rw [slice, List.length_take, List.length_drop]
  omega

theorem getElem?_slice {i : ℕ} (hi : i < len) : (slice xs off len)[i]? = xs[off + i]? := by
  rw [slice, List.getElem?_take_of_lt hi, List.getElem?_drop]

/-- An element of a piece. -/
theorem getElem?_flatten {i : ℕ} {a : α} (h : pieces[k]? = some xs) (hi : xs[i]? = some a) :
    pieces.flatten[offset pieces k + i]? = some a := by
  have hlt : i + 1 ≤ xs.length := (List.getElem?_eq_some_iff.mp hi).1
  have hone := congrArg (·[0]?) (slice_flatten h hlt)
  simp only [getElem?_slice Nat.zero_lt_one, add_zero] at hone
  exact hone.trans hi

/-! ## Cuts -/

/-- The indices of a range. -/
def rangeIndices (r : ℕ × ℕ) : List ℕ := List.range' r.1 (r.2 - r.1)

/-- The ranges cut the list, from its front to its end, into pieces with `Q`. -/
structure Cut (Q : List α → Prop) (xs : List α) (ranges : List (ℕ × ℕ)) : Prop where
  piece : ∀ r ∈ ranges, r.1 ≤ r.2 ∧ r.2 ≤ xs.length ∧ Q (slice xs r.1 (r.2 - r.1))
  cover : ranges.flatMap rangeIndices = List.range xs.length

section Cut

variable {Q : List α → Prop} {ranges ranges' : List (ℕ × ℕ)}

theorem cut_nil : Cut Q [] [] := ⟨nofun, rfl⟩

theorem cut_single (h : Q xs) : Cut Q xs [(0, xs.length)] where
  piece r hr := by
    obtain rfl := List.mem_singleton.mp hr
    have hall : slice xs 0 (xs.length - 0) = xs := List.take_length
    exact ⟨Nat.zero_le _, le_rfl, hall.symm ▸ h⟩
  cover := by
    rw [List.flatMap_singleton, rangeIndices, List.range_eq_range']
    rfl

/-- The second cut moves behind the first. -/
theorem Cut.append (h : Cut Q xs ranges) (h' : Cut Q ys ranges') :
    Cut Q (xs ++ ys) (ranges ++ ranges'.map fun r => (xs.length + r.1, xs.length + r.2)) where
  piece r hr := by
    rw [List.length_append]
    rcases List.mem_append.mp hr with hr | hr
    · obtain ⟨hle, hend, hQ⟩ := h.piece r hr
      refine ⟨hle, by omega, ?_⟩
      rwa [slice_append_left (by omega)]
    · obtain ⟨r', hr', rfl⟩ := List.mem_map.mp hr
      obtain ⟨hle, hend, hQ⟩ := h'.piece r' hr'
      refine ⟨by omega, by omega, ?_⟩
      rwa [slice_append_right, Nat.add_sub_add_left]
  cover := by
    have hmoved : (ranges'.map fun r => (xs.length + r.1, xs.length + r.2)).flatMap rangeIndices =
        (ranges'.flatMap rangeIndices).map (xs.length + ·) := by
      rw [List.flatMap_map, List.map_flatMap]
      refine List.flatMap_congr fun r _ => ?_
      rw [rangeIndices, rangeIndices, List.map_add_range', Nat.add_sub_add_left]
    rw [List.flatMap_append, hmoved, h.cover, h'.cover, List.length_append, List.range_add]

end Cut

/-- A place before the last of some boundaries is between two of them. -/
theorem exists_part {first : ℕ → ℕ} (h0 : first 0 = 0) {i n : ℕ} (hi : i < first n) :
    ∃ t < n, first t ≤ i ∧ i < first (t + 1) := by
  induction n with
  | zero =>
    rw [h0] at hi
    exact absurd hi (Nat.not_lt_zero i)
  | succ n ih =>
    rcases Nat.lt_or_ge i (first n) with hlt | hge
    · obtain ⟨t, ht, hpart⟩ := ih hlt
      exact ⟨t, Nat.lt_succ_of_lt ht, hpart⟩
    · exact ⟨n, Nat.lt_succ_self n, hge, hi⟩

/-- Between boundaries that do not go back, a place is in one part only. -/
theorem part_unique {first : ℕ → ℕ} (h : Monotone first) {i t u : ℕ} (ht : first t ≤ i)
    (ht' : i < first (t + 1)) (hu : first u ≤ i) (hu' : i < first (u + 1)) : t = u := by
  rcases Nat.lt_trichotomy t u with hlt | heq | hlt
  · exact absurd (ht'.trans_le ((h hlt).trans hu)) (lt_irrefl i)
  · exact heq
  · exact absurd (hu'.trans_le ((h hlt).trans ht)) (lt_irrefl i)

/-! ## Writes to a table -/

/-- The table `f` after the writes. -/
def assign (writes : List (ℕ × β)) (f : ℕ → β) : ℕ → β :=
  writes.foldl (fun f w => Function.update f w.1 w.2) f

variable {writes : List (ℕ × β)} {f : ℕ → β} {a : ℕ} {b : β}

theorem assign_of_notMem (h : a ∉ writes.map Prod.fst) : assign writes f a = f a := by
  induction writes generalizing f with
  | nil => rfl
  | cons w writes ih =>
    rw [List.map_cons, List.mem_cons, not_or] at h
    exact (ih h.2).trans (Function.update_of_ne h.1 ..)

theorem assign_of_mem (hnodup : (writes.map Prod.fst).Nodup) (h : (a, b) ∈ writes) :
    assign writes f a = b := by
  induction writes generalizing f with
  | nil => cases h
  | cons w writes ih =>
    rw [List.map_cons, List.nodup_cons] at hnodup
    rcases List.mem_cons.mp h with rfl | h
    · exact (assign_of_notMem hnodup.1).trans (Function.update_self ..)
    · exact ih hnodup.2 h

/-- The list `m` after the writes; those past its end are lost. -/
def setAll (writes : List (ℕ × β)) (m : List β) : List β :=
  writes.foldl (fun m w => m.set w.1 w.2) m

theorem setAll_append (writes writes' : List (ℕ × β)) (m : List β) :
    setAll (writes ++ writes') m = setAll writes' (setAll writes m) :=
  List.foldl_append ..

theorem length_setAll (m : List β) : (setAll writes m).length = m.length := by
  induction writes generalizing m with
  | nil => rfl
  | cons w writes ih => exact (ih _).trans List.length_set

theorem setAll_of_notMem {m : List β} (h : a ∉ writes.map Prod.fst) :
    (setAll writes m)[a]? = m[a]? := by
  induction writes generalizing m with
  | nil => rfl
  | cons w writes ih =>
    rw [List.map_cons, List.mem_cons, not_or] at h
    exact (ih h.2).trans (List.getElem?_set_ne (Ne.symm h.1))

theorem setAll_of_mem {m : List β} (hnodup : (writes.map Prod.fst).Nodup) (h : (a, b) ∈ writes)
    (ha : a < m.length) : (setAll writes m)[a]? = some b := by
  induction writes generalizing m with
  | nil => cases h
  | cons w writes ih =>
    rw [List.map_cons, List.nodup_cons] at hnodup
    rcases List.mem_cons.mp h with rfl | h
    · exact (setAll_of_notMem hnodup.1).trans (List.getElem?_set_self ha)
    · exact ih hnodup.2 h (by rwa [List.length_set])

/-! ## Dealing a list -/

/-- Every element goes to its place `f`. -/
theorem flatten_filter_perm {n : ℕ} (f : α → Fin n) (l : List α) :
    (List.ofFn fun t => l.filter fun a => f a = t).flatten.Perm l := by
  classical
  refine List.perm_iff_count.mpr fun a => ?_
  have hpart : ∀ t, (l.filter fun a => f a = t).count a = if f a = t then l.count a else 0 := by
    intro t
    split_ifs with h
    · exact List.count_filter (decide_eq_true h)
    · exact List.count_eq_zero.mpr fun hc => h (of_decide_eq_true (List.mem_filter.mp hc).2)
  calc
    (List.ofFn fun t => l.filter fun a => f a = t).flatten.count a
      = ∑ t, (l.filter fun a => f a = t).count a := by
        rw [List.count_flatten, List.map_ofFn, List.sum_ofFn]
        rfl
    _ = l.count a := by
        rw [Finset.sum_congr rfl fun t _ => hpart t, Finset.sum_ite_eq Finset.univ (f a),
          if_pos (Finset.mem_univ _)]

end Lib
end SmfSolver
