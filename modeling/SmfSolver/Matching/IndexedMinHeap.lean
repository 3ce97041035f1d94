/-
  SmfSolver.Matching.IndexedMinHeap

  The addressable 4-ary min-heap of (key, id) pairs the searches queue rows in:
  ids below `n`, at most one entry per id, keys only decreasing.  The heap is the
  source's: a level-order array with a position index, sifting moves entries into
  a hole.
-/
import SmfSolver.Lib.Loop
import Mathlib.Data.Fin.Basic
import Mathlib.Logic.Function.Basic
import Mathlib.Order.Defs.LinearOrder
import Mathlib.Tactic.Common

namespace SmfSolver
namespace Matching

open Lib

/-- The level-order array of entries, and the place of each present id in it. -/
structure IndexedMinHeap (n : ℕ) (K : Type*) where
  heap : List (K × Fin n)
  pos : Fin n → Option ℕ

namespace IndexedMinHeap

variable {n : ℕ} {K : Type*} [LinearOrder K]

/-- The empty heap. -/
def reset : IndexedMinHeap n K := { heap := [], pos := fun _ => none }

def isEmpty (h : IndexedMinHeap n K) : Bool := h.heap.isEmpty

def size (h : IndexedMinHeap n K) : ℕ := h.heap.length

def contains (h : IndexedMinHeap n K) (id : Fin n) : Bool := (h.pos id).isSome

/-- The entry at the root. -/
def top? (h : IndexedMinHeap n K) : Option (K × Fin n) := h.heap.head?

/-- Entries are ordered by (key, id). -/
def before (a b : K × Fin n) : Bool := a.1 < b.1 || (a.1 == b.1 && a.2 < b.2)

def place (h : IndexedMinHeap n K) (k : ℕ) (e : K × Fin n) : IndexedMinHeap n K :=
  { heap := h.heap.set k e, pos := Function.update h.pos e.2 (some k) }

/-- The parent's place. -/
def up (k : ℕ) : ℕ := (k - 1) / 4

/-- One pass of `siftUp`'s loop: the hole is at `k`, `x` waits to be placed. -/
def siftUpStep (x : K × Fin n) (s : IndexedMinHeap n K × ℕ) :
    (IndexedMinHeap n K × ℕ) ⊕ IndexedMinHeap n K :=
  if s.2 = 0 then .inr (s.1.place s.2 x)
  else if before x (s.1.heap.getD (up s.2) x) then
    .inl (s.1.place s.2 (s.1.heap.getD (up s.2) x), up s.2)
  else .inr (s.1.place s.2 x)

theorem siftUpStep_decreases (x : K × Fin n) : Loop.Decreases (siftUpStep x) (·.2) := by
  intro s s' h
  unfold siftUpStep at h
  split_ifs at h with hk hb
  cases h
  show up s.2 < s.2
  unfold up
  omega

/-- Moves the entry at `k` towards the root. -/
def siftUp (h : IndexedMinHeap n K) (k : ℕ) (x : K × Fin n) : IndexedMinHeap n K :=
  Loop.run (siftUpStep x) (·.2) (siftUpStep_decreases x) (h, k)

/-- The least of the children of `k`, which are at `4 k + 1 .. c1`. -/
def best (h : IndexedMinHeap n K) (k : ℕ) (x : K × Fin n) : ℕ :=
  (List.range' (4 * k + 2) (min (4 * k + 5) h.heap.length - (4 * k + 2))).foldl
    (fun best c => if before (h.heap.getD c x) (h.heap.getD best x) then c else best) (4 * k + 1)

/-- One pass of `siftDown`'s loop. -/
def siftDownStep (x : K × Fin n) (s : IndexedMinHeap n K × ℕ) :
    (IndexedMinHeap n K × ℕ) ⊕ IndexedMinHeap n K :=
  if s.1.heap.length ≤ 4 * s.2 + 1 then .inr (s.1.place s.2 x)
  else if before (s.1.heap.getD (s.1.best s.2 x) x) x then
    .inl (s.1.place s.2 (s.1.heap.getD (s.1.best s.2 x) x), s.1.best s.2 x)
  else .inr (s.1.place s.2 x)

/-- The best child is a child. -/
theorem best_mem (h : IndexedMinHeap n K) (k : ℕ) (x : K × Fin n)
    (hk : 4 * k + 1 < h.heap.length) :
    4 * k + 1 ≤ h.best k x ∧ h.best k x < min (4 * k + 5) h.heap.length := by
  have step : ∀ (l : List ℕ) (b : ℕ),
      (∀ c ∈ l, 4 * k + 1 ≤ c ∧ c < min (4 * k + 5) h.heap.length) →
      (4 * k + 1 ≤ b ∧ b < min (4 * k + 5) h.heap.length) →
      4 * k + 1 ≤ l.foldl (fun best c =>
          if before (h.heap.getD c x) (h.heap.getD best x) then c else best) b ∧
        l.foldl (fun best c =>
          if before (h.heap.getD c x) (h.heap.getD best x) then c else best) b
          < min (4 * k + 5) h.heap.length := by
    intro l
    induction l with
    | nil => exact fun b _ hb => hb
    | cons c l ih =>
      intro b hl hb
      refine ih _ (fun c' hc' => hl c' (List.mem_cons_of_mem _ hc')) ?_
      dsimp only
      split_ifs
      · exact hl c List.mem_cons_self
      · exact hb
  refine step _ _ (fun c hc => ?_) ⟨le_rfl, by omega⟩
  rw [List.mem_range'_1] at hc
  omega

theorem siftDownStep_decreases (x : K × Fin n) :
    Loop.Decreases (siftDownStep x) (fun s => s.1.heap.length - s.2) := by
  intro s s' h
  unfold siftDownStep at h
  split_ifs at h with hlen hb
  cases h
  obtain ⟨hlo, hhi⟩ := s.1.best_mem s.2 x (by omega)
  show (s.1.heap.set _ _).length - s.1.best s.2 x < s.1.heap.length - s.2
  rw [List.length_set]
  omega

/-- Fills the hole at the root with `x`, moving it down. -/
def siftDown (h : IndexedMinHeap n K) (x : K × Fin n) : IndexedMinHeap n K :=
  Loop.run (siftDownStep x) (fun s => s.1.heap.length - s.2) (siftDownStep_decreases x) (h, 0)

/-- Inserts `id` with `key`, or lowers its key to `key` if present. -/
def pushOrDecrease (h : IndexedMinHeap n K) (id : Fin n) (key : K) : IndexedMinHeap n K :=
  match h.pos id with
  | none => siftUp { h with heap := h.heap ++ [(key, id)] } h.heap.length (key, id)
  | some p => siftUp { h with heap := h.heap.set p (key, id) } p (key, id)

/-- Removes the top entry. -/
def pop (h : IndexedMinHeap n K) : IndexedMinHeap n K :=
  match h.heap with
  | [] => h
  | e :: l =>
    let last := l.getLastD e
    let h' : IndexedMinHeap n K :=
      { heap := (e :: l).dropLast, pos := Function.update h.pos e.2 none }
    if l = [] then h' else h'.siftDown last

/-- Removes every entry. -/
def clear (h : IndexedMinHeap n K) : IndexedMinHeap n K :=
  { heap := [], pos := h.heap.foldl (fun pos e => Function.update pos e.2 none) h.pos }

/-! ## Sizes -/

theorem siftUp_length (h : IndexedMinHeap n K) (k : ℕ) (x : K × Fin n) :
    (h.siftUp k x).heap.length = h.heap.length := by
  refine Loop.run_induct
    (P := fun s : IndexedMinHeap n K × ℕ => s.1.heap.length = h.heap.length)
    (Q := fun r : IndexedMinHeap n K => r.heap.length = h.heap.length) ?_ ?_ rfl
  · intro s s' hs hstep
    unfold siftUpStep at hstep
    split_ifs at hstep
    cases hstep
    exact (List.length_set ..).trans hs
  · intro s r hs hstep
    unfold siftUpStep at hstep
    split_ifs at hstep <;> cases hstep <;> exact (List.length_set ..).trans hs

theorem siftDown_length (h : IndexedMinHeap n K) (x : K × Fin n) :
    (h.siftDown x).heap.length = h.heap.length := by
  refine Loop.run_induct
    (P := fun s : IndexedMinHeap n K × ℕ => s.1.heap.length = h.heap.length)
    (Q := fun r : IndexedMinHeap n K => r.heap.length = h.heap.length) ?_ ?_ rfl
  · intro s s' hs hstep
    unfold siftDownStep at hstep
    split_ifs at hstep
    cases hstep
    exact (List.length_set ..).trans hs
  · intro s r hs hstep
    unfold siftDownStep at hstep
    split_ifs at hstep <;> cases hstep <;> exact (List.length_set ..).trans hs

theorem pushOrDecrease_size (h : IndexedMinHeap n K) (id : Fin n) (key : K) :
    (h.pushOrDecrease id key).size ≤ h.size + 1 := by
  unfold pushOrDecrease size
  split
  · rw [siftUp_length, List.length_append, List.length_singleton]
  · rw [siftUp_length, List.length_set]
    exact Nat.le_succ _

theorem pop_size (h : IndexedMinHeap n K) : h.pop.size = h.size - 1 := by
  unfold pop size
  split
  · rename_i heq
    rw [heq]
    rfl
  · rename_i e l heq
    rw [heq]
    dsimp only
    split_ifs with hl
    · rw [List.length_dropLast]
    · rw [siftDown_length, List.length_dropLast]

/-! ## Presence -/

omit [LinearOrder K] in
/-- Placing entries only adds ids to the position index. -/
theorem place_contains {h : IndexedMinHeap n K} {k : ℕ} {e : K × Fin n} {id : Fin n}
    (hid : id = e.2 ∨ h.contains id = true) : (h.place k e).contains id = true := by
  unfold contains place
  dsimp only
  by_cases he : id = e.2
  · rw [he, Function.update_self]
    rfl
  · rw [Function.update_of_ne he]
    exact hid.resolve_left he

theorem siftUp_contains {h : IndexedMinHeap n K} {k : ℕ} {x : K × Fin n} {id : Fin n}
    (hid : id = x.2 ∨ h.contains id = true) : (h.siftUp k x).contains id = true := by
  refine Loop.run_induct
    (P := fun s : IndexedMinHeap n K × ℕ => id = x.2 ∨ s.1.contains id = true)
    (Q := fun r : IndexedMinHeap n K => r.contains id = true) ?_ ?_ hid
  · intro s s' hs hstep
    unfold siftUpStep at hstep
    split_ifs at hstep
    cases hstep
    exact hs.imp_right fun h => place_contains (.inr h)
  · intro s r hs hstep
    unfold siftUpStep at hstep
    split_ifs at hstep <;> cases hstep <;> exact place_contains hs

theorem siftDown_contains {h : IndexedMinHeap n K} {x : K × Fin n} {id : Fin n}
    (hid : id = x.2 ∨ h.contains id = true) : (h.siftDown x).contains id = true := by
  refine Loop.run_induct
    (P := fun s : IndexedMinHeap n K × ℕ => id = x.2 ∨ s.1.contains id = true)
    (Q := fun r : IndexedMinHeap n K => r.contains id = true) ?_ ?_ hid
  · intro s s' hs hstep
    unfold siftDownStep at hstep
    split_ifs at hstep
    cases hstep
    exact hs.imp_right fun h => place_contains (.inr h)
  · intro s r hs hstep
    unfold siftDownStep at hstep
    split_ifs at hstep <;> cases hstep <;> exact place_contains hs

theorem pushOrDecrease_contains {h : IndexedMinHeap n K} {id id' : Fin n} {key : K}
    (hid : id' = id ∨ h.contains id' = true) :
    (h.pushOrDecrease id key).contains id' = true := by
  unfold pushOrDecrease
  split <;> exact siftUp_contains hid

/-- Lowering a present key does not grow the heap. -/
theorem pushOrDecrease_size_of_contains {h : IndexedMinHeap n K} {id : Fin n} {key : K}
    (hid : h.contains id = true) : (h.pushOrDecrease id key).size = h.size := by
  unfold contains at hid
  unfold pushOrDecrease size
  split
  · rename_i hpos
    rw [hpos] at hid
    cases hid
  · rw [siftUp_length, List.length_set]

/-- A pop takes only the top's id away. -/
theorem pop_contains {h : IndexedMinHeap n K} {e : K × Fin n} {id : Fin n} (htop : h.top? = some e)
    (hne : id ≠ e.2) (hid : h.contains id = true) : h.pop.contains id = true := by
  unfold top? at htop
  unfold pop
  split
  · exact hid
  · rename_i e' l heq
    rw [heq] at htop
    obtain rfl := Option.some.inj htop
    have hkeep : (Function.update h.pos e'.2 none id).isSome = true := by
      rw [Function.update_of_ne hne]
      exact hid
    dsimp only
    split_ifs
    · exact hkeep
    · exact siftDown_contains (.inr hkeep)

end IndexedMinHeap

end Matching
end SmfSolver
