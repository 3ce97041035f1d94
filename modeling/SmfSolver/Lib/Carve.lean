/-
Buffers cut one after the other from a block of memory.

A request names a buffer and its length.  `carve` places the buffers from a first address on,
each where the one before it ends: they do not overlap (`carve_disjoint`), they end within the
sum of the lengths (`carve_end_le`), and every request has its piece (`exists_mem_carve`).
-/
import Mathlib.Algebra.GroupWithZero.Nat
import Mathlib.Order.Interval.Set.Disjoint
import Mathlib.Order.Lattice.Nat
import Mathlib.Order.CompletePartialOrder

namespace SmfSolver
namespace Lib

variable {β : Type*}

/-- A buffer in memory: its first address and its length. -/
structure Piece (β : Type*) where
  name : β
  start : ℕ
  length : ℕ

/-- The first address after the piece. -/
def Piece.stop (s : Piece β) : ℕ := s.start + s.length

/-- The addresses of the piece. -/
def Piece.cells (s : Piece β) : Set ℕ := Set.Ico s.start s.stop

/-- The buffers of the requests, one after the other from `p` on. -/
def carve (p : ℕ) : List (β × ℕ) → List (Piece β)
  | [] => []
  | (b, n) :: rest => ⟨b, p, n⟩ :: carve (p + n) rest

/-- The sum of the lengths. -/
def demand (l : List (β × ℕ)) : ℕ := (l.map Prod.snd).sum

theorem le_start_of_mem_carve {p : ℕ} {l : List (β × ℕ)} {s : Piece β} (h : s ∈ carve p l) :
    p ≤ s.start := by
  induction l generalizing p with
  | nil => cases h
  | cons r rest ih =>
    rcases List.mem_cons.mp h with rfl | htail
    · exact le_rfl
    · exact (Nat.le_add_right _ _).trans (ih htail)

/-- No two buffers share an address. -/
theorem carve_disjoint (p : ℕ) (l : List (β × ℕ)) :
    (carve p l).Pairwise fun s t => Disjoint s.cells t.cells := by
  induction l generalizing p with
  | nil => exact List.Pairwise.nil
  | cons r rest ih =>
    refine List.Pairwise.cons (fun t ht => ?_) (ih _)
    -- every later buffer starts where this one ends, or after
    have hle : p + r.2 ≤ t.start := le_start_of_mem_carve ht
    exact Set.Ico_disjoint_Ico.mpr ((min_le_left _ _).trans (hle.trans (le_max_right _ _)))

theorem carve_end_le {p : ℕ} {l : List (β × ℕ)} {s : Piece β} (h : s ∈ carve p l) :
    s.stop ≤ p + demand l := by
  induction l generalizing p with
  | nil => cases h
  | cons r rest ih =>
    have hsum : demand (r :: rest) = r.2 + demand rest := List.sum_cons
    rcases List.mem_cons.mp h with rfl | htail
    · rw [hsum, Piece.stop]
      exact Nat.add_le_add_left (Nat.le_add_right _ _) _
    · rw [hsum, ← Nat.add_assoc]
      exact ih htail

theorem exists_mem_carve (p : ℕ) {l : List (β × ℕ)} {b : β} {n : ℕ} (h : (b, n) ∈ l) :
    ∃ s ∈ carve p l, s.name = b ∧ s.length = n := by
  induction l generalizing p with
  | nil => cases h
  | cons r rest ih =>
    rcases List.mem_cons.mp h with rfl | htail
    · exact ⟨_, List.mem_cons_self, rfl, rfl⟩
    · obtain ⟨s, hs, hname, hlength⟩ := ih (p + r.2) htail
      exact ⟨s, List.mem_cons_of_mem _ hs, hname, hlength⟩

end Lib
end SmfSolver
