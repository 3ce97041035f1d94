/-
  SmfSolver.Lib.Fill

  The structure of the Cholesky factor of a symmetric pattern, and its elimination tree.

  `Fill adj i j` says that the entry `(i, j)` of the factor is structurally nonzero: an
  entry of the pattern, or an update by a column `k < j` with entries in both rows.
  `etree adj j` is the first such row below `j`.

  * `Fill.up`: the rows of a column are ancestors of the column.
  * `fill_iff_row`: row `k` of the factor are the paths in the tree from the entries of
    row `k` of the pattern up to `k`.
-/
import Mathlib.Logic.Relation
import Mathlib.Order.Bounds.Basic
import Mathlib.Order.Nat

namespace SmfSolver
namespace Lib

/-- Entry `(i, j)` below the diagonal of the factor is structurally nonzero. -/
inductive Fill (adj : ℕ → ℕ → Prop) : ℕ → ℕ → Prop
  | entry {i j : ℕ} : j < i → adj i j → Fill adj i j
  | update {i j k : ℕ} : j < i → Fill adj i k → Fill adj j k → Fill adj i j

open Classical in
/-- The elimination tree: the first row below `j` in column `j` of the factor. -/
noncomputable def etree (adj : ℕ → ℕ → Prop) (j : ℕ) : Option ℕ :=
  if h : ∃ i, Fill adj i j then some (Nat.find h) else none

variable {adj : ℕ → ℕ → Prop} {i j k p r : ℕ}

theorem Fill.lt (h : Fill adj i j) : j < i := by
  cases h with
  | entry hlt _ => exact hlt
  | update hlt _ _ => exact hlt

/-- A bound on the rows of the pattern bounds the rows of the factor. -/
theorem Fill.row_lt {n : ℕ} (hadj : ∀ i j, adj i j → i < n) (h : Fill adj i j) : i < n := by
  induction h with
  | entry _ h => exact hadj _ _ h
  | update _ _ _ ih _ => exact ih

theorem etree_eq_some : etree adj j = some p ↔ IsLeast {i | Fill adj i j} p := by
  classical
  unfold etree
  split_ifs with h
  · rw [Option.some.injEq]
    constructor
    · rintro rfl
      exact ⟨Nat.find_spec h, fun i hi => Nat.find_min' h hi⟩
    · rintro ⟨hp, hmin⟩
      exact le_antisymm (Nat.find_min' h hp) (hmin (Nat.find_spec h))
  · simp only [false_iff]
    exact fun hp => h ⟨p, hp.1⟩

theorem etree_eq_none : etree adj j = none ↔ ∀ i, ¬Fill adj i j := by
  classical
  unfold etree
  split_ifs with h
  · simp only [false_iff, not_forall, not_not]
    exact h
  · exact ⟨fun _ i hi => h ⟨i, hi⟩, fun _ => rfl⟩

theorem lt_of_etree (h : etree adj j = some p) : j < p := (etree_eq_some.mp h).1.lt

/-- A column with a row has a parent, at that row or before. -/
theorem Fill.exists_parent (h : Fill adj i j) : ∃ p, etree adj j = some p ∧ p ≤ i := by
  cases hp : etree adj j with
  | none => exact absurd h (etree_eq_none.mp hp i)
  | some p => exact ⟨p, rfl, (etree_eq_some.mp hp).2 h⟩

/-- A row of a column is a row of its parent's column. -/
theorem Fill.parent (h : Fill adj i j) (hp : etree adj j = some p) (hlt : p < i) : Fill adj i p :=
  .update hlt h (etree_eq_some.mp hp).1

/-- `i` is `j` or above `j` in the elimination tree. -/
abbrev EtreeUp (adj : ℕ → ℕ → Prop) : ℕ → ℕ → Prop :=
  Relation.ReflTransGen fun j p => etree adj j = some p

theorem EtreeUp.le (h : EtreeUp adj j i) : j ≤ i := by
  induction h with
  | refl => exact le_rfl
  | tail _ hstep ih => exact ih.trans (lt_of_etree hstep).le

/-- The rows of a column are ancestors of the column. -/
theorem Fill.up (h : Fill adj i j) : EtreeUp adj j i := by
  -- up the tree from `j`, by how far `i` is away
  generalize hd : i - j = d
  induction d using Nat.strongRecOn generalizing j with
  | _ d ih =>
    obtain ⟨p, hp, hle⟩ := h.exists_parent
    have hjp := lt_of_etree hp
    rcases hle.lt_or_eq with hlt | rfl
    · exact .head hp (ih (i - p) (by omega) (h.parent hp hlt) rfl)
    · exact .single hp

/-- A row of a column is a row of every column on the path up to that row. -/
theorem Fill.along (h : Fill adj k r) (hup : EtreeUp adj r j) (hlt : j < k) : Fill adj k j := by
  induction hup with
  | refl => exact h
  | @tail y z _ hstep ih => exact (ih ((lt_of_etree hstep).trans hlt)).parent hstep hlt

/-- Row `k` of the factor: the paths from the entries of row `k` of the pattern. -/
theorem fill_iff_row (hlt : j < k) : Fill adj k j ↔ ∃ r < k, adj k r ∧ EtreeUp adj r j := by
  constructor
  · intro h
    induction h with
    | @entry k j hlt h => exact ⟨j, hlt, h, .refl⟩
    | @update k j l hlt hkl hjl ih _ =>
      obtain ⟨r, hr, hadj, hup⟩ := ih hkl.lt
      exact ⟨r, hr, hadj, hup.trans hjl.up⟩
  · rintro ⟨r, hr, hadj, hup⟩
    exact (Fill.entry hr hadj).along hup hlt

end Lib
end SmfSolver
