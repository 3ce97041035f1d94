/-
  SmfSolver.Matrix.CscLower

  A symmetric matrix given by its lower triangle in compressed columns, the check
  of its shape, and the matrix it stands for.

  `CscLower` keeps the arrays as they come in; nothing is promised about them.
  `validateShape` is the source's check.  Past the check the columns are lists of
  typed entries, `LowerColumns`, whose rows lie on or below the diagonal by the
  type, and `LowerColumns.entry i j` is the (i, j) entry of the symmetric matrix,
  duplicates summed.

  * `validateShape_column`: a valid column's rows lie in [column, n).
  * `lowerColumns_column`: the typed column is the stored one, entry for entry.
-/
import Mathlib.Data.List.Basic
import Mathlib.Order.Fin.Basic
import Mathlib.Algebra.BigOperators.Group.List.Basic
import Mathlib.Algebra.Order.Ring.Int

namespace SmfSolver

/-- Return codes. -/
inductive ErrorCode
  | success
  | notInitialised
  | allocationError
  | illegalValue
  | singularMatrix
  | notPositiveDefinite
  | maxIterations
  | orderingFailed
  | featureNotAvailable
  | inertiaExceeded
  | workLimitExceeded
  | internalError
  deriving DecidableEq, Repr

/-- The lower triangle of a symmetric matrix in compressed columns: column `j`
    holds the entries `colPtr[j] .. colPtr[j + 1]` of `rowIdx` and `values`. -/
structure CscLower (K : Type*) where
  n : ℤ
  colPtr : List ℤ
  rowIdx : List ℤ
  values : List K
  deriving DecidableEq

namespace CscLower

variable {K : Type*}

/-- The number of stored entries. -/
def nnz (A : CscLower K) : ℤ := A.colPtr.getLastD 0

/-- The stored entries of column `j`, as (row, value). -/
def column (A : CscLower K) (j : ℕ) : List (ℤ × K) :=
  ((A.rowIdx.zip A.values).drop (A.colPtr.getD j 0).toNat).take
    (A.colPtr.getD (j + 1) 0 - A.colPtr.getD j 0).toNat

/-- Sizes, `colPtr[0] = 0`, monotone column pointers, and every row in [column, n).
    Neither duplicates nor the order within a column are looked at. -/
def validateShape (A : CscLower K) : ErrorCode :=
  if (A.colPtr.length : ℤ) ≠ A.n + 1 then .illegalValue
  else if A.colPtr.getD 0 0 ≠ 0 then .illegalValue
  else if ¬∀ j < A.n.toNat, A.colPtr.getD j 0 ≤ A.colPtr.getD (j + 1) 0 then .illegalValue
  else if (A.rowIdx.length : ℤ) ≠ A.colPtr.getD A.n.toNat 0 then .illegalValue
  else if (A.values.length : ℤ) ≠ A.colPtr.getD A.n.toNat 0 then .illegalValue
  else if ¬∀ j < A.n.toNat, ∀ e ∈ A.column j, (j : ℤ) ≤ e.1 ∧ e.1 < A.n then .illegalValue
  else .success

/-- What every routine that takes a matrix asks of it first. -/
def Valid (A : CscLower K) : Prop := 0 ≤ A.n ∧ A.validateShape = .success

instance (A : CscLower K) : Decidable A.Valid := inferInstanceAs (Decidable (_ ∧ _))

/-- The order of the matrix. -/
def dim (A : CscLower K) : ℕ := A.n.toNat

/-- In a valid matrix the rows of column `j` lie in [j, n). -/
theorem validateShape_column {A : CscLower K} (h : A.Valid) {j : ℕ} (hj : j < A.dim)
    {e : ℤ × K} (he : e ∈ A.column j) : (j : ℤ) ≤ e.1 ∧ e.1 < A.n := by
  have hv := h.2
  unfold validateShape at hv
  split_ifs at hv with _ _ _ _ _ hrows
  exact hrows j hj e he

end CscLower

/-- The columns of a lower triangle, each entry on or below the diagonal. -/
structure LowerColumns (n : ℕ) (K : Type*) where
  col : Fin n → List (Fin n × K)
  lower : ∀ j, ∀ e ∈ col j, j ≤ e.1

/-- The sum of the values a list of entries has in row `i`. -/
def rowSum {n : ℕ} {K : Type*} [AddMonoid K] (l : List (Fin n × K)) (i : Fin n) : K :=
  ((l.filter (·.1 = i)).map (·.2)).sum

/-- The (i, j) entry of the symmetric matrix whose lower triangle is given:
    duplicates are summed, what is not stored is zero. -/
def LowerColumns.entry {n : ℕ} {K : Type*} [AddMonoid K] (L : LowerColumns n K) (i j : Fin n) :
    K :=
  rowSum (L.col (min i j)) (max i j)

namespace CscLower

variable {K : Type*}

/-- A stored entry under the type of its row. -/
def typedEntry (A : CscLower K) (e : ℤ × K) : Option (Fin A.dim × K) :=
  if h : 0 ≤ e.1 ∧ e.1 < A.n then
    some (⟨e.1.toNat, by unfold dim; omega⟩, e.2)
  else none

/-- The columns of a valid matrix. -/
def lowerColumns (A : CscLower K) (h : A.Valid) : LowerColumns A.dim K where
  col j := (A.column j).filterMap A.typedEntry
  lower := by
    intro j e he
    obtain ⟨e', he', htyped⟩ := List.mem_filterMap.mp he
    have hrow := (validateShape_column h j.isLt he').1
    unfold typedEntry at htyped
    split_ifs at htyped
    obtain rfl := Option.some.inj htyped
    rw [Fin.le_def]
    show (j : ℕ) ≤ e'.1.toNat
    omega

/-- Typing the rows of a valid matrix loses no entry and moves none. -/
theorem lowerColumns_column {A : CscLower K} (h : A.Valid) (j : Fin A.dim) :
    ((A.lowerColumns h).col j).map (fun e => ((e.1 : ℤ), e.2)) = A.column j := by
  show ((A.column j).filterMap A.typedEntry).map _ = A.column j
  rw [List.map_filterMap]
  refine (List.filterMap_congr fun e he => ?_).trans (List.filterMap_some)
  obtain ⟨hlo, hhi⟩ := validateShape_column h j.isLt he
  have hin : 0 ≤ e.1 ∧ e.1 < A.n := ⟨by omega, hhi⟩
  rw [typedEntry, dif_pos hin]
  simp only [Option.map_some, Option.some.injEq]
  ext
  · show ((e.1.toNat : ℕ) : ℤ) = e.1
    omega
  · rfl

end CscLower
end SmfSolver
