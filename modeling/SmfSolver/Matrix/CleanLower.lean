/-
  SmfSolver.Matrix.CleanLower

  `clean_lower_csc` (check_matrix.cpp) and `coo_to_lower_csc` (coo_to_csc.cpp): a lower
  triangle as it comes in, brought into the form the analysis works on, each column in
  strictly ascending rows.

  `std::sort` is any sort by row, so the order of duplicates is left open; the sums are in
  exact arithmetic.
-/
import SmfSolver.Lib.Buckets
import SmfSolver.Lib.Runs
import SmfSolver.Matrix.CscLower

namespace SmfSolver

open Lib

variable {K : Type*} [AddCommMonoid K]

/-- The counters of `Info` that the cleaning sets. -/
structure MatrixInfo where
  status : ErrorCode
  matrixDuplicates : ℕ
  matrixOutOfRange : ℕ
  matrixMissingDiag : ℕ
  deriving DecidableEq

/-- Result of cleaning a lower CSC matrix.  `originalToClean` maps an entry's index to its
    index in `clean`, -1 where it was removed. -/
structure CleanedPattern (K : Type*) where
  clean : CscLower K
  originalToClean : List ℤ
  duplicates : ℕ := 0
  outOfRange : ℕ := 0
  missingDiag : ℕ := 0
  wasClean : Bool := false
  deriving DecidableEq

/-- An entry of a column in the working buffer. -/
structure CleanEntry (K : Type*) where
  row : ℤ
  val : K
  origK : ℕ

namespace CscLower

/-- Where column `j` begins. -/
def ptr (A : CscLower K) (j : ℕ) : ℕ := (A.colPtr.getD j 0).toNat

/-- The indices of column `j`'s entries. -/
def indices (A : CscLower K) (j : ℕ) : List ℕ := List.range' (A.ptr j) (A.ptr (j + 1) - A.ptr j)

def rowAt (A : CscLower K) (k : ℕ) : ℤ := A.rowIdx.getD k 0

/-- The checks before any entry is looked at. -/
def ShapeOk (A : CscLower K) : Prop :=
  0 ≤ A.n ∧ (A.colPtr.length : ℤ) = A.n + 1 ∧ A.colPtr.getD 0 0 = 0 ∧
    (∀ j < A.dim, A.colPtr.getD j 0 ≤ A.colPtr.getD (j + 1) 0) ∧
    (A.rowIdx.length : ℤ) = A.colPtr.getD A.dim 0 ∧ (A.values.length : ℤ) = A.colPtr.getD A.dim 0

instance (A : CscLower K) : Decidable A.ShapeOk := inferInstanceAs (Decidable (_ ∧ _))

/-! ## The fast path -/

/-- The scan of one column, after a row `prev`. -/
def columnClean (n : ℤ) : ℤ → List ℤ → Bool
  | _, [] => true
  | prev, i :: rest => if i ≤ prev ∨ n ≤ i then false else columnClean n i rest

/-- The scan of all columns: sorted unique rows, all in range. -/
def isClean (A : CscLower K) : Bool :=
  (List.range A.dim).all fun j => columnClean A.n (j - 1) ((A.indices j).map A.rowAt)

/-- Columns whose first entry is not the diagonal. -/
def missingFirst (A : CscLower K) : ℕ :=
  (List.range A.dim).countP fun j =>
    decide (A.ptr j = A.ptr (j + 1) ∨ A.rowAt (A.ptr j) ≠ j)

def copied (A : CscLower K) : CleanedPattern K where
  clean := A
  originalToClean := (List.range A.rowIdx.length).map fun k : ℕ => (k : ℤ)
  missingDiag := A.missingFirst
  wasClean := true

/-! ## The general path -/

/-- Row `i` of column `j` is above the diagonal, or outside of the matrix. -/
def Dropped (A : CscLower K) (j : ℕ) (i : ℤ) : Prop := i < j ∨ A.n ≤ i

instance (A : CscLower K) (j : ℕ) (i : ℤ) : Decidable (A.Dropped j i) :=
  inferInstanceAs (Decidable (_ ∨ _))

/-- The valid entries of column `j`. -/
def columnEntries (A : CscLower K) (j : ℕ) : List (CleanEntry K) :=
  (A.indices j).filterMap fun k =>
    if A.Dropped j (A.rowAt k) then none else some ⟨A.rowAt k, A.values.getD k 0, k⟩

/-- What the general path has put together. -/
structure Cleaning (K : Type*) where
  rowIdx : List ℤ := []
  values : List K := []
  colPtr : List ℤ := [0]
  originalToClean : List ℤ
  duplicates : ℕ := 0
  outOfRange : ℕ := 0
  missingDiag : ℕ := 0

/-- One run of entries with the same row. -/
def emit (st : Cleaning K) (run : CleanEntry K × List (CleanEntry K)) : Cleaning K :=
  { st with
    rowIdx := st.rowIdx ++ [run.1.row]
    values := st.values ++ [run.2.foldl (fun s e => s + e.val) run.1.val]
    originalToClean :=
      (run.1 :: run.2).foldl (fun m e => m.set e.origK st.rowIdx.length) st.originalToClean
    duplicates := st.duplicates + run.2.length }

def cleanColumn (sort : SortBy (CleanEntry.row (K := K))) (A : CscLower K) (st : Cleaning K)
    (j : ℕ) : Cleaning K :=
  let rs := runs CleanEntry.row (sort.run (A.columnEntries j))
  let st := rs.foldl emit
    { st with outOfRange := st.outOfRange + (A.indices j).countP fun k => A.Dropped j (A.rowAt k) }
  { st with
    missingDiag := st.missingDiag + if rs.any fun r => r.1.row = j then 0 else 1
    colPtr := st.colPtr ++ [(st.rowIdx.length : ℤ)] }

def cleaning (sort : SortBy (CleanEntry.row (K := K))) (A : CscLower K) (m : ℕ) : Cleaning K :=
  (List.range m).foldl (cleanColumn sort A)
    { originalToClean := List.replicate A.rowIdx.length (-1) }

def generalPath (sort : SortBy (CleanEntry.row (K := K))) (A : CscLower K) : CleanedPattern K :=
  let st := cleaning sort A A.dim
  { clean := ⟨A.n, st.colPtr, st.rowIdx, st.values⟩
    originalToClean := st.originalToClean
    duplicates := st.duplicates
    outOfRange := st.outOfRange
    missingDiag := st.missingDiag }

/-- `clean_lower_csc`.  A matrix that fails the checks leaves an empty result. -/
def cleanLowerCsc (sort : SortBy (CleanEntry.row (K := K))) (A : CscLower K) (info : MatrixInfo)
    (check : Bool) : CleanedPattern K × MatrixInfo :=
  if A.ShapeOk then
    let result := if !check || A.isClean then A.copied else generalPath sort A
    (result, { info with
      matrixDuplicates := result.duplicates
      matrixOutOfRange := result.outOfRange
      matrixMissingDiag := result.missingDiag })
  else (⟨⟨0, [], [], []⟩, [], 0, 0, 0, false⟩, { info with status := .illegalValue })

end CscLower

/-! ## Coordinate format -/

/-- An entry of `CooMatrix`. -/
structure Triplet (K : Type*) where
  row : ℤ
  col : ℤ
  val : K

/-- Coordinate format: all explicitly provided entries, in any order. -/
structure CooMatrix (K : Type*) where
  n : ℤ
  entries : List (Triplet K)

namespace CooMatrix

/-- In range, and not above the diagonal. -/
def Kept (coo : CooMatrix K) (t : Triplet K) : Prop :=
  ¬(t.row < 0 ∨ t.col < 0 ∨ coo.n ≤ t.row ∨ coo.n ≤ t.col) ∧ ¬t.row < t.col

instance (coo : CooMatrix K) (t : Triplet K) : Decidable (coo.Kept t) :=
  inferInstanceAs (Decidable (_ ∧ _))

/-- The kept entries scattered into columns: count, running sums, and a second pass. -/
def scattered (coo : CooMatrix K) : Csr (ℤ × K) :=
  Csr.ofItems coo.n.toNat
    ((coo.entries.filter fun t => coo.Kept t).map fun t => (t.col.toNat, t.row, t.val))
    fun _ => (0, 0)

/-- One column sorted, with its duplicates summed. -/
def mergeColumn (sort : SortBy (Prod.fst (α := ℤ) (β := K))) : List (ℤ × K) → List (ℤ × K)
  | [] => []
  | [p] => [p]
  | l => merged Prod.fst Prod.snd (sort.run l)

/-- A column behind those already there. -/
def pushColumn (result : CscLower K) (col : List (ℤ × K)) : CscLower K :=
  { result with
    rowIdx := result.rowIdx ++ col.map Prod.fst
    values := result.values ++ col.map Prod.snd
    colPtr := result.colPtr ++ [((result.rowIdx.length + col.length : ℕ) : ℤ)] }

/-- `coo_to_lower_csc`. -/
def toLowerCsc (sort : SortBy (Prod.fst (α := ℤ) (β := K))) (coo : CooMatrix K) : CscLower K :=
  if coo.n ≤ 0 then ⟨0, [0], [], []⟩
  else
    (List.range coo.n.toNat).foldl
      (fun result j => pushColumn result (mergeColumn sort (coo.scattered.slice j)))
      ⟨coo.n, [0], [], []⟩

end CooMatrix

end SmfSolver
