/-
  SmfSolver.Matrix.PermutedValues

  The pattern of P A P^T that `Solver::analyse` keeps, with the maps from the entries of the
  input and of the cleaned matrix to its slots (symbolic_analysis.cpp), the maps of
  `matching_reanalysis` (solve.cpp), and what `resolve_factor_values` and
  `map_values_to_permuted` (workspace.cpp) do with a later vector of values.

  The order is any permutation; the sums are in exact arithmetic, with `finite` the test
  of `is_finite_fast`.  The magnitudes' maximum is returned whether or not it is asked for.
-/
import SmfSolver.Matrix.CleanLower
import Mathlib.Algebra.Order.Group.Abs

namespace SmfSolver
namespace PermutedValues

open Lib

variable {K : Type*}

/-! ## The permuted pattern -/

/-- The entries of the cleaned matrix, as (row, column, entry) with their row and column in
    the lower triangle of P A P^T. -/
def placed (C : CscLower K) (ip : ℕ → ℕ) : List (ℕ × ℕ × ℕ) :=
  (List.range C.dim).flatMap fun j => (C.indices j).map fun k =>
    (max (ip (C.rowAt k).toNat) (ip j), min (ip (C.rowAt k).toNat) (ip j), k)

/-- `build_row_form`: row `r` lists the columns `c ≤ r` with an entry, each with the cleaned
    entry it came from. -/
def buildRowForm (C : CscLower K) (ip : ℕ → ℕ) : Csr (ℕ × ℕ) :=
  Csr.ofItems C.dim (placed C ip) fun _ => (0, 0)

/-- The running sums of `col_count`. -/
def columnStarts (C : CscLower K) (ip : ℕ → ℕ) : ℕ → ℕ :=
  Csr.runningSums C.dim (Csr.countKeys ((placed C ip).map fun e => (e.2.1, ())))

/-- The row form in increasing row order, as (column, row, entry). -/
def byRows (C : CscLower K) (ip : ℕ → ℕ) : List (ℕ × ℕ × ℕ) :=
  (List.range C.dim).flatMap fun r => ((buildRowForm C ip).slice r).map fun t => (t.1, r, t.2)

/-- The permuted pattern, and where each cleaned entry lands (`otp`). -/
structure PermPattern where
  colPtr : List ℤ := []
  rowIdx : List ℤ := []
  otp : List ℤ := []
  deriving DecidableEq

/-- The second transposition. -/
def doubleTranspose (C : CscLower K) (ip : ℕ → ℕ) : PermPattern :=
  let out := Csr.scatterNoting (byRows C ip) (columnStarts C ip, fun _ => 0, fun _ => 0)
  { colPtr := (List.range (C.dim + 1)).map fun c : ℕ => (columnStarts C ip c : ℤ)
    rowIdx := (List.range C.rowIdx.length).map fun p : ℕ => (out.2.1 p : ℤ)
    otp := (List.range C.rowIdx.length).map fun s : ℕ => (out.2.2 s : ℤ) }

/-- `iperm[perm[i]] = i`. -/
def inverse (perm : List ℕ) : ℕ → ℕ :=
  perm.zipIdx.foldl (fun ip e => Function.update ip e.1 e.2) fun _ => 0

/-! ## The analysis -/

/-- The patterns and the maps of an analysis.  The permuted pattern and `origToPermIdx` are
    empty when the order is the identity: the cleaned pattern serves. -/
structure AnalysisKeep (K : Type*) where
  n : ℤ
  origColPtr : List ℤ
  origRowIdx : List ℤ
  inputClean : Bool
  origToCleanIdx : List ℤ := []
  origToPermDirect : List ℤ := []
  cleaned : CscLower K
  permColPtr : List ℤ := []
  permRowIdx : List ℤ := []
  origToPermIdx : List ℤ := []
  perm : List ℕ := []
  deriving DecidableEq

/-- Each original entry's slot, through its cleaned one. -/
def directMap (identity : Bool) (otp origToClean : List ℤ) : List ℤ :=
  origToClean.map fun c => if c < 0 then -1 else if identity then c else otp.getD c.toNat (-1)

variable [AddCommGroup K]

/-- `Solver::analyse`, once the final order `perm` is there. -/
def analyse (sort : SortBy (CleanEntry.row (K := K))) (A : CscLower K) (check : Bool)
    (perm : List ℕ) : AnalysisKeep K × MatrixInfo :=
  let (cleaned, info) := CscLower.cleanLowerCsc sort A ⟨.success, 0, 0, 0⟩ check
  let C := cleaned.clean
  if C.n = 0 then
    ({ n := 0, origColPtr := A.colPtr, origRowIdx := A.rowIdx, inputClean := cleaned.wasClean
       cleaned := C }, info)
  else
    -- in the given order there is no permuted copy
    let identityFinal : Bool := perm = List.range C.dim
    let P := if identityFinal then {} else doubleTranspose C (inverse perm)
    ({ n := C.n
       origColPtr := A.colPtr
       origRowIdx := A.rowIdx
       inputClean := cleaned.wasClean
       origToCleanIdx := cleaned.originalToClean
       origToPermDirect := directMap identityFinal P.otp cleaned.originalToClean
       cleaned := C
       permColPtr := P.colPtr
       permRowIdx := P.rowIdx
       origToPermIdx := P.otp
       perm }, info)

/-- `matching_reanalysis` with the order `perm` of its matching: `ak`'s cleaned pattern
    analysed with the values `cv`, wired to take the layouts that `ak` takes. -/
def matchingReanalysis (sort : SortBy (CleanEntry.row (K := K))) (ak : AnalysisKeep K)
    (cv : List K) (perm : List ℕ) : Option (AnalysisKeep K) :=
  let (re, info) := analyse sort ⟨ak.n, ak.cleaned.colPtr, ak.cleaned.rowIdx, cv⟩ false perm
  if info.status ≠ .success then none
  else some { re with
    origToPermDirect := directMap re.origToPermIdx.isEmpty re.origToPermIdx ak.origToCleanIdx
    origColPtr := ak.origColPtr
    origRowIdx := ak.origRowIdx
    origToCleanIdx := ak.origToCleanIdx
    inputClean := ak.inputClean
    cleaned := { re.cleaned with values := ak.cleaned.values } }

/-- Every analysis of `A` that succeeds, with its check off only where `A` is clean, and every
    re-analysis of one. -/
inductive Analyses (A : CscLower K) : AnalysisKeep K → Prop
  | analysed (sort : SortBy (CleanEntry.row (K := K))) (check : Bool) (perm : List ℕ)
      (hcheck : check = true ∨ A.isClean = true) (hperm : perm.Perm (List.range A.dim))
      (hok : (analyse sort A check perm).2.status = .success) :
      Analyses A (analyse sort A check perm).1
  | reanalysed {ak re : AnalysisKeep K} (h : Analyses A ak)
      (sort : SortBy (CleanEntry.row (K := K))) (cv : List K) (perm : List ℕ)
      (hperm : perm.Perm (List.range ak.cleaned.dim))
      (hre : matchingReanalysis sort ak cv perm = some re) : Analyses A re

/-- The permuted lower pattern with these values: the cleaned one when the order is the
    identity. -/
def AnalysisKeep.permuted (ak : AnalysisKeep K) (v : List K) : CscLower K :=
  if ak.permColPtr.isEmpty then ⟨ak.n, ak.cleaned.colPtr, ak.cleaned.rowIdx, v⟩
  else ⟨ak.n, ak.permColPtr, ak.permRowIdx, v⟩

/-! ## The values -/

/-- A later vector of values; `data` is none for the null pointer. -/
structure FactorValues (K : Type*) where
  data : Option (List K)
  originalLayout : Bool
  deriving DecidableEq

/-- A vector's `data()`: an empty one's may be null. -/
def vectorData (nullIfEmpty : Bool) (v : List K) : Option (List K) :=
  if nullIfEmpty && v.isEmpty then none else some v

/-- `resolve_factor_values`: whether `updated` has one of the analysis' patterns, and its
    layout. -/
def resolveFactorValues (nullIfEmpty : Bool) (ak : AnalysisKeep K) (updated : CscLower K) :
    Bool × FactorValues K :=
  let data := vectorData nullIfEmpty updated.values
  if updated.n ≠ ak.n then (false, ⟨data, true⟩)
  else if ak.origColPtr ≠ [] ∧ updated.colPtr = ak.origColPtr ∧ updated.rowIdx = ak.origRowIdx ∧
      updated.values.length = ak.origRowIdx.length then (true, ⟨data, true⟩)
  else
    (updated.colPtr = ak.cleaned.colPtr ∧ updated.rowIdx = ak.cleaned.rowIdx ∧
      updated.values.length = ak.cleaned.rowIdx.length, ⟨data, false⟩)

/-- The vectors of the workspace that take values. -/
structure NumericWorkspace (K : Type*) where
  cleanValues : List K
  permValues : List K
  deriving DecidableEq

/-- Slot `slots[k]` of `out` gets `uv[k]` added, for every `k`; -1 is no slot. -/
def scatterAdd (slots : List ℤ) (uv out : List K) : List K :=
  (slots.zip uv).foldl (fun out e => if e.1 < 0 then out else out.modify e.1.toNat (· + e.2)) out

/-- `resize` of a vector. -/
def resize (m : ℕ) (v : List K) : List K := v.take m ++ List.replicate (m - v.length) 0

variable [LinearOrder K] (finite : K → Bool)

/-- `map_values_to_permuted`: the status, the workspace, and the largest magnitude. -/
def mapValuesToPermuted (ak : AnalysisKeep K) (values : FactorValues K) (ws : NumericWorkspace K)
    (needClean permLater : Bool) : ErrorCode × NumericWorkspace K × K :=
  if ak.n < 0 then (.illegalValue, ws, 0)
  else if ak.n = 0 then (.success, ⟨[], []⟩, 0)
  else
    let cleanNnz := ak.cleaned.rowIdx.length
    let permNnz := if ak.permColPtr.isEmpty then cleanNnz else (ak.permColPtr.getLastD 0).toNat
    -- original-layout values go through the cleaning map unless there is none
    let viaOrig := values.originalLayout && !ak.origToCleanIdx.isEmpty
    let expect := if viaOrig then ak.origRowIdx.length else cleanNnz
    match values.data with
    | none => (.illegalValue, ws, 0)
    | some uv =>
      if uv.length ≠ expect then (.illegalValue, ws, 0)
      else if !uv.all finite then (.illegalValue, ws, 0)
      else
        let vmax := uv.foldl (fun m v => max m |v|) 0
        let zeros (m : ℕ) : List K := List.replicate m 0
        let cleanValues := if viaOrig then scatterAdd ak.origToCleanIdx uv (zeros cleanNnz) else uv
        if needClean && permLater then
          -- only the cleaned copy: the caller scatters its scaled values
          (.success, ⟨cleanValues, resize permNnz ws.permValues⟩, vmax)
        else
          let permValues :=
            if viaOrig then scatterAdd ak.origToPermDirect uv (zeros permNnz)
            else if ak.origToPermIdx.isEmpty then uv ++ (zeros permNnz).drop uv.length
            else scatterAdd ak.origToPermIdx uv (zeros permNnz)
          (.success, ⟨if needClean then cleanValues else ws.cleanValues, permValues⟩, vmax)

/-- `map_updated_values_to_permuted`. -/
def mapUpdatedValuesToPermuted (nullIfEmpty : Bool) (ak : AnalysisKeep K) (updated : CscLower K)
    (ws : NumericWorkspace K) (needClean : Bool) : ErrorCode × NumericWorkspace K × K :=
  let (ok, values) := resolveFactorValues nullIfEmpty ak updated
  if !ok then (.illegalValue, ws, 0)
  else mapValuesToPermuted finite ak values ws needClean false

end PermutedValues
end SmfSolver
