/-
  SmfSolver.Solve.SolveForward

  The forward solve `L y = b`, twice: `solve_forward`, which reads the fronts as the
  factorization realized them (`solve_steps`), and `solve_sparse_forward`, which reads the
  fronts of the analysis and skips those that `b` does not reach.

  One right-hand side, one thread.  A vector is a function of its index; the factor's arrays
  are functions of their offsets, as the code indexes them.
-/
import Mathlib.Algebra.Field.Basic
import Mathlib.Algebra.BigOperators.Fin
import Mathlib.Data.List.Perm.Basic
import Mathlib.Order.Basic

namespace SmfSolver
namespace Solve

/-! ## Analysis and factor -/

/-- What the analysis promises of its supernodes: consecutive columns, larger parents, and
    fronts whose rows past their own columns are rows of the parent's front. -/
structure AnalysisKeep where
  n : ℕ
  ns : ℕ
  colStart : ℕ → ℕ
  colEnd : ℕ → ℕ
  parent : ℕ → Option ℕ
  frontRows : ℕ → List ℕ
  postorder : List ℕ
  solvePostorder : List ℕ
  cover : ∀ c < n, ∃ s < ns, colStart s ≤ c ∧ c < colEnd s
  apart : ∀ s < ns, ∀ t < ns, ∀ c, colStart s ≤ c → c < colEnd s → colStart t ≤ c →
    c < colEnd t → s = t
  parent_lt : ∀ s < ns, ∀ t, parent s = some t → s < t ∧ t < ns
  own : ∀ s < ns, ∀ k < colEnd s - colStart s, (frontRows s)[k]? = some (colStart s + k)
  below : ∀ s < ns, ∀ k r, colEnd s - colStart s ≤ k → (frontRows s)[k]? = some r → colEnd s ≤ r
  nodup : ∀ s < ns, (frontRows s).Nodup
  lt_n : ∀ s < ns, ∀ r ∈ frontRows s, r < n
  contained : ∀ s < ns, ∀ r ∈ frontRows s, colEnd s ≤ r →
    ∃ t, parent s = some t ∧ r ∈ frontRows t
  postorder_perm : postorder.Perm (List.range ns)
  postorder_order : postorder.Pairwise fun a b => parent b ≠ some a
  solvePostorder_perm : solvePostorder.Perm (List.range ns)
  solvePostorder_order : solvePostorder.Pairwise fun a b => parent b ≠ some a

/-- `width`. -/
def AnalysisKeep.width (ak : AnalysisKeep) (s : ℕ) : ℕ := ak.colEnd s - ak.colStart s

structure SolveStep where
  rowOffset : ℕ
  factorOffset : ℕ
  p : ℕ
  f : ℕ

/-- The factor.  `invDiagOffset` is empty when no inverses are cached. -/
structure FactorKeep (K : Type*) where
  isPosdef : Bool
  n : ℕ
  iperm : ℕ → ℕ
  factorValues : ℕ → K
  factorColPtr : ℕ → ℕ
  solveSteps : List SolveStep
  solveRowIndices : ℕ → ℕ
  invDiagOffset : List (Option ℕ) := []
  invDiag : ℕ → K

/-- A front as a solve reads it: its rows, its columns of `L` and the inverse of the leading
    block when it is cached. -/
structure Front (K : Type*) where
  rows : ℕ → ℕ
  L : ℕ → ℕ → K
  inv : Option (ℕ → ℕ → K)
  p : ℕ
  f : ℕ

variable {K : Type*} [Field K]

/-! ## Kernels -/

/-- Column `col` of a triangular solve with the rows up to `n`. -/
def solveColumn (posdef : Bool) (L : ℕ → ℕ → K) (n : ℕ) (b : ℕ → K) (col : ℕ) : ℕ → K :=
  let xcol := if posdef then b col / L col col else b col
  fun row =>
    if row = col then xcol else if col < row ∧ row < n then b row - L row col * xcol else b row

/-- The first `p` columns. -/
def solveColumns (posdef : Bool) (L : ℕ → ℕ → K) (p n : ℕ) (b : ℕ → K) : ℕ → K :=
  (List.range p).foldl (solveColumn posdef L n) b

/-- `smf_dtrsv_lower` and `smf_dtrsv_lower_unit`, and the direct kernels of up to 16 pivots. -/
def solveLower (posdef : Bool) (L : ℕ → ℕ → K) (p : ℕ) (b : ℕ → K) : ℕ → K :=
  solveColumns posdef L p p b

/-- `x[rows[i]] = w[i]` for `i < n`. -/
def scatter (rows : ℕ → ℕ) (n : ℕ) (w x : ℕ → K) : ℕ → K :=
  (List.range n).foldl (fun x i => Function.update x (rows i) (w i)) x

/-- `DirectUpdate`: `x[rows[k]] -= v[k]` for `first ≤ k < f`. -/
def update (rows : ℕ → ℕ) (first f : ℕ) (v x : ℕ → K) : ℕ → K :=
  (List.range' first (f - first)).foldl
    (fun x k => Function.update x (rows k) (x (rows k) - v k)) x

/-- `smf_dgemv` with `p` columns. -/
def dgemv (A : ℕ → ℕ → K) (p : ℕ) (b : ℕ → K) (i : ℕ) : K := ∑ j ∈ Finset.range p, A i j * b j

/-! ## solve_forward -/

/-- `L21 * b_loc`, column by column up to 4096 entries. -/
def extended (F : Front K) (b : ℕ → K) : ℕ → K :=
  if F.p * (F.f - F.p) ≤ 4096 then
    (List.range' 1 (F.p - 1)).foldl (fun t j k => t k + F.L k j * b j) (fun k => F.L k 0 * b 0)
  else dgemv F.L F.p b

/-- `forward_front`, with direct updates. -/
def forwardFront (posdef : Bool) (x : ℕ → K) (F : Front K) : ℕ → K :=
  if F.p = 0 then x
  else if F.p = 1 then
    let x₀ := if posdef then x (F.rows 0) / F.L 0 0 else x (F.rows 0)
    update F.rows 1 F.f (fun k => F.L k 0 * x₀) (Function.update x (F.rows 0) x₀)
  else if F.p = 2 then
    let x₀ := if posdef then x (F.rows 0) / F.L 0 0 else x (F.rows 0)
    let x₁ := x (F.rows 1) - F.L 1 0 * x₀
    let x₁ := if posdef then x₁ / F.L 1 1 else x₁
    update F.rows 2 F.f (fun k => F.L k 0 * x₀ + F.L k 1 * x₁)
      (Function.update (Function.update x (F.rows 0) x₀) (F.rows 1) x₁)
  else if F.p * (F.f - F.p) ≤ 4096 ∧ F.p ≤ 16 then
    -- a small front: column by column on a gathered copy
    scatter F.rows F.f (solveColumns posdef F.L F.p F.f fun i => x (F.rows i)) x
  else
    -- a large one: the pivots first, by the inverse block if there is one
    let bLoc := match F.inv with
      | some inv => dgemv inv F.p fun k => x (F.rows k)
      | none => solveLower posdef F.L F.p fun k => x (F.rows k)
    let x := scatter F.rows F.p bLoc x
    if 0 < F.f - F.p then update F.rows F.p F.f (extended F bLoc) x else x

/-- The front of the `k`-th solve step. -/
def FactorKeep.stepFront (fk : FactorKeep K) (k : ℕ) (step : SolveStep) : Front K where
  rows := fun i => fk.solveRowIndices (step.rowOffset + i)
  L := fun i j => fk.factorValues (step.factorOffset + j * step.f + i)
  inv :=
    if fk.invDiagOffset.length = fk.solveSteps.length then
      (fk.invDiagOffset.getD k none).map fun off i j => fk.invDiag (off + j * step.p + i)
    else none
  p := step.p
  f := step.f

/-- The front of a supernode, its rows as the analysis lists them. -/
def FactorKeep.symbolicFront (fk : FactorKeep K) (ak : AnalysisKeep) (s : ℕ) : Front K where
  rows := fun i => (ak.frontRows s).getD i 0
  L := fun i j => fk.factorValues (fk.factorColPtr s + j * (ak.frontRows s).length + i)
  inv := none
  p := ak.width s
  f := (ak.frontRows s).length

/-- The fronts in the order of `solve_forward`. -/
def FactorKeep.fronts (fk : FactorKeep K) (ak : AnalysisKeep) : List (Front K) :=
  if fk.solveSteps = [] then ak.solvePostorder.map (fk.symbolicFront ak)
  else fk.solveSteps.mapIdx fk.stepFront

/-- `P^T b`. -/
def FactorKeep.permuted (fk : FactorKeep K) (b : ℕ → K) : ℕ → K :=
  scatter fk.iperm fk.n b fun _ => 0

/-- `solve_forward`. -/
def solveForward (ak : AnalysisKeep) (fk : FactorKeep K) (b : ℕ → K) : ℕ → K :=
  (fk.fronts ak).foldl (forwardFront fk.isPosdef) (fk.permuted b)

/-! ## solve_sparse_forward -/

/-- `col_to_sn`. -/
def colToSn (ak : AnalysisKeep) : ℕ → Option ℕ :=
  (List.range ak.ns).foldl
    (fun m s => (List.range' (ak.colStart s) (ak.width s)).foldl
      (fun m c => Function.update m c (some s)) m)
    fun _ => none

/-- The walk up the ancestors, to one that is marked already.  Every step but the last marks
    a supernode, so `ns` steps are enough. -/
def climb (parent : ℕ → Option ℕ) : ℕ → Option ℕ → (ℕ → Bool) → (ℕ → Bool)
  | 0, _, r => r
  | _, none, r => r
  | fuel + 1, some s, r =>
    if r s then r else climb parent fuel (parent s) (Function.update r s true)

/-- `in_reach`. -/
def inReach [DecidableEq K] (ak : AnalysisKeep) (x : ℕ → K) : ℕ → Bool :=
  (List.range ak.n).foldl
    (fun r c => if x c = 0 then r else climb ak.parent ak.ns (colToSn ak c) r) fun _ => false

def reach [DecidableEq K] (ak : AnalysisKeep) (x : ℕ → K) : List ℕ :=
  ak.postorder.filter (inReach ak x)

/-- One front of the sparse solve. -/
def sparseFront (posdef : Bool) (x : ℕ → K) (F : Front K) : ℕ → K :=
  if F.p = 0 then x
  else
    let bLoc := solveLower posdef F.L F.p fun k => x (F.rows k)
    let x := scatter F.rows F.p bLoc x
    if 0 < F.f - F.p then
      scatter (fun k => F.rows (F.p + k)) (F.f - F.p)
        (fun k => x (F.rows (F.p + k)) - dgemv F.L F.p bLoc (F.p + k)) x
    else x

/-- `solve_sparse_forward`: the reach and the solution. -/
def solveSparseForward [DecidableEq K] (ak : AnalysisKeep) (fk : FactorKeep K) (b : ℕ → K) :
    List ℕ × (ℕ → K) :=
  let x := fk.permuted b
  let reached := reach ak x
  (reached, reached.foldl (fun x s => sparseFront fk.isPosdef x (fk.symbolicFront ak s)) x)

end Solve
end SmfSolver
