/-
  SmfSolver.Symbolic.Etree

  The elimination tree (`etree.cpp`): Liu's algorithm over the rows of the pattern, from
  lower CSC columns, from rows, and from a symmetric adjacency under a permutation; and
  the postorder of a forest with an explicit stack.

  -1 is `none`.  Work arrays start as zeros; no result depends on what they held.
-/
import SmfSolver.Lib.Buckets
import SmfSolver.Lib.Forest

namespace SmfSolver
namespace Symbolic

open Lib

/-- A symmetric pattern: lower CSC columns, the rows of each in any order. -/
structure LowerPattern where
  n : ℕ
  csc : Csr ℕ
  lower : ∀ j < n, ∀ i ∈ csc.slice j, j ≤ i ∧ i < n

/-- `(i, j)` is an entry below the diagonal. -/
def LowerPattern.adj (A : LowerPattern) (i j : ℕ) : Prop := j < i ∧ j < A.n ∧ i ∈ A.csc.slice j

structure EliminationTree where
  parent : ℕ → Option ℕ
  postorder : List ℕ
  maxDepth : ℕ

/-! ## Liu's algorithm -/

/-- The tree of the rows done, and a shortcut up from each vertex. -/
structure Links where
  parent : ℕ → Option ℕ
  ancestor : ℕ → Option ℕ

/-- The way up from `r` along the shortcuts, each then led to `k`. -/
def climb (k : ℕ) : ℕ → (ℕ → Option ℕ) → ℕ → Option ((ℕ → Option ℕ) × ℕ)
  | 0, _, _ => none
  | fuel + 1, ancestor, r =>
    match ancestor r with
    | none => some (ancestor, r)
    | some t =>
      if t = k then some (ancestor, r)
      else climb k fuel (Function.update ancestor r (some k)) t

/-- The entry in column `r` of row `k`. -/
def linkEntry (n k : ℕ) (s : Links) (r : ℕ) : Option Links :=
  (climb k n s.ancestor r).map fun c =>
    if c.1 c.2 = none then
      { parent := Function.update s.parent c.2 (some k)
        ancestor := Function.update c.1 c.2 (some k) }
    else { s with ancestor := c.1 }

/-- The rows of the pattern, one after another. -/
def linkRows (n : ℕ) (row : ℕ → List ℕ) : Option Links :=
  (List.range n).foldlM (fun s k => (row k).foldlM (linkEntry n k) s)
    ⟨fun _ => none, fun _ => none⟩

/-! ## The postorder -/

/-- The children of each vertex. -/
def childrenCsr (n : ℕ) (parent : ℕ → Option ℕ) : Csr ℕ :=
  Csr.ofItems n ((List.range n).filterMap fun j => (parent j).map (·, j)) fun _ => 0

/-- The stack with the roots, pushed from the last one on. -/
def rootStack (n : ℕ) (isRoot : ℕ → Bool) : List (ℕ × ℕ) :=
  (List.range n).reverse.foldl (fun stk j => if isRoot j then (j, 0) :: stk else stk) []

/-- The depth of every vertex and the largest one, along the postorder. -/
def treeDepths (parent : ℕ → Option ℕ) (postorder : List ℕ) : (ℕ → ℕ) × ℕ :=
  postorder.foldl
    (fun d j =>
      (match parent j with
        | none => d.1
        | some p => Function.update d.1 p (max (d.1 p) (d.1 j + 1)),
        max d.2 (d.1 j)))
    (fun _ => 0, 0)

/-- `etree_postorder`: the postorder and the depth of the forest. -/
def etreePostorder (n : ℕ) (parent : ℕ → Option ℕ) : Option (List ℕ × ℕ) :=
  (dfs (childrenCsr n parent).get? (2 * n + 1) (rootStack n fun j => (parent j).isNone)
    []).map fun postorder =>
    (postorder, (treeDepths parent postorder).2)

/-- `finish_elimination_tree`. -/
def finishEliminationTree (n : ℕ) (parent : ℕ → Option ℕ) : Option EliminationTree :=
  (etreePostorder n parent).map fun r => ⟨parent, r.1, r.2⟩

/-! ## The builders -/

/-- The pattern's rows: the columns of each, transposed from the lower columns. -/
def upperRows (A : LowerPattern) : Csr ℕ :=
  Csr.ofItems A.n
    ((List.range A.n).flatMap fun j => ((A.csc.slice j).filter (· ≠ j)).map fun i => (i, j))
    fun _ => 0

/-- `build_elimination_tree`. -/
def buildEliminationTree (A : LowerPattern) : Option EliminationTree :=
  (linkRows A.n (upperRows A).slice).bind fun s => finishEliminationTree A.n s.parent

/-- `build_elimination_tree_from_rows`: what lies on the diagonal or beyond is skipped. -/
def buildEliminationTreeFromRows (n : ℕ) (rows : Csr ℕ) : Option EliminationTree :=
  (linkRows n fun k => (rows.slice k).filter (· < k)).bind fun s => finishEliminationTree n s.parent

/-- `etree_from_adjacency`: row `k` of the permuted matrix is the old vertex `perm k`. -/
def etreeFromAdjacency (n : ℕ) (adjacency : Csr ℕ) (perm iperm : ℕ → ℕ) : Option (ℕ → Option ℕ) :=
  (linkRows n fun k => ((adjacency.slice (perm k)).map iperm).filter (· < k)).map (·.parent)

end Symbolic
end SmfSolver
