/-
  SmfSolver.Symbolic.ColumnCounts

  Column counts of the factor by Gilbert, Ng and Peyton (`gnp_column_counts` of
  `supernode_detection.cpp`) and the routines built on it.

  Each row subtree adds a one at its leaves and takes one away at the least common
  ancestor of every two leaves that follow each other in the postorder; the counts are the
  sums of these weights over the subtrees.
-/
import SmfSolver.Symbolic.Etree

namespace SmfSolver
namespace Symbolic

open Lib

/-- The first descendants while they are filled in, -1 where there is none yet, and the
    weights. -/
structure FirstState where
  delta : ℕ → ℤ
  first : ℕ → ℤ

/-- `k` is the first descendant of `j` and of what lies above it, up to a vertex that has
    one. -/
def setFirst (parent : ℕ → Option ℕ) (k : ℕ) : ℕ → (ℕ → ℤ) → ℕ → Option (ℕ → ℤ)
  | 0, _, _ => none
  | fuel + 1, first, j =>
    if first j = -1 then
      match parent j with
      | none => some (Function.update first j k)
      | some p => setFirst parent k fuel (Function.update first j k) p
    else some first

/-- Vertex `j`, the `k`-th of the postorder; a leaf starts with weight 1. -/
def firstStep (n : ℕ) (parent : ℕ → Option ℕ) (s : FirstState) (e : ℕ × ℕ) : Option FirstState :=
  (setFirst parent e.2 (n + 1) s.first e.1).map fun first =>
    { delta := Function.update s.delta e.1 (if s.first e.1 = -1 then 1 else 0), first }

/-- The arrays of the pass over the columns. -/
structure LeafState where
  delta : ℕ → ℤ
  ancestor : ℕ → ℕ
  maxfirst : ℕ → ℤ
  prevleaf : ℕ → Option ℕ

/-- The end of the ancestor links from `q`. -/
def findRoot (ancestor : ℕ → ℕ) : ℕ → ℕ → Option ℕ
  | 0, _ => none
  | fuel + 1, q => if q = ancestor q then some q else findRoot ancestor fuel (ancestor q)

/-- The ancestor links from `s` on led to `q`. -/
def compressTo (q : ℕ) : ℕ → (ℕ → ℕ) → ℕ → Option (ℕ → ℕ)
  | 0, _, _ => none
  | fuel + 1, ancestor, s =>
    if s = q then some ancestor
    else compressTo q fuel (Function.update ancestor s q) (ancestor s)

/-- The entry in row `i` of column `j`. -/
def leafEntry (n : ℕ) (first : ℕ → ℤ) (j : ℕ) (s : LeafState) (i : ℕ) : Option LeafState :=
  -- `j` is no leaf of the row subtree of `i`
  if first j ≤ s.maxfirst i then some s
  else
    let s₁ : LeafState :=
      { s with
        maxfirst := Function.update s.maxfirst i (first j)
        prevleaf := Function.update s.prevleaf i (some j)
        delta := Function.update s.delta j (s.delta j + 1) }
    match s.prevleaf i with
    | none => some s₁
    | some jprev => do
      -- the least common ancestor of this leaf and the one before is counted twice
      let q ← findRoot s₁.ancestor (n + 1) jprev
      let ancestor ← compressTo q (n + 1) s₁.ancestor jprev
      some { s₁ with ancestor, delta := Function.update s₁.delta q (s₁.delta q - 1) }

/-- Column `j` of the postorder. -/
def leafColumn (n : ℕ) (parent : ℕ → Option ℕ) (below : ℕ → List ℕ) (first : ℕ → ℤ)
    (s : LeafState) (j : ℕ) : Option LeafState :=
  let s₁ : LeafState :=
    match parent j with
    | none => s
    | some p => { s with delta := Function.update s.delta p (s.delta p - 1) }
  ((below j).foldlM (leafEntry n first j) s₁).map fun s₂ =>
    match parent j with
    | none => s₂
    | some p => { s₂ with ancestor := Function.update s₂.ancestor j p }

/-- The weights summed over the subtrees. -/
def sumUp (n : ℕ) (parent : ℕ → Option ℕ) (delta : ℕ → ℤ) : ℕ → ℤ :=
  (List.range n).foldl
    (fun d j =>
      match parent j with
      | none => d
      | some p => Function.update d p (d p + d j))
    delta

/-- `gnp_column_counts`: `below j` are the rows below the diagonal of column `j`. -/
def gnpColumnCounts (n : ℕ) (parent : ℕ → Option ℕ) (post : List ℕ) (below : ℕ → List ℕ) :
    Option (ℕ → ℤ) := do
  let s ← post.zipIdx.foldlM (firstStep n parent) ⟨fun _ => 0, fun _ => -1⟩
  let t ← post.foldlM (leafColumn n parent below s.first)
    ⟨s.delta, id, fun _ => -1, fun _ => none⟩
  some (sumUp n parent t.delta)

/-- The columns of the strict lower triangle, from its rows. -/
def columnForm (n : ℕ) (rows : Csr ℕ) : Csr ℕ :=
  Csr.ofItems n
    ((List.range n).flatMap fun i => ((rows.slice i).filter (· < i)).map fun j => (j, i))
    fun _ => 0

/-- `filled_column_counts_from_rows`. -/
def filledColumnCountsFromRows (n : ℕ) (rows : Csr ℕ) (et : EliminationTree) : Option (ℕ → ℤ) :=
  gnpColumnCounts n et.parent et.postorder (columnForm n rows).slice

/-- `filled_column_counts_from_adjacency`: the neighbours numbered above `j`. -/
def filledColumnCountsFromAdjacency (n : ℕ) (adjacency : Csr ℕ) (perm iperm : ℕ → ℕ)
    (parent : ℕ → Option ℕ) (postorder : List ℕ) : Option (ℕ → ℤ) :=
  gnpColumnCounts n parent postorder fun j =>
    ((adjacency.slice (perm j)).map iperm).filter (j < ·)

/-- `filled_col_counts`. -/
def filledColCounts (A : LowerPattern) (et : EliminationTree) : Option (ℕ → ℤ) :=
  filledColumnCountsFromRows A.n
    (Csr.ofItems A.n
      ((List.range A.n).flatMap fun k => ((A.csc.slice k).filter (k < ·)).map fun i => (i, k))
      fun _ => 0)
    et

end Symbolic
end SmfSolver
