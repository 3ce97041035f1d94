/-
  SmfSolver.Symbolic.UserOrder

  The analysis in a given order (`Solver::analyse` of `symbolic_analysis.cpp` under
  `OrderingMethod::UserSupplied`): the check of the order and its 2x2 pairs, the
  elimination tree and column counts of the permuted pattern, the relabelling by the
  postorder, the amalgamation and the final permutation.

  Arrays from the caller hold any integers; -1 marks what is not set in `userIperm`.
-/
import SmfSolver.Symbolic.Adjacency
import SmfSolver.Symbolic.Supernodes

namespace SmfSolver
namespace Symbolic

open Lib
open Multifrontal (Supernode)

/-- The caller's order: `perm k` is the column at position `k`, pair `k` the columns
    `pairFirst (2 k)` and `pairFirst (2 k + 1)`. -/
structure UserOrder where
  perm : Option (ℕ → ℤ)
  numPairs : ℤ
  pairFirst : Option (ℕ → ℤ)

/-- The pairs of the order. -/
def UserOrder.pairs (u : UserOrder) : List (ℤ × ℤ) :=
  match u.pairFirst with
  | none => []
  | some pf => (List.range u.numPairs.toNat).map fun k => (pf (2 * k), pf (2 * k + 1))

/-- The column at position `k`, when it is a column without a position. -/
def placeColumn (n : ℕ) (perm : ℕ → ℤ) (iperm : ℕ → ℤ) (k : ℕ) : Option (ℕ → ℤ) :=
  let old := perm k
  if 0 ≤ old ∧ old < n ∧ iperm old.toNat < 0 then some (Function.update iperm old.toNat k) else none

/-- `user_iperm`: the position of every column, when `perm` is a permutation of `[0, n)`. -/
def userIperm (n : ℕ) (perm : ℕ → ℤ) : Option (ℕ → ℤ) :=
  (List.range n).foldlM (placeColumn n perm) fun _ => -1

/-- The two columns are next to each other in the order. -/
def pairAdjacent (n : ℕ) (iperm : ℕ → ℤ) (pair : ℤ × ℤ) : Bool :=
  decide (0 ≤ pair.1 ∧ pair.1 < n ∧ 0 ≤ pair.2 ∧ pair.2 < n ∧
    |iperm pair.1.toNat - iperm pair.2.toNat| = 1)

/-- The order and its inverse, when it is legal. -/
def checkUserOrder (n : ℕ) (u : UserOrder) : Option ((ℕ → ℤ) × (ℕ → ℤ)) :=
  match u.perm with
  | none => none
  | some perm =>
    if 0 ≤ u.numPairs ∧ (u.numPairs = 0 ∨ u.pairFirst.isSome) then
      (userIperm n perm).bind fun iperm =>
        if u.pairs.all (pairAdjacent n iperm) then some (perm, iperm) else none
    else none

/-- The elimination tree of an order, its postorder and the column counts. -/
structure SymbolicCounts where
  parent : ℕ → Option ℕ
  post : List ℕ
  depth : ℕ
  colcount : ℕ → ℤ

/-- `symbolic_counts`. -/
def symbolicCounts (n : ℕ) (adjacency : Csr ℕ) (perm : List ℕ) : Option SymbolicCounts := do
  let iperm := positions perm
  let parent ← etreeFromAdjacency n adjacency (perm.getD · 0) iperm
  let (post, depth) ← etreePostorder n parent
  let colcount ← filledColumnCountsFromAdjacency n adjacency (perm.getD · 0) iperm parent post
  some ⟨parent, post, depth, colcount⟩

/-- The flagged columns and the pairs that are split. -/
structure PairFlags where
  keep : ℕ → Bool
  pairsSplit : ℕ

/-- A pair: its earlier column is flagged when the later one is its parent. -/
def flagPair (iperm : ℕ → ℤ) (parent : ℕ → Option ℕ) (invPo : ℕ → ℕ) (s : PairFlags)
    (pair : ℤ × ℤ) : PairFlags :=
  let p₁ := (iperm pair.1.toNat).toNat
  let p₂ := (iperm pair.2.toNat).toNat
  let (pa, pb) := if p₁ > p₂ then (p₂, p₁) else (p₁, p₂)
  if parent pa = some pb then { s with keep := Function.update s.keep (invPo pa) true }
  else { s with pairsSplit := s.pairsSplit + 1 }

/-- What the analysis keeps of the order, the tree and the supernodes. -/
structure OrderKeep where
  perm : List ℕ
  iperm : ℕ → ℕ
  etree : EliminationTree
  supernodes : List Supernode
  pairsSplit : ℕ

/-- Steps 5 and 6 of the analysis in the order `perm`, with the pairs of the caller. -/
def analyseOrder (n : ℕ) (adjacency : Csr ℕ) (perm : List ℕ) (userIperm : ℕ → ℤ)
    (pairs : List (ℤ × ℤ)) (nemin : ℤ) (rule : Amalgamation) : Option OrderKeep := do
  let sym ← symbolicCounts n adjacency perm
  let invPo := positions sym.post
  -- tree and counts in postorder, where amalgamation works
  let parent₁ := fun k => (sym.parent (sym.post.getD k 0)).map invPo
  let colcount₁ := fun k => sym.colcount (sym.post.getD k 0)
  let flags := pairs.foldl (flagPair userIperm sym.parent invPo) ⟨fun _ => false, 0⟩
  let out ← amalgamateRelaxed n parent₁ colcount₁ nemin
    (if pairs = [] then none else some flags.keep) rule
  -- and back from the order of the supernodes
  let invOrder := positions out.order
  let permFinal := out.order.map fun k₁ => perm.getD (sym.post.getD k₁ 0) 0
  some {
    perm := permFinal
    iperm := positions permFinal
    etree :=
      { parent := fun k => (parent₁ (out.order.getD k 0)).map invOrder
        postorder := (List.range n).map invOrder
        maxDepth := sym.depth }
    supernodes := out.snodes
    pairsSplit := flags.pairsSplit }

/-- The analysis of a cleaned pattern in a given order; `some none` is `IllegalValue`. -/
def analyseUserOrder (A : LowerPattern) (u : UserOrder) (nemin : ℤ) (rule : Amalgamation) :
    Option (Option OrderKeep) :=
  match checkUserOrder A.n u with
  | none => some none
  | some (perm, iperm) =>
    (analyseOrder A.n (lowerCscAdjacency A.n A.csc) ((List.range A.n).map fun k => (perm k).toNat)
      iperm u.pairs nemin rule).map some

end Symbolic
end SmfSolver
