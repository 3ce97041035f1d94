/-
  SmfSolver.Symbolic.MatchingOrder

  The matching-based compressed ordering (`matching_order_from` of
  `ordering_matching.cpp`).

  The cycles and paths of the matching are split into pairs of adjacent members, each pair
  with a diagonal too small for a 1x1 pivot becomes one node of a compressed graph, and an
  order of that graph is expanded, pairs adjacent.

  Values are numbers of an ordered field.  `Orderings` stands for what is not decided here:
  `log` of the couplings, the orderings of a graph (AMD's and METIS's) and which of the two
  is kept.
-/
import SmfSolver.Symbolic.Adjacency
import Mathlib.Algebra.Order.Field.Basic

namespace SmfSolver
namespace Symbolic

open Lib

variable {K : Type*} [Field K] [LinearOrder K]

/-- The matching: the row of each column, if any, and the scaling. -/
structure MatchingInput (K : Type*) where
  sigma : ℕ → Option ℕ
  scale : ℕ → K

/-! ## Scaled entries -/

/-- Scaled |diagonal| and scaled |matched entry| of every column. -/
structure ScaledEntries (K : Type*) where
  diag : ℕ → K
  matched : ℕ → K

/-- The entry at position `p` of column `j`. -/
def scaleEntry (A : LowerPattern) (values : ℕ → K) (mr : MatchingInput K) (j : ℕ)
    (s : ScaledEntries K) (p : ℕ) : ScaledEntries K :=
  let i := A.csc.item p
  let v := |values p| * mr.scale i * mr.scale j
  let s₁ := if i = j then { s with diag := Function.update s.diag j v } else s
  let s₂ := if mr.sigma j = some i then
    { s₁ with matched := Function.update s₁.matched j v } else s₁
  if i ≠ j ∧ mr.sigma i = some j then { s₂ with matched := Function.update s₂.matched i v } else s₂

def scaledEntries (A : LowerPattern) (values : ℕ → K) (mr : MatchingInput K) : ScaledEntries K :=
  (List.range A.n).foldl
    (fun s j => (List.range' (A.csc.ptr j) (A.csc.ptr (j + 1) - A.csc.ptr j)).foldl
      (scaleEntry A values mr j) s)
    ⟨fun _ => 0, fun _ => 0⟩

/-! ## Pairs -/

/-- The pairs so far, and the columns on cycles and paths already walked. -/
structure PairState where
  partner : ℕ → Option ℕ
  seen : ℕ → Bool

/-- The members from `c` on along the matching, up to one that was seen. -/
def walkCycle (sigma : ℕ → Option ℕ) : ℕ → Option ℕ → (ℕ → Bool) → List ℕ →
    Option ((ℕ → Bool) × List ℕ)
  | _, none, seen, cyc => some (seen, cyc)
  | 0, some _, _, _ => none
  | fuel + 1, some c, seen, cyc =>
    if seen c then some (seen, cyc)
    else walkCycle sigma fuel (sigma c) (Function.update seen c true) (cyc ++ [c])

/-- Whether an even cycle is paired from its second member on: the larger product of couplings. -/
def secondAlternation (coupling : ℕ → K) (cyc : List ℕ) : Bool :=
  let w := cyc.zipIdx.foldl
    (fun (w : K × K) e => if e.2 % 2 = 0 then (w.1 + coupling e.1, w.2)
      else (w.1, w.2 + coupling e.1))
    (0, 0)
  decide (w.1 < w.2)

/-- The place of the member with the largest diagonal. -/
def bestDiagonal (diag : ℕ → K) (cyc : List ℕ) : ℕ :=
  (List.range' 1 (cyc.length - 1)).foldl
    (fun single t => if diag (cyc.getD single 0) < diag (cyc.getD t 0) then t else single) 0

/-- Where the pairs of a cycle or path start. -/
def firstPaired (sigma : ℕ → Option ℕ) (diag coupling : ℕ → K) (cyc : List ℕ) : ℕ :=
  if cyc.getLast?.bind sigma ≠ cyc.head? then 0
  else if cyc.length % 2 = 0 then if secondAlternation coupling cyc then 1 else 0
  else bestDiagonal diag cyc + 1

/-- Pair `q` of a cycle or path, when one diagonal is too small for a 1x1 pivot. -/
def linkPair (diag : ℕ → K) (pairTol : K) (cyc : List ℕ) (first : ℕ)
    (partner : ℕ → Option ℕ) (q : ℕ) :
    ℕ → Option ℕ :=
  let a := cyc.getD ((first + 2 * q) % cyc.length) 0
  let b := cyc.getD ((first + 2 * q + 1) % cyc.length) 0
  if min (diag a) (diag b) < pairTol then
    Function.update (Function.update partner a (some b)) b (some a)
  else partner

/-- The cycle or path at `start`. -/
def pairCycle (n : ℕ) (sigma : ℕ → Option ℕ) (diag coupling : ℕ → K) (pairTol : K)
    (skip : ℕ → Bool) (s : PairState) (start : ℕ) : Option PairState :=
  if s.seen start || skip start then some s
  else
    (walkCycle sigma (n + 1) (some start) s.seen []).map fun (seen, cyc) =>
      if cyc.length < 2 then { s with seen }
      else
        { partner := (List.range (cyc.length / 2)).foldl
            (linkPair diag pairTol cyc (firstPaired sigma diag coupling cyc)) s.partner
          seen }

/-- Columns some column is matched to. -/
def hasPred (n : ℕ) (sigma : ℕ → Option ℕ) : ℕ → Bool :=
  (List.range n).foldl
    (fun h j =>
      match sigma j with
      | none => h
      | some i => Function.update h i true)
    fun _ => false

/-- The pairs: open paths first, from their heads, then the cycles. -/
def matchingPairs (n : ℕ) (sigma : ℕ → Option ℕ) (diag coupling : ℕ → K) (pairTol : K) :
    Option PairState := do
  let s ← (List.range n).foldlM (pairCycle n sigma diag coupling pairTol (hasPred n sigma))
    ⟨fun _ => none, fun _ => false⟩
  (List.range n).foldlM (pairCycle n sigma diag coupling pairTol fun _ => false) s

/-! ## The compressed graph -/

/-- The node of every column, the first column of every node, and the pairs counted. -/
structure NodeState where
  nodeOf : ℕ → ℕ
  firstOf : List ℕ
  npaired : ℕ

def addNode (partner : ℕ → Option ℕ) (s : NodeState) (i : ℕ) : NodeState :=
  let fresh : NodeState :=
    { s with nodeOf := Function.update s.nodeOf i s.firstOf.length, firstOf := s.firstOf ++ [i] }
  match partner i with
  | none => fresh
  | some p =>
    if p < i then
      { s with nodeOf := Function.update s.nodeOf i (s.nodeOf p), npaired := s.npaired + 1 }
    else fresh

/-- One node per pair or unpaired column. -/
def compressedNodes (n : ℕ) (partner : ℕ → Option ℕ) : NodeState :=
  (List.range n).foldl (addNode partner) ⟨fun _ => 0, [], 0⟩

/-- The edges between different nodes, sorted by their smaller node. -/
def compressedEdges (A : LowerPattern) (nodeOf : ℕ → ℕ) (nnodes : ℕ) : Csr ℕ :=
  Csr.ofItems nnodes
    ((List.range A.n).flatMap fun j => (A.csc.slice j).filterMap fun i =>
      if nodeOf i ≠ nodeOf j then some (min (nodeOf i) (nodeOf j), max (nodeOf i) (nodeOf j))
      else none)
    fun _ => 0

/-- The columns while duplicates are removed in place. -/
structure Compaction where
  ptr : ℕ → ℕ
  row : ℕ → ℕ
  mark : ℕ → Option ℕ
  out : ℕ

/-- The row at `p` of column `J` is kept when it is the first of its kind. -/
def keepRow (J : ℕ) (s : Compaction) (p : ℕ) : Compaction :=
  let I := s.row p
  if s.mark I = some J then s
  else
    { s with
      mark := Function.update s.mark I (some J)
      row := Function.update s.row s.out I
      out := s.out + 1 }

def compactColumn (s : Compaction) (J : ℕ) : Compaction :=
  (List.range' (s.ptr J) (s.ptr (J + 1) - s.ptr J)).foldl (keepRow J)
    { s with ptr := Function.update s.ptr J s.out }

/-- Duplicates removed from every column. -/
def removeDuplicates (nnodes : ℕ) (edges : Csr ℕ) : Csr ℕ :=
  let s := (List.range nnodes).foldl compactColumn ⟨edges.ptr, edges.item, fun _ => none, 0⟩
  ⟨Function.update s.ptr nnodes s.out, s.row⟩

/-! ## The order -/

/-- What is taken from elsewhere: the logarithm of a coupling, AMD's and METIS's orders of a
    graph, and from the two expanded orders whether METIS's is tried and kept. -/
structure Orderings (K : Type*) where
  log : K → K
  amd : ℕ → Csr ℕ → Option (List ℕ)
  metis : ℕ → Csr ℕ → Option (List ℕ)
  tryMetis : List ℕ → Bool
  keepMetis : List ℕ → List ℕ → Bool

/-- The compressed order and the pairs it keeps adjacent. -/
structure MatchingOrder where
  perm : List ℕ
  partner : ℕ → Option ℕ
  nodes : NodeState
  graph : Csr ℕ

/-- A node's columns, one or two. -/
def nodeColumns (partner : ℕ → Option ℕ) (firstOf : List ℕ) (J : ℕ) : List ℕ :=
  let a := firstOf.getD J 0
  a :: (partner a).toList

/-- `expand`: an order of the nodes in the original numbering. -/
def expandOrder (partner : ℕ → Option ℕ) (firstOf nodePerm : List ℕ) : List ℕ :=
  nodePerm.flatMap (nodeColumns partner firstOf)

/-- METIS's order when it is tried and kept, else AMD's. -/
def keptOrder (ord : Orderings K) (graph : Csr ℕ) (partner : ℕ → Option ℕ) (firstOf : List ℕ)
    (amdPerm : List ℕ) : List ℕ :=
  if ord.tryMetis amdPerm then
    match ord.metis firstOf.length graph with
    | none => amdPerm
    | some mperm =>
      let metisPerm := expandOrder partner firstOf mperm
      if ord.keepMetis metisPerm amdPerm then metisPerm else amdPerm
  else amdPerm

/-- `matching_order_from`; `some none` for an empty matrix and when AMD fails. -/
def matchingOrderFrom (A : LowerPattern) (values : ℕ → K) (mr : MatchingInput K) (pairTol tiny : K)
    (ord : Orderings K) : Option (Option MatchingOrder) :=
  if A.n = 0 then some none
  else
  let s := scaledEntries A values mr
  let coupling := fun c => ord.log (max (s.matched c) tiny)
  (matchingPairs A.n mr.sigma s.diag coupling pairTol).map fun pairs =>
    let nodes := compressedNodes A.n pairs.partner
    let nnodes := nodes.firstOf.length
    let graph := lowerCscAdjacency nnodes
      (removeDuplicates nnodes (compressedEdges A nodes.nodeOf nnodes))
    -- the compressed graph is ordered, and each node gives its one or two vertices
    (ord.amd nnodes graph).map fun nodePerm =>
      let perm := keptOrder ord graph pairs.partner nodes.firstOf
        (expandOrder pairs.partner nodes.firstOf nodePerm)
      ⟨perm, pairs.partner, nodes, graph⟩

end Symbolic
end SmfSolver
