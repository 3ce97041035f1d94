/-
  SmfSolver.Symbolic.Supernodes

  Fundamental supernodes and their amalgamation (`supernode_detection.cpp`).

  `amalgamateRelaxed` merges fundamental supernodes bottom-up into their parents, under
  the rules of `takeMerge` or by force, and numbers the groups in the postorder of the
  group tree.  `amalgamateSupernodes` is the older pass over neighbours.
-/
import SmfSolver.Multifrontal.AssemblyTree
import SmfSolver.Symbolic.ColumnCounts
import Mathlib.Algebra.Order.Field.Rat

namespace SmfSolver
namespace Symbolic

open Lib
open Multifrontal (Supernode)

inductive Amalgamation where
  | smf
  | smfPlusCholmod
  | costModel
  deriving DecidableEq

def kAmalgamateFreeZeros : ℤ := 16

def kAmalgamateMaxZeroShare : ℚ := 3 / 10

def kCostWordFlops : ℚ := 2

def kCostMinBlock : ℤ := 128

/-! ## Fundamental supernodes -/

/-- Number of children in the elimination tree. -/
def countChildren (n : ℕ) (parent : ℕ → Option ℕ) : ℕ → ℕ :=
  (List.range n).foldl
    (fun c j =>
      match parent j with
      | none => c
      | some p => Function.update c p (c p + 1))
    fun _ => 0

/-- The supernodes found so far: the first column of each, how many there are, and the
    supernode of every column. -/
structure Fundamental where
  first : ℕ → ℕ
  nsn : ℕ
  snodeOf : ℕ → ℕ

/-- Column `j` does not continue the supernode of the column before it. -/
def startsSnode (parent : ℕ → Option ℕ) (nchildren : ℕ → ℕ) (colcount : ℕ → ℤ) (j : ℕ) : Bool :=
  decide (j = 0) || decide (parent (j - 1) ≠ some j) || decide (nchildren j ≠ 1)
    || decide (colcount (j - 1) ≠ colcount j + 1)

def addColumn (starts : ℕ → Bool) (s : Fundamental) (j : ℕ) : Fundamental :=
  if starts j then
    { first := Function.update s.first s.nsn j
      nsn := s.nsn + 1
      snodeOf := Function.update s.snodeOf j s.nsn }
  else { s with snodeOf := Function.update s.snodeOf j (s.nsn - 1) }

/-- The fundamental supernodes of the postordered numbering; `first nsn` is the end. -/
def fundamental (n : ℕ) (parent : ℕ → Option ℕ) (colcount : ℕ → ℤ) : Fundamental :=
  let s := (List.range n).foldl
    (addColumn (startsSnode parent (countChildren n parent) colcount)) ⟨fun _ => 0, 0, fun _ => 0⟩
  { s with first := Function.update s.first s.nsn n }

namespace Fundamental

variable (F : Fundamental)

/-- The last column of a supernode. -/
def lastCol (s : ℕ) : ℕ := F.first (s + 1) - 1

def width (s : ℕ) : ℕ := F.first (s + 1) - F.first s

/-- `sparent`: the supernode of the parent of the last column. -/
def sparent (parent : ℕ → Option ℕ) (s : ℕ) : Option ℕ := (parent (F.lastCol s)).map F.snodeOf

end Fundamental

/-- `detect_fundamental_supernodes`, from the counts of the filled columns. -/
def detectSupernodes (n : ℕ) (parent : ℕ → Option ℕ) (colcount : ℕ → ℤ) : List Supernode :=
  let F := fundamental n parent colcount
  (List.range F.nsn).map fun s => ⟨F.first s, F.first (s + 1), F.sparent parent s⟩

/-- `detect_fundamental_supernodes`. -/
def detectFundamentalSupernodes (A : LowerPattern) (et : EliminationTree) :
    Option (List Supernode) :=
  (filledColCounts A et).map (detectSupernodes A.n et.parent)

/-! ## Merging neighbours -/

/-- The supernodes while neighbours are merged. -/
structure Merging where
  colStart : ℕ → ℕ
  dead : ℕ → Bool

/-- Supernode `s` is merged into its parent when both are narrow and it ends where the parent
    begins. -/
def mergeNeighbour (snodes : ℕ → Supernode) (nemin : ℤ) (m : Merging) (s : ℕ) : Merging :=
  if m.dead s then m
  else
    match (snodes s).parent with
    | none => m
    | some p =>
      if m.dead p then m
      else if ((snodes s).colEnd : ℤ) - m.colStart s < nemin ∧
          ((snodes p).colEnd : ℤ) - m.colStart p < nemin ∧ (snodes s).colEnd = m.colStart p then
        { colStart := Function.update m.colStart p (m.colStart s)
          dead := Function.update m.dead s true }
      else m

/-- The first parent that is alive. -/
def liveParent (snodes : ℕ → Supernode) (dead : ℕ → Bool) : ℕ → Option ℕ → Option (Option ℕ)
  | _, none => some none
  | 0, some _ => none
  | fuel + 1, some p =>
    if dead p then liveParent snodes dead fuel (snodes p).parent else some (some p)

/-- `amalgamate_supernodes`. -/
def amalgamateSupernodes (l : List Supernode) (nemin : ℤ) : Option (List Supernode) :=
  if nemin ≤ 1 then some l
  else
    let nsn := l.length
    let snodes := fun s => l.getD s ⟨0, 0, none⟩
    let m := (List.range nsn).foldl (mergeNeighbour snodes nemin)
      ⟨fun s => (snodes s).colStart, fun _ => false⟩
    let valid := (List.range nsn).filter fun s => !m.dead s
    valid.mapM fun s =>
      (liveParent snodes m.dead (nsn + 1) (snodes s).parent).map fun par =>
        ⟨m.colStart s, (snodes s).colEnd, par.map valid.idxOf⟩

/-! ## Relaxed amalgamation -/

/-- `cb_merge_pays`: the flops a merge adds cost less than the words it saves. -/
def cbMergePays (pc qc fp : ℤ) : Bool :=
  if qc < kCostMinBlock then false
  else
    let z := max (fp - qc) 0
    decide ((pc : ℚ) * z * (pc + fp + qc + kCostWordFlops) < 3 * kCostWordFlops * qc * qc)

/-- The groups while supernodes are merged: the supernode each was merged into, and the
    eliminated columns and true entries of each. -/
structure Groups where
  group : ℕ → ℕ
  nelim : ℕ → ℤ
  fill : ℕ → ℤ

/-- The rows below the last column of a supernode. -/
def rowsBelow (F : Fundamental) (colcount : ℕ → ℤ) (s : ℕ) : ℤ := colcount (F.lastCol s) - 1

/-- Whether supernode `s` is merged into its parent `p`. -/
def takeMerge (F : Fundamental) (colcount : ℕ → ℤ) (nemin : ℤ) (rule : Amalgamation) (G : Groups)
    (s p : ℕ) : Bool :=
  let stored := fun (g : ℕ) (cols : ℤ) => cols * (cols + rowsBelow F colcount g)
  let k := G.nelim s + G.nelim p
  let entries := stored p k
  let zeros := entries - G.fill s - G.fill p
  let added := entries - stored s (G.nelim s) - stored p (G.nelim p)
  -- two narrow supernodes merge, unless that stores too many zeros
  let narrow := decide (G.nelim s < nemin ∧ G.nelim p < nemin) &&
    !(decide (kAmalgamateFreeZeros < added) &&
      decide (kAmalgamateMaxZeroShare * (entries : ℚ) < (zeros : ℚ)))
  let cost := decide (rule = .costModel ∧ 1 < nemin) &&
    cbMergePays (G.nelim s) (rowsBelow F colcount s) (G.nelim p + rowsBelow F colcount p)
  let z : ℚ := zeros / entries
  -- the wider they get, the smaller the share of zeros that is let through
  let cholmod := decide (rule = .smfPlusCholmod ∧ 1 < nemin) &&
    decide (k ≤ 4 ∨ added ≤ 0 ∨ k ≤ 16 ∧ z < 4 / 5 ∨ k ≤ 48 ∧ z < 1 / 10 ∨ z < 1 / 20)
  narrow || cost || cholmod

/-- Supernode `s`, merged into its parent when it is forced or the rules take it. -/
def mergeStep (F : Fundamental) (parent : ℕ → Option ℕ)
    (take : Groups → ℕ → ℕ → Bool) (G : Groups) (s : ℕ) : Groups :=
  match F.sparent parent s with
  | none => G
  | some p =>
    if take G s p then
      { group := Function.update G.group s p
        nelim := Function.update G.nelim p (G.nelim p + G.nelim s)
        fill := Function.update G.fill p (G.fill p + G.fill s) }
    else G

/-- The supernodes with a flagged column whose parent lies in another supernode. -/
def forcedSnodes (n : ℕ) (F : Fundamental) (parent : ℕ → Option ℕ) (keep : ℕ → Bool) :
    ℕ → Bool :=
  (List.range n).foldl
    (fun forced j =>
      match parent j with
      | none => forced
      | some p =>
        if keep j ∧ F.snodeOf p ≠ F.snodeOf j then Function.update forced (F.snodeOf j) true
        else forced)
    fun _ => false

/-- The entries of the columns of each supernode. -/
def trueEntries (n : ℕ) (F : Fundamental) (colcount : ℕ → ℤ) : ℕ → ℤ :=
  (List.range n).foldl
    (fun fill j => Function.update fill (F.snodeOf j) (fill (F.snodeOf j) + colcount j)) fun _ => 0

/-- The merges, bottom-up; `keep`: the columns that stay with their parent, if any are given. -/
def mergeGroups (n : ℕ) (F : Fundamental) (parent : ℕ → Option ℕ) (colcount : ℕ → ℤ) (nemin : ℤ)
    (rule : Amalgamation) (keep : Option (ℕ → Bool)) : Groups :=
  let G₀ : Groups := ⟨id, fun s => F.width s, fun _ => 0⟩
  match keep with
  | none =>
    if 1 < nemin then
      (List.range F.nsn).foldl (mergeStep F parent (takeMerge F colcount nemin rule))
        { G₀ with fill := trueEntries n F colcount }
    else G₀
  | some keep =>
    let forced := forcedSnodes n F parent keep
    -- with no supernode at all the flags are an empty array too
    if 1 < nemin ∨ 0 < F.nsn then
      (List.range F.nsn).foldl
        (mergeStep F parent fun G s p => forced s || takeMerge F colcount nemin rule G s p)
        { G₀ with fill := trueEntries n F colcount }
    else G₀

/-- Every supernode led to the survivor of its group, from the last one down. -/
def resolveGroups (nsn : ℕ) (group : ℕ → ℕ) : ℕ → ℕ :=
  (List.range nsn).reverse.foldl (fun g s => Function.update g s (g (g s))) group

/-- `gparent`: the parent of a group, -1 for one that was merged. -/
def groupParent (F : Fundamental) (parent : ℕ → Option ℕ) (group : ℕ → ℕ) (g : ℕ) : Option ℕ :=
  if group g = g then (F.sparent parent g).map group else none

/-- The children of each group. -/
def groupChildren (F : Fundamental) (parent : ℕ → Option ℕ) (group : ℕ → ℕ) : Csr ℕ :=
  Csr.ofItems F.nsn
    ((List.range F.nsn).filterMap fun g => (groupParent F parent group g).map (·, g)) fun _ => 0

/-- The widths of the supernodes, added up at the group after theirs. -/
def groupWidths (F : Fundamental) (group : ℕ → ℕ) : ℕ → ℕ :=
  (List.range F.nsn).foldl
    (fun c s => Function.update c (group s + 1) (c (group s + 1) + F.width s)) fun _ => 0

/-- The columns of each group, ascending. -/
def groupColumns (n : ℕ) (F : Fundamental) (group : ℕ → ℕ) : Csr ℕ :=
  let ptr := Csr.runningSums F.nsn (groupWidths F group)
  { ptr
    item := (Csr.scatter ((List.range n).map fun j => (group (F.snodeOf j), j))
      (ptr, fun _ => 0)).2 }

/-- The number of each group in the postorder. -/
def newIds (post : List ℕ) : ℕ → Option ℕ :=
  post.zipIdx.foldl (fun ids e => Function.update ids e.1 (some e.2)) fun _ => none

/-- The columns and supernodes in the postorder of the groups. -/
structure Numbered where
  order : List ℕ
  snodes : List Supernode

def numberGroup (columns : Csr ℕ) (gparent : ℕ → Option ℕ) (ids : ℕ → Option ℕ) (out : Numbered)
    (g : ℕ) : Numbered where
  order := out.order ++ columns.slice g
  snodes := out.snodes ++
    [⟨out.order.length, out.order.length + (columns.slice g).length, (gparent g).bind ids⟩]

/-- `amalgamate_relaxed`: the column order and the supernodes. -/
def amalgamateRelaxed (n : ℕ) (parent : ℕ → Option ℕ) (colcount : ℕ → ℤ) (nemin : ℤ)
    (keep : Option (ℕ → Bool)) (rule : Amalgamation) : Option Numbered :=
  let F := fundamental n parent colcount
  let group := resolveGroups F.nsn (mergeGroups n F parent colcount nemin rule keep).group
  let gparent := groupParent F parent group
  let columns := groupColumns n F group
  (dfs (groupChildren F parent group).get? (2 * F.nsn + 1)
      (rootStack F.nsn fun g => decide (group g = g) && (gparent g).isNone) []).map fun post =>
    post.foldl (numberGroup columns gparent (newIds post)) ⟨[], []⟩

end Symbolic
end SmfSolver
