/-
  SmfSolver.Factor.PivotOrder

  The elimination order read off a factor's D entries (`realized_pivot_order`), and the D
  entries as the engines leave them: the lean ones (`process_front`) in the analysis order
  with the zero pivots marked, the legacy tree-parallel one
  (`finalize_factor_from_front_results`) in its own numerical order, with no mark.

  The kernels are parameters: what they leave of a front's eligible columns is a
  `KernelPivots` or a `LegacyPivots`.
-/
import SmfSolver.Factor.ColumnFlow
import SmfSolver.Kernel.FrontResults

namespace SmfSolver
namespace Factor

open Multifrontal Kernel

/-! ## Reading the order -/

/-- What the order reads of an entry of D. -/
structure PivotEntry where
  tag : ℤ
  wasZero : Bool
  row0 : ℤ
  row1 : ℤ
  deriving DecidableEq, Repr

/-- What the order reads of a factor (`FactorKeep`). -/
structure FactorOrder where
  isPosdef : Bool := false
  perm : List ℕ
  diagEntries : List PivotEntry

structure RealizedOrder where
  perm : List ℕ := []
  pairs : List ℕ := []
  zeroPivots : ℕ := 0
  deriving DecidableEq, Repr

/-- The variables of the loop over the D entries. -/
structure OrderLoop where
  perm : List ℕ := []
  pairs : List ℕ := []
  zeros : List ℕ := []
  bad : Bool := false

/-- The lambda `orig`: no column for an index outside the factor's order. -/
def FactorOrder.orig (fk : FactorOrder) (n : ℕ) (piv : ℤ) : Option ℕ :=
  if piv < 0 ∨ fk.perm.length ≤ piv.toNat ∨ fk.perm.length ≠ n then none
  else some (fk.perm.getD piv.toNat 0)

namespace OrderLoop

variable (n : ℕ) (fk : FactorOrder)

def step (st : OrderLoop) (e : PivotEntry) : OrderLoop :=
  let a := fk.orig n e.row0
  if e.wasZero then
    { st with zeros := st.zeros ++ [a.getD 0], bad := st.bad || a.isNone }
  else if e.tag = 2 then
    let b := fk.orig n e.row1
    { st with
      perm := st.perm ++ [a.getD 0, b.getD 0]
      pairs := st.pairs ++ [a.getD 0, b.getD 0]
      bad := st.bad || a.isNone || b.isNone }
  else { st with perm := st.perm ++ [a.getD 0], bad := st.bad || a.isNone }

/-- The loop, until an entry is bad. -/
def run : List PivotEntry → OrderLoop → OrderLoop
  | [], st => st
  | e :: es, st =>
    let st := st.step n fk e
    if st.bad then st else run es st

end OrderLoop

/-- `realized_pivot_order`, for an analysis of order `n` with the permutation `akPerm`. -/
def realizedPivotOrder (n : ℕ) (akPerm : List ℕ) (fk : FactorOrder) : RealizedOrder :=
  if fk.isPosdef then { perm := akPerm }
  else
    let st := OrderLoop.run n fk fk.diagEntries {}
    let perm := st.perm ++ st.zeros
    if st.bad ∨ perm.length ≠ n then {}
    else { perm, pairs := st.pairs, zeroPivots := st.zeros.length }

/-! ## The lean engines -/

/-- What a lean kernel leaves of a front's eligible columns: their order, the tags, and how
    many are accepted. -/
structure KernelPivots (eligible : List ℤ) where
  rows : ℕ → ℤ
  tags : ℕ → ℤ
  numAccepted : ℕ
  accepted_le : numAccepted ≤ eligible.length
  perm : ((List.range eligible.length).map rows).Perm eligible
  tagged : Tagged tags numAccepted

namespace KernelPivots

variable {eligible : List ℤ} (kr : KernelPivots eligible) (isRoot : Bool)

/-- `p_store`: a root stores its unaccepted columns too. -/
def storedCount : ℕ :=
  if isRoot = true ∧ kr.numAccepted < eligible.length then eligible.length else kr.numAccepted

/-- The tags as they are stored. -/
def storedTags (c : ℕ) : ℤ :=
  if isRoot = true ∧ kr.numAccepted ≤ c ∧ c < eligible.length then 0 else kr.tags c

/-- The columns the front's parent gets. -/
def delayed : List ℤ :=
  if isRoot then [] else ((List.range eligible.length).map kr.rows).drop kr.numAccepted

/-- The front's pivots. -/
def pivots : List Pivot := pivotsOf kr.rows (kr.storedTags isRoot) (kr.storedCount isRoot)

end KernelPivots

/-- The D entry that column `c` of a front pushes, if it does. -/
def storedEntry (rows tags : ℕ → ℤ) (c : ℕ) : List PivotEntry :=
  if tags c = 0 then [⟨1, true, rows c, 0⟩]
  else if tags c = 2 then [⟨2, false, rows c, rows (c + 1)⟩]
  else if tags c = 1 then [⟨1, false, rows c, 0⟩]
  else []

/-- The D entries of a front's first `count` columns. -/
def storedEntries (rows tags : ℕ → ℤ) (count : ℕ) : List PivotEntry :=
  (List.range count).flatMap (storedEntry rows tags)

/-- Run the fronts in postorder; `step` computes a front's result from those before it. -/
def inPostorder {β : Type*} (none : β) (step : (ℕ → β) → ℕ → β) : ℕ → ℕ → β
  | 0 => fun _ => none
  | m + 1 => Function.update (inPostorder none step m) m (step (inPostorder none step m) m)

/-- The kernels of a lean factorization, on the fronts as they were assembled. -/
abbrev LeanKernels : Type := ℕ → (eligible : List ℤ) → KernelPivots eligible

section LeanFront

variable (T : AssemblyTree) (kernels : LeanKernels)

def isRoot (s : ℕ) : Bool := (T.parent s).isNone

/-- The first `num_elig` rows of a front: the children's delayed columns, then its own. -/
def eligibleColumns (delayed : ℕ → List ℤ) (s : ℕ) : List ℤ :=
  (T.children s).flatMap delayed ++ ownColumns T s

/-- The columns each front delays. -/
def leanDelayed : ℕ → List ℤ :=
  inPostorder []
    (fun delayed s => (kernels s (eligibleColumns T delayed s)).delayed (isRoot T s)) T.ns

/-- What the kernel left of front `s`. -/
def leanFront (s : ℕ) : KernelPivots (eligibleColumns T (leanDelayed T kernels) s) :=
  kernels s (eligibleColumns T (leanDelayed T kernels) s)

/-- The D entries of front `s`. -/
def leanEntries (s : ℕ) : List PivotEntry :=
  let kr := leanFront T kernels s
  storedEntries kr.rows (kr.storedTags (isRoot T s)) (kr.storedCount (isRoot T s))

/-- The factor of a lean engine: `perm` is the analysis' one, and the entries are in
    postorder, whichever pass factored a front. -/
def leanFactor (akPerm : List ℕ) : FactorOrder where
  perm := akPerm
  diagEntries := (List.range T.ns).flatMap (leanEntries T kernels)

end LeanFront

/-! ## The legacy engine -/

/-- The pivots of a result. -/
def resultPivots {K : Type*} (res : FrontResult K) : List Pivot :=
  pivotsOf (fun c => res.acceptedRowIds.getD c 0) (fun c => res.pivotTags.getD c 0)
    res.numAccepted

/-- The pivot a block of D stands for; a zero pivot's is a 1x1 block. -/
def blockPivot {K : Type*} (b : FrontDiagBlock K) : Pivot :=
  if b.tag = 2 then .two b.row0 b.row1 else .one b.row0

/-- A pivot without its mark. -/
def Pivot.unmarked : Pivot → Pivot
  | .zero c => .one c
  | p => p

/-- A result accepts the eligible columns of a front or delays them, and a root delays none;
    its blocks of D are its pivots. -/
structure SortsColumns {K : Type*} (res : FrontResult K) (eligible : List ℤ) (isRoot : Bool) :
    Prop where
  perm : (res.acceptedRowIds ++ res.delayedColIds).Perm eligible
  root : isRoot = true → res.delayedColIds = []
  columns : (resultPivots res).flatMap Pivot.columns = res.acceptedRowIds
  blocks : res.dBlocks.map blockPivot = (resultPivots res).map Pivot.unmarked

/-- What a legacy kernel leaves of a front. -/
structure LegacyPivots (K : Type*) (eligible : List ℤ) (isRoot : Bool) where
  result : FrontResult K
  sorts : SortsColumns result eligible isRoot

/-- The kernels of a legacy factorization, on the fronts as they were assembled. -/
abbrev LegacyKernels (K : Type*) : Type _ :=
  ℕ → (eligible : List ℤ) → (isRoot : Bool) → LegacyPivots K eligible isRoot

section Legacy

variable {K : Type*}

/-- A row id goes in once. -/
def pushNew (rows : List ℤ) (r : ℤ) : List ℤ := if r ∈ rows then rows else rows ++ [r]

/-- `eligible_rows`: the children's delayed columns, then the own ones. -/
def eligibleRows (T : AssemblyTree) (results : ℕ → FrontResult K) (s : ℕ) : List ℤ :=
  ((T.children s).flatMap (fun c => (results c).delayedColIds) ++ ownColumns T s).foldl pushNew []

variable [Zero K] (T : AssemblyTree) (kernels : LegacyKernels K)

/-- `node_results`. -/
def legacyResults : ℕ → FrontResult K :=
  inPostorder { lPanel := fun _ _ => 0 }
    (fun results s => (kernels s (eligibleRows T results s) (isRoot T s)).result) T.ns

end Legacy

section Finalize

variable {K : Type*} (n ns : ℕ) (results : ℕ → FrontResult K) (akPerm : List ℕ)

/-- A row id in range goes in once. -/
def pushUnseen (rows : List ℕ) (r : ℤ) : List ℕ :=
  if 0 ≤ r ∧ r < n ∧ r.toNat ∉ rows then rows ++ [r.toNat] else rows

/-- `num_perm`: the accepted rows by supernode, then the rows not seen. -/
def numPerm : List ℕ :=
  ((List.range n).map (↑)).foldl (pushUnseen n)
    (((List.range ns).flatMap fun s => (results s).acceptedRowIds).foldl (pushUnseen n) [])

/-- `num_iperm`. -/
def numIperm : ℕ → ℕ :=
  (List.range n).foldl
    (fun iperm newPiv => Function.update iperm ((numPerm n ns results).getD newPiv 0) newPiv)
    fun _ => 0

/-- `finalize_factor_from_front_results`: the order and the D entries. -/
def finalizeFactor : FactorOrder where
  perm := (List.range n).map fun newPiv =>
    let sym := (numPerm n ns results).getD newPiv 0
    if sym < akPerm.length then akPerm.getD sym 0 else newPiv
  diagEntries := (List.range ns).flatMap fun s => (results s).dBlocks.map fun db =>
    PivotEntry.mk db.tag false (numIperm n ns results db.row0.toNat)
      (if db.tag = 2 then numIperm n ns results db.row1.toNat else 0)

end Finalize

/-! ## Both engines -/

/-- A factorization that ran to the end. -/
inductive Factored (K : Type*) where
  | lean (kernels : LeanKernels)
  | legacy (kernels : LegacyKernels K)

namespace Factored

variable {K : Type*}

def ofLeanFronts : Factored K → Bool
  | lean _ => true
  | legacy _ => false

variable [Zero K] (T : AssemblyTree)

/-- The pivots of front `s`. -/
def frontPivots : Factored K → ℕ → List Pivot
  | lean kernels, s => (leanFront T kernels s).pivots (isRoot T s)
  | legacy kernels, s => resultPivots (legacyResults T kernels s)

/-- The pivots in elimination order. -/
def pivots (E : Factored K) : List Pivot := (List.range T.ns).flatMap (E.frontPivots T)

/-- The factor it leaves. -/
def factorKeep (n : ℕ) (akPerm : List ℕ) : Factored K → FactorOrder
  | lean kernels => leanFactor T kernels akPerm
  | legacy kernels => finalizeFactor n T.ns (legacyResults T kernels) akPerm

end Factored

/-- The order of a factor with these pivots: the original columns as they were eliminated, the
    zero pivots last. -/
structure RealizedOrder.Realizes (o : RealizedOrder) (n : ℕ) (akPerm : List ℕ)
    (pivots : List Pivot) : Prop where
  perm : o.perm.Perm (List.range n)
  order : o.perm = ((pivots.filter (!·.isZero)).flatMap Pivot.columns ++
    (pivots.filter (·.isZero)).flatMap Pivot.columns).map fun c => akPerm.getD c.toNat 0
  pairs : o.pairs = (pivots.flatMap Pivot.pairColumns).map fun c => akPerm.getD c.toNat 0
  adjacent : ∀ a b, Pivot.two a b ∈ pivots →
    [akPerm.getD a.toNat 0, akPerm.getD b.toNat 0] <:+: o.perm
  zeroPivots : o.zeroPivots = (pivots.filter (·.isZero)).length

/-! ## The fronts' columns -/

section Lemmas

variable {T : AssemblyTree} {n : ℕ}

/-- A front's result stays what it was computed as. -/
theorem inPostorder_eq {β : Type*} {d : β} {step : (ℕ → β) → ℕ → β}
    (hstep : ∀ g g' s, s < T.ns → (∀ c ∈ T.children s, g c = g' c) → step g s = step g' s) {s : ℕ}
    (hs : s < T.ns) :
    inPostorder d step T.ns s = step (inPostorder d step T.ns) s := by
  have hkeep : ∀ m ≤ T.ns, ∀ c < m, inPostorder d step m c = inPostorder d step (c + 1) c := by
    intro m hm
    induction m with
    | zero => exact fun c hc => absurd hc (Nat.not_lt_zero c)
    | succ m ih =>
      intro c hc
      rcases Nat.lt_succ_iff_lt_or_eq.mp hc with hc | rfl
      · rw [inPostorder, Function.update_of_ne hc.ne]
        exact ih (by omega) c hc
      · rfl
  rw [hkeep T.ns le_rfl s hs, inPostorder, Function.update_self]
  refine hstep _ _ s hs fun c hc => ?_
  have hcs := T.child_lt hs hc
  rw [hkeep s hs.le c hcs, hkeep T.ns le_rfl c (hcs.trans hs)]

variable {eligible : List ℤ} (kr : KernelPivots eligible) (root : Bool)

theorem KernelPivots.whole :
    WholePivots (kr.storedTags root) kr.numAccepted (kr.storedCount root) := by
  have hle := kr.accepted_le
  unfold storedCount storedTags
  refine ⟨?_, fun c hc => ?_, fun c hkc hc => ?_⟩
  · split_ifs with h
    · exact hle
    · exact le_rfl
  · have hlow : ∀ c < kr.numAccepted,
        (if root = true ∧ kr.numAccepted ≤ c ∧ c < eligible.length then 0 else kr.tags c) =
          kr.tags c := fun c hc => if_neg (by omega)
    have htag := kr.tagged c hc
    rw [hlow c hc]
    rcases htag with h | ⟨h, hlt, hneg⟩ | ⟨h, hpos, htwo⟩
    · exact .inl h
    · exact .inr (.inl ⟨h, hlt, (hlow _ hlt).trans hneg⟩)
    · exact .inr (.inr ⟨h, hpos, (hlow _ (by omega)).trans htwo⟩)
  · split_ifs at hc with h
    · exact if_pos ⟨h.1, hkc, hc⟩
    · omega

/-- A front takes each eligible column, or delays it. -/
theorem KernelPivots.takes :
    ((kr.pivots root).flatMap Pivot.columns ++ kr.delayed root).Perm eligible := by
  have hle := kr.accepted_le
  rw [pivots, (kr.whole root).columns]
  refine .trans (.of_eq ?_) kr.perm
  have htake : (List.range kr.numAccepted).map kr.rows =
      ((List.range eligible.length).map kr.rows).take kr.numAccepted := by
    rw [← List.map_take, List.take_range, min_eq_left hle]
  unfold storedCount delayed
  cases root with
  | false =>
    rw [if_neg (by simp), if_neg Bool.false_ne_true, htake, List.take_append_drop]
  | true =>
    rw [if_pos rfl, List.append_nil]
    by_cases hlt : kr.numAccepted < eligible.length
    · rw [if_pos ⟨rfl, hlt⟩]
    · rw [if_neg (fun h => hlt h.2), le_antisymm hle (not_lt.mp hlt)]

end Lemmas

end Factor
end SmfSolver
