/-
The numeric fronts of the tree-parallel legacy engine and their two kernels:
`factor_front_reference` (`numeric_front.cpp`) and `factor_front_blocked` (`blocked_indef.cpp`).

A front is a dense matrix of which only the lower triangle is read, with its row ids and the
number of rows that may be pivots.  `pivot_tags`, one tag a column eliminated, are the `tags` of
the working front; the panel GEMM also writes the upper triangle of the trailing block, which
nothing reads.  The values are finite, so the tests for a non-finite entry pass.
-/
import SmfSolver.Kernel.LdltKernel

namespace SmfSolver.Kernel

/-- The settings of `Control` that the two kernels read. -/
structure FrontControl (K : Type*) where
  pivotU : K
  smallPivot : K
  indefPanelSize : ℤ
  indefUseReferenceKernel : Bool

/-- The defaults of `Control`. -/
def defaultFrontControl : FrontControl ℚ where
  pivotU := 1 / 100
  smallPivot := 1 / 10 ^ 20
  indefPanelSize := 16
  indefUseReferenceKernel := false

/-- `NumericFront`; the constructor clamps the number of eligible rows. -/
structure NumericFront (K : Type*) where
  rowIds : List ℤ
  numEligible : ℕ
  data : ℕ → ℕ → K
  eligible_le : numEligible ≤ rowIds.length

/-- The order of the front. -/
def NumericFront.numRows {K : Type*} (front : NumericFront K) : ℕ := front.rowIds.length

/-- A pivot block with its row ids: `tag` is 1 or 2, and a 1x1 block is `d00`. -/
structure FrontDiagBlock (K : Type*) where
  tag : ℤ
  row0 : ℤ
  row1 : ℤ
  d00 : K
  d10 : K
  d11 : K
deriving DecidableEq

/-- The codes the kernels return on finite values. -/
inductive FrontStatus where
  | success
  | singularMatrix
deriving DecidableEq, Repr

/-- `FrontResult`; the packed arrays are read as `row column`, and `contrib` is `none` while it is
empty. -/
structure FrontResult (K : Type*) where
  status : FrontStatus := .success
  acceptedRowIds : List ℤ := []
  lRowIds : List ℤ := []
  numAccepted : ℕ := 0
  frontSize : ℕ := 0
  pivotTags : List ℤ := []
  lPanel : ℕ → ℕ → K
  dBlocks : List (FrontDiagBlock K) := []
  delayedColIds : List ℤ := []
  contribRowIds : List ℤ := []
  contrib : Option (ℕ → ℕ → K) := none
  inertia : InertiaCounts := {}
  delayedCount : ℕ := 0
  flops : ℕ := 0

/-- The front being factored and what the result has collected so far. -/
structure FrontWork (K : Type*) extends Front K where
  dBlocks : List (FrontDiagBlock K)
  inertia : InertiaCounts
  flops : ℕ

section Pivots

variable {K : Type*} [Field K] [LinearOrder K]

/-- `scaled_det_2x2`: the determinant of the block scaled by its largest entry, and that entry. -/
def scaledDet2x2 (d00 d10 d11 : K) : K × K :=
  let s := max (max |d00| |d10|) |d11|
  if s = 0 then (0, s)
  else
    let a := d00 / s
    let b := d10 / s
    let c := d11 / s
    (a * c - b * b, s)

/-- `solve_2x2_scaled`: zero for a singular block. -/
def solve2x2Scaled (d00 d10 d11 rhs0 rhs1 : K) : K × K :=
  let (detS, s) := scaledDet2x2 d00 d10 d11
  if s = 0 ∨ detS = 0 then (0, 0)
  else
    -- both sides are scaled, so that no product overflows
    let rhsScale := max |rhs0| |rhs1|
    if rhsScale = 0 then (0, 0)
    else
      let a := d00 / s
      let b := d10 / s
      let c := d11 / s
      let r0 := rhs0 / rhsScale
      let r1 := rhs1 / rhsScale
      let u0 := (c * r0 - b * r1) / detS
      let u1 := (-b * r0 + a * r1) / detS
      let ratio := rhsScale / s
      (u0 * ratio, u1 * ratio)

/-- The rows of `L` of the 2x2 pivot at `(k, k + 1)`. -/
def pivotRows (F : ℕ → ℕ → K) (k i : ℕ) : K × K :=
  solve2x2Scaled (F k k) (F (k + 1) k) (F (k + 1) (k + 1)) (F i k) (F i (k + 1))

/-- 1x1 elimination of the reference kernel: the multiplier of column `j` is `d00 * L(j, k)`. -/
def referenceEliminate1x1 (F : ℕ → ℕ → K) (f k : ℕ) : ℕ → ℕ → K := fun i j =>
  let d00 := F k k
  let invD := 1 / d00
  if j = k ∧ k < i ∧ i < f then F i k * invD
  else if k < j ∧ j ≤ i ∧ i < f then F i j - F i k * invD * (d00 * (F j k * invD))
  else F i j

/-- 2x2 elimination of the reference kernel. -/
def referenceEliminate2x2 (F : ℕ → ℕ → K) (f k : ℕ) : ℕ → ℕ → K := fun i j =>
  let d00 := F k k
  let d10 := F (k + 1) k
  let d11 := F (k + 1) (k + 1)
  let l := pivotRows F k
  if j = k ∧ k + 1 < i ∧ i < f then (l i).1
  else if j = k + 1 ∧ k + 1 < i ∧ i < f then (l i).2
  else if k + 1 < j ∧ j ≤ i ∧ i < f then
    F i j - ((l i).1 * (d00 * (l j).1 + d10 * (l j).2) + (l i).2 * (d10 * (l j).1 + d11 * (l j).2))
  else F i j

/-- 1x1 elimination of the blocked kernel: the multiplier is the saved column, and the columns
from `e` on wait for the panel update. -/
def blockedEliminate1x1 (F : ℕ → ℕ → K) (f k e : ℕ) : ℕ → ℕ → K := fun i j =>
  let invD := 1 / F k k
  if j = k ∧ k < i ∧ i < f then F i k * invD
  else if k < j ∧ j < e ∧ j ≤ i ∧ i < f then F i j - F i k * invD * F j k
  else F i j

/-- 2x2 elimination of the blocked kernel. -/
def blockedEliminate2x2 (F : ℕ → ℕ → K) (f k e : ℕ) : ℕ → ℕ → K := fun i j =>
  let l := pivotRows F k
  if j = k ∧ k + 1 < i ∧ i < f then (l i).1
  else if j = k + 1 ∧ k + 1 < i ∧ i < f then (l i).2
  else if k + 1 < j ∧ j < e ∧ j ≤ i ∧ i < f then
    F i j - ((l i).1 * F j k + (l i).2 * F j (k + 1))
  else F i j

end Pivots

section Search

variable {K : Type*} [Field K] [LinearOrder K] (u effSmall smallPivot : K) (F : ℕ → ℕ → K) (f : ℕ)

/-- The 1x1 test of column `a`, whose largest other entry is `omega`. -/
def diagonalPasses (a : ℕ) (omega : K) : Prop :=
  effSmall ≤ |F a a| ∧ (omega = 0 ∨ u * omega ≤ |F a a|)

instance (a : ℕ) (omega : K) : Decidable (diagonalPasses u effSmall F a omega) := by
  unfold diagonalPasses
  infer_instance

/-- `omega1_full`: the largest other entry of column `cand` of the active front. -/
def omega1Full (k numElig cand : ℕ) : K :=
  max (scanColumn F k numElig cand).m1
    (maxOver 0 (positions numElig f) fun i => |symAt F i cand|)

/-- The 2x2 test of `(cand, r)`. -/
def pairPasses (k cand r : ℕ) : Prop :=
  let d00 := F cand cand
  let d10 := symAt F r cand
  let d11 := F r r
  let (detS, s2) := scaledDet2x2 d00 d10 d11
  let off0 := offMaxBut F f k cand r
  let off1 := offMaxBut F f k r cand
  let a := |d00| / s2
  let b := |d10| / s2
  let c := |d11| / s2
  let bound0 := (c * off0 + b * off1) / s2
  let bound1 := (b * off0 + a * off1) / s2
  effSmall ≤ s2 ∧ smallPivot < |detS| ∧
    ¬ ((0 < off0 ∨ 0 < off1) ∧ |detS| < u * max bound0 bound1)

instance (k cand r : ℕ) : Decidable (pairPasses u effSmall smallPivot F f k cand r) := by
  unfold pairPasses
  infer_instance

/-- One candidate of the reference kernel: its 1x1, the 2x2 with its partner, the partner's 1x1.
The partner `r_best` is the first largest entry among the eligible rows. -/
def referenceCandidate (k numElig cand : ℕ) : Option PivotChoice :=
  let s := scanColumn F k numElig cand
  if diagonalPasses u effSmall F cand (omega1Full F f k numElig cand) then some (.one cand)
  else
    match s.rBest with
    | none => none
    | some r =>
      if k ≤ r ∧ 0 < s.m1 then
        if pairPasses u effSmall smallPivot F f k cand r then some (.two cand r)
        else if diagonalPasses u effSmall F r (offMax F f k r) then some (.one r)
        else none
      else none

/-- One candidate of the blocked kernel: the partner lies before `searchLimit`, and a 2x2 fits
before it. -/
def blockedCandidate (k numElig searchLimit cand : ℕ) : Option PivotChoice :=
  let s := scanColumn F k numElig cand
  if diagonalPasses u effSmall F cand (omega1Full F f k numElig cand) then some (.one cand)
  else
    match s.rBest with
    | none => none
    | some r =>
      if k ≤ r ∧ r < searchLimit ∧ 0 < s.m1 then
        if k + 1 < searchLimit ∧ pairPasses u effSmall smallPivot F f k cand r then
          some (.two cand r)
        else if diagonalPasses u effSmall F r (offMax F f k r) then some (.one r)
        else none
      else none

end Search

namespace FrontWork

variable {K : Type*}

/-- Symmetric swap of the front, and of the rows of `w` saved columns. -/
def swap (f p q w : ℕ) (s : FrontWork K) : FrontWork K :=
  { s with toFront := s.toFront.swap f p q w }

/-- Brings the 2x2 pivot `(a, b)` to `(k, k + 1)`. -/
def placeTwo (f a b w : ℕ) (s : FrontWork K) : FrontWork K :=
  { s with toFront := s.toFront.placeTwo f a b w }

@[simp] theorem swap_k (f p q w : ℕ) (s : FrontWork K) : (s.swap f p q w).k = s.k :=
  Front.swap_k f p q w s.toFront

@[simp] theorem placeTwo_k (f a b w : ℕ) (s : FrontWork K) : (s.placeTwo f a b w).k = s.k :=
  Front.placeTwo_k f a b w s.toFront

variable [Field K]

/-- `flush_panel(p_start, k, col)`: the columns from `col` on take the updates of the panel. -/
def flushPanel (f pStart col : ℕ) (s : FrontWork K) : FrontWork K :=
  if s.k ≤ pStart ∨ f ≤ col then s
  else { s with toFront := s.toFront.deferred f pStart col f }

@[simp] theorem flushPanel_k (f pStart col : ℕ) (s : FrontWork K) :
    (s.flushPanel f pStart col).k = s.k := by
  unfold flushPanel
  split_ifs <;> rfl

variable [LinearOrder K]

/-- Counts, tags and lists the 1x1 pivot at `k`. -/
def recordOne (effSmall : K) (f : ℕ) (s : FrontWork K) : FrontWork K :=
  let d00 := s.F s.k s.k
  let rem := f - (s.k + 1)
  { s with
    tags := Function.update s.tags s.k 1
    dBlocks := s.dBlocks ++ [⟨1, s.rows s.k, 0, d00, 0, 0⟩]
    inertia := addInertia1x1 d00 effSmall s.inertia
    flops := s.flops + (rem + rem * (rem + 1)) }

/-- Counts, tags and lists the 2x2 pivot at `(k, k + 1)`. -/
def recordTwo (smallPivot : K) (f : ℕ) (s : FrontWork K) : FrontWork K :=
  let d00 := s.F s.k s.k
  let d10 := s.F (s.k + 1) s.k
  let d11 := s.F (s.k + 1) (s.k + 1)
  let rem := f - (s.k + 2)
  { s with
    tags := Function.update (Function.update s.tags s.k 2) (s.k + 1) (-1)
    dBlocks := s.dBlocks ++ [⟨2, s.rows s.k, s.rows (s.k + 1), d00, d10, d11⟩]
    inertia := addInertia2x2 d00 d10 d11 smallPivot s.inertia
    flops := s.flops + (6 * rem + 2 * rem * (rem + 1)) }

/-- The reference kernel takes the pivot it chose: every later column is updated. -/
def takeReference (effSmall smallPivot : K) (f : ℕ) (s : FrontWork K) : PivotChoice → FrontWork K
  | .one a =>
    let s1 := (s.swap f s.k a 0).recordOne effSmall f
    { s1 with F := referenceEliminate1x1 s1.F f s1.k, k := s1.k + 1 }
  | .two a b =>
    let s1 := (s.placeTwo f a b 0).recordTwo smallPivot f
    { s1 with F := referenceEliminate2x2 s1.F f s1.k, k := s1.k + 2 }

/-- The blocked kernel takes the pivot it chose: it saves the pivot columns and updates the
columns before `e`. -/
def takeBlocked (effSmall smallPivot : K) (f panelStart e : ℕ) (s : FrontWork K) :
    PivotChoice → FrontWork K
  | .one a =>
    let s1 := (s.swap f s.k a (s.k - panelStart)).recordOne effSmall f
    { s1 with
      F := blockedEliminate1x1 s1.F f s1.k e
      W := saveColumn s1.F s1.W f s1.k (s1.k + 1) (s1.k - panelStart)
      k := s1.k + 1 }
  | .two a b =>
    let s1 := (s.placeTwo f a b (s.k - panelStart)).recordTwo smallPivot f
    { s1 with
      F := blockedEliminate2x2 s1.F f s1.k e
      W :=
        saveColumn s1.F (saveColumn s1.F s1.W f s1.k (s1.k + 2) (s1.k - panelStart)) f (s1.k + 1)
          (s1.k + 2) (s1.k - panelStart + 1)
      k := s1.k + 2 }

@[simp] theorem recordOne_k (effSmall : K) (f : ℕ) (s : FrontWork K) :
    (s.recordOne effSmall f).k = s.k := rfl

@[simp] theorem recordTwo_k (smallPivot : K) (f : ℕ) (s : FrontWork K) :
    (s.recordTwo smallPivot f).k = s.k := rfl

theorem takeReference_k {effSmall smallPivot : K} {f : ℕ} (s : FrontWork K) (pc : PivotChoice) :
    s.k < (s.takeReference effSmall smallPivot f pc).k := by
  cases pc <;> simp [takeReference]

theorem takeBlocked_k {effSmall smallPivot : K} {f ps e : ℕ} (s : FrontWork K)
    (pc : PivotChoice) : s.k < (s.takeBlocked effSmall smallPivot f ps e pc).k := by
  cases pc <;> simp [takeBlocked]

end FrontWork

section Kernels

variable {K : Type*} [Field K] [LinearOrder K] (u effSmall smallPivot : K) (f numElig : ℕ)

/-- The next pivot of the reference kernel. -/
def referenceStep (s : FrontWork K) : Option (FrontWork K) :=
  ((positions s.k numElig).findSome?
    (referenceCandidate u effSmall smallPivot s.F f s.k numElig)).map
    (s.takeReference effSmall smallPivot f)

/-- `try_step_within`: one pivot within `[k, searchLimit)`. -/
def tryStepWithin (panelStart searchLimit updateColLimit : ℕ) (s : FrontWork K) :
    Option (FrontWork K) :=
  ((positions s.k searchLimit).findSome?
    (blockedCandidate u effSmall smallPivot s.F f s.k numElig searchLimit)).map
    (s.takeBlocked effSmall smallPivot f panelStart updateColLimit)

variable {u effSmall smallPivot f numElig} {s s' : FrontWork K}

theorem referenceStep_k (h : referenceStep u effSmall smallPivot f numElig s = some s') :
    s.k < s'.k := by
  obtain ⟨pc, -, rfl⟩ := Option.map_eq_some_iff.mp h
  exact s.takeReference_k pc

theorem tryStepWithin_k {ps limit e : ℕ}
    (h : tryStepWithin u effSmall smallPivot f numElig ps limit e s = some s') : s.k < s'.k := by
  obtain ⟨pc, -, rfl⟩ := Option.map_eq_some_iff.mp h
  exact s.takeBlocked_k pc

variable (u effSmall smallPivot f numElig)

/-- The loop of the reference kernel. -/
def referenceLoop (s : FrontWork K) : FrontWork K :=
  if s.k < numElig then
    match _h : referenceStep u effSmall smallPivot f numElig s with
    | none => s
    | some s' => referenceLoop s'
  else s
termination_by numElig - s.k
decreasing_by
  have := referenceStep_k _h
  omega

/-- The pivots of the panel `[panelStart, panelLimit)`; it stalls when `k` ends before its end. -/
def frontPanel (panelStart panelLimit : ℕ) (s : FrontWork K) : FrontWork K :=
  if s.k < panelLimit then
    match _h : tryStepWithin u effSmall smallPivot f numElig panelStart panelLimit panelLimit s with
    | none => s
    | some s' => frontPanel panelStart panelLimit s'
  else s
termination_by panelLimit - s.k
decreasing_by
  have := tryStepWithin_k _h
  omega

variable {u effSmall smallPivot f numElig}

theorem frontPanel_k (ps pl : ℕ) (s : FrontWork K) :
    s.k ≤ (frontPanel u effSmall smallPivot f numElig ps pl s).k := by
  fun_induction frontPanel u effSmall smallPivot f numElig ps pl s with
  | case1 s hk h => exact le_rfl
  | case2 s hk s' h ih => exact (tryStepWithin_k h).le.trans ih
  | case3 s hk => exact le_rfl

variable (u effSmall smallPivot f numElig)

/-- The loop of the blocked kernel: a panel and its flush; a panel that stalls is followed by one
step over every remaining eligible column, or ends the loop. -/
def blockedLoop (nb : ℕ) (hnb : 1 < nb) (s : FrontWork K) : FrontWork K :=
  if s.k < numElig then
    let panelLimit := min numElig (s.k + nb)
    let s1 := (frontPanel u effSmall smallPivot f numElig s.k panelLimit s).flushPanel f s.k
      panelLimit
    -- the panel has stalled: look at every eligible column once
    if s1.k < panelLimit ∧ s1.k < numElig then
      match _h : tryStepWithin u effSmall smallPivot f numElig s1.k numElig s1.k s1 with
      | none => s1
      | some s2 => blockedLoop nb hnb (s2.flushPanel f s1.k s2.k)
    else blockedLoop nb hnb s1
  else s
termination_by numElig - s.k
decreasing_by
  · have hk : s.k ≤ s1.k := by
      rw [FrontWork.flushPanel_k]
      exact frontPanel_k _ _ _
    have hk2 : s1.k < s2.k := tryStepWithin_k _h
    rw [FrontWork.flushPanel_k]
    exact show numElig - s2.k < numElig - s.k by omega
  · have hk : s.k ≤ s1.k := by
      rw [FrontWork.flushPanel_k]
      exact frontPanel_k _ _ _
    rename_i hstall
    have _ : panelLimit = min numElig (s.k + nb) := rfl
    exact show numElig - s1.k < numElig - s.k by omega

end Kernels

section Results

variable {K : Type*} [Field K] [LinearOrder K]

/-- The largest entry of the lower triangle. -/
def frontMaxAbs (F : ℕ → ℕ → K) (f : ℕ) : K :=
  (List.range f).foldl (fun m j => maxOver m (positions j f) fun i => |F i j|) 0

/-- The threshold below which a pivot counts as zero. -/
def effSmallOf (ctrl : FrontControl K) (effectiveSmall frontMax : K) : K :=
  if 0 < effectiveSmall then effectiveSmall
  else if 0 < frontMax ∧ frontMax < ctrl.smallPivot then ctrl.smallPivot * frontMax
  else ctrl.smallPivot

namespace NumericFront

variable (front : NumericFront K)

/-- The front before its first pivot. -/
def start (ws : ℕ → ℕ → K) : FrontWork K where
  F := front.data
  rows i := front.rowIds.getD i 0
  tags _ := 0
  W := ws
  k := 0
  forced _ := none
  dBlocks := []
  inertia := {}
  flops := 0

/-- The front as the kernel leaves it. -/
def after (s : FrontWork K) : NumericFront K where
  rowIds := (List.range front.numRows).map s.rows
  numEligible := front.numEligible
  data := s.F
  eligible_le := by
    rw [List.length_map, List.length_range]
    exact front.eligible_le

/-- The result of a factorization that ended in `s`.  At a root the eligible columns that no pivot
took are zero pivots, and no contribution is packed. -/
def result (isRoot : Bool) (s : FrontWork K) : FrontResult K :=
  let f := front.numRows
  let numElig := front.numEligible
  let rowIds := (front.after s).rowIds
  let numUnaccepted := numElig - s.k
  -- a root has nobody to delay its columns to
  if isRoot = true ∧ 0 < numUnaccepted then
    let tags := fun c => if c < s.k then s.tags c else 0
    { status := .singularMatrix
      acceptedRowIds := rowIds.take numElig
      lRowIds := rowIds
      numAccepted := numElig
      frontSize := f
      pivotTags := (List.range numElig).map tags
      lPanel := fun r col =>
        if r = col then 1
        else if tags col ≠ 0 ∧ (if tags col = 2 then col + 2 else col + 1) ≤ r ∧
          r < f then s.F r col
        else 0
      dBlocks := s.dBlocks ++ (positions s.k numElig).map fun c => ⟨1, s.rows c, 0, 0, 0, 0⟩
      inertia := { s.inertia with zero := s.inertia.zero + numUnaccepted }
      delayedCount := 0
      flops := s.flops }
  else
    { status := .success
      acceptedRowIds := rowIds.take s.k
      lRowIds := rowIds
      numAccepted := s.k
      frontSize := f
      pivotTags := (List.range s.k).map s.tags
      lPanel := fun r col =>
        if r = col then 1
        else if (if s.tags col = 2 then col + 2 else col + 1) ≤ r ∧ r < f then s.F r col
        else 0
      dBlocks := s.dBlocks
      delayedColIds := (rowIds.take numElig).drop s.k
      contribRowIds := rowIds.drop s.k
      -- the lower triangle of what is left, for the parent
      contrib :=
        if 0 < f - s.k ∧ isRoot = false then
          some fun ci cj => if cj ≤ ci ∧ ci < f - s.k then s.F (s.k + ci) (s.k + cj) else 0
        else none
      inertia := s.inertia
      delayedCount := numUnaccepted
      flops := s.flops }

end NumericFront

/-- `factor_front_reference`: the front as it is left, and the result. -/
def factorFrontReference (ctrl : FrontControl K) (effectiveSmall : K) (isRoot : Bool)
    (ws : ℕ → ℕ → K) (front : NumericFront K) : NumericFront K × FrontResult K :=
  let f := front.numRows
  if f = 0 then (front, { lPanel := fun _ _ => 0 })
  else
    let effSmall := effSmallOf ctrl effectiveSmall (frontMaxAbs front.data f)
    let s := referenceLoop ctrl.pivotU effSmall ctrl.smallPivot f front.numEligible (front.start ws)
    (front.after s, front.result isRoot s)

/-- `factor_front_blocked`, with what its workspace held before. -/
def factorFrontBlocked (ctrl : FrontControl K) (effectiveSmall : K) (isRoot : Bool)
    (ws : ℕ → ℕ → K) (front : NumericFront K) : NumericFront K × FrontResult K :=
  let f := front.numRows
  let nb := (max 1 ctrl.indefPanelSize).toNat
  if h : ctrl.indefUseReferenceKernel = true ∨ nb ≤ 1 ∨ f < 4 then
    factorFrontReference ctrl effectiveSmall isRoot ws front
  else
    let effSmall := effSmallOf ctrl effectiveSmall (frontMaxAbs front.data f)
    let s := blockedLoop ctrl.pivotU effSmall ctrl.smallPivot f front.numEligible nb (by omega)
      (front.start ws)
    (front.after s, front.result isRoot s)

end Results

end SmfSolver.Kernel
