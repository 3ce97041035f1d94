/-
The a posteriori threshold pivoting kernel (`ldlt_aptp.cpp`): complete pivoting on a tile, the
steps of one block column, the sweep over the eligible columns, and `ldlt_aptp_front`.

A view is the lower triangle of a symmetric matrix, with the tags, the row ids and the moves of
its columns.  A diagonal tile is a view of its own, numbered from zero; what the source does
through a pointer into the front is put back with `setTile`.  The rows of `L D` that the source
forms in the strict upper triangle are computed where they are read, and each BLAS-3 call is the
loop it stands for.  Values are elements of an ordered field.
-/
import SmfSolver.Kernel.PivotSearch
import Mathlib.Algebra.BigOperators.Group.Finset.Basic
import Mathlib.Order.WithBot

namespace SmfSolver.Kernel

open Finset

structure AptpParams (K : Type*) where
  u : K
  nb : ℤ
  ib : ℤ
  small : K

/-- The block `[k, n)` of a view in which complete pivoting looks for the next pivot. -/
structure CpBlock (K : Type*) where
  A : ℕ → ℕ → K
  k : ℕ
  n : ℕ

/-- A lower-stored symmetric view.  `lp t` is the position that moved to `t`.  `chosen` is not in
the source: it records, for every pivot, the block in which complete pivoting chose it. -/
structure View (K : Type*) where
  A : ℕ → ℕ → K
  tags : ℕ → ℤ
  rows : ℕ → ℤ
  lp : ℕ → ℕ
  chosen : ℕ → Option (CpBlock K)

/-- A factored view: its first `ne` columns are eliminated. -/
structure Tile (K : Type*) extends View K where
  ne : ℕ

/-- A sweep: the failed columns so far and the number of pivots. -/
structure Sweep (K : Type*) extends View K where
  Q : List ℕ
  numElim : ℕ

section Storage

variable {K : Type*}

/-- A view before its first pivot. -/
def View.start (A : ℕ → ℕ → K) (rows : ℕ → ℤ) : View K where
  A := A
  tags _ := 0
  rows := rows
  lp t := t
  chosen _ := none

/-- `view_swap`: positions `p` and `q` of an `m x m` view trade places. -/
def View.swap (m p q : ℕ) (v : View K) : View K :=
  if p = q then v
  else
    { A := symSwap v.A m p q
      tags := fun i => v.tags (Equiv.swap p q i)
      rows := fun i => v.rows (Equiv.swap p q i)
      lp := fun i => v.lp (Equiv.swap p q i)
      chosen := fun i => v.chosen (Equiv.swap p q i) }

/-- The `w` entries of `g` from position `c0` on. -/
def patch {α : Type*} (g : ℕ → α) (c0 w : ℕ) (h : ℕ → α) : ℕ → α := fun t =>
  if c0 ≤ t ∧ t < c0 + w then h (t - c0) else g t

/-- The diagonal tile of width `w` at `c0`. -/
def tileOf (A : ℕ → ℕ → K) (c0 : ℕ) : ℕ → ℕ → K := fun i j => A (c0 + i) (c0 + j)

def setTile (A : ℕ → ℕ → K) (c0 w : ℕ) (T : ℕ → ℕ → K) : ℕ → ℕ → K := fun i j =>
  if c0 ≤ j ∧ j < c0 + w ∧ c0 ≤ i ∧ i < c0 + w then T (i - c0) (j - c0) else A i j

/-- `permute_rows`: in the first `ncols` columns row `r0 + t` takes row `r0 + perm t`. -/
def permuteRows (A : ℕ → ℕ → K) (ncols r0 w : ℕ) (perm : ℕ → ℕ) : ℕ → ℕ → K := fun i j =>
  if j < ncols ∧ r0 ≤ i ∧ i < r0 + w then A (r0 + perm (i - r0)) j else A i j

end Storage

section CompletePivoting

variable {K : Type*} [Field K] [LinearOrder K]

/-- `1 / u`, infinite for `u = 0`. -/
def invU (u : K) : WithTop K := if u = 0 then ⊤ else ((1 / u : K) : WithTop K)

/-- `l_ok`. -/
def lOk (inv : WithTop K) (l : K) : Bool := decide (((|l| : K) : WithTop K) ≤ inv)

/-- `|x| ≤ inv |d|`; an infinite `inv` times a zero is not a number, and the test fails. -/
def withinLimit : WithTop K → K → K → Bool
  | none, d, _ => decide (d ≠ 0)
  | some c, d, x => decide (|x| ≤ c * |d|)

/-- The largest entry met so far, in row `bi` and column `bj`. -/
structure Largest (K : Type*) where
  amax : K
  bi : ℕ
  bj : ℕ

def Largest.visit (A : ℕ → ℕ → K) (m : Largest K) (e : ℕ × ℕ) : Largest K :=
  if m.amax < |A e.1 e.2| then ⟨|A e.1 e.2|, e.1, e.2⟩ else m

/-- The entries `(i, j)` of the lower triangle of the block, column by column. -/
def CpBlock.entries (b : CpBlock K) : List (ℕ × ℕ) :=
  (positions b.k b.n).flatMap fun j => (positions j b.n).map fun i => (i, j)

/-- The largest entry of the block; the first entry visited replaces the -1. -/
def CpBlock.largest (b : CpBlock K) : Largest K := b.entries.foldl (Largest.visit b.A) ⟨-1, 0, 0⟩

/-- The pivot of the largest entry: itself on the diagonal, else the 2x2 it spans when that is
far from singular, else the larger of its two diagonals. -/
def CpBlock.choice (b : CpBlock K) : PivotChoice :=
  let m := b.largest
  if m.bi = m.bj then .one m.bj
  else
    let amm := b.A m.bj m.bj
    let att := b.A m.bi m.bi
    let amt := b.A m.bi m.bj
    let delta := amm * att - amt * amt
    if 0.5 * amt * amt ≤ |delta| then .two m.bj m.bi
    else .one (if |amm| < |att| then m.bi else m.bj)

/-- The a posteriori bound inside the view. -/
def CpBlock.passes (inv : WithTop K) (b : CpBlock K) : PivotChoice → Bool
  | .one a => (positions b.k b.n).all fun r =>
      decide (r = a) || withinLimit inv (b.A a a) (symAt b.A r a)
  | .two a c =>
    let i := inverse2x2 (b.A a a) (b.A c a) (b.A c c)
    (positions b.k b.n).all fun r =>
      decide (r = a) || decide (r = c) ||
        (lOk inv (i.1 * symAt b.A r a + i.2.1 * symAt b.A r c) &&
          lOk inv (i.2.1 * symAt b.A r a + i.2.2 * symAt b.A r c))

/-- Brings the pivot to the front of the block and eliminates it. -/
def Tile.take (n : ℕ) (s : Tile K) : PivotChoice → Tile K
  | .one a =>
    let v := s.toView.swap n s.ne a
    { v with
      A := eliminate1x1 v.A n s.ne n
      tags := Function.update v.tags s.ne 1
      chosen := Function.update v.chosen s.ne (some ⟨s.A, s.ne, n⟩)
      ne := s.ne + 1 }
  | .two a b =>
    let v := if a ≠ s.ne then s.toView.swap n s.ne a else s.toView
    -- the first swap has moved the partner if it stood in the first column's place
    let partner := if a ≠ s.ne ∧ b = s.ne then a else b
    let v := if partner ≠ s.ne + 1 then v.swap n (s.ne + 1) partner else v
    { v with
      A := eliminate2x2 v.A n s.ne n
      tags := Function.update (Function.update v.tags s.ne 2) (s.ne + 1) (-1)
      chosen := Function.update v.chosen s.ne (some ⟨s.A, s.ne, n⟩)
      ne := s.ne + 2 }

theorem Tile.lt_take (n : ℕ) (s : Tile K) (pc : PivotChoice) : s.ne < (s.take n pc).ne := by
  cases pc with
  | one a => exact Nat.lt_succ_self _
  | two a b => exact Nat.lt_add_of_pos_right Nat.two_pos

/-- The block of a view from which the next pivot is chosen. -/
abbrev Tile.block (s : Tile K) (n : ℕ) : CpBlock K := ⟨s.A, s.ne, n⟩

/-- Complete pivoting until the block is below `small` or its pivot breaks the bound. -/
def cpLoop (small : K) (inv : WithTop K) (n : ℕ) (s : Tile K) : Tile K :=
  if s.ne < n then
    let b := s.block n
    if small ≤ b.largest.amax ∧ b.passes inv b.choice = true then
      cpLoop small inv n (s.take n b.choice)
    else s
  else s
termination_by n - s.ne
decreasing_by exact Nat.sub_lt_sub_left ‹s.ne < n› (s.lt_take n _)

/-- `cp_factor` on an `n x n` view. -/
def cpFactor (small : K) (inv : WithTop K) (n : ℕ) (A : ℕ → ℕ → K) (rows : ℕ → ℤ) : Tile K :=
  cpLoop small inv n { View.start A rows with ne := 0 }

end CompletePivoting

section BlockRows

variable {K : Type*} [Field K]

/-- One row of `X L⁻ᵀ` over the columns `[j0, j0 + jb)`, with the unit lower `L`. -/
def trsmBlock (L : ℕ → ℕ → K) (j0 : ℕ) : ℕ → (ℕ → K) → ℕ → K
  | 0, x => x
  | jb + 1, x =>
    let y := trsmBlock L j0 jb x
    Function.update y (j0 + jb)
      (y (j0 + jb) - ∑ s ∈ range jb, y (j0 + s) * L (j0 + jb) (j0 + s))

/-- `trsm_rlt` on one row of `X`: a small solve for 32 columns, then the product with the rows of
`L` to their right. -/
def trsmRlt (k : ℕ) (L : ℕ → ℕ → K) (j0 : ℕ) (x : ℕ → K) : ℕ → K :=
  if j0 < k then
    let jb := min 32 (k - j0)
    let y := trsmBlock L j0 jb x
    trsmRlt k L (j0 + 32) fun j =>
      if j0 + jb ≤ j ∧ j < k then y j - ∑ s ∈ range jb, y (j0 + s) * L j (j0 + s) else y j
  else x
termination_by k - j0

/-- `row_times_d`: entry `t` of a row of `L` times the `D` stored in `T`. -/
def rowTimesD (T : ℕ → ℕ → K) (tags : ℕ → ℤ) (l : ℕ → K) (t : ℕ) : K :=
  if tags t = 2 then l t * T t t + l (t + 1) * T (t + 1) t
  else if tags t = -1 then l (t - 1) * T t (t - 1) + l t * T t t
  else l t * T t t

variable [LinearOrder K]

/-- `dinv` of column `j`: its diagonal entry and the off-diagonal of the block it opens. -/
def tileInverse (T : ℕ → ℕ → K) (tags : ℕ → ℤ) (j : ℕ) : K × K :=
  if tags j = 2 then ((pivotInverse T j).1, (pivotInverse T j).2.1)
  else if tags j = -1 then ((pivotInverse T (j - 1)).2.2, 0)
  else (1 / T j j, 0)

/-- `L_t`: the unit lower factor of the tile, with nothing inside a 2x2 block. -/
def unitLower (T : ℕ → ℕ → K) (tags : ℕ → ℤ) : ℕ → ℕ → K := fun i j =>
  if i = j then 1 else if tags j = 2 ∧ i = j + 1 then 0 else T i j

/-- `scale_and_check` from pivot `t` on: scales the rows pivot by pivot, up to and with the first
pivot that has an entry above the bound, and returns where that pivot starts. -/
def scaleAndCheck (nrows k : ℕ) (tags : ℕ → ℤ) (dinv : ℕ → K × K) (inv : WithTop K) (t : ℕ)
    (X : ℕ → ℕ → K) : (ℕ → ℕ → K) × ℕ :=
  if t < k then
    if tags t = 2 then
      let Y := fun r c =>
        if r < nrows ∧ c = t then (dinv t).1 * X r t + (dinv t).2 * X r (t + 1)
        else if r < nrows ∧ c = t + 1 then
          (dinv t).2 * X r t + (dinv (t + 1)).1 * X r (t + 1)
        else X r c
      -- a pair fails as one
      if (List.range nrows).all fun r => lOk inv (Y r t) && lOk inv (Y r (t + 1)) then
        scaleAndCheck nrows k tags dinv inv (t + 2) Y
      else (Y, t)
    else
      let Y := fun r c => if r < nrows ∧ c = t then X r t * (dinv t).1 else X r c
      if (List.range nrows).all fun r => lOk inv (Y r t) then
        scaleAndCheck nrows k tags dinv inv (t + 1) Y
      else (Y, t)
  else (X, k)
termination_by k - t

end BlockRows

/-- The list in pieces of `bs`. -/
def chunks (bs : ℕ) (q : List ℕ) : List (List ℕ) :=
  if q = [] ∨ bs = 0 then [] else q.take bs :: chunks bs (q.drop bs)
termination_by q.length
decreasing_by
  have : 0 < q.length := List.length_pos_of_ne_nil (by tauto)
  rw [List.length_drop]
  omega

section Sweep

variable {K : Type*} [Field K] [LinearOrder K]

/-- What factors a diagonal tile, given its width, its entries and its row ids. -/
abbrev TileFactor (K : Type*) := ℕ → (ℕ → ℕ → K) → (ℕ → ℤ) → Tile K

/-- What `block_factor` leaves beside the view: the backup of the block column, the permutation of
the tile, `L_t`, `D⁻¹`, and the pivots of the tile. -/
structure BlockColumn (K : Type*) where
  bk : ℕ → ℕ → K
  lpc : ℕ → ℕ
  lt : ℕ → ℕ → K
  dinv : ℕ → K × K
  ne : ℕ

variable (child : TileFactor K) (inv : WithTop K) (m ne bs c0 w : ℕ)

/-- `block_factor`: backs up the block column, factors its tile and applies the permutation of the
tile to the rest of the view.  An identity permutation, which the source skips, moves nothing. -/
def blockFactor (s : Sweep K) : Sweep K × BlockColumn K :=
  let bk := tileOf s.A c0
  let t := child w bk fun i => s.rows (c0 + i)
  -- left of the tile the rows follow its permutation, below it the columns do
  let A := permuteRows (setTile s.A c0 w t.A) c0 c0 w t.lp
  ({ s with
      A := fun i j =>
        if c0 ≤ j ∧ j < c0 + w ∧ c0 + w ≤ i ∧ i < m then bk (i - c0) (t.lp (j - c0)) else A i j
      tags := patch s.tags c0 w t.tags
      rows := patch s.rows c0 w t.rows
      lp := patch s.lp c0 w fun i => s.lp (c0 + t.lp i)
      chosen := patch s.chosen c0 w t.chosen },
    { bk := bk
      lpc := t.lp
      lt := unitLower t.A t.tags
      dinv := tileInverse t.A t.tags
      ne := t.ne })

/-- `apply_n` on the rows below the tile: `L = A P (L_t D_t)⁻ᵀ` in place, and the number of leading
pivots within the bound. -/
def applyN (b : BlockColumn K) (s : Sweep K) : Sweep K × ℕ :=
  if b.ne = 0 ∨ m ≤ c0 + w then (s, b.ne)
  else
    let z := scaleAndCheck (m - (c0 + w)) b.ne (fun t => s.tags (c0 + t)) b.dinv inv 0 fun r =>
      trsmRlt b.ne b.lt 0 fun t => s.A (c0 + w + r) (c0 + t)
    ({ s with
        A := fun i j =>
          if c0 + w ≤ i ∧ i < m ∧ c0 ≤ j ∧ j < c0 + b.ne then z.1 (i - (c0 + w)) (j - c0)
          else s.A i j },
      z.2)

/-- One piece of `ApplyT`: the rows of the failed columns `q`, which stand transposed in those
columns, gathered and divided by the first `k` pivots. -/
def applyT (b : BlockColumn K) (s : Sweep K) (q : List ℕ) (k : ℕ) : (ℕ → ℕ → K) × ℕ :=
  scaleAndCheck q.length k (fun t => s.tags (c0 + t)) b.dinv inv 0 fun r =>
    trsmRlt k b.lt 0 fun t => s.A (c0 + t) (q.getD r 0)

/-- The pivots that the rows below and the failed columns let stand; a 2x2 is never split. -/
def acceptedPivots (b : BlockColumn K) (s : Sweep K) (k : ℕ) : ℕ :=
  if b.ne = 0 then k
  else
    let nelim := (chunks bs s.Q).foldl (fun k q => if k = 0 then 0 else (applyT inv c0 b s q k).2) k
    if 0 < nelim ∧ s.tags (c0 + nelim - 1) = 2 then nelim - 1 else nelim

/-- Restores the failed columns `[nelim, w)` of the tile from the backup. -/
def restore (b : BlockColumn K) (nelim : ℕ) (s : Sweep K) : Sweep K :=
  { s with
    A := fun i j =>
      if c0 + nelim ≤ j ∧ j < c0 + w ∧ j ≤ i ∧ i < c0 + w then
        symAt b.bk (b.lpc (i - c0)) (b.lpc (j - c0))
      else if c0 + nelim ≤ j ∧ j < c0 + w ∧ c0 + w ≤ i ∧ i < m then
        b.bk (i - c0) (b.lpc (j - c0))
      else s.A i j
    tags := fun t => if c0 + nelim ≤ t ∧ t < c0 + w then 0 else s.tags t
    chosen := fun t => if c0 + nelim ≤ t ∧ t < c0 + w then none else s.chosen t }

/-- The last `ApplyT`: the rows of the earlier failed columns for the accepted pivots, written back
in place.  A single piece still holds its rows from the check, made on `s₀` with `k` pivots. -/
def writeT (b : BlockColumn K) (k nelim : ℕ) (s₀ s : Sweep K) : Sweep K :=
  { s with
    A := fun i j =>
      if c0 ≤ i ∧ i < c0 + nelim then
        match (chunks bs s.Q).find? fun q => decide (j ∈ q) with
        | some q =>
          let ga := if bs < s.Q.length then applyT inv c0 b s q nelim else applyT inv c0 b s₀ q k
          ga.1 (q.idxOf j) (i - c0)
        | none => s.A i j
      else s.A i j }

/-- Entry `t` of the row of `L D` with the row `l` of `L`, for the block column at `c0`. -/
def blockLd (s : View K) (l : ℕ → K) (t : ℕ) : K :=
  rowTimesD (tileOf s.A c0) (fun t => s.tags (c0 + t)) l t

/-- `UpdateNN`: the eligible columns right of the `nelim` pivots, down to the last row. -/
def updateNN (nelim : ℕ) (s : Sweep K) : Sweep K :=
  { s with
    A := fun i j =>
      if c0 + nelim ≤ j ∧ j < ne ∧ j ≤ i ∧ i < m then
        s.A i j - ∑ t ∈ range nelim,
          s.A i (c0 + t) * blockLd c0 s.toView (fun t => s.A j (c0 + t)) t
      else s.A i j }

/-- `UpdateNT` and `UpdateTN`: the earlier failed columns, in the rows from the pivots on and in
the rows of the failed columns.  `Q` ascends, so the pieces of the source meet every pair of
failed columns once. -/
def updateNT (nelim : ℕ) (s : Sweep K) : Sweep K :=
  { s with
    A := fun i j =>
      if j ∈ s.Q ∧ c0 + nelim ≤ i ∧ i < m then
        s.A i j - ∑ t ∈ range nelim,
          s.A i (c0 + t) * blockLd c0 s.toView (fun t => s.A (c0 + t) j) t
      else if j ∈ s.Q ∧ i ∈ s.Q ∧ j ≤ i then
        s.A i j - ∑ t ∈ range nelim,
          s.A (c0 + t) i * blockLd c0 s.toView (fun t => s.A (c0 + t) j) t
      else s.A i j }

/-- `block_finish`, given the pivots `k` that `apply_n` left. -/
def blockFinish (b : BlockColumn K) (k : ℕ) (s : Sweep K) : Sweep K :=
  let nelim := acceptedPivots inv bs c0 b s k
  let r := restore m c0 w b nelim s
  let s :=
    if nelim = 0 then r
    else updateNT m c0 nelim (updateNN m ne c0 nelim (writeT inv bs c0 b k nelim s r))
  { s with
    Q := s.Q ++ (positions nelim w).map (c0 + ·)
    numElim := s.numElim + nelim }

/-- One block column of the sweep. -/
def blockStep (s : Sweep K) : Sweep K :=
  let f := blockFactor child m c0 w s
  let a := applyN inv m c0 w f.2 f.1
  blockFinish inv m ne bs c0 w f.2 a.2 a.1

/-- Moves one pivot of `sweep_compact` to the next place `dst`. -/
def compactStep (v : View K × ℕ) (src : ℕ) : View K × ℕ :=
  if v.1.tags src = 0 then v else (v.1.swap m v.2 src, v.2 + 1)

/-- `sweep_compact`: moves the failed columns behind the eliminated ones. -/
def sweepCompact (s : Sweep K) : Sweep K :=
  if s.numElim < ne then
    { s with toView := ((List.range ne).foldl (compactStep m) (s.toView, 0)).1 }
  else s

/-- `trailing_update`: the deferred update of the columns that are not eligible. -/
def trailingUpdate (s : Sweep K) : Sweep K :=
  if ne < m ∧ 0 < s.numElim then
    { s with
      A := fun i j =>
        if ne ≤ j ∧ j ≤ i ∧ i < m then
          s.A i j - ∑ c ∈ range s.numElim, s.A i c * rowTimesD s.A s.tags (fun c => s.A j c) c
        else s.A i j }
  else s

/-- `sweep` over the first `ne` columns of an `m x m` view, in block columns of width `bs`. -/
def sweep (A : ℕ → ℕ → K) (rows : ℕ → ℤ) : Tile K :=
  let s := (List.range ((ne + bs - 1) / bs)).foldl
    (fun s b => blockStep child inv m ne bs (b * bs) (min bs (ne - b * bs)) s)
    { View.start A rows with Q := [], numElim := 0 }
  let s := trailingUpdate m ne (sweepCompact m ne s)
  { s.toView with ne := s.numElim }

end Sweep

section Front

variable {K : Type*} [Field K] [LinearOrder K]

/-- `factor_tile`: a sweep with complete pivoting on its tiles, then complete pivoting on the
columns that failed in it. -/
def factorTile (small : K) (inv : WithTop K) (ib : ℕ) : TileFactor K := fun w A rows =>
  if w ≤ ib then cpFactor small inv w A rows
  else
    -- the columns that fail in the sweep are tried again, all together
    let s := sweep (cpFactor small inv) inv w w ib A rows
    if s.ne < w then
      let n2 := w - s.ne
      let t := cpFactor small inv n2 (tileOf s.A s.ne) fun i => s.rows (s.ne + i)
      { A := permuteRows (setTile s.A s.ne n2 t.A) s.ne s.ne n2 t.lp
        tags := patch s.tags s.ne n2 t.tags
        rows := patch s.rows s.ne n2 t.rows
        lp := patch s.lp s.ne n2 fun i => s.lp (s.ne + t.lp i)
        chosen := patch s.chosen s.ne n2 t.chosen
        ne := s.ne + t.ne }
    else s

structure AptpResult where
  numEliminated : ℕ := 0
  numFailed : ℕ := 0
  inertia : InertiaCounts := {}
  flops : ℕ := 0

/-- The loop of `front_result` from pivot `k` on. -/
def countPivots (F : ℕ → ℕ → K) (tags : ℕ → ℤ) (f pe : ℕ) (small : K) (k : ℕ) (res : AptpResult) :
    AptpResult :=
  if k < pe then
    if tags k = 2 then
      let rem := f - (k + 2)
      countPivots F tags f pe small (k + 2)
        { res with
          inertia := addInertia2x2 (F k k) (F (k + 1) k) (F (k + 1) (k + 1)) small res.inertia
          flops := res.flops + (6 * rem + 2 * rem * (rem + 1)) }
    else
      let rem := f - (k + 1)
      countPivots F tags f pe small (k + 1)
        { res with
          inertia := addInertia1x1 (F k k) small res.inertia
          flops := res.flops + (rem + rem * (rem + 1)) }
  else res
termination_by pe - k

/-- `front_result`. -/
def frontResult (F : ℕ → ℕ → K) (tags : ℕ → ℤ) (f numElig pe : ℕ) (small : K) : AptpResult :=
  countPivots F tags f pe small 0 { numEliminated := pe, numFailed := numElig - pe }

/-- `effective_sizes`: the block width of the front and that of a tile. -/
def effectiveSizes (numElig : ℕ) (prm : AptpParams K) : ℕ × ℕ :=
  let nb := min (max 1 prm.nb).toNat (max 1 numElig)
  (nb, min (max 1 prm.ib).toNat nb)

/-- The front as `ldlt_aptp_front` leaves it, with its result. -/
structure AptpFront (K : Type*) extends View K where
  res : AptpResult

/-- `ldlt_aptp_front`. -/
def ldltAptpFront (prm : AptpParams K) (f numElig : ℕ) (F : ℕ → ℕ → K) (rows tags : ℕ → ℤ) :
    AptpFront K :=
  if f = 0 ∨ numElig = 0 then
    { View.start F rows with tags := tags, res := { numFailed := numElig } }
  else
    let sizes := effectiveSizes numElig prm
    let inv := invU prm.u
    let s := sweep (factorTile prm.small inv sizes.2) inv f numElig sizes.1 F rows
    { s.toView with
      tags := fun t => if t < numElig then s.tags t else tags t
      res := frontResult s.A s.tags f numElig s.ne prm.small }

end Front

end SmfSolver.Kernel
