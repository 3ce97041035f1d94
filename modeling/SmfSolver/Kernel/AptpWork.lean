/-
The scratch memory of the a posteriori pivoting kernel (`ldlt_aptp.cpp`): `aptp_work_size`,
`make_ctx`, and every element of its buffers that the kernel reads or writes.

Which elements these are depends on the values of the front only through what the tests of the
kernel decide: the pivots that complete pivoting takes one after the other, and the pivots that
keep the bound.  Here these decisions are given from outside, so the model holds for every
arithmetic, with rounding and values that are not finite.  A view keeps its tags and its moves and
has no entries, and every function returns the accesses it makes beside its result.  The steps
that touch the front alone (`UpdateNN`, the deferred update) make none.
-/
import SmfSolver.Kernel.AptpFront
import SmfSolver.Lib.Carve

namespace SmfSolver.Kernel.AptpWork

open Lib

/-! ## The buffers -/

/-- The nesting levels of a sweep: the front, and a diagonal tile of it. -/
inductive Level
  | front
  | tile
deriving DecidableEq

/-- The buffers of `Ctx`. -/
inductive Buffer
  | bk (level : Level)
  | lt
  | ga
  | gb
  | gc
  | dinv
  | colbuf
  | topLp
  | q (level : Level)
  | lpc (level : Level)
  | cpLp
  | itmp
deriving DecidableEq

/-- The bytes of one element: a double, or an int. -/
def Buffer.elemSize : Buffer → ℕ
  | .bk _ | .lt | .ga | .gb | .gc | .dinv | .colbuf => 8
  | .topLp | .q _ | .lpc _ | .cpLp | .itmp => 4

/-- A front, its eligible columns, and the block widths of the front and of a tile. -/
structure Shape where
  f : ℕ
  numElig : ℕ
  nb : ℕ
  ib : ℕ

/-- The elements that `make_ctx` leaves for each buffer. -/
def Shape.size (c : Shape) : Buffer → ℕ
  | .bk .front => c.f * c.nb
  | .bk .tile => c.nb * c.ib
  | .lt | .ga | .gb | .gc => c.nb * c.nb
  | .dinv => 2 * c.nb
  | .colbuf => c.f
  | .topLp => c.numElig
  | .q .front => c.numElig
  | .lpc .front => c.nb
  | .q .tile => c.nb
  | .lpc .tile => c.ib
  | .cpLp => c.nb
  | .itmp => c.nb

/-- The buffers in the order of `make_ctx`: the doubles first. -/
def buffers : List Buffer :=
  [.bk .front, .bk .tile, .lt, .ga, .gb, .gc, .dinv, .colbuf, .topLp, .q .front, .lpc .front,
    .q .tile, .lpc .tile, .cpLp, .itmp]

/-- The shape for which the kernel runs. -/
def shapeOf {K : Type*} (f numElig : ℕ) (prm : AptpParams K) : Shape where
  f := f
  numElig := numElig
  nb := (effectiveSizes numElig prm).1
  ib := (effectiveSizes numElig prm).2

/-- `make_ctx`: the buffers in the work array, in bytes from its start. -/
def makeCtx {K : Type*} (f numElig : ℕ) (prm : AptpParams K) : List (Piece Buffer) :=
  carve 0 (buffers.map fun b => (b, (shapeOf f numElig prm).size b * b.elemSize))

/-- `aptp_work_size`, in doubles. -/
def aptpWorkSize {K : Type*} (f numElig : ℕ) (prm : AptpParams K) : ℕ :=
  let s := effectiveSizes numElig prm
  let F := max f 1
  let nb := s.1
  let ib := s.2
  let ne := max numElig 1
  let doubles := F * nb + nb * ib + 4 * nb * nb + 2 * nb + F
  let ints := 2 * ne + 4 * nb + ib
  doubles + (ints * 4 + 8 - 1) / 8 + 1

/-- One access: a buffer and the index of an element. -/
abbrev Access := Buffer × ℕ

/-- The elements `g 0`, ..., `g (n - 1)` of a buffer. -/
def row (b : Buffer) (n : ℕ) (g : ℕ → ℕ) : List Access := (List.range n).map fun t => (b, g t)

/-- The elements `g t i` of a buffer, for `t < k` and `i < n`. -/
def block (b : Buffer) (k n : ℕ) (g : ℕ → ℕ → ℕ) : List Access :=
  (List.range k).flatMap fun t => row b n (g t)

/-! ## Complete pivoting -/

/-- The positions of the pivot stand in the block `[k, n)`, as the search finds them. -/
def within (k n : ℕ) : PivotChoice → Bool
  | .one a => decide (k ≤ a ∧ a < n)
  | .two a b => decide (k ≤ a ∧ a < b ∧ b < n)

/-- The accesses of `view_swap` to the moves, which stand in the buffer `lp`. -/
def swapCells (lp : Buffer) (p q : ℕ) : List Access := if p = q then [] else [(lp, p), (lp, q)]

/-- Brings a pivot to the front of the block and eliminates it. -/
def takePivot (lp : Buffer) (n : ℕ) (s : Tile Unit) : PivotChoice → Tile Unit × List Access
  | .one a =>
    let v := s.toView.swap n s.ne a
    ({ v with tags := Function.update v.tags s.ne 1, ne := s.ne + 1 }, swapCells lp s.ne a)
  | .two a b =>
    let v := if a ≠ s.ne then s.toView.swap n s.ne a else s.toView
    let partner := if a ≠ s.ne ∧ b = s.ne then a else b
    let v := if partner ≠ s.ne + 1 then v.swap n (s.ne + 1) partner else v
    ({ v with
        tags := Function.update (Function.update v.tags s.ne 2) (s.ne + 1) (-1)
        ne := s.ne + 2 },
      swapCells lp s.ne a ++ swapCells lp (s.ne + 1) partner)

/-- The loop of `cp_factor`, given the pivots it takes; at a position outside the block, where no
search can end, it stops. -/
def cpLoop (lp : Buffer) (n : ℕ) : List PivotChoice → Tile Unit → Tile Unit × List Access
  | [], s => (s, [])
  | pc :: rest, s =>
    if within s.ne n pc then
      let r := takePivot lp n s pc
      let r' := cpLoop lp n rest r.1
      (r'.1, r.2 ++ r'.2)
    else (s, [])

/-- What factors a diagonal tile, given what its tests decide and its width. -/
abbrev TileRun (χ : Type*) := χ → ℕ → Tile Unit × List Access

/-- A view before its first pivot. -/
def unmarked : View Unit := View.start (fun _ _ => ()) fun _ => 0

/-- `cp_factor` on an `n x n` view with its moves in the buffer `lp`. -/
def cpFactor (lp : Buffer) : TileRun (List PivotChoice) := fun pivots n =>
  let r := cpLoop lp n pivots { unmarked with ne := 0 }
  (r.1, row lp n id ++ r.2)

/-! ## One block column -/

/-- What the tests of a block column decide, the answers `tile` of its diagonal tile aside: the
pivots that keep the bound in the rows below, in each piece of the failed columns, and in these
once more when their rows are formed for good. -/
structure BlockTests (χ : Type*) where
  tile : χ
  below : ℕ → Bool
  piece : ℕ → ℕ → Bool
  again : ℕ → ℕ → Bool

/-- The lower triangle of the `k x k` factor `L_t`, stored in columns of `bs`. -/
def factorCells (bs k : ℕ) : List Access :=
  (List.range k).flatMap fun c => (positions c k).map fun r => (.lt, c * bs + r)

/-- The inverses of the pivots, one block after the other, and the zeros inside the 2x2 blocks of
`L_t`. -/
def inverseCells (bs k : ℕ) (tags : ℕ → ℤ) (j : ℕ) : List Access :=
  if j < k then
    if tags j = 2 then
      [(.lt, j * bs + (j + 1)), (.dinv, 2 * j), (.dinv, 2 * j + 1), (.dinv, 2 * (j + 1)),
        (.dinv, 2 * (j + 1) + 1)] ++ inverseCells bs k tags (j + 2)
    else [(.dinv, 2 * j), (.dinv, 2 * j + 1)] ++ inverseCells bs k tags (j + 1)
  else []
termination_by k - j

/-- `scale_and_check` from pivot `t` on, where `ok` tells which pivots keep the bound and `column`
where a column of the rows stands in the scratch. -/
def scaleAndCheck (k : ℕ) (tags : ℕ → ℤ) (ok : ℕ → Bool) (column : ℕ → List Access) (t : ℕ) :
    ℕ × List Access :=
  if t < k then
    if tags t = 2 then
      let here := [(.dinv, 2 * t), (.dinv, 2 * t + 1), (.dinv, 2 * (t + 1))] ++ column t ++
        column (t + 1)
      if ok t then
        let r := scaleAndCheck k tags ok column (t + 2)
        (r.1, here ++ r.2)
      else (t, here)
    else
      let here := [(.dinv, 2 * t)] ++ column t
      if ok t then
        let r := scaleAndCheck k tags ok column (t + 1)
        (r.1, here ++ r.2)
      else (t, here)
  else (k, [])
termination_by k - t

/-- `row_times_d` from pivot `t` on, with entry `t` of its result in `out t`. -/
def timesD (k : ℕ) (tags : ℕ → ℤ) (out : ℕ → Access) (t : ℕ) : List Access :=
  if t < k then
    if tags t = 2 then [out t, out (t + 1)] ++ timesD k tags out (t + 2)
    else out t :: timesD k tags out (t + 1)
  else []
termination_by k - t

section BlockColumn

variable {χ : Type*} (child : TileRun χ) (ℓ : Level) (lp : Buffer) (m bs c0 w : ℕ)

/-- `block_factor`.  Returns the sweep, the factored tile and the accesses. -/
def blockFactor (answers : χ) (s : Sweep Unit) : Sweep Unit × Tile Unit × List Access :=
  let ldb := m - c0
  let rb := m - c0 - w
  let t := child answers w
  let lpc := t.1.lp
  -- 1. the backup
  let backup := (List.range w).flatMap fun t => row (.bk ℓ) (m - c0 - t) fun r => t * ldb + t + r
  -- 3. the permutation of the tile, outside the tile
  let moved :=
    if ∀ i < w, lpc i = i then []
    else
      row .colbuf w id ++ block (.bk ℓ) w rb (fun t r => lpc t * ldb + (w + r)) ++
        row lp w (fun t => c0 + lpc t) ++ row .itmp w id ++ row lp w (fun t => c0 + t)
  ({ s with
      tags := patch s.tags c0 w t.1.tags
      lp := patch s.lp c0 w fun i => s.lp (c0 + lpc i) },
    t.1,
    -- 2. the tile; 4. `L_t` and `D⁻¹`
    backup ++ t.2 ++ row (.lpc ℓ) w id ++ moved ++ factorCells bs t.1.ne ++
      inverseCells bs t.1.ne t.1.tags 0)

/-- `apply_n` on the rows below the tile. -/
def applyN (t : Tile Unit) (below : ℕ → Bool) : ℕ × List Access :=
  if t.ne = 0 ∨ m ≤ c0 + w then (t.ne, [])
  else
    let r := scaleAndCheck t.ne t.tags below (fun _ => []) 0
    (r.1, factorCells bs t.ne ++ r.2)

/-- The failed columns in pieces of `bs`: the number of pieces, and the length of piece `p`. -/
def numPieces (nq : ℕ) : ℕ := (nq + bs - 1) / bs

/-- The length of piece `p` of the failed columns. -/
def pieceLength (nq p : ℕ) : ℕ := min bs (nq - p * bs)

/-- A piece of the failed columns gathered into `ga`, for `k` pivots. -/
def gather (nq k p : ℕ) : List Access :=
  (List.range k).flatMap fun t =>
    row (.q ℓ) (pieceLength bs nq p) (fun ii => p * bs + ii) ++
      row .ga (pieceLength bs nq p) fun ii => t * bs + ii

/-- One piece of `ApplyT`: gathers its rows, and divides them by the first `k` pivots. -/
def applyT (tags : ℕ → ℤ) (ok : ℕ → Bool) (nq k p : ℕ) : ℕ × List Access :=
  let nc := pieceLength bs nq p
  let r := scaleAndCheck k tags ok (fun t => row .ga nc fun i => t * bs + i) 0
  (r.1, gather ℓ bs nq k p ++ factorCells bs k ++ block .ga k nc (fun t i => t * bs + i) ++ r.2)

/-- The pivots that the failed columns let stand, of `nelim` that the rows below do. -/
def applyPieces (t : Tile Unit) (piece : ℕ → ℕ → Bool) (nq nelim : ℕ) : ℕ × List Access :=
  (List.range (numPieces bs nq)).foldl
    (fun s p =>
      if s.1 = 0 then s
      else
        let r := applyT ℓ bs t.tags (piece p) nq s.1 p
        (r.1, s.2 ++ r.2))
    (nelim, [])

/-- `ApplyT` on every piece; a 2x2 is never split. -/
def acceptedPivots (t : Tile Unit) (piece : ℕ → ℕ → Bool) (nq nelim : ℕ) : ℕ × List Access :=
  if t.ne = 0 then (nelim, [])
  else
    let r := applyPieces ℓ bs t piece nq nelim
    (if 0 < r.1 ∧ t.tags (r.1 - 1) = 2 then r.1 - 1 else r.1, r.2)

/-- Step 5: the failed columns of the tile come back from the backup. -/
def restoreCells (lpc : ℕ → ℕ) (nelim : ℕ) : List Access :=
  let ldb := m - c0
  let rb := m - c0 - w
  (positions nelim w).flatMap fun s2 =>
    ((positions s2 w).flatMap fun s1 =>
        [(.lpc ℓ, s1), (.lpc ℓ, s2),
          (.bk ℓ, min (lpc s1) (lpc s2) * ldb + max (lpc s1) (lpc s2))]) ++
      row (.bk ℓ) rb fun r => lpc s2 * ldb + (w + r)

/-- The last `ApplyT`: a single piece still holds its rows, more are gathered again. -/
def writeCells (t : Tile Unit) (again : ℕ → ℕ → Bool) (nq nelim : ℕ) : List Access :=
  (List.range (numPieces bs nq)).flatMap fun p =>
    (if bs < nq then (applyT ℓ bs t.tags (again p) nq nelim p).2 else []) ++
      gather ℓ bs nq nelim p

/-- `UpdateNT` and `UpdateTN`, for every two pieces of the failed columns. -/
def updateCells (t : Tile Unit) (nq nelim : ℕ) : List Access :=
  let mr := m - (c0 + nelim)
  (List.range (numPieces bs nq)).flatMap fun p =>
    let nj := pieceLength bs nq p
    ((List.range nj).flatMap fun jj =>
        (.q ℓ, p * bs + jj) :: timesD nelim t.tags (fun t => (.gb, t * bs + jj)) 0) ++
      (if 0 < mr then
        block .gb nelim nj (fun t jj => t * bs + jj) ++ block (.bk ℓ) nj mr
          (fun jj r => jj * mr + r)
      else []) ++
      (positions p (numPieces bs nq)).flatMap fun i =>
        gather ℓ bs nq nelim i ++ block .gb nelim nj (fun t jj => t * bs + jj) ++
          block .gc nj (pieceLength bs nq i) fun jj ii => jj * bs + ii

/-- `block_finish`, given the pivots `k` that `apply_n` left. -/
def blockFinish (t : Tile Unit) (x : BlockTests χ) (k : ℕ) (s : Sweep Unit) :
    Sweep Unit × List Access :=
  let nq := s.Q.length
  let a := acceptedPivots ℓ bs t x.piece nq k
  let nelim := a.1
  ({ s with
      tags := fun i => if c0 + nelim ≤ i ∧ i < c0 + w then 0 else s.tags i
      Q := s.Q ++ (positions nelim w).map (c0 + ·)
      numElim := s.numElim + nelim },
    a.2 ++ restoreCells ℓ m c0 w t.lp nelim ++
      (if 0 < nelim then
        writeCells ℓ bs t x.again nq nelim ++ updateCells ℓ m bs c0 t nq nelim
      else []) ++
      row (.q ℓ) (w - nelim) fun i => nq + i)

/-- One block column of the sweep. -/
def blockStep (x : BlockTests χ) (s : Sweep Unit × List Access) : Sweep Unit × List Access :=
  let f := blockFactor child ℓ lp m bs c0 w x.tile s.1
  let a := applyN m bs c0 w f.2.1 x.below
  let r := blockFinish ℓ m bs c0 w f.2.1 x a.1 f.1
  (r.1, s.2 ++ f.2.2 ++ a.2 ++ r.2)

end BlockColumn

/-! ## The sweep, the tile and the front -/

/-- The swaps of `sweep_compact` over the first `n` columns. -/
def compactCells (lp : Buffer) (m : ℕ) (v : View Unit) (n : ℕ) : List Access :=
  (List.range n).flatMap fun src =>
    let s := (List.range src).foldl (compactStep m) (v, 0)
    if s.1.tags src = 0 then [] else swapCells lp s.2 src

/-- `sweep` over the first `ne` columns of an `m x m` view, with its moves in the buffer `lp`. -/
def sweep {χ : Type*} (child : TileRun χ) (ℓ : Level) (lp : Buffer) (m ne bs : ℕ)
    (x : ℕ → BlockTests χ) : Tile Unit × List Access :=
  let r := (List.range ((ne + bs - 1) / bs)).foldl
    (fun s b => blockStep child ℓ lp m bs (b * bs) (min bs (ne - b * bs)) (x b) s)
    ({ unmarked with Q := [], numElim := 0 }, row lp ne id)
  let s := sweepCompact m ne r.1
  ({ s.toView with ne := s.numElim },
    r.2 ++ if r.1.numElim < ne then compactCells lp m r.1.toView ne else [])

/-- What the tests inside a diagonal tile decide: in its sweep, and in the complete pivoting on the
whole tile or on what the sweep left. -/
structure TileTests where
  inner : ℕ → BlockTests (List PivotChoice)
  pivots : List PivotChoice

/-- `factor_tile` on the tile of a block column of the front. -/
def factorTile (ib : ℕ) : TileRun TileTests := fun x w =>
  if w ≤ ib then cpFactor (.lpc .front) x.pivots w
  else
    let s := sweep (cpFactor (.lpc .tile)) .tile (.lpc .front) w w ib x.inner
    let ne1 := s.1.ne
    if ne1 < w then
      let n2 := w - ne1
      let t := cpFactor .cpLp x.pivots n2
      let lp2 := t.1.lp
      ({ s.1 with
          tags := patch s.1.tags ne1 n2 t.1.tags
          lp := patch s.1.lp ne1 n2 fun i => s.1.lp (ne1 + lp2 i)
          ne := ne1 + t.1.ne },
        s.2 ++ t.2 ++ row .cpLp n2 id ++
          if ∀ i < n2, lp2 i = i then []
          else
            row .colbuf n2 id ++ row (.lpc .front) n2 (fun t => ne1 + lp2 t) ++ row .itmp n2 id ++
              row (.lpc .front) n2 fun t => ne1 + t)
    else s

/-- `ldlt_aptp_front`: the factored front and every access to the work array. -/
def ldltAptpFront {K : Type*} (prm : AptpParams K) (f numElig : ℕ)
    (x : ℕ → BlockTests TileTests) : Tile Unit × List Access :=
  if f = 0 ∨ numElig = 0 then ({ unmarked with ne := 0 }, [])
  else
    let sizes := effectiveSizes numElig prm
    sweep (factorTile sizes.2) .front .topLp f numElig sizes.1 x

end SmfSolver.Kernel.AptpWork
