/-
  SmfSolver.Multifrontal.ProcessFront

  One front of the multifrontal factorization, in a postorder pass (`pop = true`):
  its rows, the assembly of the original entries and of the children's contribution
  blocks, the kernel, the store of the factor's columns, and the push of the front's
  own contribution block.

  The memory is the pass's: the factor values, in which a front is assembled in place
  at `fo`; the stack of contribution blocks with its two tops; and two small-front
  buffers.  A subtree root's large block goes to the arenas instead.  The dense kernel
  is a parameter: it gets the front's rows and entries and returns them as it left them.
-/
import SmfSolver.Multifrontal.AssemblyTree
import SmfSolver.Multifrontal.ChunkArena
import Mathlib.Algebra.GroupWithZero.Nat
import Mathlib.Data.List.Basic
import Mathlib.Logic.Function.Basic

namespace SmfSolver
namespace Multifrontal

open Lib

variable {V : Type*}

/-! ## Data -/

inductive ErrorCode where
  | success
  | notPositiveDefinite
  | illegalValue
  | internalError
  | workLimitExceeded
  | inertiaExceeded
  deriving DecidableEq

structure InertiaCounts where
  positive : ℕ := 0
  negative : ℕ := 0
  zero : ℕ := 0

def InertiaCounts.add (a b : InertiaCounts) : InertiaCounts :=
  ⟨a.positive + b.positive, a.negative + b.negative, a.zero + b.zero⟩

structure SolveStep where
  rowOffset : ℕ
  factorOffset : ℕ
  p : ℕ
  f : ℕ

structure DiagSolveEntry (V : Type*) where
  tag : ℤ
  wasZero : Bool
  row0 : ℕ
  row1 : ℕ
  d00 : V
  d10 : V
  d11 : V

/-- The running delay budget of a sequence of fronts. -/
structure BudgetState where
  count : ℕ := 0
  spent : Bool := false

/-- Which dense kernel takes a front. -/
inductive FrontKernel where
  | tpp
  | small
  | lapack
  | aptp
  | tiled
  deriving DecidableEq

/-- The pivoting parameters a front runs with: the factorization's, a fallback front's
    or a budget front's. -/
inductive PivotParams where
  | plain
  | fallback
  | budget

/-- What a kernel leaves: the rows and the front in pivot order, and its pivots. -/
structure KernelResult (V : Type*) where
  rows : ℕ → ℕ
  front : ℕ → ℕ → V
  tags : ℕ → ℤ
  numAccepted : ℕ
  inertia : InertiaCounts
  /-- The kernel wrote past its workspace. -/
  overran : Bool

/-- A small-front buffer. -/
structure SmallBuf (V : Type*) where
  v : ℕ → V
  rows : ℕ → ℕ
  /-- The supernode whose contribution block is held. -/
  node : Option ℕ
  ld : ℕ
  off : ℕ

structure FrontPass (V : Type*) where
  fv : ℕ → V
  sri : ℕ → ℕ
  steps : List SolveStep
  diag : List (DiagSolveEntry V)
  cbv : ℕ → V
  cbr : ℕ → ℕ
  fo : ℕ
  ro : ℕ
  cvTop : ℕ
  crTop : ℕ
  sbuf : Fin 2 → SmallBuf V
  inertia : InertiaCounts
  frontWork : ℕ

structure NumericWorkspace where
  cbOwner : ℕ → Option ℕ
  cbValueOff : ℕ → ℕ
  cbRowOff : ℕ → ℕ
  cbSize : ℕ → ℕ
  cbDelayed : ℕ → ℕ

/-- Where a block outside the passes' stacks is. -/
structure NodeBlock where
  v : ArenaRef
  r : ArenaRef

structure State (V : Type*) where
  pass : FrontPass V
  ws : NumericWorkspace
  nodeBlocks : ℕ → NodeBlock
  rootValues : ChunkArena V
  rootRows : ChunkArena ℕ
  budget : BudgetState
  pivotTypes : ℕ → List ℤ
  factorColPtr : ℕ → ℕ

/-- The stack of another pass. -/
structure PassStack (V : Type*) where
  values : ℕ → V
  rows : ℕ → ℕ

/-- What a factorization fixes for all its fronts (`FactorContext`). -/
structure Context (V : Type*) where
  keep : AssemblyTree
  acp : ℕ → ℕ
  ari : ℕ → ℕ
  av : ℕ → V
  posdef : Bool
  kernel : FrontKernel → PivotParams → ℕ → List ℕ → (ℕ → ℕ → V) → KernelResult V
  /-- `fallback_static > 0`. -/
  fallbackStatic : Bool
  /-- `aprm != nullptr`. -/
  aprm : Bool
  aptpMinElig : ℕ
  /-- `delay_budget`, when it and `budget_static` switch the budget on. -/
  delayBudget : Option ℕ
  /-- The fronts run with a tile context and tile parameters. -/
  tileAprm : Bool
  tileMin : ℕ
  smallFronts : Bool
  blockedMinFront : ℕ
  nb : ℕ
  posdefLapack : ℕ
  /-- The top part of the tree; none: the serial engine. -/
  top : Option (ℕ → Bool)
  /-- The work limit or the early gate stops before this front, of this work, after
      this work of the pass; other passes' work may decide, so it is not computed here. -/
  stops : ℕ → ℕ → ℕ → Bool
  /-- The budget a front starts from, given the running one: the end of the front before
      it, or the start of its own region. -/
  enterRegion : ℕ → BudgetState → BudgetState
  /-- What stops a pass between two fronts: its own limits, or another pass's failure. -/
  interrupts : ℕ → FrontPass V → ErrorCode
  /-- The stacks of the other passes. -/
  passStacks : ℕ → PassStack V
  sqrt : V → V
  isFinite : V → Bool

def kSmallFrontMax : ℕ := 32

def kRootBlockMinEntries : ℕ := 4096

def smallFrontLd (f : ℕ) : ℕ :=
  if f ≤ 4 then 4 else if f ≤ 8 then 8 else if f ≤ 16 then 16 else kSmallFrontMax

/-! ## Contribution blocks -/

/-- A contribution block: its row ids, and its lower triangle packed by columns. -/
structure Block (V : Type*) where
  rows : List ℕ
  values : List V

/-- The entries `(column, row)` of a lower triangle, in the packed order. -/
def lowerIndices (q : ℕ) : List (ℕ × ℕ) :=
  (List.range q).flatMap fun jj => (List.range' jj (q - jj)).map fun ii => (jj, ii)

/-- Where column `jj` of a packed lower triangle starts. -/
def packedCol (q : ℕ) : ℕ → ℕ
  | 0 => 0
  | jj + 1 => packedCol q jj + (q - jj)

/-- `held_buf`: the small-front buffer that holds a child's block. -/
def FrontPass.heldBuf (P : FrontPass V) (c : ℕ) : Option (Fin 2) :=
  if (P.sbuf 0).node = some c then some 0
  else if (P.sbuf 1).node = some c then some 1
  else none

namespace Context

variable (cx : Context V) (me : ℕ)

/-- The values of pass `o`'s stack. -/
def stackValues (st : State V) (o : ℕ) : ℕ → V :=
  if o = me then st.pass.cbv else (cx.passStacks o).values

/-- The row ids of pass `o`'s stack. -/
def stackRows (st : State V) (o : ℕ) : ℕ → ℕ :=
  if o = me then st.pass.cbr else (cx.passStacks o).rows

/-- `child_rows`: row id `t` of a child's block. -/
def childRow (st : State V) (c t : ℕ) : ℕ :=
  match st.pass.heldBuf c with
  | some b => (st.pass.sbuf b).rows t
  | none =>
    match st.ws.cbOwner c with
    | none => st.rootRows.get (st.nodeBlocks c).r t
    | some o => cx.stackRows me st o (st.ws.cbRowOff c + t)

/-- `child_values`: entry `(ii, jj)` of a child's block, strided in a small-front
    buffer and packed elsewhere. -/
def childValue (st : State V) (c jj ii : ℕ) : V :=
  match st.pass.heldBuf c with
  | some b =>
    (st.pass.sbuf b).v ((st.pass.sbuf b).off * ((st.pass.sbuf b).ld + 1)
      + jj * ((st.pass.sbuf b).ld + 1) + (ii - jj))
  | none =>
    match st.ws.cbOwner c with
    | none => st.rootValues.get (st.nodeBlocks c).v (packedCol (st.ws.cbSize c) jj + (ii - jj))
    | some o =>
      cx.stackValues me st o
        (st.ws.cbValueOff c + (packedCol (st.ws.cbSize c) jj + (ii - jj)))

/-- The block of a child, read where it is. -/
def readBlock (st : State V) (c : ℕ) : Block V where
  rows := (List.range (st.ws.cbSize c)).map (cx.childRow me st c)
  values := (lowerIndices (st.ws.cbSize c)).map fun e => cx.childValue me st c e.1 e.2

end Context

/-! ## The front's memory -/

/-- Where a front is assembled: in the factor, or in a small-front buffer. -/
inductive FrontMem where
  | factor
  | small (b : Fin 2)

/-- The memory a front is assembled in, from its start on. -/
def FrontPass.mem (P : FrontPass V) : FrontMem → ℕ → V
  | .factor => fun a => P.fv (P.fo + a)
  | .small b => (P.sbuf b).v

def FrontPass.setMem (P : FrontPass V) (m : FrontMem) (g : ℕ → V) : FrontPass V :=
  match m with
  | .factor => { P with fv := fun a => if P.fo ≤ a then g (a - P.fo) else P.fv a }
  | .small b => { P with sbuf := Function.update P.sbuf b { P.sbuf b with v := g } }

def State.setMem (st : State V) (m : FrontMem) (g : ℕ → V) : State V :=
  { st with pass := st.pass.setMem m g }

/-- `Fa[j * lda + i] += v`. -/
def State.addAt [Add V] (st : State V) (m : FrontMem) (lda i j : ℕ) (v : V) : State V :=
  st.setMem m
    (Function.update (st.pass.mem m) (j * lda + i) (st.pass.mem m (j * lda + i) + v))

/-! ## Before the assembly -/

/-- A front's rows, and the position of each. -/
structure FrontRows where
  rows : List ℕ
  pos : ℕ → Option ℕ

/-- `rows[f] = r; pos[r] = f++`. -/
def FrontRows.push (fr : FrontRows) (r : ℕ) : FrontRows :=
  ⟨fr.rows ++ [r], Function.update fr.pos r (some fr.rows.length)⟩

/-- What is decided before a front is assembled. -/
structure FrontPlan where
  rows : List ℕ
  pos : ℕ → Option ℕ
  numElig : ℕ
  fallbackFront : Bool
  budgetFront : Bool
  kernel : FrontKernel
  place : FrontMem
  lda : ℕ

def FrontPlan.f (p : FrontPlan) : ℕ := p.rows.length

/-- The front's work: eligible columns times rows squared. -/
def FrontPlan.work (p : FrontPlan) : ℕ := p.numElig * p.f * p.f

def FrontPlan.isSmall (p : FrontPlan) : Bool :=
  match p.place with
  | .factor => false
  | .small _ => true

def FrontPlan.params (p : FrontPlan) : PivotParams :=
  if p.fallbackFront then .fallback else if p.budgetFront then .budget else .plain

/-- `sb`: the small-front buffer not holding a child's block. -/
def FrontPass.freeBuf (P : FrontPass V) : Fin 2 :=
  if (P.sbuf 0).node.isSome then 1 else 0

namespace Context

variable (cx : Context V) (me : ℕ)

/-- Columns delayed by the children. -/
def numDelayed (st : State V) (s : ℕ) : ℕ :=
  ((cx.keep.children s).map st.ws.cbDelayed).sum

/-- The front's rows: the children's delayed columns, the own pivots and the symbolic
    extension; then any child row outside that structure. -/
def frontRows (st : State V) (s : ℕ) : FrontRows :=
  let kids := cx.keep.children s
  let delayed := kids.flatMap fun c =>
    (List.range (st.ws.cbDelayed c)).map (cx.childRow me st c)
  let own := (delayed ++ cx.keep.frontRows s).foldl FrontRows.push ⟨[], fun _ => none⟩
  let rest := kids.flatMap fun c =>
    (List.range' (st.ws.cbDelayed c) (st.ws.cbSize c - st.ws.cbDelayed c)).map
      (cx.childRow me st c)
  rest.foldl (fun fr r => if fr.pos r = none then fr.push r else fr) own

/-- The budget is spent when the front starts. -/
def budgetSpent (bs : BudgetState) : Bool :=
  match cx.delayBudget with
  | none => bs.spent
  | some d => bs.spent || decide (d ≤ bs.count)

def plan (st : State V) (s : ℕ) : FrontPlan :=
  let sn := cx.keep.supernodes s
  let nd := cx.numDelayed st s
  let fr := cx.frontRows me st s
  let f := fr.rows.length
  let numElig := nd + sn.width
  let budgetFront := cx.delayBudget.isSome && cx.budgetSpent st.budget
  let fallbackFront := cx.fallbackStatic && (sn.parent.isNone || decide (sn.width < nd))
  let tiled := cx.tileAprm && decide (cx.tileMin ≤ f) && !fallbackFront && !budgetFront
  let aptp := tiled ||
    cx.aprm && !fallbackFront && !budgetFront && decide (cx.aptpMinElig ≤ numElig)
  let lapackFront := decide (0 < cx.posdefLapack) && !aptp && decide (cx.posdefLapack ≤ f)
    && decide (1 < cx.nb)
  let small := !lapackFront && cx.smallFronts && decide (f ≤ kSmallFrontMax)
    && decide (f < cx.blockedMinFront) && decide (1 < cx.nb) && !aptp
  { rows := fr.rows
    pos := fr.pos
    numElig := numElig
    fallbackFront := fallbackFront
    budgetFront := budgetFront
    -- the first kernel of the list that fits the front
    kernel :=
      if tiled then .tiled else if aptp then .aptp else if small then .small
      else if lapackFront then .lapack else .tpp
    -- a small front is formed in a buffer of its own, any other where its columns are stored
    place := if small then .small st.pass.freeBuf else .factor
    lda := if small then smallFrontLd f else f }

end Context

/-! ## Assembly and kernel -/

/-- The front's entries that the assembly starts from zero: its lower triangle, in a
    small-front buffer down from the 4-row boundary above the diagonal and to the
    padded end. -/
def FrontPlan.cleared (p : FrontPlan) (i j : ℕ) : Bool :=
  if p.isSmall then decide (j < p.f ∧ j / 4 * 4 ≤ i ∧ i < (p.f + 3) / 4 * 4)
  else decide (j < p.f ∧ j ≤ i ∧ i < p.f)

/-- One assembly of a front and its kernel. -/
structure Attempt (V : Type*) where
  /-- The children's blocks as they were added, in order. -/
  blocks : List (ℕ × Block V)
  /-- The front as it was assembled. -/
  front : ℕ → ℕ → V
  result : KernelResult V
  /-- The state after the kernel. -/
  state : State V

/-- The position of a row in the front. -/
def FrontPlan.position (p : FrontPlan) (r : ℕ) : ℕ := (p.pos r).getD 0

/-- Zero the front. -/
def State.clear [Zero V] (st : State V) (p : FrontPlan) : State V :=
  st.setMem p.place fun a =>
    if p.cleared (a % p.lda) (a / p.lda) then 0 else st.pass.mem p.place a

/-- The front as the kernel sees it. -/
def State.front (st : State V) (p : FrontPlan) (i j : ℕ) : V :=
  st.pass.mem p.place (j * p.lda + i)

/-- The front as the kernel leaves it. -/
def State.setFront (st : State V) (p : FrontPlan) (F : ℕ → ℕ → V) : State V :=
  st.setMem p.place fun a =>
    if a % p.lda < p.f ∧ a / p.lda < p.f then F (a % p.lda) (a / p.lda)
    else st.pass.mem p.place a

/-- The front's rows as the kernel left them. -/
def FrontPlan.rowsAfter (p : FrontPlan) (kr : KernelResult V) : List ℕ :=
  (List.range p.f).map kr.rows

namespace Context

variable [Zero V] [Add V] (cx : Context V) (me : ℕ)

/-- The original entries of the pivot columns. -/
def addOriginal (p : FrontPlan) (sn : Supernode) (st : State V) : State V :=
  (List.range' sn.colStart sn.width).foldl
    (fun st j =>
      (List.range' (cx.acp j) (cx.acp (j + 1) - cx.acp j)).foldl
        (fun st k =>
          st.addAt p.place p.lda (p.position (cx.ari k)) (p.position j) (cx.av k))
        st)
    st

/-- Add the entry `(ii, jj)` of child `c`'s block, at the front positions `cm` of its
    rows; the value added is recorded. -/
def addEntry (p : FrontPlan) (c : ℕ) (cm : ℕ → ℕ) (monotone : Bool)
    (acc : State V × List V) (e : ℕ × ℕ) : State V × List V :=
  let v := cx.childValue me acc.1 c e.1 e.2
  let i := if monotone then cm e.2 else if cm e.1 ≤ cm e.2 then cm e.2 else cm e.1
  let j := if monotone then cm e.1 else if cm e.1 ≤ cm e.2 then cm e.1 else cm e.2
  (acc.1.addAt p.place p.lda i j v, acc.2 ++ [v])

/-- Add child `c`'s block to the front. -/
def extendAdd (p : FrontPlan) (st : State V) (c : ℕ) : State V × Block V :=
  let q := st.ws.cbSize c
  let rows := (List.range q).map (cx.childRow me st c)
  let cm := fun t => p.position (cx.childRow me st c t)
  let monotone := decide (((List.range q).map cm).IsChain (· < ·))
  let added := (lowerIndices q).foldl (cx.addEntry me p c cm monotone) (st, [])
  (added.1, ⟨rows, added.2⟩)

/-- Add the block of a child that has one. -/
def addChild (p : FrontPlan) (acc : State V × List (ℕ × Block V)) (c : ℕ) :
    State V × List (ℕ × Block V) :=
  if acc.1.ws.cbSize c = 0 then acc
  else
    let r := cx.extendAdd me p acc.1 c
    (r.1, acc.2 ++ [(c, r.2)])

/-- Add the children's blocks. -/
def addChildren (p : FrontPlan) (kids : List ℕ) (st : State V) :
    State V × List (ℕ × Block V) :=
  kids.foldl (cx.addChild me p) (st, [])

/-- Assemble the front and run a kernel on it. -/
def attempt (s : ℕ) (p : FrontPlan) (k : FrontKernel) (prm : PivotParams) (st : State V) :
    Attempt V :=
  let assembled := cx.addChildren me p (cx.keep.children s)
    (cx.addOriginal p (cx.keep.supernodes s) (st.clear p))
  let result := cx.kernel k prm p.numElig p.rows (assembled.1.front p)
  { blocks := assembled.2
    front := assembled.1.front p
    result := result
    state := assembled.1.setFront p result.front }

/-- The delay budget asks for the front again, static-pivoted. -/
def retries (p : FrontPlan) (s : ℕ) (bs : BudgetState) (kr : KernelResult V) : Bool :=
  match cx.delayBudget with
  | none => false
  | some d =>
    !p.budgetFront && !p.fallbackFront && (cx.keep.parent s).isSome
      && decide (d < bs.count + (p.numElig - kr.numAccepted))

/-- A retry has no APTP kernel. -/
def retryKernel (p : FrontPlan) : FrontKernel :=
  match p.kernel with
  | .aptp | .tiled => .tpp
  | k => k

/-- Assemble and factor, at most twice. -/
def attempts (s : ℕ) (p : FrontPlan) (st : State V) : List (Attempt V) :=
  let a := cx.attempt me s p p.kernel p.params st
  if !a.result.overran && cx.retries p s st.budget a.result then
    [a, cx.attempt me s p (retryKernel p) .budget a.state]
  else [a]

end Context

/-! ## After the kernel -/

/-- The small-front buffer that holds `c`'s block, if one does, is free. -/
def FrontPass.releaseChild (P : FrontPass V) (c : ℕ) : FrontPass V :=
  match P.heldBuf c with
  | some b => { P with sbuf := Function.update P.sbuf b { P.sbuf b with node := none } }
  | none => P

/-- The stack tops below the blocks of the children this pass made. -/
def popTops (ws : NumericWorkspace) (me : ℕ) (kids : List ℕ) (top : ℕ × ℕ) : ℕ × ℕ :=
  kids.foldl
    (fun top c =>
      if 0 < ws.cbSize c ∧ ws.cbOwner c = some me then
        (min top.1 (ws.cbValueOff c), min top.2 (ws.cbRowOff c))
      else top)
    top

/-- A small front's L columns go to the factor. -/
def State.copySmall (st : State V) (p : FrontPlan) (numAccepted : ℕ) : State V :=
  if p.isSmall then
    st.setMem .factor fun a =>
      if a / p.f < numAccepted ∧ a / p.f ≤ a % p.f then
        st.pass.mem p.place (a / p.f * p.lda + a % p.f)
      else st.pass.mem .factor a
  else st

/-- The columns of a front while they are stored. -/
structure StoredColumns (V : Type*) where
  mem : ℕ → V
  diag : List (DiagSolveEntry V)
  finite : Bool
  d10 : V

/-- Zero rows `[lo, hi)` of column `c`. -/
def zeroRows [Zero V] (mem : ℕ → V) (f c lo hi : ℕ) : ℕ → V := fun a =>
  if c * f + lo ≤ a ∧ a < c * f + hi then 0 else mem a

namespace Context

variable [Zero V] [Add V] [Mul V] (cx : Context V) (me : ℕ)

/-- An indefinite column keeps its pivot block: `d` on the diagonal, the off-diagonal of
    a 2x2 block in the strictly upper slot. -/
def storeColumn (row : ℕ → ℕ) (tags : ℕ → ℤ) (f : ℕ) (st : StoredColumns V) (c : ℕ) :
    StoredColumns V :=
  let cell := fun i j => st.mem (j * f + i)
  let st₁ : StoredColumns V :=
    -- a zero pivot: the whole column is cleared
    if tags c = 0 then
      { st with
        diag := st.diag ++ [⟨1, true, row c, 0, 0, 0, 0⟩]
        mem := Function.update (zeroRows st.mem f c (c + 1) f) (c * f + c) 0 }
    -- the first column of a pair keeps the block; `d10` waits for the second
    else if tags c = 2 then
      { mem := Function.update st.mem (c * f + (c + 1)) 0
        diag := st.diag ++
          [⟨2, false, row c, row (c + 1), cell c c, cell (c + 1) c, cell (c + 1) (c + 1)⟩]
        finite := st.finite && cx.isFinite (cell c c) && cx.isFinite (cell (c + 1) c)
          && cx.isFinite (cell (c + 1) (c + 1))
        d10 := cell (c + 1) c }
    else if tags c = 1 then
      { st with
        diag := st.diag ++ [⟨1, false, row c, 0, cell c c, 0, 0⟩]
        finite := st.finite && cx.isFinite (cell c c) }
    else st
  let mem := zeroRows st₁.mem f c 0 c
  { st₁ with
    mem := if tags c = -1 then Function.update mem (c * f + (c - 1)) st₁.d10 else mem }

/-- A positive definite column is scaled by the square root of its pivot, unless the
    LAPACK kernel already did. -/
def storePosdef (lapack : Bool) (f : ℕ) (mem : ℕ → V) (c : ℕ) : ℕ → V :=
  let zeroed := zeroRows mem f c 0 c
  if lapack then zeroed
  else
    let sd := cx.sqrt (mem (c * f + c))
    fun a =>
      if a = c * f + c then sd
      else if c * f + c < a ∧ a < c * f + f then zeroed a * sd
      else zeroed a

/-- The stored columns, D entries and finiteness of a front of `f` rows. -/
def storeColumns (p : FrontPlan) (row : ℕ → ℕ) (tags : ℕ → ℤ) (count : ℕ) (P : FrontPass V) :
    FrontPass V × Bool :=
  if cx.posdef then
    (P.setMem .factor ((List.range count).foldl
      (cx.storePosdef (decide (p.kernel = .lapack)) p.f) (P.mem .factor)), true)
  else
    let r := (List.range count).foldl (cx.storeColumn row tags p.f)
      ⟨P.mem .factor, P.diag, true, 0⟩
    ({ P.setMem .factor r.mem with diag := r.diag }, r.finite)

/-- The block goes to the root arenas. -/
def rootBlock (parent q : ℕ) : Bool :=
  match cx.top with
  | none => false
  | some top => top parent && decide (kRootBlockMinEntries ≤ q * (q + 1) / 2)

/-- After the kernel: the children's buffers are free again, a small front's columns are
    in the factor, and the stack is popped below the children. -/
def afterKernel (s : ℕ) (p : FrontPlan) (retried : Bool) (kr : KernelResult V) (st : State V) :
    State V :=
  let kids := cx.keep.children s
  let st := { st with pass := kids.foldl FrontPass.releaseChild st.pass }
  let st := st.copySmall p kr.numAccepted
  -- the children's blocks are the top of the stack
  let top := popTops st.ws me kids (st.pass.cvTop, st.pass.crTop)
  { st with
    pass :=
      { st.pass with
        cvTop := top.1
        crTop := top.2
        inertia := st.pass.inertia.add kr.inertia
        frontWork := st.pass.frontWork + p.work }
    budget :=
      { count :=
          if cx.delayBudget.isSome && (cx.keep.parent s).isSome then
            st.budget.count + (p.numElig - kr.numAccepted)
          else st.budget.count
        -- a retry has used the budget up
        spent := cx.budgetSpent st.budget || retried } }

/-- Store the front's columns; a root's unaccepted columns are zero pivots. -/
def storeFront (s : ℕ) (p : FrontPlan) (kr : KernelResult V) (st : State V) : State V × Bool :=
  -- what a root did not take has no parent to go to
  let zeros := (cx.keep.parent s).isNone && decide (kr.numAccepted < p.numElig)
  let count := if zeros then p.numElig else kr.numAccepted
  let tags := fun c =>
    if zeros ∧ kr.numAccepted ≤ c ∧ c < p.numElig then 0 else kr.tags c
  let stored := cx.storeColumns p kr.rows tags count st.pass
  ({ st with
      pass :=
        { stored.1 with
          inertia :=
            if zeros then
              { stored.1.inertia with
                zero := stored.1.inertia.zero + (p.numElig - kr.numAccepted) }
            else stored.1.inertia
          steps := stored.1.steps ++ [⟨st.pass.ro, st.pass.fo, count, p.f⟩]
          sri := writeSeg stored.1.sri st.pass.ro (p.rowsAfter kr)
          fo := st.pass.fo + p.f * count
          ro := st.pass.ro + p.f }
      pivotTypes :=
        if cx.posdef then st.pivotTypes
        else Function.update st.pivotTypes s ((List.range count).map tags)
      factorColPtr := Function.update st.factorColPtr s st.pass.fo }, stored.2)

end Context

/-- The Schur complement a kernel left, its delayed columns first. -/
def State.schurBlock (st : State V) (p : FrontPlan) (kr : KernelResult V) : Block V where
  rows := (p.rowsAfter kr).drop kr.numAccepted
  values := (lowerIndices (p.f - kr.numAccepted)).map fun e =>
    st.front p (kr.numAccepted + e.2) (kr.numAccepted + e.1)

/-- The block of `s`: its owner, its place on the stack, its order and delayed columns. -/
def NumericWorkspace.setBlock (ws : NumericWorkspace) (s : ℕ) (owner : Option ℕ)
    (valueOff rowOff size delayed : ℕ) : NumericWorkspace where
  cbOwner := Function.update ws.cbOwner s owner
  cbValueOff := Function.update ws.cbValueOff s valueOff
  cbRowOff := Function.update ws.cbRowOff s rowOff
  cbSize := Function.update ws.cbSize s size
  cbDelayed := Function.update ws.cbDelayed s delayed

/-- The block stays in the small-front buffer `b`: the parent is next. -/
def State.handOver (st : State V) (me s : ℕ) (p : FrontPlan) (kr : KernelResult V) (b : Fin 2)
    (block : Block V) : State V :=
  { st with
    pass :=
      { st.pass with
        sbuf := Function.update st.pass.sbuf b
          { st.pass.sbuf b with
            node := some s
            ld := p.lda
            off := kr.numAccepted
            rows := writeSeg (st.pass.sbuf b).rows 0 block.rows } }
    ws := st.ws.setBlock s (some me) st.pass.cvTop st.pass.crTop (p.f - kr.numAccepted)
      (p.numElig - kr.numAccepted) }

/-- The block goes on the stack. -/
def State.pushStack (st : State V) (me s : ℕ) (p : FrontPlan) (kr : KernelResult V)
    (block : Block V) : State V :=
  let q := p.f - kr.numAccepted
  { st with
    pass :=
      { st.pass with
        cbv := writeSeg st.pass.cbv st.pass.cvTop block.values
        cbr := writeSeg st.pass.cbr st.pass.crTop block.rows
        cvTop := st.pass.cvTop + q * (q + 1) / 2
        crTop := st.pass.crTop + q }
    ws := st.ws.setBlock s (some me) st.pass.cvTop st.pass.crTop q (p.numElig - kr.numAccepted) }

/-- The block goes to the root arenas. -/
def State.pushArena (st : State V) (s : ℕ) (p : FrontPlan) (kr : KernelResult V)
    (block : Block V) : State V :=
  let q := p.f - kr.numAccepted
  let v := st.rootValues.take (q * (q + 1) / 2)
  let r := st.rootRows.take q
  { st with
    rootValues := v.2.write v.1 block.values
    rootRows := r.2.write r.1 block.rows
    nodeBlocks := Function.update st.nodeBlocks s ⟨v.1, r.1⟩
    ws := st.ws.setBlock s none 0 0 q (p.numElig - kr.numAccepted) }

/-- A front with no block. -/
def State.pushNone (st : State V) (s : ℕ) : State V :=
  { st with
    ws :=
      { st.ws with
        cbSize := Function.update st.ws.cbSize s 0
        cbDelayed := Function.update st.ws.cbDelayed s 0 } }

/-- One call of `process_front`: what it returns, what it assembled, the block it left
    for the parent, and the state. -/
structure FrontRun (V : Type*) where
  code : ErrorCode
  attempts : List (Attempt V)
  pushed : Option (Block V)
  state : State V

namespace Context

variable (cx : Context V) (me : ℕ)

/-- Push the Schur complement for the parent. -/
def pushBlock (s : ℕ) (next : Option ℕ) (p : FrontPlan) (kr : KernelResult V) (block : Block V)
    (st : State V) : State V × Option (Block V) :=
  match cx.keep.parent s with
  | none => (st.pushNone s, none)
  | some parent =>
    if p.f - kr.numAccepted = 0 then (st.pushNone s, none)
    else
      match p.place, decide (next = some parent) with
      | .small b, true => (st.handOver me s p kr b block, some block)
      | _, _ =>
        if cx.rootBlock parent (p.f - kr.numAccepted) then (st.pushArena s p kr block, some block)
        else (st.pushStack me s p kr block, some block)

variable [Zero V] [Add V] [Mul V]

/-- The rest of a front, from the state its last kernel left. -/
def finishFront (s : ℕ) (next : Option ℕ) (p : FrontPlan) (retried : Bool)
    (kr : KernelResult V) (st : State V) : ErrorCode × State V × Option (Block V) :=
  let st := cx.afterKernel me s p retried kr st
  if cx.posdef ∧ kr.numAccepted < p.numElig then (.notPositiveDefinite, st, none)
  else
    let stored := cx.storeFront s p kr st
    -- the block is read where the front was assembled, below the moved `fo`
    let block := { stored.1 with pass := { stored.1.pass with fo := st.pass.fo } }.schurBlock p kr
    let r := cx.pushBlock me s next p kr block stored.1
    (if stored.2 then .success else .illegalValue, r.1, r.2)

/-- Assemble, factor and store supernode `s`; `next` is the front the pass takes right
    after it. -/
def processFront (s : ℕ) (next : Option ℕ) (st : State V) : FrontRun V :=
  let p := cx.plan me st s
  -- the work limit, before the front is touched
  if cx.stops s p.work st.pass.frontWork then
    { code := .workLimitExceeded
      attempts := []
      pushed := none
      state :=
        { st with pass := { st.pass with frontWork := st.pass.frontWork + p.work } } }
  else
    let as := cx.attempts me s p st
    match as.getLast? with
    | none => { code := .internalError, attempts := [], pushed := none, state := st }
    | some a =>
      -- a kernel that wrote past its workspace
      if a.result.overran then
        { code := .internalError, attempts := as, pushed := none, state := a.state }
      else
        let r := cx.finishFront me s next p (decide (as.length = 2)) a.result a.state
        { code := r.1, attempts := as, pushed := r.2.2, state := r.2.1 }

end Context

/-! ## A pass -/

/-- A call of `process_front` by a pass: the front, the next one, the state before. -/
structure Call (V : Type*) where
  front : ℕ
  next : Option ℕ
  before : State V
  run : FrontRun V

structure PassRun (V : Type*) where
  calls : List (Call V)
  code : ErrorCode
  state : State V

namespace Context

variable [Zero V] [Add V] [Mul V] (cx : Context V) (me : ℕ)

/-- The loop over a postorder range, until a front fails or the pass is interrupted. -/
def runTask : List ℕ → PassRun V → PassRun V
  | [], r => r
  | s :: rest, r =>
    let before := { r.state with budget := cx.enterRegion s r.state.budget }
    let run := cx.processFront me s rest.head? before
    let code := if run.code = .success then cx.interrupts s run.state.pass else run.code
    let r := { calls := r.calls ++ [⟨s, rest.head?, before, run⟩], code, state := run.state }
    if code = .success then runTask rest r else r

/-- The tasks of a pass, one after another. -/
def runTasks : List (List ℕ) → PassRun V → PassRun V
  | [], r => r
  | t :: rest, r =>
    let r := cx.runTask me t r
    if r.code = .success then runTasks rest r else r

/-- A pass from the state `st`. -/
def runPass (P : cx.keep.Tasks) (st : State V) : PassRun V :=
  cx.runTasks me (P.ranges.map AssemblyTree.taskFronts) ⟨[], .success, st⟩

end Context

end Multifrontal
end SmfSolver
