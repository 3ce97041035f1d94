/-
  SmfSolver.Solve.SlackSolve

  A solve through a slack factor (`slack_solve`, solve.cpp): the pairs are eliminated, the
  reduced matrix's factor solves, the pairs are substituted back.  A full solve is checked on
  the full matrix; where refinement does not help, the full matrix is factored, once for the
  factor, and solves from then on.

  Solves of one factor may overlap.  They share the full factor, or the error of its making,
  and look at it only under the factor's lock: a solve is two such looks with local work
  before, between and behind them.

  Doubles are in an ordered field, `kMax` is the largest.  What the engine answers (how its
  run ended, and the solves of the factor it made) is given.  The check of the arguments is
  in the types but for the number of right-hand sides.
-/
import SmfSolver.Plugin.Ma97Plugin
import Mathlib.Order.WithBot

namespace SmfSolver
namespace Solve

open Lib Session
open Plugin (ScalingMethod SlackElimination)
open Factor (FactorStatus)

/-! ## Controls -/

inductive Pivoting where
  | threshold
  | static
  deriving DecidableEq

/-- The further fields of `Control` that the slack path reads. -/
structure SlackFields (K : Type) where
  pivoting : Pivoting
  scaling : ScalingMethod
  slackElimination : SlackElimination
  continueOnSingular : Bool
  slackOmegaTarget : K

abbrev SlackControl (K : Type) := Control (SlackFields K)

/-- The reduction runs at pivot thresholds up to this. -/
def kSlackMaxPivotU : ℚ := 1 / 10 ^ 6

/-- Refinement steps of a full solve before the full matrix's factor. -/
def kSlackRefineSteps : ℕ := 3

variable {K : Type} [Field K] [LinearOrder K] {n m : ℕ}

/-- `slack_armed`; `plan`: the analysis has a slack plan. -/
def slackArmed (plan : Bool) (ctrl : SlackControl K) : Bool :=
  plan && ctrl.rest.slackElimination ≠ .off && ctrl.matrixType = .indefinite &&
    ctrl.rest.pivoting = .threshold && !(0 < ctrl.staticPivotTol) && ctrl.regDiagSign.isNone &&
    ctrl.rest.scaling ≠ .userSupplied && ctrl.maxNegativePivots < 0 &&
    ctrl.pivotU ≤ kSlackMaxPivotU

/-! ## Factors -/

/-- A solve with a factor, behind the checks of `solve_core`: its error and the columns. -/
abbrev SolveCall (n : ℕ) (K : Type) :=
  SlackControl K → SolveJob → {m : ℕ} → (Fin m → Fin n → K) → ErrorCode × (Fin m → Fin n → K)

/-- A factor, as far as `solve_core` looks at it. -/
structure FullFactor (n : ℕ) (K : Type) where
  status : FactorStatus
  /-- Its permutations have the matrix's order. -/
  sized : Bool
  run : SolveCall n K

namespace FullFactor

/-- The error with which `solve_core` refuses the factor's status. -/
def refuses (fk : FullFactor n K) (ctrl : SlackControl K) : Option ErrorCode :=
  if fk.status = .inertiaExceeded then some .inertiaExceeded
  else if fk.status = .maxPivotDelays then some .workLimitExceeded
  else if fk.status ≠ .success ∧ !ctrl.rest.continueOnSingular then
    some (if fk.status = .notPositiveDefinite then .notPositiveDefinite else .singularMatrix)
  else none

/-- `solve_core`. -/
def solveCore (fk : FullFactor n K) (ctrl : SlackControl K) (job : SolveJob)
    (b : Fin m → Fin n → K) : ErrorCode × (Fin m → Fin n → K) :=
  if n = 0 ∨ m = 0 ∨ !fk.sized then (.illegalValue, b)
  else
    match fk.refuses ctrl with
    | some e => (e, b)
    | none => fk.run ctrl job b

end FullFactor

/-- How a run of the engine ended. -/
structure EngineRun (n : ℕ) (K : Type) where
  /-- Storage bounds, values and scaling passed: the factor has its permutations. -/
  ready : Bool
  /-- A front failed on its input or on storage. -/
  failed : Bool
  overWork : Bool
  /-- Negative and zero pivots of the fronts that were done. -/
  negative : ℕ
  zero : ℕ
  run : SolveCall n K

/-- The status that `factor_indef` leaves. -/
def factorStatus (ctrl : SlackControl K) (e : EngineRun n K) : FactorStatus :=
  if !e.ready then .singular
  else if e.failed then .singular
  else if 0 ≤ ctrl.maxNegativePivots ∧ ctrl.maxNegativePivots < e.negative then .inertiaExceeded
  else if e.overWork then .maxPivotDelays
  else if 0 < e.zero then .singular
  else .success

/-- The full matrix's factor; `forced`: `slack_force_full_refactor_failure`. -/
def fullFactor (ctrl : SlackControl K) (forced : Bool) (e : EngineRun n K) : FullFactor n K where
  status := if forced then .singular else factorStatus ctrl e
  sized := e.ready
  run := e.run

/-- One slack/multiplier pair: its rows, and its state entries `b0 ..< b0 + nb`. -/
structure SlackPair (n : ℕ) where
  s : Fin n
  y : Fin n
  nb : ℕ
  b0 : ℕ

/-- A factorization through a slack plan: the pairs' inverses (three values a pair), their
    state entries with their reduced rows, the reduced matrix's factor, and for the check of
    the solves the full matrix, whose pattern is clean. -/
structure SlackFactor (n : ℕ) (K : Type) [Field K] [LinearOrder K] where
  nr : ℕ
  redToFull : Fin nr → Fin n
  pairs : List (SlackPair n)
  bRow : ℕ → Fin nr
  pinv : ℕ → K
  bval : ℕ → K
  reduced : FullFactor nr K
  cv : LowerColumns n K
  clean : ∀ j, ((cv.col j).map Prod.fst).Nodup
  /-- The control it was made with. -/
  madeWith : SlackControl K
  armed : slackArmed true madeWith = true

namespace SlackFactor

variable (sf : SlackFactor n K)

/-- The control of the full matrix's factorization. -/
def ctrl : SlackControl K :=
  { sf.madeWith with rest := { sf.madeWith.rest with slackElimination := .off } }

/-- No values were kept. -/
def cvEmpty : Bool := (List.finRange n).all fun j => (sf.cv.col j).isEmpty

/-! ## The substitution -/

/-- `r_r -= B P^-1 b_p` for pair `q`: only the multiplier row of `B` is nonzero. -/
def eliminatePair (b : Fin n → K) (r : Fin sf.nr → K) (q : SlackPair n × ℕ) : Fin sf.nr → K :=
  let zy := sf.pinv (3 * q.2 + 1) * b q.1.s + sf.pinv (3 * q.2 + 2) * b q.1.y
  if zy = 0 then r
  else (List.range q.1.nb).foldl (fun r t =>
    let row := sf.bRow (q.1.b0 + t)
    Function.update r row (r row - sf.bval (q.1.b0 + t) * zy)) r

/-- The reduced right-hand side of a column. -/
def gather (forward : Bool) (b : Fin n → K) : Fin sf.nr → K :=
  let r := fun i => b (sf.redToFull i)
  if forward then sf.pairs.zipIdx.foldl (sf.eliminatePair b) r else r

/-- The rows of pair `q`, from the reduced solution `r`. -/
def substitutePair (job : SolveJob) (r : Fin sf.nr → K) (b : Fin n → K) (q : SlackPair n × ℕ) :
    Fin n → K :=
  let iss := sf.pinv (3 * q.2)
  let isy := sf.pinv (3 * q.2 + 1)
  let iyy := sf.pinv (3 * q.2 + 2)
  let (bs, b_y) := (b q.1.s, b q.1.y)
  let (bs, b_y) :=
    if job ≠ .backward then (iss * bs + isy * b_y, isy * bs + iyy * b_y) else (bs, b_y)
  let (bs, b_y) :=
    if job ≠ .diagOnly then
      let t := (List.range q.1.nb).foldl (fun t k =>
        t + sf.bval (q.1.b0 + k) * r (sf.bRow (q.1.b0 + k))) 0
      (bs - isy * t, b_y - iyy * t)
    else (bs, b_y)
  Function.update (Function.update b q.1.s bs) q.1.y b_y

/-- A column, from the reduced solution. -/
def scatter (job : SolveJob) (r : Fin sf.nr → K) (b : Fin n → K) : Fin n → K :=
  let b := (List.finRange sf.nr).foldl (fun b i => Function.update b (sf.redToFull i) (r i)) b
  if job = .forward then b else sf.pairs.zipIdx.foldl (sf.substitutePair job r) b

/-- `slack_substitute`. -/
def slackSubstitute (ctrl : SlackControl K) (job : SolveJob) (b : Fin m → Fin n → K) :
    ErrorCode × (Fin m → Fin n → K) :=
  if m = 0 then (.illegalValue, b)
  else
    match sf.reduced.solveCore ctrl job fun j => sf.gather (job = .full ∨ job = .forward) (b j) with
    | (.success, r) => (.success, fun j => sf.scatter job (r j) (b j))
    | (rc, _) => (rc, b)

end SlackFactor

/-! ## The backward error -/

/-- Column `j`'s entries, as they are and mirrored, each value through `f`, times `x`, added
    to `y`; the sum for row `j` itself is added last. -/
def addColumn (f : K → K) (A : LowerColumns n K) (x y : Fin n → K) (j : Fin n) : Fin n → K :=
  let s := (A.col j).foldl (fun (s : (Fin n → K) × K) e =>
    (Function.update s.1 e.1 (s.1 e.1 + f e.2 * x j),
      if e.1 ≠ j then s.2 + f e.2 * x e.1 else s.2)) (y, 0)
  Function.update s.1 j (s.1 j + s.2)

/-- `b - A x`. -/
def slackResidual (A : LowerColumns n K) (b x : Fin n → K) : Fin n → K :=
  (List.finRange n).foldl (addColumn (fun v => -v) A x) b

/-- `|A| |x| + |b|`. -/
def slackDenominator (A : LowerColumns n K) (b x : Fin n → K) : Fin n → K :=
  (List.finRange n).foldl (addColumn (fun v => |v|) A fun i => |x i|) fun i => |b i|

/-- The largest ratio of the rows, none where a row has no bound. -/
def worstRatio (kMax : K) (r d : Fin n → K) : List (Fin n) → K → WithTop K
  | [], w => w
  | i :: l, w =>
    if ¬|r i| ≤ kMax ∨ ¬d i ≤ kMax then ⊤
    else if 0 < d i then worstRatio kMax r d l (max w (|r i| / d i))
    else if 0 < |r i| then ⊤
    else worstRatio kMax r d l w

/-- `slack_omega`. -/
def slackOmega (kMax : K) (A : LowerColumns n K) (b x : Fin n → K) : WithTop K :=
  worstRatio kMax (slackResidual A b x) (slackDenominator A b x) (List.finRange n) 0

/-! ## Refinement -/

/-- A column in refinement, with the steps of the solve. -/
structure RefinedColumn (n : ℕ) (K : Type) where
  x : Fin n → K
  w : WithTop K
  steps : ℕ
  rc : ErrorCode

/-- The columns of a full solve in refinement. -/
structure Refinement (m n : ℕ) (K : Type) where
  b : Fin m → Fin n → K
  steps : ℕ
  accurate : Bool
  rc : ErrorCode

namespace SlackFactor

variable (kMax : K) (sf : SlackFactor n K) (ctrl : SlackControl K)

/-- The refinement steps of a column with right-hand side `bj`. -/
def refineColumn (bj : Fin n → K) : ℕ → RefinedColumn n K → RefinedColumn n K
  | 0, s => s
  | k + 1, s =>
    if (ctrl.rest.slackOmegaTarget : WithTop K) < s.w then
      match sf.slackSubstitute ctrl .full fun _ : Fin 1 => slackResidual sf.cv bj s.x with
      | (.success, dx) =>
        let x := fun i => s.x i + dx (Fin.last 0) i
        refineColumn bj k ⟨x, slackOmega kMax sf.cv bj x, s.steps + 1, .success⟩
      | (rc, _) => { s with rc := rc }
    else s

/-- Column `j`; nothing happens once a step returned an error. -/
def refineNext (b : Fin m → Fin n → K) (s : Refinement m n K) (j : Fin m) : Refinement m n K :=
  if s.rc ≠ .success then s
  else
    let c := sf.refineColumn kMax ctrl (b j) kSlackRefineSteps
      ⟨s.b j, slackOmega kMax sf.cv (b j) (s.b j), s.steps, .success⟩
    { b := Function.update s.b j c.x
      steps := c.steps
      accurate := s.accurate && !((ctrl.rest.slackOmegaTarget : WithTop K) < c.w)
      rc := c.rc }

/-- All columns, from the solution `x` of the reduced factor. -/
def refine (b x : Fin m → Fin n → K) : Refinement m n K :=
  (List.finRange m).foldl (sf.refineNext kMax ctrl b) ⟨x, 0, true, .success⟩

end SlackFactor

/-! ## The solves -/

/-- A call: the right-hand sides with the caller's control. -/
structure SlackCall (n : ℕ) (K : Type) where
  m : ℕ
  ctrl : SlackControl K
  job : SolveJob
  b : Fin m → Fin n → K

/-- What a call returns, and leaves in `b` and `info`. -/
structure SlackResult (m n : ℕ) (K : Type) where
  rc : ErrorCode
  b : Fin m → Fin n → K
  slackRefineSteps : ℕ
  slackSolveFallbacks : ℕ

/-- What the solves share: the full factor, or the error of its making. -/
structure Shared (n : ℕ) (K : Type) where
  full : Option (FullFactor n K) := none
  fullError : ErrorCode := .success

/-- Where a solve is. -/
inductive SlackPhase (n : ℕ) (K : Type) where
  | idle
  /-- It has looked at the shared state. -/
  | entered (c : SlackCall n K) (seen : Shared n K)
  /-- A column is still inaccurate; it is about to take the lock. -/
  | inaccurate (c : SlackCall n K) (k : Refinement c.m n K)
  /-- It has let go of the lock, with the full factor. -/
  | settled (c : SlackCall n K) (k : Refinement c.m n K) (full : Option (FullFactor n K))
  /-- It has returned; `k` when a column was still inaccurate. -/
  | done (c : SlackCall n K) (k : Option (Refinement c.m n K)) (r : SlackResult c.m n K)

namespace SlackFactor

variable (kMax : K) (sf : SlackFactor n K)

/-- The solve, up to the second look. -/
def work (c : SlackCall n K) (seen : Shared n K) : SlackPhase n K :=
  if c.m = 0 then .done c none ⟨.illegalValue, c.b, 0, 0⟩
  else
    -- a full factor that is there already is the one to solve with
    match seen.full with
    | some full =>
      let s := full.solveCore c.ctrl c.job c.b
      .done c none ⟨s.1, s.2, 0, 1⟩
    | none =>
      if seen.fullError ≠ .success then .done c none ⟨seen.fullError, c.b, 0, 1⟩
      -- nothing to measure: the substituted solve is the result
      else if c.job ≠ .full ∨ ¬0 < c.ctrl.rest.slackOmegaTarget ∨ sf.cvEmpty then
        let s := sf.slackSubstitute c.ctrl c.job c.b
        .done c none ⟨s.1, s.2, 0, 0⟩
      else
        match sf.slackSubstitute c.ctrl c.job c.b with
        | (.success, x) =>
          let k := sf.refine kMax c.ctrl c.b x
          if k.rc ≠ .success then .done c none ⟨k.rc, k.b, 0, 0⟩
          else if k.accurate then .done c none ⟨.success, k.b, k.steps, 0⟩
          else .inaccurate c k
        | (rc, b) => .done c none ⟨rc, b, 0, 0⟩

/-- The second look: the full matrix is factored unless it was tried before; `analysed`: the
    plan has the full matrix's analysis. -/
def refactor (engine : SlackControl K → LowerColumns n K → EngineRun n K) (analysed forced : Bool)
    (s : Shared n K) : Shared n K × Bool :=
  if s.full.isNone ∧ s.fullError = .success then
    if analysed then
      ({ s with full := some (fullFactor sf.ctrl forced (engine sf.ctrl sf.cv)) }, true)
    else ({ s with fullError := .illegalValue }, false)
  else (s, false)

/-- The solve behind the second look; `error`: the shared error, read without the lock. -/
def finish (c : SlackCall n K) (k : Refinement c.m n K) (full : Option (FullFactor n K))
    (error : ErrorCode) : SlackResult c.m n K :=
  match full with
  | none => ⟨error, k.b, k.steps, 1⟩
  | some full =>
    let proceeds := full.status = .success ∨
      (full.status ≠ .maxPivotDelays ∧ c.ctrl.rest.continueOnSingular)
    let s := full.solveCore c.ctrl c.job (if proceeds then c.b else k.b)
    ⟨s.1, s.2, k.steps, 1⟩

end SlackFactor

/-- The solves of one factor; `refactored` counts the factorizations of the full matrix. -/
structure SlackState (n : ℕ) (K : Type) where
  shared : Shared n K := {}
  refactored : ℕ := 0
  solves : ℕ → SlackPhase n K := fun _ => .idle

inductive SlackEvent (n : ℕ) (K : Type) where
  | enter (i : ℕ) (c : SlackCall n K)
  | work (i : ℕ)
  | refactor (i : ℕ) (analysed forced : Bool)
  | finish (i : ℕ)

namespace SlackFactor

variable (kMax : K) (sf : SlackFactor n K)
  (engine : SlackControl K → LowerColumns n K → EngineRun n K)

/-- One step of one solve. -/
def step (s : SlackState n K) : SlackEvent n K → Option (SlackState n K)
  | .enter i c =>
    match s.solves i with
    | .idle => some { s with solves := Function.update s.solves i (.entered c s.shared) }
    | _ => none
  | .work i =>
    match s.solves i with
    | .entered c seen => some { s with solves := Function.update s.solves i (sf.work kMax c seen) }
    | _ => none
  -- under the lock: the full factor is made once and is there for the later solves
  | .refactor i analysed forced =>
    match s.solves i with
    | .inaccurate c k =>
      let (shared, made) := sf.refactor engine analysed forced s.shared
      some { shared := shared
             refactored := if made then s.refactored + 1 else s.refactored
             solves := Function.update s.solves i (.settled c k shared.full) }
    | _ => none
  -- after the lock, with the factor that was there under it
  | .finish i =>
    match s.solves i with
    | .settled c k full => some { s with
        solves := Function.update s.solves i
          (.done c (some k) (finish c k full s.shared.fullError)) }
    | _ => none

/-- Every order of the solves' steps. -/
def lts : Lts (SlackState n K) (SlackEvent n K) where
  init := {}
  step := fun s e t => sf.step kMax engine s e = some t

end SlackFactor

end Solve
end SmfSolver
