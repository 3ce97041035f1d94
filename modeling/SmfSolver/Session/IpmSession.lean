/-
  SmfSolver.Session.IpmSession

  One KKT pattern factorized again and again by an interior-point method: the session
  owns the analysis and the factor, learns the inertia an accepted factor has, stops a
  factorization that exceeds it, and re-analyses a pattern that delays many pivots.

  The calls are the members of `IpmSession`, with the flags of the source.  What the
  solver answers (an analysis, a factorization, a realized order, a solve) is given: a
  step of the session is a call together with one answer the solver may give
  (`Outcome.Fits` says how a factorization can end).  An analysis is named by a number
  that is never used again, where the code has an address.

  `history` records what the session did, in order; no function reads it.
-/
import SmfSolver.Matrix.CscLower
import SmfSolver.Factor.ScaleOnDelay
import SmfSolver.Lib.Run

namespace SmfSolver
namespace Session

open Lib
open Factor (FactorStatus)

/-! ## Controls -/

inductive MatrixType where
  | positiveDefinite
  | indefinite
  deriving DecidableEq

inductive OrderingMethod where
  | autoSerial
  | autoParallel
  | amd
  | metis
  | userSupplied
  | matching
  deriving DecidableEq

inductive MatchingTrigger where
  | predicted
  | realizedDelays
  deriving DecidableEq

inductive StaticMode where
  | off
  | fallback
  | regularized
  deriving DecidableEq

inductive SolveJob where
  | full
  | forward
  | diagOnly
  | backward
  | diagBack
  deriving DecidableEq

inductive IpmFactorStatus where
  | ok
  | wrongInertia
  | singular
  | error
  deriving DecidableEq

/-- Where a pointer of a `Control` points: a buffer of the caller, or data of the session. -/
inductive Pointer where
  | caller (buffer : ℕ)
  | factorScale
  | regSign
  deriving DecidableEq

/-- The fields of `Control` that the session reads or sets; the engine's own are `rest`. -/
structure Control (ρ : Type) where
  matrixType : MatrixType
  ordering : OrderingMethod
  matchingTrigger : MatchingTrigger
  userScale : Option Pointer
  pivotU : ℚ
  staticPivotTol : ℚ
  fallbackStaticPivotTol : ℚ
  staticPivotsAsZero : Bool
  staticZeroStaysZero : Bool
  staticPivotInOrder : Bool
  regDiagSign : Option Pointer
  regDiagTol : ℚ
  treeParallel : Bool
  maxNegativePivots : ℤ
  rest : ρ

structure IpmControl where
  learnInertia : Bool := true
  abortOnWrongInertia : Bool := false
  reanalyse : Bool := false
  reanalyseDelayFrac : ℚ := 1 / 100
  reanalyseFlopsRatio : ℚ := 1
  reanalyseMinGap : ℤ := 5
  staticMode : StaticMode := .off
  staticAsZero : Bool := false
  regRho : ℚ := 1 / 10 ^ 8

structure IpmStats where
  factorizations : ℕ := 0
  accepted : ℕ := 0
  aborted : ℕ := 0
  reanalysesTried : ℕ := 0
  reanalysesAdopted : ℕ := 0
  reanalysesReverted : ℕ := 0
  staticPivots : ℕ := 0
  flopsAvoided : ℚ := 0

structure Info where
  status : ErrorCode := .success
  factorStatus : FactorStatus := .success
  numPositive : ℕ := 0
  numNegative : ℕ := 0
  numZero : ℕ := 0
  delayedPivots : ℕ := 0
  staticPivots : ℕ := 0
  actualFlops : ℚ := 0
  abortedFlopsSkipped : ℚ := 0

/-! ## Analyses and factors -/

/-- What an analysis found: whether it made a slack plan, and its `delay_free_kernel_flops`. -/
structure Analysed where
  slack : Bool
  kernelFlops : ℚ
  deriving DecidableEq

/-- An analysis, by its number. -/
structure AnalysisKeep extends Analysed where
  id : ℕ
  deriving DecidableEq

/-- An analysis that a factor may point at: one of the session's own, or one that the
    slack plan of such an analysis owns. -/
inductive Ref where
  | keep (id : ℕ)
  | reduced (id : ℕ)
  | full (id : ℕ)
  deriving DecidableEq

/-- The analysis of the session that keeps it alive. -/
def Ref.owner : Ref → ℕ
  | .keep id => id
  | .reduced id => id
  | .full id => id

/-- `slack_owns`. -/
def AnalysisKeep.slackOwns (ak : AnalysisKeep) : Option Ref → Bool
  | some (.reduced id) => ak.slack && decide (id = ak.id)
  | some (.full id) => ak.slack && decide (id = ak.id)
  | _ => false

/-- The factor: what it points at, the analysis whose slack plan it keeps alive, whether
    `factor_values` holds anything, and the numbers of a factorization (`Φ`). -/
structure FactorKeep (Φ : Type) where
  analysis : Option Ref := none
  slack : Option ℕ := none
  hasValues : Bool := false
  numeric : Option Φ := none
  useBandedSpd : Bool := false
  band : Option Φ := none

/-- How a factorization ends. -/
inductive Ending where
  /-- Before the engine starts: on the full matrix, or after a reduced factor of the slack
      plan was turned down. -/
  | early
  | earlyReduced
  /-- The engine started and did not finish: an error, or the limit on negative pivots. -/
  | stopped
  /-- To the end: by fronts, on the banded path, or through the slack plan. -/
  | complete
  | banded
  | slack
  deriving DecidableEq

/-- The factorization ran to the end. -/
def Ending.runsToEnd : Ending → Bool
  | .complete | .banded | .slack => true
  | _ => false

/-- What `Solver::factor` answers.  `fullMade`: the slack plan's full analysis could be
    made, and stands for the analysis wherever the plan is not used. -/
structure Outcome (Φ : Type) where
  ending : Ending
  fullMade : Bool
  status : FactorStatus
  info : Info
  numeric : Option Φ

/-- What the engine is asked for: the values, the `Control`, and what its user scale
    points at. -/
structure Request (ρ : Type) where
  values : List ℚ
  ctrl : Control ρ
  scale : List ℚ

variable {ρ Φ : Type}

/-- The analysis a factorization off the slack plan takes (`slack_full_analysis`). -/
def AnalysisKeep.fullRef (ak : AnalysisKeep) (fullMade : Bool) : Ref :=
  if ak.slack ∧ fullMade then .full ak.id else .keep ak.id

/-- The factor after a factorization with `ak`. -/
def FactorKeep.after (fk : FactorKeep Φ) (ak : AnalysisKeep) (type : MatrixType)
    (o : Outcome Φ) : FactorKeep Φ :=
  let started : FactorKeep Φ :=
    { fk with
      analysis := some (ak.fullRef o.fullMade)
      slack := none
      useBandedSpd := if type = .positiveDefinite then false else fk.useBandedSpd }
  match o.ending with
  | .early => { fk with slack := none, hasValues := false }
  | .earlyReduced =>
    { fk with analysis := some (.reduced ak.id), slack := none, hasValues := false }
  | .stopped => { started with hasValues := false }
  | .complete => { started with hasValues := true, numeric := o.numeric }
  -- the band factor is stored apart: `factor_values` stays as the last call left it
  | .banded => { started with useBandedSpd := true, band := o.numeric }
  | .slack =>
    { fk with analysis := some (.reduced ak.id), slack := some ak.id, hasValues := true
              numeric := o.numeric }

/-- How a factorization of `ak` with the control `ctrl` can end. -/
def Outcome.Fits (ak : AnalysisKeep) (ctrl : Control ρ) (o : Outcome Φ) : Prop :=
  match o.ending with
  | .early => o.status = .singular ∨ o.status = .notPositiveDefinite
  | .earlyReduced => ak.slack = true ∧ o.status = .singular
  | .stopped => o.status = .singular ∨ o.status = .notPositiveDefinite ∨
      o.status = .inertiaExceeded ∧ ctrl.matrixType = .indefinite ∧ 0 ≤ ctrl.maxNegativePivots ∧
        ctrl.maxNegativePivots < o.info.numNegative
  | .complete => o.status = .success ∨
      o.status = .singular ∧ ctrl.matrixType = .indefinite ∧ o.info.status = .singularMatrix
  | .banded => o.status = .success ∧ ctrl.matrixType = .positiveDefinite ∧
      ctrl.ordering = .autoParallel
  | .slack => o.status = .success ∧ ak.slack = true ∧ ctrl.matrixType = .indefinite ∧
      ctrl.maxNegativePivots < 0

/-! ## The session -/

/-- What the session did. -/
inductive Event where
  /-- A new history, with its `reanalyse_min_gap`. -/
  | analysed (minGap : ℤ)
  /-- A re-analysis is tried, and its analysis adopted (the probation opens). -/
  | attempt
  | adopted
  /-- The session goes back to the previous analysis. -/
  | reverted
  /-- A `factor` call gets to its factorization. -/
  | factorization
  /-- The engine factored, to the end or not. -/
  | ran (complete : Bool)
  /-- The probation is judged. -/
  | judged (worse : Bool)
  deriving DecidableEq

structure IpmSession (ρ Φ : Type) where
  /-- The pattern and the values being factored, the input's number of entries, and the
      place of each of them when diagonal entries were added. -/
  mat : CscLower ℚ
  inputNnz : ℕ := 0
  entryMap : List ℕ := []
  regSign : List ℤ := []
  ctrl : Control ρ
  factorCtrl : Control ρ
  factorScale : List ℚ := []
  ipm : IpmControl := {}
  ak : Option AnalysisKeep := none
  prevAk : Option AnalysisKeep := none
  fk : FactorKeep Φ := {}
  info : Info := {}
  prevInfo : Info := {}
  solveStatus : ErrorCode := .success
  stats : IpmStats := {}
  expectedNeg : Option ℤ := none
  userScaleOnce : Bool := false
  solvable : Bool := false
  aborted : Bool := false
  pendingAccept : Bool := false
  lastSpdOk : Bool := false
  orderPerm : List ℕ := []
  orderPairs : List ℕ := []
  reanalyseArmed : Bool := false
  triggerDelays : ℕ := 0
  triggerFlops : ℚ := 0
  lastAttempt : ℤ := -1
  probation : Bool := false
  probationDelays : ℕ := 0
  revertPending : Bool := false
  reanalyseStopped : Bool := false
  /-- The caller's buffers, the number of the next analysis, and what was done. -/
  buffers : ℕ → List ℚ := fun _ => []
  nextId : ℕ := 0
  history : List Event := []

namespace IpmSession

variable (s : IpmSession ρ Φ)

def log (e : Event) : IpmSession ρ Φ := { s with history := s.history ++ [e] }

def regularized : Bool := decide (s.ipm.staticMode = .regularized)

/-! ## analyse -/

/-- A pattern whose columns are being given their diagonal entries. -/
structure WithDiagonal where
  colPtr : List ℤ := [0]
  rowIdx : List ℤ := []
  map : List ℕ := []
  added : Bool := false

/-- Column `j`: its diagonal entry at the head when it has none, then its own entries. -/
def WithDiagonal.column (a : WithDiagonal) (pattern : CscLower ℚ) (j : ℕ) : WithDiagonal :=
  let p₀ := (pattern.colPtr.getD j 0).toNat
  let p₁ := (pattern.colPtr.getD (j + 1) 0).toNat
  let rows := (pattern.rowIdx.drop p₀).take (p₁ - p₀)
  let a := if (j : ℤ) ∈ rows then a else { a with rowIdx := a.rowIdx ++ [(j : ℤ)], added := true }
  { a with
    map := a.map ++ List.range' a.rowIdx.length rows.length
    rowIdx := a.rowIdx ++ rows
    colPtr := a.colPtr ++ [((a.rowIdx ++ rows).length : ℤ)] }

def withDiagonal (pattern : CscLower ℚ) : WithDiagonal :=
  (List.range pattern.dim).foldl (fun a j => a.column pattern j) {}

/-- The input values at their places; added entries are zero. -/
def placed (values : List ℚ) : List ℚ :=
  if s.entryMap = [] then values
  else
    let zeros : List ℚ := List.replicate s.mat.values.length 0
    (s.entryMap.zip values).foldl (fun m e => m.set e.1 e.2) zeros

/-- `load_values`. -/
def loadValues (values : List ℚ) : IpmSession ρ Φ :=
  { s with mat := { s.mat with values := s.placed values } }

/-- `run_analysis`, with the solver's answer. -/
def runAnalysis (a : Option Analysed) (status : ErrorCode) : IpmSession ρ Φ × ErrorCode :=
  match a, status with
  | some a, .success =>
    ({ s with ak := some { a with id := s.nextId }, nextId := s.nextId + 1
              info := { s.info with status := .success } }, .success)
  | _, .success =>
    ({ s with ak := none, info := { s.info with status := .notInitialised } }, .notInitialised)
  | _, code => ({ s with ak := none, info := { s.info with status := code } }, code)

/-- The pattern is taken back: there is nothing to factor. -/
def refusePattern : IpmSession ρ Φ × ErrorCode :=
  ({ s with mat := ⟨0, [], [], []⟩, info := { s.info with status := .illegalValue } },
    .illegalValue)

/-- A new history for `pattern`. -/
def reset (pattern : CscLower ℚ) (ctrl : Control ρ) (ipm : IpmControl) : IpmSession ρ Φ where
  mat := { pattern with values := List.replicate pattern.rowIdx.length 0 }
  ctrl := { ctrl with matchingTrigger := .predicted }
  factorCtrl := { ctrl with matchingTrigger := .predicted }
  ipm := ipm
  buffers := s.buffers
  nextId := s.nextId
  history := s.history ++ [.analysed ipm.reanalyseMinGap]

/-- In the regularized mode every column gets its diagonal entry. -/
def addDiagonal : IpmSession ρ Φ :=
  let d := withDiagonal s.mat
  if s.regularized && d.added then
    { s with
      mat := ⟨s.mat.n, d.colPtr, d.rowIdx, List.replicate d.rowIdx.length 0⟩
      entryMap := d.map }
  else s

/-- `analyse`.  `refines`: `prepare_refine_matrix` accepts the pattern; `a` and `status`:
    the solver's answer, when there are values to analyse with. -/
def analyse (pattern : CscLower ℚ) (values : List ℚ) (ctrl : Control ρ) (ipm : IpmControl)
    (refines : Bool) (a : Option Analysed) (status : ErrorCode) : IpmSession ρ Φ × ErrorCode :=
  let s := s.reset pattern ctrl ipm
  let nnz := pattern.rowIdx.length
  if s.mat.n ≤ 0 ∨ s.mat.validateShape ≠ .success ∨ s.mat.nnz ≠ nnz ∨
      (values ≠ [] ∧ values.length ≠ nnz) then s.refusePattern
  else
    let s := { s with inputNnz := nnz }.addDiagonal
    if s.regularized && !refines then s.refusePattern
    else if values = [] then (s, .success)
    else (s.loadValues values).runAnalysis a status

/-! ## run_factor -/

/-- The contents of what a user scale points at. -/
def scaleOf : Option Pointer → List ℚ
  | some (.caller b) => s.buffers b
  | some .factorScale => s.factorScale
  | _ => []

/-- What the engine is asked for under the limit `limit`. -/
def request (limit : ℤ) : Request ρ where
  values := s.mat.values
  ctrl := { s.factorCtrl with maxNegativePivots := limit }
  scale := s.scaleOf s.factorCtrl.userScale

/-- The session's reading of the engine's status. -/
def resultOf (o : Outcome Φ) : IpmFactorStatus :=
  match o.status with
  | .success => .ok
  | .maxPivotDelays => .ok
  | .singular => if o.info.status = .singularMatrix then .singular else .error
  | .inertiaExceeded => .wrongInertia
  | .notPositiveDefinite => .error

/-- The factor is one that the engine ran on the current analysis. -/
def ran (ak : AnalysisKeep) (fk : FactorKeep Φ) : Bool :=
  (decide (fk.analysis = some (.keep ak.id)) || ak.slackOwns fk.analysis) && fk.hasValues

/-- `drop_previous_analysis`. -/
def dropPreviousAnalysis : IpmSession ρ Φ :=
  if s.fk.analysis ≠ none ∧ s.fk.analysis = s.prevAk.map (fun a => .keep a.id) then s
  else { s with prevAk := none, prevInfo := {} }

/-- The adopted analysis ran to the end: its probation is over. -/
def judge : IpmSession ρ Φ :=
  let worse := decide (s.probationDelays < s.info.delayedPivots)
  let s := { s with probation := false }.log (.judged worse)
  if worse then
    { s with
      stats := { s.stats with reanalysesReverted := s.stats.reanalysesReverted + 1 }
      revertPending := true
      reanalyseStopped := true }
  else s.dropPreviousAnalysis

/-- What a factorization with `ak` leaves, but for the probation. -/
def factored (ak : AnalysisKeep) (o : Outcome Φ) : IpmSession ρ Φ :=
  let fk := s.fk.after ak s.factorCtrl.matrixType o
  let solvable := decide (resultOf o = .ok) || (decide (resultOf o = .singular) && ran ak fk)
  { s with
    fk := fk
    -- the limit on the negative pivots is for one factorization
    factorCtrl := { s.factorCtrl with maxNegativePivots := -1 }
    info := { o.info with factorStatus := o.status }
    solvable := solvable
    aborted := decide (resultOf o = .wrongInertia)
    pendingAccept := solvable
    lastSpdOk := decide (s.factorCtrl.matrixType = .positiveDefinite) &&
      decide (o.status = .success)
    stats := { s.stats with staticPivots :=
      s.stats.staticPivots + if solvable && ran ak fk then o.info.staticPivots else 0 }
    history := s.history ++ [.ran o.ending.runsToEnd] }

/-- `run_factor`, with the engine's answer. -/
def runFactor (ak : AnalysisKeep) (o : Outcome Φ) : IpmSession ρ Φ :=
  let t := s.factored ak o
  if t.probation && t.solvable && ran ak t.fk then t.judge else t

/-! ## Re-analysis -/

/-- `consider_reanalysis`, with the realized order of the factor. -/
def considerReanalysis (perm pairs : List ℕ) : IpmSession ρ Φ :=
  -- switched off, or an attempt is under way or has failed
  if s.ipm.reanalyse = false ∨ s.reanalyseStopped ∨ s.probation ∨ s.revertPending ∨
    s.ak.isNone then s
  else if s.factorCtrl.matrixType = .positiveDefinite then s
  else if ¬s.ipm.reanalyseDelayFrac * s.mat.n < s.info.delayedPivots then s
  -- too soon after the last attempt
  else if 0 ≤ s.lastAttempt ∧
      (s.stats.factorizations : ℤ) + 1 - s.lastAttempt < s.ipm.reanalyseMinGap then s
  else if s.fk.slack.isSome ∨ s.fk.analysis = none then s
  else
    { s with
      orderPerm := perm
      orderPairs := pairs
      triggerDelays := s.info.delayedPivots
      triggerFlops := s.info.actualFlops
      reanalyseArmed := true }

/-- The switch back to the previous analysis. -/
def revert : IpmSession ρ Φ :=
  { s with
    revertPending := false
    fk := { s.fk with analysis := none }
    ak := s.prevAk
    prevAk := none
    info := s.prevInfo
    prevInfo := {} }.log .reverted

/-- A re-analysis is tried. -/
def attempted : IpmSession ρ Φ :=
  { s with
    reanalyseArmed := false
    lastAttempt := s.stats.factorizations + 1
    stats := { s.stats with reanalysesTried := s.stats.reanalysesTried + 1 }
    orderPerm := []
    orderPairs := [] }.log .attempt

/-- The new analysis is adopted, on probation. -/
def adopt (a : Analysed) : IpmSession ρ Φ :=
  { s with
    prevAk := s.ak
    prevInfo := s.info
    ak := some { a with id := s.nextId }
    nextId := s.nextId + 1
    info := {}
    stats := { s.stats with reanalysesAdopted := s.stats.reanalysesAdopted + 1 }
    probation := true
    probationDelays := s.triggerDelays }.log .adopted

/-- `prepare_analysis`, with the solver's answer to a re-analysis. -/
def prepareAnalysis (a : Option Analysed) : IpmSession ρ Φ :=
  if s.revertPending then s.revert
  else if ¬s.reanalyseArmed then s
  else if (s.orderPerm.length : ℤ) ≠ s.mat.n then s.attempted
  else match a with
    | none => s.attempted
    | some a =>
      if s.ipm.reanalyseFlopsRatio * s.triggerFlops < a.kernelFlops then s.attempted
      else s.attempted.adopt a

/-! ## factor -/

/-- What every `factor` call begins with. -/
def invalidate : IpmSession ρ Φ :=
  { s with solvable := false, aborted := false, pendingAccept := false, lastSpdOk := false }

/-- The sum of the stored diagonal entries of column `j`. -/
def diagonal (j : ℕ) : ℚ := (((s.mat.column j).filter (·.1 = (j : ℤ))).map (·.2)).sum

/-- The rows' signs: a zero diagonal is a constraint row. -/
def classify : List ℤ :=
  (List.range s.mat.dim).map fun j => if s.diagonal j = 0 then -1 else 1

/-- This factorization's own `Control`, its user scale copied. -/
def copyControl : IpmSession ρ Φ :=
  match s.ctrl.userScale with
  | some p =>
    { s with
      factorScale := (s.scaleOf (some p)).take s.mat.dim
      factorCtrl := { s.ctrl with userScale := some .factorScale } }
  | none => { s with factorScale := [], factorCtrl := s.ctrl }

/-- A scale of `set_user_scale` is for one factorization. -/
def dropScaleOnce : IpmSession ρ Φ :=
  if s.userScaleOnce then
    { s with ctrl := { s.ctrl with userScale := none }, userScaleOnce := false }
  else s

/-- The `Control` of the fallback mode, and of both static modes. -/
def staticControl : Control ρ :=
  let c := s.factorCtrl
  let c := if s.ipm.staticMode = .fallback then
      { c with fallbackStaticPivotTol := 1 / 10 ^ 8, staticPivotsAsZero := s.ipm.staticAsZero }
    else c
  if s.ipm.staticMode ≠ .off then { c with treeParallel := false } else c

/-- The settings of the static modes. -/
def setStaticMode : IpmSession ρ Φ :=
  let s := { s with factorCtrl := s.staticControl }
  if s.regularized then
    { s with
      -- the signs are classified once for a pattern
      regSign := if s.regSign = [] then s.classify else s.regSign
      factorCtrl := { s.factorCtrl with
        pivotU := 0
        staticPivotTol := s.ipm.regRho
        staticPivotInOrder := true
        staticZeroStaysZero := true
        staticPivotsAsZero := s.ipm.staticAsZero
        regDiagSign := some .regSign
        regDiagTol := s.ipm.regRho } }
  else s

/-- The state of a `factor` call before its analysis. -/
def load (values : List ℚ) : IpmSession ρ Φ :=
  (s.invalidate.loadValues values).copyControl.dropScaleOnce.setStaticMode

/-- The analysis there is, or the deferred one. -/
def ensureAnalysis (a : Option Analysed) (status : ErrorCode) : IpmSession ρ Φ :=
  if s.ak.isSome then s else (s.runAnalysis a status).1

/-- The limit on negative pivots, -1 for none. -/
def limit (expected : Option ℤ) : ℤ :=
  match expected.or s.expectedNeg with
  | some e =>
    if s.ipm.abortOnWrongInertia ∧ 0 ≤ e ∧ s.factorCtrl.matrixType ≠ .positiveDefinite then e
    else -1
  | none => -1

def countFactorization : IpmSession ρ Φ :=
  { s with stats := { s.stats with factorizations := s.stats.factorizations +
    1 } }.log .factorization

/-- The statistics of an abort. -/
def countAbort (r : IpmFactorStatus) : IpmSession ρ Φ :=
  if r = .wrongInertia then
    { s with stats := { s.stats with
        aborted := s.stats.aborted + 1
        flopsAvoided := s.stats.flopsAvoided + s.info.abortedFlopsSkipped } }
  else s

/-! ## solve and the setters -/

/-- The factor is accepted: its negative count is what the next ones are expected to have. -/
def accept : IpmSession ρ Φ :=
  { s with
    stats := { s.stats with accepted := s.stats.accepted + 1 }
    pendingAccept := false
    expectedNeg := if s.ipm.learnInertia && !s.lastSpdOk then some (s.info.numNegative : ℤ)
      else s.expectedNeg }

/-- A solve that returned `rc`: the factor is accepted by the first that returns 0. -/
def afterSolve (rc : ℤ) (perm pairs : List ℕ) : IpmSession ρ Φ :=
  if rc = 0 ∧ s.pendingAccept then s.accept.considerReanalysis perm pairs else s

/-- `inertia`. -/
def inertia : ℕ × ℕ × ℕ :=
  if s.lastSpdOk then (s.mat.dim, 0, 0)
  else (s.info.numPositive, s.info.numNegative, s.info.numZero)

def setControl (ctrl : Control ρ) : IpmSession ρ Φ :=
  { s with ctrl := { ctrl with matchingTrigger := .predicted }, userScaleOnce := false }

def setUserScale (scale : Option Pointer) : IpmSession ρ Φ :=
  { s with ctrl := { s.ctrl with userScale := scale }, userScaleOnce := true }

/-- The caller writes a buffer of its own. -/
def writeBuffer (buffer : ℕ) (contents : List ℚ) : IpmSession ρ Φ :=
  { s with buffers := fun b => if b = buffer then contents else s.buffers b }

/-- A session nobody has called yet. -/
def start (ctrl : Control ρ) : IpmSession ρ Φ where
  mat := ⟨0, [], [], []⟩
  ctrl := ctrl
  factorCtrl := ctrl

end IpmSession

/-! ## Runs -/

/-- A call of the session, or a write of the caller. -/
inductive Call (ρ : Type) where
  | analyse (pattern : CscLower ℚ) (values : List ℚ) (ctrl : Control ρ) (ipm : IpmControl)
  | factor (values : List ℚ) (expected : Option ℤ)
  | solve (b : Option (List ℚ)) (n nrhs : ℤ) (job : SolveJob)
  | setControl (ctrl : Control ρ)
  | setUserScale (scale : Option Pointer)
  | write (buffer : ℕ) (contents : List ℚ)

/-- An engine factorization that a call made, and its answer. -/
structure EngineRun (ρ Φ : Type) where
  request : Request ρ
  outcome : Outcome Φ

/-- What a call returned, with the engine factorization it made, if any. -/
inductive Reply (ρ Φ : Type) where
  | analysed (code : ErrorCode)
  | factored (status : IpmFactorStatus) (engine : Option (EngineRun ρ Φ))
  | solved (rc : ℤ) (x : Option (List ℚ)) (engine : Option (EngineRun ρ Φ))
  | done

namespace IpmSession

/-- The engine factors under a limit. -/
inductive Factors (limit : ℤ) : IpmSession ρ Φ → EngineRun ρ Φ → IpmSession ρ Φ → Prop
  | run {s : IpmSession ρ Φ} (ak : AnalysisKeep) (o : Outcome Φ) (hak : s.ak = some ak)
      (ho : o.Fits ak (s.request limit).ctrl) :
      Factors limit s ⟨s.request limit, o⟩ (s.runFactor ak o)

/-- What `solve` does first: an aborted factorization is run to the end. -/
inductive Completes : IpmSession ρ Φ → Option (EngineRun ρ Φ) → IpmSession ρ Φ → Prop
  | skip {s : IpmSession ρ Φ} (h : ¬(s.aborted = true ∧ s.ak.isSome = true)) : Completes s none s
  | run {s t : IpmSession ρ Φ} {e : EngineRun ρ Φ} (h : s.aborted = true ∧ s.ak.isSome = true)
      (hrun : Factors (-1) s e t) : Completes s (some e) t

/-- `NotInitialised`, as `solve` returns it. -/
def notInitialised : ℤ := -1

/-- One call, with an answer that the solver may give. -/
inductive Step : IpmSession ρ Φ → Call ρ × Reply ρ Φ → IpmSession ρ Φ → Prop
  | analyse {s : IpmSession ρ Φ} (pattern values ctrl ipm) (refines : Bool) (a : Option Analysed)
      (status : ErrorCode) :
      Step s (.analyse pattern values ctrl ipm,
          .analysed (s.analyse pattern values ctrl ipm refines a status).2)
        (s.analyse pattern values ctrl ipm refines a status).1
  | factorUninitialised {s : IpmSession ρ Φ} {values expected} (h : s.mat.n ≤ 0) :
      Step s (.factor values expected, .factored .error none)
        { s.invalidate with info := { s.info with status := .notInitialised } }
  | factorIllegal {s : IpmSession ρ Φ} {values expected} (h : 0 < s.mat.n)
      (hlen : values.length ≠ s.inputNnz) :
      Step s (.factor values expected, .factored .error none)
        { s.invalidate with info := { s.info with status := .illegalValue } }
  | factorUnanalysed {s : IpmSession ρ Φ} {values expected} {a : Option Analysed}
      {status : ErrorCode} (h : 0 < s.mat.n) (hlen : values.length = s.inputNnz)
      (hfail : ((s.load values).ensureAnalysis a status).ak = none) :
      Step s (.factor values expected, .factored .error none)
        ((s.load values).ensureAnalysis a status)
  | factor {s t u : IpmSession ρ Φ} {e : EngineRun ρ Φ} (values expected)
      (a a' : Option Analysed) (status : ErrorCode) (h : 0 < s.mat.n)
      (hlen : values.length = s.inputNnz)
      (hready : (s.load values).ensureAnalysis a status = t) (hak : t.ak.isSome = true)
      (hrun : Factors ((t.prepareAnalysis a').limit expected)
        (t.prepareAnalysis a').countFactorization e u) :
      Step s (.factor values expected, .factored (resultOf e.outcome) (some e))
        (u.countAbort (resultOf e.outcome))
  | solveRefused {s t : IpmSession ρ Φ} {b n nrhs job} {e : Option (EngineRun ρ Φ)}
      (hdone : Completes s e t) (h : t.solvable = false) :
      Step s (.solve b n nrhs job, .solved notInitialised b e)
        { t with solveStatus := .notInitialised }
  | solve {s t : IpmSession ρ Φ} {e : Option (EngineRun ρ Φ)} (b n nrhs job) (rc : ℤ)
      (x : Option (List ℚ)) (code : ErrorCode) (perm pairs : List ℕ) (hdone : Completes s e t)
      (h : t.solvable = true) :
      Step s (.solve b n nrhs job, .solved rc x e)
        ({ t with solveStatus := code }.afterSolve rc perm pairs)
  | setControl {s : IpmSession ρ Φ} (ctrl) : Step s (.setControl ctrl, .done) (s.setControl ctrl)
  | setUserScale {s : IpmSession ρ Φ} (scale) :
      Step s (.setUserScale scale, .done) (s.setUserScale scale)
  | write {s : IpmSession ρ Φ} (buffer contents) :
      Step s (.write buffer contents, .done) (s.writeBuffer buffer contents)

/-- The session under any sequence of calls. -/
def system (ctrl : Control ρ) : Lts (IpmSession ρ Φ) (Call ρ × Reply ρ Φ) where
  init := start ctrl
  step := Step

end IpmSession
end Session
end SmfSolver
