/-
  SmfSolver.Factor.ScaleOnDelay

  `factor_scale_on_delay`: a factorization that may stop when delayed pivots inflate its
  work and be redone, on the static path or with a matching scaling of its values.  What
  came of it is recorded in the `FactorKeep` for the later factorizations of the same
  analysis: to start from the matching scale, to run under a tighter limit, to take the
  static path, or, with none of these, that the values have no matching scaling.

  The factorization itself (`run`), the probe solve, the matching and the fit test are
  given by the call: at most one run is made of each request.
-/
import SmfSolver.Matrix.CscLower
import Mathlib.Algebra.Order.Floor.Ring
import Mathlib.Data.Rat.Floor
import Mathlib.Order.WithBot

namespace SmfSolver
namespace Factor

inductive FactorStatus where
  | success
  | notPositiveDefinite
  | singular
  | maxPivotDelays
  | inertiaExceeded
  deriving DecidableEq

/-- A `double`. -/
inductive Value where
  | finite (q : ℚ)
  | infinite (negative : Bool)
  | nan
  deriving DecidableEq

/-- `==` of doubles. -/
def Value.eq : Value → Value → Bool
  | .nan, _ => false
  | a, b => a = b

/-- Exactly zero, or not finite. -/
def Value.isDead : Value → Bool
  | .finite q => q = 0
  | _ => true

/-- The fields of `Control` that the rescue reads. -/
structure Control where
  reuseTol : ℚ := 1 / 10
  ratio : ℚ := 16
  nextRatio : ℚ := 4
  earlyRatio : ℚ := 4
  earlyProj : ℚ := 8
  nextEarlyRatio : ℚ := -1
  nextEarlyProj : ℚ := 4
  carry : Bool := true
  /-- `static_fallback_after_cascade`. -/
  staticFallback : Bool := false

/-- The analysis, with the functions of it that the rescue calls. -/
structure Analysis where
  serial : ℕ
  serial_ne_zero : serial ≠ 0
  /-- `delay_free_front_work`. -/
  freeWork : ℚ
  /-- Number of entries of the cleaned pattern. -/
  entries : ℕ
  /-- The analysed values, in cleaned order. -/
  values : List Value
  matchingScalePartial : Bool
  /-- `matching_scale_of`; empty: there is none. -/
  matchingScaleOf : List Value → List ℚ
  /-- `scale_staleness` of values and a kept scale. -/
  staleness : List Value → List ℚ → WithTop ℚ

structure EarlyWorkStop where
  freeWork : ℚ
  ratio : ℚ
  proj : ℚ
  deriving DecidableEq

/-- What `run` is asked for. -/
inductive Request where
  /-- As Auto resolves it, under a work limit (negative: none). -/
  | auto (limit : ℚ) (early : Option EarlyWorkStop)
  | staticPath
  /-- With a user-supplied scale. -/
  | scaled (scale : List ℚ) (limit : ℚ)

/-- What `run` returns, and leaves in `Info`. -/
structure Outcome where
  status : FactorStatus
  infoStatus : ErrorCode := .success
  staticPivots : ℕ := 0
  pivotGrowth : ℚ := 0
  frontWork : ℚ := 0
  /-- `scaling_used` is the analysis' matching scale. -/
  matchingScaled : Bool := false

/-- One call: the analysis, the control, the values, and how `run` and the probe solve
    after it turn out. -/
structure Call where
  analysis : Analysis
  control : Control
  values : List Value
  run : Request → Outcome
  probe : Request → WithTop ℚ

/-- The rescue's state in the `FactorKeep`. -/
structure FactorKeep where
  /-- The serial of the analysis the state is of; 0: none. -/
  delayAnalysis : ℕ := 0
  delayScale : List ℚ := []
  delayOmega : WithTop ℚ := (-1 : ℚ)
  delaySignature : UInt64 := 0
  delayNext : Bool := false
  delayStatic : Bool := false
  staticRejectedAnalysis : ℕ := 0

structure DelayInfo where
  delayStops : ℕ := 0
  delayEarlyStops : ℕ := 0
  delayRescales : ℕ := 0
  staticRejects : ℕ := 0
  staticFallback : ℕ := 0

/-- The branches a call takes. -/
inductive DelayEvent where
  /-- The zero pattern has no matching scaling: no limit, no try. -/
  | unarmed
  | staticTry (rejected : Bool)
  | keptTry
  | firstTry
  | matching (none : Bool)
  deriving DecidableEq

/-- How far a call has come. -/
structure Progress where
  keep : FactorKeep
  info : DelayInfo := {}
  events : List DelayEvent := []

structure Result extends Progress where
  outcome : Outcome

/-- The factorization ran to the end. -/
def Outcome.ran (o : Outcome) : Bool :=
  o.status = .success || (o.status = .singular && o.infoStatus = .singularMatrix)

def fnvByte (h : UInt64) (b : UInt64) : UInt64 := (h ^^^ b) * 1099511628211

/-- The hash of one position: its bytes, the lowest first. -/
def fnvPosition (h : UInt64) (k : ℕ) : UInt64 :=
  (List.range 8).foldl (fun h byte => fnvByte h (UInt64.ofNat (k / 2 ^ (8 * byte) % 256))) h

/-- Positions and count of the values that are exactly zero or not finite. -/
def zeroSignature (cv : List Value) : UInt64 :=
  let dead := (List.range cv.length).filter fun k => (cv[k]?.map Value.isDead).getD false
  dead.foldl fnvPosition 1469598103934665603 ^^^
    UInt64.ofNat dead.length * 0x9e3779b97f4a7c15

/-- `scale_on_delay_reuse_passes`. -/
def reusePasses (probeOmega freshOmega : WithTop ℚ) : Bool :=
  let base : WithTop ℚ :=
    if 0 ≤ freshOmega then max freshOmega ((1 / 10 ^ 14 : ℚ) : WithTop ℚ) else ⊤
  probeOmega ≤ base.map (10 * ·) ∧ probeOmega ≤ ((1 / 10 ^ 9 : ℚ) : WithTop ℚ)

namespace FactorKeep

variable (fkeep : FactorKeep) (c : Call)

def ours : Bool := fkeep.delayAnalysis = c.analysis.serial

def next : Bool := fkeep.ours c && fkeep.delayNext

/-- An earlier factorization of this analysis cascaded: the static path with no try. -/
def goStatic : Bool := fkeep.ours c && c.control.staticFallback && fkeep.delayStatic

def noMatching : Bool :=
  fkeep.ours c && !fkeep.next c && !fkeep.goStatic c && fkeep.delayScale.isEmpty

def firstTry : Bool := !fkeep.ours c || fkeep.noMatching c || fkeep.next c

/-- The state as every call starts from: nothing recorded. -/
def cleared : FactorKeep :=
  { fkeep with delayAnalysis := 0, delayNext := false, delayStatic := false, delayScale := [] }

end FactorKeep

namespace Call

variable (c : Call)

def reuseOn : Bool := 0 ≤ c.control.reuseTol

def workLimit : ℚ := ⌊c.control.ratio * c.analysis.freeWork⌋

/-- The call ends with the outcome `o`. -/
def finish (p : Progress) (o : Outcome) : Result := { p with outcome := o }

/-- A stopped try: spent work. -/
def spent (p : Progress) : Progress := { p with info := { p.info with delayStops := 1 } }

/-- A new matching scaling of these values. -/
def rescale (p : Progress) : Result :=
  let scale := c.analysis.matchingScaleOf c.values
  let p := { p with events := p.events ++ [.matching scale.isEmpty] }
  -- no matching scaling exists: run without a limit, and remember the zero pattern
  if scale.isEmpty then
    let o := c.run (.auto (-1) none)
    if o.ran then
      finish { p with keep := { p.keep with
        delayAnalysis := c.analysis.serial, delaySignature := zeroSignature c.values } } o
    else finish p o
  else
    let request := Request.scaled scale (-1)
    let o := c.run request
    let p := { p with info := { p.info with delayRescales := 1 } }
    if o.ran then
      -- the quality the scale reaches here is what a later reuse is measured against
      let omega := if c.reuseOn && o.status = .success then c.probe request
        else ((-1 : ℚ) : WithTop ℚ)
      finish { p with keep := { p.keep with
        delayAnalysis := c.analysis.serial, delayScale := scale, delayOmega := omega } } o
    else finish p o

/-- The static factor is kept only when it perturbed no pivot and grew little. -/
def staticStands (o : Outcome) : Bool :=
  o.status = .success ∧ o.staticPivots = 0 ∧ o.pivotGrowth ≤ 10 ^ 10

/-- `try_static`, and the rescue when the static factor is rejected. -/
def tryStatic (p : Progress) : Result :=
  let o := c.run .staticPath
  if !o.ran then finish { p with events := p.events ++ [.staticTry false] } o
  else if staticStands o then
    finish { p with
      keep := { p.keep with delayAnalysis := c.analysis.serial, delayStatic := true }
      info := { p.info with staticFallback := 1 }
      events := p.events ++ [.staticTry false] } o
  else
    c.rescale { spent p with
      keep := { p.keep with staticRejectedAnalysis := c.analysis.serial }
      info := { (spent p).info with staticRejects := 1 }
      events := p.events ++ [.staticTry true] }

/-- Start from the kept scale while it still fits the new values. -/
def tryKept (kept : List ℚ) (keptOmega : WithTop ℚ) (p : Progress) : Result :=
  let fits : Bool := c.values.length = c.analysis.entries ∧
    c.analysis.staleness c.values kept ≤ (c.control.reuseTol : WithTop ℚ)
  if !fits then c.rescale p
  else
    let p := { p with events := p.events ++ [.keptTry] }
    let request := Request.scaled kept c.workLimit
    let o := c.run request
    -- the kept scale trips the limit, or fits worse than it did
    if o.status = .maxPivotDelays then c.rescale (spent p)
    else if !o.ran then finish p o
    else if o.status = .singular ∨ reusePasses (c.probe request) keptOmega then
      finish { p with keep := { p.keep with
        delayAnalysis := c.analysis.serial, delayScale := kept, delayOmega := keptOmega } } o
    else c.rescale (spent p)

/-- The limit of a first try: the tighter one after a costly factorization. -/
def tryLimit (next : Bool) : ℚ :=
  if next ∧ 0 ≤ c.control.nextRatio then
    min c.workLimit ⌊c.control.nextRatio * c.analysis.freeWork⌋
  else c.workLimit

/-- The conditional early stop of a try. -/
def earlyStop (next : Bool) : Option EarlyWorkStop :=
  let free := c.analysis.freeWork
  if !next ∧ 0 ≤ c.control.earlyRatio ∧
      (⌊c.control.earlyRatio * free⌋ : ℚ) < c.tryLimit next then
    some ⟨free, c.control.earlyRatio, c.control.earlyProj⟩
  else if next ∧ 0 ≤ c.control.nextEarlyRatio ∧
      (⌊c.control.nextEarlyRatio * free⌋ : ℚ) < c.tryLimit next then
    some ⟨free, c.control.nextEarlyRatio, c.control.nextEarlyProj⟩
  else none

/-- The factor has the analysed values' own matching scale. -/
def ownScale (o : Outcome) : Bool :=
  o.matchingScaled && !c.analysis.matchingScalePartial &&
    c.values.length == c.analysis.values.length &&
    (c.values.zip c.analysis.values).all fun v => v.1.eq v.2

/-- The state after a try that was let through. -/
def letThrough (o : Outcome) (keep : FactorKeep) : FactorKeep :=
  if o.ran ∧ 0 ≤ c.control.nextRatio ∧ c.control.nextRatio * c.analysis.freeWork < o.frontWork ∧
      !c.ownScale o then
    if c.control.staticFallback ∧ keep.staticRejectedAnalysis ≠ c.analysis.serial then
      { keep with delayAnalysis := c.analysis.serial, delayStatic := true }
    else { keep with delayAnalysis := c.analysis.serial, delayNext := true }
  else keep

/-- As Auto resolves it, under the work limit; a trip goes on with the static path or
    the rescue. -/
def tryFirst (next : Bool) (p : Progress) : Result :=
  -- after a costly try that was let through, the next values are not tried at all
  if next ∧ c.control.carry ∧ 0 ≤ c.control.nextRatio then c.rescale p
  else
    let p := { p with events := p.events ++ [.firstTry] }
    let early := c.earlyStop next
    let o := c.run (.auto (c.tryLimit next) early)
    if o.status ≠ .maxPivotDelays then finish { p with keep := c.letThrough o p.keep } o
    else
      let p := spent p
      let p :=
        if early.isSome ∧ o.frontWork ≤ c.tryLimit next then
          { p with info := { p.info with delayEarlyStops := 1 } }
        else p
      if c.control.staticFallback ∧ p.keep.staticRejectedAnalysis ≠ c.analysis.serial then
        c.tryStatic p
      else c.rescale p

/-- The zero pattern is that of values without a matching scaling. -/
def goesUnarmed (fkeep : FactorKeep) : Bool :=
  fkeep.noMatching c && zeroSignature c.values = fkeep.delaySignature

def runUnarmed (fkeep : FactorKeep) (p : Progress) : Result :=
  let o := c.run (.auto (-1) none)
  let p := { p with events := p.events ++ [.unarmed] }
  if o.ran then
    finish { p with keep := { p.keep with
      delayAnalysis := c.analysis.serial, delaySignature := fkeep.delaySignature } } o
  else finish p o

def factorScaleOnDelay (fkeep : FactorKeep) : Result :=
  let p : Progress := { keep := fkeep.cleared }
  if c.goesUnarmed fkeep then c.runUnarmed fkeep p
  else if fkeep.goStatic c then c.tryStatic p
  else if fkeep.firstTry c then c.tryFirst (fkeep.next c) p
  else if c.reuseOn then c.tryKept fkeep.delayScale fkeep.delayOmega p
  else c.rescale p

end Call

/-! ## Sequences of factorizations with one `FactorKeep` -/

/-- A factorization as the rescue's state sees it. -/
inductive Factorization where
  /-- Through `factor_scale_on_delay`. -/
  | delay (c : Call)
  /-- `Pivoting::Static`: no rescue state survives it. -/
  | fast
  /-- Any other: the rescue is not armed. -/
  | plain

def step (fkeep : FactorKeep) : Factorization → FactorKeep
  | .delay c => (c.factorScaleOnDelay fkeep).keep
  | .fast => fkeep.cleared
  | .plain => fkeep

/-- The state after a sequence of factorizations into a fresh `FactorKeep`. -/
def keepAfter (fs : List Factorization) : FactorKeep := fs.foldl step {}

end Factor
end SmfSolver
