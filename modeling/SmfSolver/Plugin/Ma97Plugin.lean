/-
  SmfSolver.Plugin.Ma97Plugin

  The MA97 interface over the session.  MA97 keeps the analysis (`akeep`) and the factor
  (`fkeep`) apart; here both share one `IpmSession`, which holds a single factor, so an
  `fkeep` remembers the generation of the factor it stands for.

  The handles are the caller's variables, each null or owning its object; the sessions are
  numbered, as objects that the handles point at.  What the session answers (see
  `IpmSession.Step`), whether the analysis rejected its matching and whether the inertia is
  exact are given.

  An `Event` records a call with what it used; no function reads it.
-/
import SmfSolver.Session.IpmSession

namespace SmfSolver
namespace Plugin

open Session Lib

/-! ## Controls -/

inductive ScalingMethod where
  | none
  | equilibration
  | matching
  | userSupplied
  | auto
  deriving DecidableEq

inductive SlackElimination where
  | off
  | auto
  | on
  deriving DecidableEq

/-- The further fields of `Control` that the plugin reads or sets. -/
structure PluginFields where
  scaling : ScalingMethod := .auto
  slackElimination : SlackElimination := .off
  deriving DecidableEq

abbrev Ctrl := Control PluginFields

/-- The environment variables, read once in a process. -/
structure Environment where
  slackElimination : SlackElimination := .off
  mc64Always : Bool := false
  staleScaleRetry : Bool := true
  ipm : IpmControl := { learnInertia := false }

/-- The fields of `ma97_control_d` that reach a field of `Control` above. -/
structure Ma97Control where
  ordering : ℤ := 5
  scaling : ℤ := 0
  u : ℚ := 1 / 10 ^ 8
  fArrays : ℤ := 0

/-- `apply_ma97_control`, false when the scaling is no value of MA97's. -/
def applyMa97Control (env : Environment) (c : Ctrl) : Option Ma97Control → Ctrl × Bool
  | none => ({ c with rest := { c.rest with slackElimination := env.slackElimination } }, true)
  | some opt =>
    let c := { c with
      rest := { c.rest with slackElimination := env.slackElimination }
      pivotU := if 0 ≤ opt.u ∧ opt.u ≤ 1 / 2 then opt.u else c.pivotU
      -- MA97's 0 and 1 are AMD, its 3 is METIS, any other is Auto
      ordering :=
        if opt.ordering = 0 ∨ opt.ordering = 1 then .amd
        else if opt.ordering = 3 then .metis
        else .autoParallel }
    if opt.scaling ≤ 0 then ({ c with rest := { c.rest with scaling := .none } }, true)
    else if opt.scaling = 1 then ({ c with rest := { c.rest with scaling := .matching } }, true)
    else if opt.scaling ≤ 4 then
      ({ c with rest := { c.rest with scaling := .equilibration } }, true)
    else (c, false)

structure Ma97ScalingCall where
  unitScale : Bool
  computed : Bool
  reuse : Bool

/-- `ma97_scaling_call`.  `scale`: what the caller passed, with its `n` entries. -/
def ma97ScalingCall (env : Environment) (c : Ctrl) (rejected : Bool) (scale : Option (List ℚ)) :
    Ctrl × Ma97ScalingCall :=
  let unitScale := !env.mc64Always && decide (c.rest.scaling = .matching) && rejected
  let c := if unitScale then { c with rest := { c.rest with scaling := .none } } else c
  let computed := decide (c.rest.scaling ≠ .none)
  let reuse := !computed && !unitScale && scale.any fun s => !s.all (· == 1)
  (if reuse then { c with rest := { c.rest with scaling := .userSupplied } } else c,
    ⟨unitScale, computed, reuse⟩)

/-- The scaling is the full matrix's: no slack plan. -/
def withoutSlack (c : Ctrl) : Ctrl := { c with rest := { c.rest with slackElimination := .off } }

/-- A matching scaling is computed afresh. -/
def withMatching (c : Ctrl) : Ctrl := { c with rest := { c.rest with scaling := .matching } }

/-! ## Handles -/

variable {Φ : Type}

/-- A session, and how many factors it has made or dropped. -/
structure Shared (Φ : Type) where
  session : IpmSession PluginFields Φ
  factorGeneration : UInt64 := 0

structure SmfAkeep where
  session : ℕ
  ctrl : Ctrl
  n : ℕ
  /-- The caller's entry of each entry of the pattern. -/
  sortPerm : List ℕ

structure SmfFkeep where
  session : ℕ
  ctrl : Ctrl
  n : ℕ
  numNeg : ℕ := 0
  generation : UInt64 := 0
  aborted : Bool := false

/-- The plugin: the caller's handle variables and the sessions behind them. -/
structure Ma97 (Φ : Type) where
  akeeps : ℕ → Option SmfAkeep := fun _ => none
  fkeeps : ℕ → Option SmfFkeep := fun _ => none
  sessions : ℕ → Shared Φ
  nextSession : ℕ := 0

/-- A call with what it did: `runs` and `run` are the engine's factorizations it made,
    `used` the numbers that a solve read. -/
inductive Event (Φ : Type) where
  | analyse (akeep : ℕ) (flag : ℤ)
  | factor (akeep fkeep : ℕ) (session : Option ℕ) (type : MatrixType) (values : List ℚ)
      (runs : List (EngineRun PluginFields Φ)) (flag : ℤ)
  | solve (fkeep : ℕ) (x x' : Option (List ℚ)) (run : Option (EngineRun PluginFields Φ))
      (used : Option Φ) (flag : ℤ)
  | freeAkeep (akeep : ℕ)
  | freeFkeep (fkeep : ℕ)

/-! ## analyse -/

/-- An entry of the lower triangle, with its place in the caller's arrays. -/
structure Entry where
  col : ℕ
  row : ℕ
  orig : ℕ
  deriving DecidableEq

/-- The order of the entries, by column and then by row. -/
def Entry.before (a b : Entry) : Prop := a.col < b.col ∨ a.col = b.col ∧ a.row ≤ b.row

/-- The entries of `ptr` and `row`: those out of range are left out, those of the upper
    triangle taken to the lower.  None if the pointers are no ranges. -/
def entriesOf (n : ℕ) (ptr row : List ℤ) (base : ℤ) : Option (List Entry) :=
  if ptr.getD n 0 - base < 0 then none
  else if (List.range n).any fun j =>
      decide (ptr.getD j 0 - base < 0 ∨ ptr.getD (j + 1) 0 < ptr.getD j 0) then none
  else some <| (List.range n).flatMap fun j =>
    let first := (ptr.getD j 0 - base).toNat
    let last := (ptr.getD (j + 1) 0 - base).toNat
    (List.range' first (last - first)).filterMap fun p =>
      let r := row.getD p 0 - base
      if r < 0 ∨ (n : ℤ) ≤ r then none
      else if (j : ℤ) ≤ r then some ⟨j, r.toNat, p⟩
      else some ⟨r.toNat, j, p⟩

/-- The pattern of sorted entries. -/
def patternOf (n : ℕ) (entries : List Entry) : CscLower ℚ where
  n := n
  colPtr := (List.range (n + 1)).map fun j => ((entries.filter (·.col < j)).length : ℤ)
  rowIdx := entries.map fun e => (e.row : ℤ)
  values := List.replicate entries.length 0

/-- `fill_values`. -/
def SmfAkeep.fillValues (ak : SmfAkeep) (val : ℕ → ℚ) : List ℚ := ak.sortPerm.map val

/-- A default `Control`. -/
def defaultControl : Ctrl where
  matrixType := .indefinite
  ordering := .autoSerial
  matchingTrigger := .predicted
  userScale := none
  pivotU := 1 / 100
  staticPivotTol := 0
  fallbackStaticPivotTol := 0
  staticPivotsAsZero := false
  staticZeroStaysZero := false
  staticPivotInOrder := false
  regDiagSign := none
  regDiagTol := 0
  treeParallel := false
  maxNegativePivots := -1
  rest := {}

/-! ## factor -/

/-- What a factor call hands to each of its `IpmSession::factor` calls. -/
def Shared.prepared (t : Shared Φ) (c : Ctrl) (scale : Option (List ℚ)) :
    IpmSession PluginFields Φ :=
  match scale with
  | none => t.session.setControl c
  | some s => ((t.session.setControl c).writeBuffer 0 s).setUserScale (some (.caller 0))

/-- One `IpmSession::factor` of a factor call. -/
inductive Attempt (values : List ℚ) (t : Shared Φ) (c : Ctrl) (scale : Option (List ℚ)) :
    IpmFactorStatus → Option (EngineRun PluginFields Φ) → Shared Φ → Prop
  | mk {status : IpmFactorStatus} {run : Option (EngineRun PluginFields Φ)}
      {u : IpmSession PluginFields Φ}
      (h : IpmSession.Step (t.prepared c scale) (.factor values none, .factored status run) u) :
      Attempt values t c scale status run ⟨u, t.factorGeneration + 1⟩

/-- The `IpmSession::factor` calls of a factor call, with the `Control` they leave in the
    `akeep`: a reused scale that makes the factor singular is tried again with a fresh one. -/
inductive Attempts (env : Environment) (values : List ℚ) (t : Shared Φ) (c : Ctrl)
    (call : Ma97ScalingCall) (scale : Option (List ℚ)) :
    Ctrl → IpmFactorStatus → List (EngineRun PluginFields Φ) → Shared Φ → Prop
  | once {status run t'}
      (h : Attempt values t (if call.computed then withoutSlack c else c)
        (if call.reuse then scale else none) status run t')
      (hkept : ¬(env.staleScaleRetry = true ∧ call.reuse = true ∧ status = .singular)) :
      Attempts env values t c call scale c status run.toList t'
  | rescaled {run t₁ status run' t₂} (hretry : env.staleScaleRetry = true ∧ call.reuse = true)
      (h : Attempt values t (if call.computed then withoutSlack c else c) scale .singular run t₁)
      (h' : Attempt values t₁ (withoutSlack (withMatching c)) none status run' t₂)
      (hok : status = .ok ∨ status = .singular) :
      Attempts env values t c call scale (withMatching c) status (run.toList ++ run'.toList) t₂
  | restored {run t₁ status' run' t₂ status run'' t₃}
      (hretry : env.staleScaleRetry = true ∧ call.reuse = true)
      (h : Attempt values t (if call.computed then withoutSlack c else c) scale .singular run t₁)
      (h' : Attempt values t₁ (withoutSlack (withMatching c)) none status' run' t₂)
      (hbad : ¬(status' = .ok ∨ status' = .singular))
      (h'' : Attempt values t₂ c scale status run'' t₃) :
      Attempts env values t c call scale c status
        (run.toList ++ run'.toList ++ run''.toList) t₃

/-- The end of a factor call on the analysed session `t`: its flag, and what it leaves in
    the caller's `fkeep`. -/
def finishFactor (env : Environment) (ak : SmfAkeep) (fw : Option SmfFkeep) (t : Shared Φ)
    (status : IpmFactorStatus) (exact : Bool) : ℤ × Option SmfFkeep :=
  let info := t.session.info
  let fw : SmfFkeep := { (fw.getD ⟨ak.session, ak.ctrl, ak.n, 0, 0, false⟩) with
    session := ak.session
    n := ak.n
    ctrl := ak.ctrl
    generation := t.factorGeneration
    aborted := false }
  -- a Cholesky factor counts no pivots: all of them are positive
  let pd := decide (ak.ctrl.matrixType = .positiveDefinite) && decide (info.factorStatus = .success)
  let numPos := if pd then ak.n else info.numPositive
  let numNeg := if pd then 0 else info.numNegative
  let numZero := if pd then 0 else info.numZero
  if status = .wrongInertia then (0, some { fw with numNeg := info.numNegative, aborted := true })
  else if status ≠ .ok ∧ status ≠ .singular then (-5, none)
  -- the counts of a factor that stands add up to the order
  else if ((numPos + numNeg + numZero : ℕ) : ℤ) ≠ t.session.mat.n then (-5, none)
  else if status = .singular then (7, some { fw with numNeg := numNeg })
  else if !exact && decide (env.ipm.staticMode = .off) then (7, some { fw with numNeg := numNeg })
  else (0, some { fw with numNeg := numNeg })

/-- `matrix_type`, as `ma97_factor_d` reads it. -/
def matrixTypeOf (matrixType : ℤ) : MatrixType :=
  if matrixType = 3 then .positiveDefinite else .indefinite

/-! ## solve -/

/-- The numbers that a solve with this factor reads: `solve_core` asks for the band factor
    first. -/
def used (fk : FactorKeep Φ) : Option Φ := if fk.useBandedSpd then fk.band else fk.numeric

/-- The columns of `x`, without the rows past `n`. -/
def pack (n nrhs ldx : ℕ) (x : List ℚ) : List ℚ :=
  (List.range nrhs).flatMap fun j => (x.drop (j * ldx)).take n

/-- `x` with its columns replaced by those of `buf`. -/
def unpack (n nrhs ldx : ℕ) (x buf : List ℚ) : List ℚ :=
  x.mapIdx fun i v => if i / ldx < nrhs ∧ i % ldx < n then buf.getD (i / ldx * n + i % ldx) 0 else v

/-- What a solve that returned `rc` leaves in the caller's `x`. -/
def resultIn (n nrhs ldx : ℕ) (x : List ℚ) (rc : ℤ) (b : Option (List ℚ)) : List ℚ :=
  if ldx = n then b.getD x else if rc = 0 then unpack n nrhs ldx x (b.getD []) else x

def solveJobOf (job : ℤ) : SolveJob :=
  if job = 0 then .full else if job = 1 then .forward else if job = 2 then .diagOnly
  else if job = 3 then .backward else .diagBack

/-- The `fkeep` after a solve that returned `rc`: an aborted factor is complete from then on. -/
def SmfFkeep.solved (fw : SmfFkeep) (s : IpmSession PluginFields Φ) (rc : ℤ) : SmfFkeep :=
  if fw.aborted ∧ rc = 0 then { fw with numNeg := s.inertia.2.1, aborted := false } else fw

/-- The checks of `ma97_solve_d`, before its solve: the flag of the first that fails. -/
def refusal (fw : SmfFkeep) (generation : UInt64) (nrhs ldx job : ℤ) : Option ℤ :=
  if fw.generation ≠ generation then some (-1)
  else if nrhs < 1 then some (-2)
  else if ldx < fw.n then some (-4)
  else if job < 0 ∨ 4 < job then some (-5)
  else none

/-! ## Calls -/

namespace Ma97

variable (p : Ma97 Φ)

def setAkeep (a : ℕ) (ak : Option SmfAkeep) : Ma97 Φ :=
  { p with akeeps := Function.update p.akeeps a ak }

def setFkeep (f : ℕ) (fw : Option SmfFkeep) : Ma97 Φ :=
  { p with fkeeps := Function.update p.fkeeps f fw }

def setSession (i : ℕ) (t : Shared Φ) : Ma97 Φ :=
  { p with sessions := Function.update p.sessions i t }

/-- A new `akeep`, of a session that has analysed its pattern. -/
def newAkeep (a : ℕ) (c : Ctrl) (n : ℕ) (sorted : List Entry) (s : IpmSession PluginFields Φ) :
    Ma97 Φ :=
  { (p.setAkeep a (some ⟨p.nextSession, c, n, sorted.map (·.orig)⟩)).setSession p.nextSession ⟨s, 1⟩
    with nextSession := p.nextSession + 1 }

/-- One call. -/
inductive Step (env : Environment) : Ma97 Φ → Event Φ → Ma97 Φ → Prop
  /-- Null arguments, an order that is not positive, or pointers that are no ranges. -/
  | analyseIllegal {p a} : Step env p (.analyse a (-1)) (p.setAkeep a none)
  | analyseControl {p a} (opt : Option Ma97Control)
      (hopt : (applyMa97Control env defaultControl opt).2 = false) :
      Step env p (.analyse a (-6)) (p.setAkeep a none)
  /-- The sorted entries may come in any order where two of them are equal. -/
  | analyse {p a n ptr row entries sorted} {opt : Option Ma97Control} {c : Ctrl}
      {val : Option (ℕ → ℚ)} {refines found status} {s : IpmSession PluginFields Φ}
      {code : ErrorCode} (hn : 0 < n) (hopt : applyMa97Control env defaultControl opt = (c, true))
      (hentries : entriesOf n ptr row (if ∃ o ∈ opt, o.fArrays ≠ 0 then 1 else 0) = some entries)
      (hperm : sorted.Perm entries) (hsorted : sorted.Pairwise Entry.before)
      (h : (IpmSession.start c).analyse (patternOf n sorted)
        (((val.map fun v => sorted.map fun e => v e.orig)).getD []) c env.ipm refines found status =
        (s, code)) :
      Step env p (.analyse a (if code = .success then 0 else -3))
        (if code = .success then p.newAkeep a c n sorted s else p.setAkeep a none)
  /-- No `akeep`, or a null argument. -/
  | factorNull {p a f type} :
      Step env p (.factor a f none type [] [] (-5)) p
  | factorControl {p a f ak opt c} (matrixType : ℤ) (hak : p.akeeps a = some ak)
      (hopt : applyMa97Control env { ak.ctrl with matrixType := matrixTypeOf matrixType } opt =
        (c, false)) :
      Step env p (.factor a f (some ak.session) (matrixTypeOf matrixType) [] [] (-6))
        (p.setAkeep a (some { ak with ctrl := c }))
  | factor {p a f ak opt c c' c'' call status runs t} (matrixType : ℤ) (val : ℕ → ℚ)
      (scale : Option (List ℚ)) (rejected exact : Bool) (hak : p.akeeps a = some ak)
      (hopt : applyMa97Control env { ak.ctrl with matrixType := matrixTypeOf matrixType } opt =
        (c, true))
      (hcall : ma97ScalingCall env c rejected scale = (c', call))
      (hruns : Attempts env (ak.fillValues val) (p.sessions ak.session) c' call scale c'' status
        runs t)
      (hanalysed : t.session.ak.isSome = true) :
      Step env p
        (.factor a f (some ak.session) (matrixTypeOf matrixType)
          ((p.sessions ak.session).session.placed (ak.fillValues val)) runs
          (finishFactor env { ak with ctrl := c'' } (p.fkeeps f) t status exact).1)
        (((p.setAkeep a (some { ak with ctrl := c'' })).setSession ak.session t).setFkeep f
          (finishFactor env { ak with ctrl := c'' } (p.fkeeps f) t status exact).2)
  | factorUnanalysed {p a f ak opt c c' c'' call status runs t} (matrixType : ℤ) (val : ℕ → ℚ)
      (scale : Option (List ℚ)) (rejected : Bool) (hak : p.akeeps a = some ak)
      (hopt : applyMa97Control env { ak.ctrl with matrixType := matrixTypeOf matrixType } opt =
        (c, true))
      (hcall : ma97ScalingCall env c rejected scale = (c', call))
      (hruns : Attempts env (ak.fillValues val) (p.sessions ak.session) c' call scale c'' status
        runs t)
      (hfailed : t.session.ak = none) :
      Step env p
        (.factor a f (some ak.session) (matrixTypeOf matrixType)
          ((p.sessions ak.session).session.placed (ak.fillValues val)) runs (-3))
        ((p.setAkeep a (some { ak with ctrl := c'' })).setSession ak.session t)
  /-- No `fkeep`, or no right-hand side. -/
  | solveNull {p f x} (h : p.fkeeps f = none ∨ x = none) :
    Step env p (.solve f x x none none (-5)) p
  | solveRefused {p f fw x flag} (nrhs ldx job : ℤ) (hf : p.fkeeps f = some fw)
      (h : refusal fw (p.sessions fw.session).factorGeneration nrhs ldx job = some flag) :
      Step env p (.solve f (some x) (some x) none none flag) p
  | solve {p f fw c x b run rc s} {opt : Option Ma97Control} (nrhs ldx job : ℤ)
      (hf : p.fkeeps f = some fw)
      (h : refusal fw (p.sessions fw.session).factorGeneration nrhs ldx job = none)
      (hopt : c = (applyMa97Control env fw.ctrl opt).1)
      (hsolve : IpmSession.Step ((p.sessions fw.session).session.setControl c)
        (.solve (some (if ldx = fw.n then x else pack fw.n nrhs.toNat ldx.toNat x)) fw.n nrhs
          (solveJobOf job), .solved rc b run) s) :
      Step env p
        (.solve f (some x) (some (resultIn fw.n nrhs.toNat ldx.toNat x rc b)) run (used s.fk)
          (if rc = 0 then 0 else -5))
        ((p.setSession fw.session { p.sessions fw.session with session := s }).setFkeep f
          (some ({ fw with ctrl := c }.solved s rc)))
  /-- Freed, or set to null by the caller. -/
  | freeAkeep {p a} : Step env p (.freeAkeep a) (p.setAkeep a none)
  | freeFkeep {p f} : Step env p (.freeFkeep f) (p.setFkeep f none)

/-- The plugin before its first call. -/
def start : Ma97 Φ where
  sessions := fun _ => ⟨IpmSession.start defaultControl, 0⟩

/-- The plugin under any sequence of calls. -/
def system (env : Environment) : Lts (Ma97 Φ) (Event Φ) where
  init := start
  step := Step env

end Ma97
end Plugin
end SmfSolver
