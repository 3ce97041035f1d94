/-
  SmfSolver.Solve.Refinement

  The iterative refinement of refinement.cpp: the backward errors of an iterate, the
  classical loop, FGMRES on one column and on all of them, and `refine_core` over both.

  `D` stands for double and `L` for long double.  Their operations are parameters; all that
  is known of them is in `Floats`, so rounding is covered.  The solve with the factor is a
  parameter too.  A right-hand side is a function of its index, a block of them one of the
  column and the index.

  `kept` and `steps` are not in the source: they record the iterates that became the best
  one and the solves of a column.
-/
import SmfSolver.Matrix.CscLower
import Mathlib.Data.List.FinRange
import Mathlib.Order.MinMax

namespace SmfSolver
namespace Solve

/-- `double` and `long double`, as far as the refinement depends on them. -/
structure Floats (D L : Type*) [LinearOrder D] [Zero D] [Div D] [OfScientific D] where
  abs : D → D
  sqrt : D → D
  hypot : D → D → D
  isfinite : D → Bool
  inf : D
  absLd : L → L
  /-- The conversions between the two. -/
  up : D → L
  down : L → D
  finite_zero : isfinite 0
  finite_of_le : ∀ {a b : D}, 0 ≤ a → a ≤ b → isfinite b → isfinite a
  eta_pos : (0 : D) < 1e-10
  omega_pos : (0 : D) < 1e-8
  div_le_div : ∀ {a b c : D}, 0 < c → a ≤ b → a / c ≤ b / c

/-- An entry of the lower triangle of the canonical matrix. -/
structure RefineEntry (n : ℕ) (L : Type*) where
  row : Fin n
  col : Fin n
  val : L

inductive RefineMethod
  | classical
  | fgmres
  | auto
  deriving DecidableEq

/-- The fields of `Control` that the refinement reads. -/
structure RefineControl (D : Type*) where
  refinementMaxIters : ℤ
  refineMethod : RefineMethod
  refineMaxSteps : ℤ
  fgmresRestart : ℤ
  refineOmegaTarget : D
  refineGrowthThreshold : D

/-- The matrix, its factor and the control of a refinement. -/
structure Refining (D L : Type*) (n : ℕ) where
  entries : List (RefineEntry n L)
  normAInf : L
  staticPath : Bool
  staticPivots : ℤ
  pivotGrowth : D
  ctrl : RefineControl D
  /-- The solve with the factor, `none` where it returns an error. -/
  solve : {m : ℕ} → (Fin m → Fin n → D) → Option (Fin m → Fin n → D)

variable {D L : Type*} [LinearOrder D] [Zero D] [Add D] [Sub D] [Mul D] [Div D] [Neg D]
  [OfScientific D] [LinearOrder L] [Zero L] [Add L] [Sub L] [Mul L] [Div L] {n m : ℕ}

/-! ## The backward errors -/

structure NeumaierAcc (L : Type*) where
  sum : L
  c : L

namespace NeumaierAcc

def add (absLd : L → L) (a : NeumaierAcc L) (val : L) : NeumaierAcc L :=
  let t := a.sum + val
  { sum := t
    c := if absLd val ≤ absLd a.sum then a.c + ((a.sum - t) + val) else a.c + ((val - t) + a.sum) }

def result (a : NeumaierAcc L) : L := a.sum + a.c

end NeumaierAcc

/-- The result of `compute_residual_and_backward_error`: what it returns, and what it leaves
    in its output arguments.  The residual is read only where `ok`. -/
structure Measure (D : Type*) (n m : ℕ) where
  ok : Bool
  eta : D
  omega : D
  r : Fin m → Fin n → D

variable (F : Floats D L) (P : Refining D L n)

namespace Refining

/-- One entry of `A x` and of `|A| |x|`. -/
def addEntry (x : Fin n → D) (ax : (Fin n → NeumaierAcc L) × (Fin n → NeumaierAcc L))
    (e : RefineEntry n L) : (Fin n → NeumaierAcc L) × (Fin n → NeumaierAcc L) :=
  let put (a : Fin n → NeumaierAcc L) (i : Fin n) (v : L) : Fin n → NeumaierAcc L :=
    Function.update a i ((a i).add F.absLd v)
  let xc := F.up (x e.col)
  let xr := F.up (x e.row)
  let lower := (put ax.1 e.row (e.val * xc), put ax.2 e.row (F.absLd e.val * F.absLd xc))
  if e.row = e.col then lower
  else (put lower.1 e.col (e.val * xr), put lower.2 e.col (F.absLd e.val * F.absLd xr))

def products (x : Fin n → D) : (Fin n → NeumaierAcc L) × (Fin n → NeumaierAcc L) :=
  P.entries.foldl (addEntry F x) (fun _ => ⟨0, 0⟩, fun _ => ⟨0, 0⟩)

/-- The largest absolute value of a column, in extended precision. -/
def normInf (v : Fin n → D) : L :=
  (List.finRange n).foldl (fun s i => max s (F.absLd (F.up (v i)))) 0

def residual (b x : Fin n → D) (i : Fin n) : L :=
  F.up (b i) - ((P.products F x).1 i).result

/-- Row `i` of the componentwise error, `none` where the column is given up. -/
def rowOmega (b x : Fin n → D) (i : Fin n) : Option L :=
  let absRes := F.absLd (P.residual F b x i)
  let compDenom := ((P.products F x).2 i).result + F.absLd (F.up (b i))
  if 0 < compDenom then some (absRes / compDenom)
  else if absRes = 0 then some 0
  else none

/-- The backward errors of one column, `none` where the function returns false in it. -/
def columnErrors (b x : Fin n → D) : Option (D × D) :=
  if ∃ i, ¬(F.isfinite (b i) ∧ F.isfinite (x i)) then none
  else
    let colResInf :=
      (List.finRange n).foldl (fun s i => max s (F.absLd (P.residual F b x i))) 0
    (List.finRange n).foldlM (fun s i => (P.rowOmega F b x i).map (max s)) (0 : L) |>.bind
      fun colOmega =>
        let etaDenom := P.normAInf * normInf F x + normInf F b
        if 0 < etaDenom then some (F.down (colResInf / etaDenom), F.down colOmega)
        else if colResInf = 0 then some (F.down 0, F.down colOmega)
        else none

def computeResidualAndBackwardError (b x : Fin m → Fin n → D) : Measure D n m :=
  let r : Fin m → Fin n → D := fun c i => F.down (P.residual F (b c) (x c) i)
  match (List.finRange m).mapM fun c => P.columnErrors F (b c) (x c) with
  | none => ⟨false, F.inf, F.inf, r⟩
  | some cols =>
    let eta := cols.foldl (fun s e => max s e.1) 0
    let omega := cols.foldl (fun s e => max s e.2) 0
    ⟨F.isfinite eta && F.isfinite omega, eta, omega, r⟩

end Refining

def metricScore (eta om : D) : D := max (eta / 1e-10) (om / 1e-8)

def meetsGate (eta om : D) : Bool := eta ≤ 1e-10 && om ≤ 1e-8

namespace Refining

/-- Where refinement stops looking at omega. -/
def omegaTarget : D :=
  if P.staticPath && 0 < P.ctrl.refineOmegaTarget then min 1e-8 P.ctrl.refineOmegaTarget else 1e-8

def reached (eta om : D) : Bool := eta ≤ 1e-10 && om ≤ P.omegaTarget

/-- Whether a result qualifies. -/
def qualified (eta om : D) : Bool := F.isfinite eta && F.isfinite om && meetsGate eta om

end Refining

/-! ## Classical refinement -/

/-- The variables of the classical loop. -/
structure Classical (D : Type*) (n m : ℕ) where
  x : Fin m → Fin n → D
  /-- `refine_best_x`. -/
  best : Fin m → Fin n → D
  r : Fin m → Fin n → D
  eta : D
  omega : D
  score : D
  itersDone : ℕ
  stagnatedSteps : ℕ
  escalate : Bool
  /-- Left by the return inside the loop. -/
  met : Bool
  kept : List (Fin m → Fin n → D)

namespace Refining

/-- Step `iter`; whether the loop goes on. -/
def classicalStep (b : Fin m → Fin n → D) (cap : ℕ) (escalate : Bool) (iter : ℕ)
    (s : Classical D n m) : Classical D n m × Bool :=
  let s := { s with itersDone := iter }
  match P.solve s.r with
  | none => (s, false)
  | some dx =>
    let x : Fin m → Fin n → D := fun c i => s.best c i + dx c i
    let e := P.computeResidualAndBackwardError F b x
    -- an iterate that cannot be measured is dropped, and so is one that is no better
    if !e.ok then ({ s with x := s.best, r := e.r }, false)
    else
      let candScore := metricScore e.eta e.omega
      if candScore < s.score then
        let ratio := candScore / s.score
        let s' := { s with
          x := x, best := x, r := e.r, eta := e.eta, omega := e.omega, score := candScore
          kept := x :: s.kept }
        if P.reached e.eta e.omega then ({ s' with met := true }, false)
        -- under Auto a step that gains too little hands over to FGMRES
        else if escalate then
          if 0.5 < ratio ∨ (0 < P.staticPivots ∧ min 3 cap ≤ iter) then
            ({ s' with escalate := true }, false)
          else (s', true)
        -- alone, two such steps in a row end the loop
        else if 0.85 < ratio then
          ({ s' with stagnatedSteps := s.stagnatedSteps + 1 }, s.stagnatedSteps + 1 < 2)
        else ({ s' with stagnatedSteps := 0 }, true)
      else
        ({ s with x := s.best, r := e.r, escalate := escalate && !P.reached s.eta s.omega }, false)

/-- The loop, `k` steps before its cap. -/
def classicalLoop (b : Fin m → Fin n → D) (cap : ℕ) (escalate : Bool) :
    ℕ → Classical D n m → Classical D n m
  | 0, s => s
  | k + 1, s =>
    match P.classicalStep F b cap escalate (cap - k) s with
    | (s', true) => classicalLoop b cap escalate k s'
    | (s', false) => s'

def classicalStart (x : Fin m → Fin n → D) (e : Measure D n m) : Classical D n m where
  x := x
  best := x
  r := e.r
  eta := e.eta
  omega := e.omega
  score := metricScore e.eta e.omega
  itersDone := 0
  stagnatedSteps := 0
  escalate := false
  met := false
  kept := []

def classicalRefine (b x : Fin m → Fin n → D) (e : Measure D n m) (cap : ℕ) (escalate : Bool) :
    Classical D n m :=
  P.classicalLoop F b cap escalate cap (classicalStart x e)

end Refining

/-! ## FGMRES on one column -/

def dot (a b : Fin n → D) : D := (List.finRange n).foldl (fun s i => s + a i * b i) 0

/-- The largest absolute value of a column, from `s` up. -/
def absMax (s : D) (v : Fin n → D) : D :=
  (List.finRange n).foldl (fun s i => max s (F.abs (v i))) s

/-- The variables of `fgmres_column`. -/
structure Krylov (D : Type*) (n : ℕ) where
  V : ℕ → Fin n → D
  Z : ℕ → Fin n → D
  /-- Entry (i, j) is `H i j`. -/
  H : ℕ → ℕ → D
  cs : ℕ → D
  sn : ℕ → D
  g : ℕ → D
  x0 : Fin n → D
  /-- `x_col`, the best iterate, with its residual, its metrics and its score. -/
  x : Fin n → D
  r : Fin n → D
  eta : D
  omega : D
  score : D
  used : ℕ
  improved : Bool
  done : Bool
  stop : Bool
  kept : List (Fin n → D)

namespace Refining

/-- The metrics of a single column. -/
def measureColumn (b x : Fin n → D) : Measure D n 1 :=
  P.computeResidualAndBackwardError F (fun _ => b) (fun _ => x)

def symMatvec (z : Fin n → D) : Fin n → D :=
  P.entries.foldl (fun y e =>
    let v := F.down e.val
    let y := Function.update y e.row (y e.row + v * z e.col)
    if e.row = e.col then y else Function.update y e.col (y e.col + v * z e.row)) fun _ => 0

/-- Modified Gram-Schmidt: `w` and column `j` of `H`. -/
def orthogonalize (V : ℕ → Fin n → D) (j : ℕ) (w : Fin n → D) : (Fin n → D) × (ℕ → D) :=
  (List.range (j + 1)).foldl (fun a i =>
    let hij := dot a.1 (V i)
    (fun k => a.1 k - hij * V i k, Function.update a.2 i hij)) (w, fun _ => 0)

/-- The earlier rotations, on column `j` of `H`. -/
def rotate (cs sn : ℕ → D) (j : ℕ) (h : ℕ → D) : ℕ → D :=
  (List.range j).foldl (fun h i =>
    let a := h i
    let c := h (i + 1)
    Function.update (Function.update h i (cs i * a + sn i * c)) (i + 1) (-sn i * a + cs i * c)) h

/-- The triangular solve for the coefficients of the iterate. -/
def backSubstitute (H : ℕ → ℕ → D) (g : ℕ → D) (k : ℕ) : ℕ → D :=
  (List.range k).reverse.foldl (fun y i =>
    let s := (List.range' (i + 1) (k - (i + 1))).foldl (fun s l => s - H i l * y l) (g i)
    Function.update y i (s / H i i)) fun _ => 0

def combine (x0 : Fin n → D) (Z : ℕ → Fin n → D) (y : ℕ → D) (k : ℕ) : Fin n → D :=
  (List.range k).foldl (fun x l i => x i + y l * Z l i) x0

/-- The Arnoldi part of iteration `j`: the preconditioned direction, the next vector with
    its norm, and the rotated column of `H`; `none` where the cycle is stopped. -/
def expand (j : ℕ) (s : Krylov D n) : Option (Krylov D n × (Fin n → D) × D) :=
  match P.solve (m := 1) fun _ => s.V j with
  | none => none
  | some z =>
    let a := orthogonalize s.V j (P.symMatvec F (z 0))
    let hnext := F.sqrt (dot a.1 a.1)
    -- a step that is not finite ends the cycle with the columns it has
    if !F.isfinite hnext then none
    else
      let h := Function.update (rotate s.cs s.sn j a.2) (j + 1) hnext
      let rho := F.hypot (h j) hnext
      if rho = 0 then none
      else
        -- the new rotation takes `hnext` off the column and moves on the residual
        let cs := Function.update s.cs j (h j / rho)
        let sn := Function.update s.sn j (hnext / rho)
        let h := Function.update (Function.update h j rho) (j + 1) 0
        some ({ s with
          Z := Function.update s.Z j (z 0)
          H := fun i l => if l = j then h i else s.H i l
          cs := cs, sn := sn
          g := Function.update (Function.update s.g (j + 1) (-sn j * s.g j)) j (cs j * s.g j) },
          a.1, hnext)

/-- The iterate of iteration `j`. -/
def candidate (j : ℕ) (s : Krylov D n) : Fin n → D :=
  combine s.x0 s.Z (backSubstitute s.H s.g (j + 1)) (j + 1)

/-- Whether a candidate becomes the best iterate. -/
def takes (b : Fin n → D) (xLimit : D) (xc : Fin n → D) (s : Krylov D n) : Bool :=
  let e := P.measureColumn F b xc
  decide (absMax F 0 xc ≤ xLimit) && e.ok && decide (metricScore e.eta e.omega < s.score)

def offer (b : Fin n → D) (xLimit : D) (xc : Fin n → D) (s : Krylov D n) : Krylov D n :=
  let e := P.measureColumn F b xc
  if P.takes F b xLimit xc s then
    { s with
      x := xc, r := e.r 0, eta := e.eta, omega := e.omega
      score := metricScore e.eta e.omega, improved := true, kept := xc :: s.kept }
  else s

/-- Iteration `j` of a cycle; whether the cycle goes on. -/
def arnoldiStep (b : Fin n → D) (xLimit : D) (forcedOnly : Bool) (j : ℕ) (s : Krylov D n) :
    Krylov D n × Bool :=
  let s := { s with used := s.used + 1 }
  match P.expand F j s with
  | none => ({ s with stop := true }, false)
  | some (s, w, hnext) =>
    let xc := candidate j s
    let s' := P.offer F b xLimit xc s
    if P.takes F b xLimit xc s && P.reached s'.eta s'.omega then ({ s' with done := true }, false)
    else if forcedOnly then ({ s' with done := true }, false)
    else if hnext ≤ 0 then (s', false)
    else ({ s' with V := Function.update s'.V (j + 1) fun i => w i / hnext }, true)

/-- The iterations of a cycle from `j` on, `k` of them at most. -/
def cycle (b : Fin n → D) (xLimit : D) (forcedOnly : Bool) : ℕ → ℕ → Krylov D n → Krylov D n
  | 0, _, s => s
  | k + 1, j, s =>
    match P.arnoldiStep F b xLimit forcedOnly j s with
    | (s', true) => cycle b xLimit forcedOnly k (j + 1) s'
    | (s', false) => s'

/-- The start of a cycle, from the best iterate. -/
def startCycle (beta : D) (s : Krylov D n) : Krylov D n :=
  { s with
    V := Function.update s.V 0 fun i => s.r i / beta
    g := Function.update (fun _ => 0) 0 beta
    improved := false
    stop := false }

/-- The fields of the best iterate. -/
structure SameBest (s s' : Krylov D n) : Prop where
  x : s'.x = s.x
  eta : s'.eta = s.eta
  omega : s'.omega = s.omega
  score : s'.score = s.score
  used : s'.used = s.used
  kept : s'.kept = s.kept

omit [LinearOrder L] [Zero L] [Add L] [Sub L] [Mul L] [Div L] in
theorem expand_best {j : ℕ} {s s' : Krylov D n} {w : Fin n → D} {hnext : D}
    (h : P.expand F j s = some (s', w, hnext)) : SameBest s s' := by
  unfold expand at h
  cases hz : P.solve (m := 1) fun _ => s.V j with
  | none =>
    rw [hz] at h
    exact nomatch h
  | some z =>
    rw [hz] at h
    dsimp only at h
    split_ifs at h
    cases h
    exact ⟨rfl, rfl, rfl, rfl, rfl, rfl⟩

omit [Add D] [Sub D] [Mul D] [Neg D] in
theorem offer_used (b : Fin n → D) (xLimit : D) (xc : Fin n → D) (s : Krylov D n) :
    (P.offer F b xLimit xc s).used = s.used := by
  unfold offer
  split_ifs <;> rfl

/-- Every iteration makes one solve. -/
theorem arnoldiStep_used (b : Fin n → D) (xLimit : D) (forcedOnly : Bool) (j : ℕ)
    (s : Krylov D n) : (P.arnoldiStep F b xLimit forcedOnly j s).1.used = s.used + 1 := by
  unfold arnoldiStep
  dsimp only
  rcases hexp : P.expand F j { s with used := s.used + 1 } with _ | ⟨s', w, hnext⟩
  · rfl
  · have hused := (P.offer_used F b xLimit (candidate j s') s').trans (P.expand_best F hexp).used
    dsimp only
    split_ifs <;> exact hused

theorem cycle_used (b : Fin n → D) (xLimit : D) (forcedOnly : Bool) (k j : ℕ) (s : Krylov D n) :
    (P.cycle F b xLimit forcedOnly k j s).used ≤ s.used + k ∧
      (0 < k → s.used < (P.cycle F b xLimit forcedOnly k j s).used) := by
  induction k generalizing j s with
  | zero => exact ⟨le_refl _, fun h => absurd h (lt_irrefl 0)⟩
  | succ k ih =>
    have hstep := P.arnoldiStep_used F b xLimit forcedOnly j s
    unfold cycle
    generalize P.arnoldiStep F b xLimit forcedOnly j s = a at hstep ⊢
    rcases a with ⟨s', _ | _⟩
    · dsimp only at hstep ⊢
      omega
    · have hrest := ih (j + 1) s'
      rcases Nat.eq_zero_or_pos k with rfl | hk
      · simp only [cycle] at hstep ⊢
        omega
      · dsimp only at hstep ⊢
        have := hrest.2 hk
        omega

/-- The cycles, until the budget is spent. -/
def cycles (b : Fin n → D) (xLimit : D) (forcedOnly : Bool) (mMax : ℕ) (hm : 0 < mMax) (budget : ℕ)
    (s : Krylov D n) : Krylov D n :=
  if _h : s.used < budget ∧ s.done = false then
    let beta := F.sqrt (dot s.r s.r)
    if ¬0 < beta ∨ F.isfinite beta = false then s
    else
      let s' := P.cycle F b xLimit forcedOnly (min mMax (budget - s.used)) 0 (startCycle beta s)
      -- a cycle that has not improved `x` is the last
      if s'.stop || !s'.improved then s'
      else cycles b xLimit forcedOnly mMax hm budget { s' with x0 := s'.x }
  else s
termination_by budget - s.used
decreasing_by
  have hused := (P.cycle_used F b xLimit forcedOnly (min mMax (budget - s.used)) 0
    (startCycle beta s)).2 (lt_min hm (Nat.sub_pos_of_lt _h.1))
  have hstart : (startCycle beta s).used = s.used := rfl
  change budget - (P.cycle F b xLimit forcedOnly (min mMax (budget - s.used)) 0
    (startCycle beta s)).used < budget - s.used
  omega

/-- What `fgmres_column` leaves: the best iterate, the iterations used and the metrics. -/
structure ColumnResult (D : Type*) (n : ℕ) where
  x : Fin n → D
  used : ℕ
  eta : D
  omega : D
  kept : List (Fin n → D)

def krylovStart (x : Fin n → D) (e : Measure D n 1) : Krylov D n where
  V _ _ := 0
  Z _ _ := 0
  H _ _ := 0
  cs _ := 0
  sn _ := 0
  g _ := 0
  x0 := x
  x := x
  r := e.r 0
  eta := e.eta
  omega := e.omega
  score := metricScore e.eta e.omega
  used := 0
  improved := false
  done := false
  stop := false
  kept := []

/-- The largest norm an iterate may have. -/
def growthLimit (b x : Fin n → D) : D :=
  let xRef := absMax F 0 x
  1e8 * if 0 < P.normAInf then max xRef (absMax F 0 b / F.down P.normAInf) else xRef

def fgmresColumn (b x : Fin n → D) (budget : ℤ) (restart : ℤ) (forceStep : Bool) :
    ColumnResult D n :=
  let e := P.measureColumn F b x
  if !e.ok then ⟨x, 0, F.inf, F.inf, []⟩
  else if budget ≤ 0 then ⟨x, 0, e.eta, e.omega, []⟩
  else
    let forcedOnly := P.reached e.eta e.omega
    if forcedOnly && !forceStep then ⟨x, 0, e.eta, e.omega, []⟩
    else
      let mMax := (max 1 (min restart budget)).toNat
      let s := P.cycles F b (P.growthLimit F b x) forcedOnly mMax (by omega) budget.toNat
        (krylovStart x e)
      ⟨s.x, s.used, s.eta, s.omega, s.kept⟩

/-- `fgmres_refine`: every column by itself. -/
def fgmresRefine (b x : Fin m → Fin n → D) (budget : ℤ) (forceStep : Bool) :
    Fin m → ColumnResult D n :=
  fun c => P.fgmresColumn F (b c) (x c) budget P.ctrl.fgmresRestart forceStep

end Refining

/-! ## All of it -/

/-- What `refine_core` leaves in `x` and returns. -/
structure Refined (D : Type*) (n m : ℕ) where
  x : Fin m → Fin n → D
  status : ErrorCode
  iterations : ℕ
  eta : D
  omega : D
  methodUsed : RefineMethod := .classical
  omegaStart : D
  /-- Whole iterates that became the best one. -/
  kept : List (Fin m → Fin n → D) := []
  /-- Columns that became the best one of FGMRES. -/
  keptColumns : Fin m → List (Fin n → D) := fun _ => []
  /-- Solves with each column. -/
  steps : Fin m → ℕ := fun _ => 0

namespace Refining

/-- The result of classical refinement. -/
def classicalResult (omegaStart : D) (s : Classical D n m) : Refined D n m where
  x := s.x
  status := if s.met || qualified F s.eta s.omega then .success else .maxIterations
  iterations := s.itersDone
  eta := s.eta
  omega := s.omega
  omegaStart := omegaStart
  kept := s.kept
  steps _ := s.itersDone

/-- The result of FGMRES on the columns of `s.x`. -/
def fgmresResult (omegaStart : D) (s : Classical D n m) (cols : Fin m → ColumnResult D n) :
    Refined D n m :=
  let eta := (List.finRange m).foldl (fun a c => max a (cols c).eta) 0
  let omega := (List.finRange m).foldl (fun a c => max a (cols c).omega) 0
  { x := fun c => (cols c).x
    status := if qualified F eta omega then .success else .maxIterations
    iterations := s.itersDone + (List.finRange m).foldl (fun a c => max a (cols c).used) 0
    eta := eta
    omega := omega
    methodUsed := .fgmres
    omegaStart := omegaStart
    kept := s.kept
    keptColumns := fun c => (cols c).kept
    steps := fun c => s.itersDone + (cols c).used }

/-- The start, where no step is made. -/
def atStart (x : Fin m → Fin n → D) (e : Measure D n m) : Refined D n m where
  x := x
  status := if meetsGate e.eta e.omega then .success else .maxIterations
  iterations := 0
  eta := e.eta
  omega := e.omega
  omegaStart := e.omega

/-- `refine_core` from a measured start. -/
def refineFrom (b x : Fin m → Fin n → D) (e : Measure D n m) : Refined D n m :=
  let forceStep := P.staticPath && decide (P.ctrl.refineGrowthThreshold < P.pivotGrowth)
  let maxIters := max 0 P.ctrl.refinementMaxIters
  -- a static factor that grew too much takes one step whatever the start meets
  if P.reached e.eta e.omega && !forceStep then atStart x e
  else if maxIters = 0 then atStart x e
  else
    match P.ctrl.refineMethod with
    | .classical =>
      classicalResult F e.omega (P.classicalRefine F b x e maxIters.toNat false)
    | .fgmres =>
      let total := max 0 P.ctrl.refineMaxSteps
      fgmresResult F e.omega (classicalStart x e) (P.fgmresRefine F b x total forceStep)
    -- classical steps first; FGMRES with what is left of the budget
    | .auto =>
      let total := max 0 P.ctrl.refineMaxSteps
      let co := P.classicalRefine F b x e (min maxIters total).toNat true
      if !co.escalate || decide (total ≤ co.itersDone) then classicalResult F e.omega co
      else
        fgmresResult F e.omega co
          (P.fgmresRefine F b co.x (total - co.itersDone) (forceStep && co.itersDone == 0))

def refineCore (b x : Fin m → Fin n → D) : Refined D n m :=
  let e := P.computeResidualAndBackwardError F b x
  if !e.ok then
    { x := x, status := .illegalValue, iterations := 0, eta := e.eta, omega := e.omega
      omegaStart := F.inf }
  else P.refineFrom F b x e

end Refining

end Solve
end SmfSolver
