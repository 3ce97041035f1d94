/-
  SmfSolver.Parallel.BudgetRegions

  The delay budget (`Control::delay_budget`): a running count of the delays of a sequence
  of fronts, from which on every front static-pivots once it is spent.  The sequences are
  regions of a tree partition: a task counts from zero over its own postorder, and a top
  front starts from what its children ended with.

  `processFront` is the part of `process_front` that chooses how a front pivots and keeps
  the count; the kernel is given.  `serialRun` is the one-thread engine: one pass over the
  postorder, with the regions read off the partition.
-/
import SmfSolver.Parallel.PassMerge
import SmfSolver.Parallel.TreePartition

namespace SmfSolver
namespace Parallel

open Multifrontal (AssemblyTree)
open Multifrontal.AssemblyTree (taskFronts mem_taskFronts)

structure BudgetState where
  count : ℕ := 0
  spent : Bool := false
  deriving DecidableEq

/-- What a front pivots with. -/
inductive PivotChoice where
  | threshold
  | fallback
  | budget
  deriving DecidableEq

/-- A contribution block: its rows, the delayed columns first. -/
structure Contribution (α : Type) where
  rows : List ℕ := []
  delayed : ℕ := 0
  values : List α := []

/-- What a kernel makes of a front. -/
structure KernelResult (α : Type) extends FrontFactor α where
  accepted : ℕ
  contribution : Contribution α

/-- A front as it was factored: with what choice, and the budget before and after. -/
structure FrontRun (α : Type) where
  out : KernelResult α
  choice : PivotChoice
  before : BudgetState
  after : BudgetState

/-- The settings of a factorization, and its kernels: what they make of a front with its
    children's blocks, a choice, tile tasks allowed or not, and so many BLAS threads. -/
structure FrontConfig (α : Type) where
  det : Bool
  tilesOn : Bool
  /-- BLAS threads of a call without a guard. -/
  callBlas : ℕ
  /-- -1: off. -/
  delayBudget : ℤ
  fallbackStatic : Bool
  kernel : ℕ → List (Contribution α) → PivotChoice → Bool → ℕ → KernelResult α

variable {α : Type} {T : AssemblyTree} {threads : ℕ}

namespace FrontConfig

variable (C : FrontConfig α)

def budgetOn : Bool := 0 ≤ C.delayBudget

/-- `process_front`.  A front whose delays would take the count past the budget is factored
    again, with the budget's static pivot. -/
def processFront (T : AssemblyTree) (s : ℕ) (kids : List (Contribution α)) (tile : Bool)
    (blas : ℕ) (bs : BudgetState) : FrontRun α :=
  let width := (T.supernodes s).width
  let isRoot := (T.parent s).isNone
  let nd := (kids.map (·.delayed)).sum
  let numElig := nd + width
  let entry := if C.budgetOn && decide (C.delayBudget ≤ bs.count) then
    { bs with spent := true } else bs
  -- the static fallback goes before the budget, and neither leaves a front to be tiled
  let fallbackFront := C.fallbackStatic && (isRoot || decide (width < nd))
  let budgetFront := C.budgetOn && entry.spent
  let choice : PivotChoice :=
    if fallbackFront then .fallback else if budgetFront then .budget else .threshold
  let first := C.kernel s kids choice (tile && !fallbackFront && !budgetFront) blas
  -- a root delays nothing, so it is never factored again
  let again := C.budgetOn && !budgetFront && !fallbackFront && !isRoot &&
    decide (C.delayBudget < entry.count + (numElig - first.accepted : ℕ))
  let out := if again then C.kernel s kids .budget false blas else first
  let spent := if again then { entry with spent := true } else entry
  { out := out
    choice := if again then .budget else choice
    before := bs
    after := if C.budgetOn && !isRoot then
        { spent with count := spent.count + (numElig - out.accepted) }
      else spent }

/-- The blocks of a front's children. -/
def kidsOf (T : AssemblyTree) (runs : ℕ → Option (FrontRun α)) (s : ℕ) : List (Contribution α) :=
  (T.children s).map fun c => ((runs c).map (·.out.contribution)).getD {}

/-- `top_in_state`: counts summed, spent if any child was. -/
def topInState (T : AssemblyTree) (nodeBudget : ℕ → BudgetState) (s : ℕ) : BudgetState :=
  (T.children s).foldl
    (fun st c => ⟨st.count + (nodeBudget c).count, st.spent || (nodeBudget c).spent⟩) {}

/-! ## The one-thread engine -/

/-- The main pass, every front's run, the running state of the current region, and the end
    state of every task and top front. -/
structure SerialState (α : Type) where
  pass : FrontPass α := {}
  runs : ℕ → Option (FrontRun α) := fun _ => none
  budget : BudgetState := {}
  nodeBudget : ℕ → BudgetState := fun _ => {}

variable (P : Partition T)

/-- The last front of the task front `k` is in. -/
def regionEnd (k : ℕ) : Option ℕ :=
  (P.ranges.find? fun r => decide (r.1 ≤ k ∧ k ≤ r.2)).map Prod.snd

/-- The budget counts by regions. -/
def regions : Bool := C.budgetOn && !P.ranges.isEmpty

/-- The state a front starts from. -/
def serialBefore (m : SerialState α) (k : ℕ) : BudgetState :=
  if C.regions P then
    match regionEnd P k with
    | none => topInState T m.nodeBudget k
    | some e => if k = 0 ∨ regionEnd P (k - 1) ≠ some e then {} else m.budget
  else m.budget

/-- In deterministic mode the fronts are tiled, and BLAS runs on one thread. -/
def serialFront (m : SerialState α) (k : ℕ) : FrontRun α :=
  C.processFront T k (kidsOf T m.runs k) (C.det && C.tilesOn) (if C.det then 1 else C.callBlas)
    (C.serialBefore P m k)

def serialStep (m : SerialState α) (k : ℕ) : SerialState α :=
  let run := C.serialFront P m k
  { pass := m.pass.store k run.out.toFrontFactor
    runs := Function.update m.runs k (some run)
    budget := if C.regions P && (regionEnd P k).isNone then m.budget else run.after
    nodeBudget :=
      if C.regions P && decide (regionEnd P k = none ∨ regionEnd P k = some k) then
        Function.update m.nodeBudget k run.after
      else m.nodeBudget }

/-- The one-thread engine after the first `n` fronts. -/
def serialRun (n : ℕ) : SerialState α := (List.range n).foldl (C.serialStep P) {}

/-! ### What a front leaves behind -/

/-- The run of front `k`. -/
def frontRun (k : ℕ) : FrontRun α := C.serialFront P (C.serialRun P k) k

/-- The budget counts by regions, and front `k` is a top front or the last of its task. -/
def keepsEnd (k : ℕ) : Bool :=
  C.regions P && decide (regionEnd P k = none ∨ regionEnd P k = some k)

/-- The end state that is kept of front `k`. -/
def endState (k : ℕ) : BudgetState := if C.keepsEnd P k then (C.frontRun P k).after else {}

variable {C P} {k n : ℕ}

theorem serialRun_succ : C.serialRun P (n + 1) = C.serialStep P (C.serialRun P n) n := by
  rw [serialRun, List.range_succ, List.foldl_append]
  rfl

theorem serialRun_runs :
    (C.serialRun P n).runs k = if k < n then some (C.frontRun P k) else none := by
  induction n with
  | zero => rfl
  | succ n ih =>
    rw [serialRun_succ, serialStep]
    dsimp only
    by_cases hk : k = n
    · subst hk
      rw [Function.update_self, if_pos (Nat.lt_succ_self k)]
      rfl
    · rw [Function.update_of_ne hk, ih]
      have hlt : k < n ↔ k < n + 1 := by omega
      exact if_congr hlt rfl rfl

theorem serialRun_pass : (C.serialRun P n).pass =
    FrontPass.storeAll (fun k => (C.frontRun P k).out.toFrontFactor) {} (List.range n) := by
  induction n with
  | zero => rfl
  | succ n ih =>
    rw [serialRun_succ, serialStep, FrontPass.storeAll, List.range_succ, List.foldl_append]
    exact congrArg (·.store n (C.frontRun P n).out.toFrontFactor) ih

theorem serialRun_nodeBudget :
    (C.serialRun P n).nodeBudget k = if k < n then C.endState P k else {} := by
  induction n with
  | zero => rfl
  | succ n ih =>
    rw [serialRun_succ, serialStep]
    dsimp only
    by_cases hk : k = n
    · subst hk
      rw [if_pos (Nat.lt_succ_self k), endState, keepsEnd]
      split_ifs
      · exact Function.update_self ..
      · rw [ih, if_neg (lt_irrefl k)]
    · have hlt : k < n ↔ k < n + 1 := by omega
      rw [← if_congr hlt rfl rfl, ← ih]
      split_ifs
      · exact Function.update_of_ne hk ..
      · rfl

/-- The running state is that of the front before, in a task. -/
theorem serialRun_budget (h : regionEnd P n ≠ none) :
    (C.serialRun P (n + 1)).budget = (C.frontRun P n).after := by
  have hin : (regionEnd P n).isNone = false := by
    cases he : regionEnd P n with
    | none => exact absurd he h
    | some e => rfl
  rw [serialRun_succ, serialStep]
  dsimp only
  rw [hin, Bool.and_false]
  rfl

/-- Without a budget nothing is counted. -/
theorem processFront_after {s : ℕ} {kids : List (Contribution α)} {tile : Bool} {blas : ℕ}
    {bs : BudgetState} (h : C.budgetOn = false) :
    (C.processFront T s kids tile blas bs).after = bs := by
  simp only [processFront, h, Bool.false_and, Bool.false_eq_true, if_false]

theorem serialRun_budget_off (h : C.budgetOn = false) : (C.serialRun P n).budget = {} := by
  have hregions : C.regions P = false := by rw [regions, h, Bool.false_and]
  induction n with
  | zero => rfl
  | succ n ih =>
    rw [serialRun_succ, serialStep]
    dsimp only
    rw [hregions, Bool.false_and, if_neg Bool.noConfusion, serialFront, processFront_after h,
      serialBefore, hregions, if_neg Bool.noConfusion, ih]

/-- The children of a front, when their runs are known. -/
theorem kidsOf_eq {runs : ℕ → Option (FrontRun α)}
    (h : ∀ c ∈ T.children k, runs c = some (C.frontRun P c)) :
    kidsOf T runs k = (T.children k).map fun c => (C.frontRun P c).out.contribution := by
  refine List.map_congr_left fun c hc => ?_
  rw [h c hc]
  rfl

theorem topInState_congr {f g : ℕ → BudgetState} (h : ∀ c ∈ T.children k, f c = g c) :
    topInState T f k = topInState T g k := by
  have key : ∀ (cs : List ℕ) (st : BudgetState), (∀ c ∈ cs, f c = g c) →
      cs.foldl (fun st c => BudgetState.mk (st.count + (f c).count) (st.spent || (f c).spent)) st =
      cs.foldl (fun st c => BudgetState.mk (st.count + (g c).count)
        (st.spent || (g c).spent)) st := by
    intro cs
    induction cs with
    | nil => exact fun _ _ => rfl
    | cons c cs ih =>
      intro st hcs
      rw [List.foldl_cons, List.foldl_cons, hcs c (List.mem_cons_self ..)]
      exact ih _ fun c' hc' => hcs c' (List.mem_cons_of_mem _ hc')
  exact key _ _ h

/-- The state a front starts from, when the budget counts by regions. -/
def startState (C : FrontConfig α) (P : Partition T) (k : ℕ) : BudgetState :=
  if C.regions P then
    match regionEnd P k with
    | none => topInState T (C.endState P) k
    | some e => if k = 0 ∨ regionEnd P (k - 1) ≠ some e then {} else (C.frontRun P (k - 1)).after
  else {}

/-- A front's run by what the fronts before it left. -/
theorem frontRun_eq (hk : k < T.ns) (hregions : C.regions P = C.budgetOn) : C.frontRun P k =
    C.processFront T k ((T.children k).map fun c => (C.frontRun P c).out.contribution)
      (C.det && C.tilesOn) (if C.det then 1 else C.callBlas) (C.startState P k) := by
  have hkids : kidsOf T (C.serialRun P k).runs k =
      (T.children k).map fun c => (C.frontRun P c).out.contribution :=
    kidsOf_eq fun c hc => by rw [serialRun_runs, if_pos (T.child_lt hk hc)]
  have hstart : C.serialBefore P (C.serialRun P k) k = C.startState P k := by
    rw [serialBefore, startState]
    by_cases hreg : C.regions P = true
    · rw [if_pos hreg, if_pos hreg]
      cases he : regionEnd P k with
      | none =>
        refine topInState_congr fun c hc => ?_
        rw [serialRun_nodeBudget, if_pos (T.child_lt hk hc)]
      | some e =>
        dsimp only
        refine if_ctx_congr Iff.rfl (fun _ => rfl) fun hin => ?_
        obtain ⟨hpos, hprev⟩ := not_or.mp hin
        have hsucc : k - 1 + 1 = k := Nat.sub_add_cancel (Nat.pos_of_ne_zero hpos)
        conv_lhs => rw [← hsucc]
        exact serialRun_budget fun hc => hprev fun hne => by
          rw [hc] at hne
          cases hne
    · rw [if_neg hreg, if_neg hreg]
      refine serialRun_budget_off ?_
      rw [← hregions]
      exact Bool.not_eq_true _ ▸ hreg
  rw [frontRun, serialFront, hkids, hstart]

end FrontConfig

end Parallel
end SmfSolver
