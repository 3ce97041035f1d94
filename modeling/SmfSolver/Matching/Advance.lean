/-
  SmfSolver.Matching.Advance

  `advance`, the matcher's resumable run, as a total function: every pass of
  `advanceStep` lowers `advanceMeasure`.  Then what a caller reads off the matcher,
  `current`: the matching and the scaling of its duals.

  * `repair_frame`, `hybridStep_*`: what the switch to the auction leaves alone.
  * `advanceStep_decreases`: phase 1 switches at most once, and between switches
    the list of free columns only shrinks.
-/
import SmfSolver.Matching.SymmetricMatcher

namespace SmfSolver
namespace Matching

open Lib

section Frames

variable {n : ℕ} {K : Type*} [Field K] [LinearOrder K]

/-- The state with other arrays and another count of matched columns. -/
def State.setArrays (s : State n K) (a : MatchArrays n K) (matched : ℕ) : State n K :=
  { s with toMatchArrays := a, matched := matched }

/-- A repaired column changes the arrays and the count of matched columns. -/
theorem repairColumn_frame (s : State n K) (j : Fin n) :
    ∃ a m, repairColumn s j = s.setArrays a m := by
  unfold repairColumn
  split_ifs
  · exact ⟨s.toMatchArrays, s.matched, rfl⟩
  · dsimp only
    split
    · exact ⟨_, _, rfl⟩
    · split_ifs
      · exact ⟨_, _, rfl⟩
      · exact ⟨_, _, rfl⟩

theorem foldl_repairColumn_frame (l : List (Fin n)) (s : State n K) :
    ∃ a m, l.foldl repairColumn s = s.setArrays a m := by
  induction l generalizing s with
  | nil => exact ⟨s.toMatchArrays, s.matched, rfl⟩
  | cons j l ih =>
    obtain ⟨a, m, h⟩ := repairColumn_frame s j
    rw [List.foldl_cons, h]
    obtain ⟨a', m', h'⟩ := ih (s.setArrays a m)
    exact ⟨a', m', h'⟩

/-- The free columns are listed once each. -/
theorem listFreeSparse_length (s : State n K) : s.listFreeSparse.searchOrder.length ≤ n := by
  have hfree : ((sparseCols n s.rowDense).filter fun j => (s.colToRow j).isNone).length ≤ n := by
    unfold sparseCols
    refine (List.length_filter_le _ _).trans ((List.length_filter_le _ _).trans ?_)
    rw [List.length_finRange]
  unfold State.listFreeSparse
  dsimp only
  split
  · exact hfree
  · rw [List.length_insertionSort]
    exact hfree

/-- The repair changes the arrays, the marks, the count and the list of free columns. -/
theorem repair_frame (s : State n K) :
    ∃ a m d order r, s.repair =
      { s.setArrays a m with rowDone := d, searchOrder := order, nextCol := 0, repaired := r } := by
  unfold State.repair State.listFreeSparse
  dsimp only
  obtain ⟨a, m, h⟩ := foldl_repairColumn_frame (List.finRange n)
    { s with
      u := s.repairWalk.u
      rowDone := resetTouched false s.repairWalk.reached s.repairWalk.seen
      work := s.repairWalk.work
      matched := 0 }
  rw [h]
  exact ⟨a, m, _, _, _, rfl⟩

theorem repair_length (s : State n K) : s.repair.searchOrder.length ≤ n :=
  listFreeSparse_length _

theorem hybridSnapshot_frame (s : State n K) :
    ∃ q f u, s.hybridSnapshot =
      { s with hybridQueue := q, hybridFailed := f, hybridResetU := u } := by
  unfold State.hybridSnapshot
  split_ifs
  · exact ⟨_, _, _, rfl⟩
  · exact ⟨s.hybridQueue, s.hybridFailed, s.hybridResetU, rfl⟩

variable [IsStrictOrderedRing K] [FloorSemiring K]

/-- A finished auction and repair: control data afterwards. -/
theorem hybridStep_true {s : State n K} {workBudget : ℤ} (h : (s.hybridStep workBudget).2 = true) :
    (s.hybridStep workBudget).1.status = s.status ∧
      (s.hybridStep workBudget).1.phase = s.phase ∧
      (s.hybridStep workBudget).1.switched = s.switched ∧
      (s.hybridStep workBudget).1.hybridArmed = false ∧
      (s.hybridStep workBudget).1.nextCol = 0 ∧
      (s.hybridStep workBudget).1.searchOrder.length ≤ n := by
  unfold State.hybridStep at h ⊢
  obtain ⟨q, f, u, hsnap⟩ := hybridSnapshot_frame s
  rw [hsnap] at h ⊢
  dsimp only at h ⊢
  generalize auctionAdvance s.g s.rowDense q s.auctionOpt workBudget _ = r at h ⊢
  split at h
  · cases h
  · generalize hrep : State.repair (n := n) (K := K) _ = t at h ⊢
    have hlen : t.searchOrder.length ≤ n := hrep ▸ repair_length _
    obtain ⟨a, m, d, order, rep, hframe⟩ := hrep ▸ repair_frame _
    split_ifs
    · exact ⟨by rw [hframe]; rfl, by rw [hframe]; rfl, by rw [hframe]; rfl, rfl, by rw [hframe],
        hlen⟩
    · exact ⟨by rw [hframe]; rfl, by rw [hframe]; rfl, by rw [hframe]; rfl, rfl, by rw [hframe],
        (List.length_filter_le _ _).trans hlen⟩

end Frames

/-! ## Termination -/

section Run

variable {n : ℕ} {K : Type*} [Field K] [LinearOrder K]

/-- Phase 3's columns, then phase 1's switch, auction and listed columns. -/
def advanceMeasure (s : State n K) : ℕ :=
  match s.phase with
  | .four => 0
  | .three => n - s.nextCol
  | .one => (n + 1) + (if s.switched then 0 else 2 * (n + 2))
      + (if s.hybridArmed then n + 2 else 0) + (s.searchOrder.length - s.nextCol)

theorem endPhaseOne_measure (s : State n K) : advanceMeasure s.endPhaseOne = n := rfl

variable [IsStrictOrderedRing K] [FloorSemiring K]

theorem phaseOneStep_decreases {workBudget : ℤ} {s s' : State n K} (hphase : s.phase = .one)
    (h : phaseOneStep workBudget s = .inl s') : advanceMeasure s' < advanceMeasure s := by
  have hone : advanceMeasure s = (n + 1) + (if s.switched then 0 else 2 * (n + 2))
      + (if s.hybridArmed then n + 2 else 0) + (s.searchOrder.length - s.nextCol) := by
    unfold advanceMeasure
    rw [hphase]
  unfold phaseOneStep at h
  -- the auction, the end of the phase, the switch or a search: each lowers its own summand
  by_cases harmed : s.hybridArmed = true
  · rw [if_pos harmed] at h
    dsimp only at h
    split_ifs at h with hdone
    obtain rfl := Sum.inl.inj h
    obtain ⟨-, hp, hs, ha, hn, hl⟩ := hybridStep_true hdone
    rw [hone, if_pos harmed]
    unfold advanceMeasure
    rw [hp, hphase, hs, ha, hn]
    dsimp only
    rw [if_neg Bool.false_ne_true]
    omega
  · rw [if_neg harmed] at h
    split at h
    · obtain rfl := Sum.inl.inj h
      rw [hone, endPhaseOne_measure]
      omega
    · rename_i j hj
      obtain ⟨hlt, -⟩ := List.getElem?_eq_some_iff.mp hj
      split_ifs at h with hfull hbudget hswitch hstop
      · obtain rfl := Sum.inl.inj h
        rw [hone, endPhaseOne_measure]
        omega
      · obtain rfl := Sum.inl.inj h
        rw [hone, if_neg harmed, hswitch.2.1]
        unfold advanceMeasure
        dsimp only
        rw [hphase]
        simp only [if_true, Bool.false_eq_true, if_false]
        omega
      · obtain rfl := Sum.inl.inj h
        rw [hone]
        unfold advanceMeasure State.search
        dsimp only
        rw [hphase]
        dsimp only
        omega

omit [IsStrictOrderedRing K] [FloorSemiring K] in
theorem phaseThreeStep_decreases {workBudget : ℤ} {s s' : State n K} (hphase : s.phase = .three)
    (h : phaseThreeStep workBudget s = .inl s') : advanceMeasure s' < advanceMeasure s := by
  have hthree : advanceMeasure s = n - s.nextCol := by
    unfold advanceMeasure
    rw [hphase]
  unfold phaseThreeStep at h
  dsimp only at h
  split_ifs at h with hlt hfull hfree hbudget hfound
  · obtain rfl := Sum.inl.inj h
    rw [hthree]
    unfold advanceMeasure State.search
    dsimp only
    rw [hphase]
    dsimp only
    omega
  · obtain rfl := Sum.inl.inj h
    rw [hthree]
    unfold advanceMeasure
    dsimp only
    rw [hphase]
    dsimp only
    omega

theorem advanceStep_decreases (workBudget : ℤ) :
    Loop.Decreases (advanceStep (n := n) (K := K) workBudget) advanceMeasure := by
  intro s s' h
  unfold advanceStep at h
  split at h
  · exact phaseOneStep_decreases ‹_› h
  · exact phaseThreeStep_decreases ‹_› h
  · cases h

omit [IsStrictOrderedRing K] [FloorSemiring K] in
/-- Phase 1 lists its free columns when it is first entered. -/
def State.enter (s : State n K) : State n K :=
  if s.phase = .one ∧ s.nextCol = 0 ∧ s.searchOrder = [] then s.listFreeSparse else s

/-- Runs searches until none is left (true) or the work reaches the budget (false). -/
def advance (s : State n K) (workBudget : ℤ) : State n K × Bool :=
  if s.status ≠ .success ∨ s.phase = .four then (s, true)
  else Loop.run (advanceStep workBudget) advanceMeasure (advanceStep_decreases workBudget) s.enter

end Run

/-! ## Results -/

/-- The matching and its scaling, as they are reported. -/
structure MatchingResult (n : ℕ) (K : Type*) where
  status : ErrorCode
  scale : List K
  rowToCol : List (Option (Fin n))
  colToRow : List (Option (Fin n))
  matchedRank : ℕ

section Result

variable {n : ℕ} {K : Type*} [Field K] [LinearOrder K]

/-- The column dual on the matched (tight) edge, the given one for a free column. -/
def tightV (g : CostGraph n K) (colToRow : Fin n → Option (Fin n)) (u v : Fin n → K) (j : Fin n) :
    K :=
  match (g.col j).find? fun e => some e.1 = colToRow j with
  | none => v j
  | some e => e.2 - u e.1

/-- The scale of row and column `i`: the root of exp(u_i) exp(v_i) / col_max[i]. -/
def scaleOf (log exp : K → K) (g : CostGraph n K) (colToRow : Fin n → Option (Fin n))
    (u v : Fin n → K) (i : Fin n) : K :=
  let logScale := 0.5 * (u i + tightV g colToRow u v i - log (g.colMax i))
  exp (max (-340) (min 340 logScale))

/-- The matching given by `colToRow`, scaled from the duals, or unscaled without them. -/
def State.result (log exp : K → K) (s : State n K) (colToRow : Fin n → Option (Fin n))
    (duals : Option ((Fin n → K) × (Fin n → K))) : MatchingResult n K :=
  if s.shapeOk then
    { status := .success
      scale := match duals with
        | none => List.ofFn fun _ : Fin n => 1
        | some (u, v) => List.ofFn (scaleOf log exp s.g colToRow u v)
      rowToCol := List.ofFn fun i => (List.finRange n).foldl
        (fun m j => if colToRow j = some i then some j else m) none
      colToRow := List.ofFn colToRow
      matchedRank := ((List.finRange n).filter fun j => (colToRow j).isSome).length }
  else { status := s.status, scale := [], rowToCol := [], colToRow := [], matchedRank := 0 }

/-- The current matching and the scaling of the current duals; unit scaling once
    failed. -/
def State.current (log exp : K → K) (s : State n K) : MatchingResult n K :=
  if s.status ≠ .success then { s.result log exp s.colToRow none with status := s.status }
  else s.result log exp s.colToRow (some (s.u, s.v))

end Result

end Matching
end SmfSolver
