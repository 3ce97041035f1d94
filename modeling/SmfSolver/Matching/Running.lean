/-
  SmfSolver.Matching.Running

  A whole run without a budget, of either algorithm.  `Running` is the invariant of
  `advance`'s loop: the phases' own invariants, and where the row duals are: between
  the initial ones and the optimal ones below those (`DualsOne`), then between what
  phase 2 makes of the greatest of these and the optimal ones below that.
  `run_ended` is what holds at the end.
-/
import SmfSolver.Matching.CanonicalSpec

namespace SmfSolver
namespace Matching

open Lib Lib.Assignment

variable {n : ℕ} {K : Type*} [Field K] [LinearOrder K] [IsStrictOrderedRing K]

/-- The end of a run: every column is matched, or no matching matches them all. -/
structure Ended (cost : Fin n → Fin n → WithTop K) (s : State n K) : Prop where
  sound : Sound (allPart n) cost s.toMatchArrays
  status : s.status = .success ∧ (∀ j, s.colToRow j ≠ none) ∨
    s.status = .singularMatrix ∧ ¬PartPerfect (allPart n) cost

/-! ## Passes without a budget -/

omit [IsStrictOrderedRing K] in
theorem not_outOfBudget (s : State n K) : ¬s.outOfBudget (-1) := by
  rintro ⟨h, -⟩
  exact absurd h (by decide)

section PhaseThree

variable {cost : Fin n → Fin n → WithTop K} {s : State n K}

omit [IsStrictOrderedRing K] in
theorem Inv.full {part : Fin n → Bool} (h : Inv part cost s) :
    n ≤ s.matched ↔ ∀ j, s.colToRow j ≠ none := by
  rw [h.matched, ← card_le_matchedCount, Fintype.card_fin]

omit [IsStrictOrderedRing K] in
/-- One pass of phase 3 ends with every column matched, passes a matched column,
    matches a free one, or fails to. -/
theorem phaseThreeStep_cases (h : PhaseThree cost s) :
    (∀ j, s.colToRow j ≠ none) ∧
        phaseThreeStep (-1) s = .inr ({ s with phase := .four }, true) ∨
      (∃ j : Fin n, j.1 = s.nextCol ∧ s.colToRow j ≠ none ∧
        phaseThreeStep (-1) s = .inl { s with nextCol := s.nextCol + 1 }) ∨
      (∃ j : Fin n, j.1 = s.nextCol ∧ s.colToRow j = none ∧ (s.search j).2 = true ∧
        phaseThreeStep (-1) s = .inl { (s.search j).1 with nextCol := s.nextCol + 1 }) ∨
      ∃ j : Fin n, s.colToRow j = none ∧ (s.search j).2 = false ∧
        phaseThreeStep (-1) s =
          .inr ({ (s.search j).1 with status := .singularMatrix, phase := .four }, true) := by
  unfold phaseThreeStep
  by_cases hlt : s.nextCol < n
  · rw [dif_pos hlt]
    dsimp only
    by_cases hfull : n ≤ s.matched
    · rw [if_pos hfull]
      exact .inl ⟨h.inv.full.mp hfull, rfl⟩
    · rw [if_neg hfull]
      by_cases hfree : s.colToRow ⟨s.nextCol, hlt⟩ = none
      · rw [if_pos hfree, if_neg (not_outOfBudget s)]
        cases hfound : (s.search ⟨s.nextCol, hlt⟩).2 with
        | true => exact .inr (.inr (.inl ⟨⟨s.nextCol, hlt⟩, rfl, hfree, hfound, if_pos rfl⟩))
        | false =>
          exact .inr (.inr (.inr ⟨⟨s.nextCol, hlt⟩, hfree, hfound, if_neg Bool.false_ne_true⟩))
      · rw [if_neg hfree]
        exact .inr (.inl ⟨⟨s.nextCol, hlt⟩, rfl, hfree, rfl⟩)
  · rw [dif_neg hlt]
    exact .inl ⟨fun j => h.passed j (lt_of_lt_of_le j.isLt (not_lt.mp hlt)), rfl⟩

/-- Phase 3 ends as it should. -/
theorem phaseThreeStep_ended (h : PhaseThree cost s) (hstatus : s.status = .success)
    {r : State n K × Bool} (hs : phaseThreeStep (-1) s = .inr r) : r.2 = true ∧ Ended cost r.1 := by
  rcases phaseThreeStep_cases h with ⟨hall, heq⟩ | ⟨j, -, -, heq⟩ | ⟨j, -, -, -, heq⟩ |
    ⟨j, hfree, hnot, heq⟩
  · obtain rfl := Sum.inr.inj (heq.symm.trans hs)
    exact ⟨rfl, h.inv.sound, .inl ⟨hstatus, hall⟩⟩
  · cases heq.symm.trans hs
  · cases heq.symm.trans hs
  · obtain rfl := Sum.inr.inj (heq.symm.trans hs)
    obtain ⟨hinv, ⟨hfound, -⟩ | ⟨-, hfailed⟩⟩ := search_inv h.inv hfree rfl
    · rw [hnot] at hfound
      cases hfound
    · exact ⟨rfl, hinv.sound, .inr ⟨rfl, hfailed.none⟩⟩

end PhaseThree

/-! ## Phase 2 -/

section PhaseTwo

variable {cost : Fin n → Fin n → WithTop K} {s : State n K}

/-- The row duals phase 2 makes of the greatest optimal duals of the sparse part below
    `cap`: those of a state whose sparse part is matched. -/
structure PhaseTwoOf (cost : Fin n → Fin n → WithTop K) (g : CostGraph n K) (cap : Fin n → K)
    (s₁ : State n K) (u₂ : Fin n → K) : Prop where
  graph : s₁.g = g
  rowDense : s₁.rowDense = isDense g
  anyDense : s₁.anyDense = (List.finRange n).any s₁.rowDense
  sound : Sound (sparsePart (isDense g)) cost s₁.toMatchArrays
  full : ∀ j, sparsePart (isDense g) j = true → s₁.colToRow j ≠ none
  descends : PartDescends (sparsePart (isDense g)) cost cap s₁.u
  result : u₂ = (if s₁.anyDense then s₁.denseDuals else s₁).u

/-- They do not depend on the matching. -/
theorem PhaseTwoOf.unique {g : CostGraph n K} {cap : Fin n → K} {s₁ s₁' : State n K}
    {u₂ u₂' : Fin n → K} (h : PhaseTwoOf cost g cap s₁ u₂) (h' : PhaseTwoOf cost g cap s₁' u₂') :
    u₂ = u₂' := by
  -- the greatest duals below a bound are unique; the columns' and the dense ones follow
  have hu : ∀ i, isDense g i = false → s₁.u i = s₁'.u i := fun i hi =>
    h.descends.unique h'.descends (h.sound.partDual h.full) (h'.sound.partDual h'.full)
      (sparsePart_iff.mpr hi)
  have hv : ∀ j, isDense g j = false → s₁.v j = s₁'.v j := by
    intro j hj
    obtain ⟨m, -, hm⟩ := h.sound.bijOn h.full
    obtain ⟨m', -, hm'⟩ := h'.sound.bijOn h'.full
    have hj' := sparsePart_iff.mpr hj
    refine column_unique h.sound.feasible h'.sound.feasible (fun i hc => ?_)
      ⟨m j, h.sound.tight _ _ (hm j hj')⟩ ⟨m' j, h'.sound.tight _ _ (hm' j hj')⟩
    refine hu i (sparsePart_iff.mp ?_)
    obtain ⟨c, hc⟩ := WithTop.ne_top_iff_exists.mp hc
    exact (partCost_eq.mp hc.symm).1
  have hany : s₁.anyDense = s₁'.anyDense := by
    rw [h.anyDense, h'.anyDense, h.rowDense, h'.rowDense]
  rw [h.result, h'.result, hany]
  funext i
  split_ifs with hd
  · by_cases hi : isDense g i = true
    · unfold State.denseDuals
      dsimp only
      rw [h.rowDense, h'.rowDense, if_pos hi, if_pos hi, h.graph, h'.graph]
      refine congrArg (fun l => (minOf l).untopD 0) (List.flatMap_congr fun j hj => ?_)
      rw [hv j (mem_sparseCols.mp hj)]
    · rw [Bool.not_eq_true] at hi
      rw [denseDuals_u_sparse s₁ (h.rowDense.symm ▸ hi), denseDuals_u_sparse s₁'
        (h'.rowDense.symm ▸ hi)]
      exact hu i hi
  · refine hu i ?_
    rw [h'.anyDense, h'.rowDense, List.any_eq_true] at hd
    rw [← Bool.not_eq_true]
    exact fun hi => hd ⟨i, List.mem_finRange i, hi⟩

/-- Where phase 1's row duals are: above the optimal duals below the initial ones, or
    after the switch, below duals that were. -/
structure DualsOne (cost : Fin n → Fin n → WithTop K) (cap : Fin n → K) (s : State n K) : Prop where
  searching : s.canonDue = false → PartDescends (sparsePart s.rowDense) cost cap s.u
  switched : s.canonDue = true →
    PartDescends (sparsePart s.rowDense) cost cap s.hybridResetU ∧
      ∀ i, s.rowDense i = false → s.u i ≤ s.hybridResetU i

/-- Phase 1's duals once the canonical ones are taken. -/
def State.settled (s : State n K) : State n K := if s.canonDue then s.canonicalDuals else s

theorem settled_inv (h : Inv (sparsePart s.rowDense) cost s) :
    Inv (sparsePart s.rowDense) cost s.settled := by
  unfold State.settled
  split_ifs
  · exact canonicalDuals_inv h
  · exact h

omit [IsStrictOrderedRing K] in
theorem settled_frame (s : State n K) :
    s.settled.g = s.g ∧ s.settled.rowDense = s.rowDense ∧ s.settled.anyDense = s.anyDense ∧
      s.settled.colToRow = s.colToRow := by
  unfold State.settled
  split_ifs
  · exact ⟨rfl, rfl, rfl, rfl⟩
  · exact ⟨rfl, rfl, rfl, rfl⟩

/-- With the sparse part matched, the settled duals are the greatest optimal ones. -/
theorem settled_descends {cap : Fin n → K} (h : Inv (sparsePart s.rowDense) cost s)
    (hd : DualsOne cost cap s) (hfull : ∀ j, s.rowDense j = false → s.colToRow j ≠ none) :
    PartDescends (sparsePart s.rowDense) cost cap s.settled.u := by
  unfold State.settled
  split_ifs with hdue
  · obtain ⟨hcap, hu⟩ := hd.switched hdue
    exact hcap.trans (canonicalDuals_descends h hu hfull)
  · exact hd.searching (Bool.not_eq_true _ ▸ hdue)

/-- The end of phase 1. -/
theorem phaseOne_end (h : PhaseOne cost s) : PhaseThree cost s.endPhaseOne := by
  obtain ⟨-, hdense, hany, -⟩ := settled_frame s
  have hset := settled_inv h.inv
  have hinv : Inv (allPart n) cost (if s.settled.anyDense then s.settled.denseDuals
      else s.settled) := by
    rw [← hdense] at hset
    split_ifs with hd
    · exact denseDuals_inv hset
    · refine hset.of_no_dense fun i => ?_
      rw [hany, h.dense, List.any_eq_true] at hd
      rw [← Bool.not_eq_true, hdense]
      exact fun hi => hd ⟨i, List.mem_finRange i, hi⟩
  exact ⟨⟨hinv.lists, hinv.sound, hinv.dist, hinv.rowDone, hinv.matched⟩,
    fun j hj => absurd hj (Nat.not_lt_zero _)⟩

end PhaseTwo

/-! ## The run -/

section Run

variable {cost : Fin n → Fin n → WithTop K} {g : CostGraph n K} {cap : Fin n → K} {s : State n K}

/-- Where phase 3's row duals are, if the sparse part has a perfect matching. -/
def DualsThree (cost : Fin n → Fin n → WithTop K) (g : CostGraph n K) (cap u : Fin n → K) : Prop :=
  PartPerfect (sparsePart (isDense g)) cost →
    ∃ s₁ u₂, PhaseTwoOf cost g cap s₁ u₂ ∧ PartDescends (allPart n) cost u₂ u

/-- A run that is to end by itself. -/
structure Running (cost : Fin n → Fin n → WithTop K) (g : CostGraph n K) (cap : Fin n → K)
    (s : State n K) : Prop where
  stopFree : s.stopFree < 0
  status : s.status = .success
  shapeOk : s.shapeOk = true
  graph : s.g = g
  rowDense : s.rowDense = isDense g
  /-- Nothing of the switch has happened before it. -/
  fresh : s.switched = false →
    s.hybridArmed = false ∧ s.canonDue = false ∧ s.auction.phase = none
  armed : s.hybridArmed = true → s.canonDue = false ∧ s.auction.phase = none
  phase : s.phase = .one ∧ PhaseOne cost s ∧ DualsOne cost cap s ∨
    s.phase = .three ∧ PhaseThree cost s ∧ DualsThree cost g cap s.u

/-- What a run leaves. -/
structure RunEnd (cost : Fin n → Fin n → WithTop K) (g : CostGraph n K) (cap : Fin n → K)
    (s : State n K) : Prop where
  ended : Ended cost s
  shapeOk : s.shapeOk = true
  graph : s.g = g
  duals : DualsThree cost g cap s.u

omit [IsStrictOrderedRing K] in
/-- What the end of phase 1 leaves alone. -/
theorem endPhaseOne_frame (s : State n K) :
    s.endPhaseOne.stopFree = s.stopFree ∧ s.endPhaseOne.status = s.status ∧
      s.endPhaseOne.shapeOk = s.shapeOk ∧ s.endPhaseOne.g = s.g ∧
      s.endPhaseOne.rowDense = s.rowDense ∧ s.endPhaseOne.switched = s.switched ∧
      s.endPhaseOne.hybridArmed = s.hybridArmed ∧ s.endPhaseOne.auction = s.auction ∧
      (s.canonDue = false → s.endPhaseOne.canonDue = false) := by
  unfold State.endPhaseOne
  dsimp only
  split_ifs
  · exact ⟨rfl, rfl, rfl, rfl, rfl, rfl, rfl, rfl, fun _ => rfl⟩
  · exact ⟨rfl, rfl, rfl, rfl, rfl, rfl, rfl, rfl, fun _ => rfl⟩
  · exact ⟨rfl, rfl, rfl, rfl, rfl, rfl, rfl, rfl, id⟩
  · exact ⟨rfl, rfl, rfl, rfl, rfl, rfl, rfl, rfl, id⟩

/-- Phase 2 leaves its duals. -/
theorem phaseOne_end_duals (h : PhaseOne cost s) (hd : DualsOne cost cap s) (hg : s.g = g)
    (hdense : s.rowDense = isDense g)
    (hlast : s.searchOrder[s.nextCol]? = none ∨ n ≤ s.matched) :
    DualsThree cost g cap s.endPhaseOne.u := by
  intro hperf
  rw [← hdense] at hperf
  -- no sparse column is free
  have hfull : ∀ j, s.rowDense j = false → s.colToRow j ≠ none := by
    intro j hj hc
    rcases hlast with hend | hall
    · have hmem := h.complete hperf j hj hc
      rw [List.getElem?_eq_none_iff] at hend
      rw [List.drop_eq_nil_of_le hend] at hmem
      exact absurd hmem List.not_mem_nil
    · exact h.inv.full.mp hall j hc
  obtain ⟨hsg, hsd, hany, hcol⟩ := settled_frame s
  have hset := settled_inv h.inv
  have hdesc := settled_descends h.inv hd hfull
  refine ⟨s.settled, s.endPhaseOne.u, ⟨hsg.trans hg, hsd.trans hdense, ?_, ?_, ?_, ?_, rfl⟩,
    Descends.refl _ _ _ _⟩
  · rw [hany, hsd, h.dense]
  · rw [← hdense]
    exact hset.sound
  · intro j hj
    rw [hcol]
    rw [sparsePart_iff, ← hdense] at hj
    exact hfull j hj
  · rw [← hdense]
    exact hdesc

variable [FloorSemiring K]

/-- One pass of phase 1: the auction, the end of the phase, the switch or a search. -/
theorem phaseOneStep_cases (hstop : s.stopFree < 0) :
    s.hybridArmed = true ∧ phaseOneStep (-1) s =
        (if (s.hybridStep (-1)).2 then .inl (s.hybridStep (-1)).1
          else .inr ((s.hybridStep (-1)).1, false)) ∨
      (s.searchOrder[s.nextCol]? = none ∨ n ≤ s.matched) ∧
        phaseOneStep (-1) s = .inl s.endPhaseOne ∨
      s.switched = false ∧
        phaseOneStep (-1) s = .inl { s with switched := true, hybridArmed := true } ∨
      ∃ j, s.hybridArmed = false ∧ s.searchOrder[s.nextCol]? = some j ∧
        phaseOneStep (-1) s = .inl { (s.search j).1 with nextCol := s.nextCol + 1 } := by
  unfold phaseOneStep
  by_cases harmed : s.hybridArmed = true
  · rw [if_pos harmed]
    exact .inl ⟨harmed, rfl⟩
  · rw [if_neg harmed]
    right
    cases hj : s.searchOrder[s.nextCol]? with
    | none => exact .inl ⟨.inl rfl, rfl⟩
    | some j =>
      dsimp only
      -- neither the budget nor `stopFree` ends a run to the end
      by_cases hfull : n ≤ s.matched
      · rw [if_pos hfull]
        exact .inl ⟨.inr hfull, rfl⟩
      · have hstop' : ¬(0 ≤ s.stopFree ∧ (n : ℤ) - s.matched ≤ s.stopFree) :=
          fun hc => absurd hc.1 (not_le.mpr hstop)
        rw [if_neg hfull, if_neg (not_outOfBudget s), if_neg hstop']
        by_cases hswitch : s.alg = .hybrid ∧ s.switched = false ∧ s.switchWork < (s.work : K)
        · rw [if_pos hswitch]
          exact .inr (.inl ⟨hswitch.2.1, rfl⟩)
        · rw [if_neg hswitch]
          exact .inr (.inr ⟨j, Bool.not_eq_true _ ▸ harmed, rfl, rfl⟩)

/-- A pass of phase 1 keeps the run going. -/
theorem running_phaseOne {s' : State n K} (h : Running cost g cap s) (hphase : s.phase = .one)
    (hone : PhaseOne cost s) (hduals : DualsOne cost cap s)
    (hs : phaseOneStep (-1) s = .inl s') : Running cost g cap s' := by
  rcases phaseOneStep_cases h.stopFree with ⟨harmed, heq⟩ | ⟨hlast, heq⟩ | ⟨hsw, heq⟩ |
    ⟨j, harmed, hj, heq⟩
  · -- the auction and the repair
    obtain ⟨hdue, hfresh⟩ := h.armed harmed
    obtain ⟨hdone, hsw⟩ := hybridStep_switched hone hfresh
    obtain ⟨hst, hph, hswitched, harm, -, -⟩ := hybridStep_true hdone
    rw [if_pos hdone] at heq
    obtain rfl := Sum.inl.inj (heq.symm.trans hs)
    refine ⟨hsw.stopFree ▸ h.stopFree, hst.trans h.status, hsw.shapeOk.trans h.shapeOk,
      hsw.g.trans h.graph, hsw.rowDense.trans h.rowDense, fun hc => ?_, fun hc => ?_,
      .inl ⟨hph.trans hphase, hsw.phaseOne, fun hc => ?_, fun _ => ⟨?_, ?_⟩⟩⟩
    · rw [(h.fresh (hswitched.symm.trans hc)).1] at harmed
      cases harmed
    · rw [harm] at hc
      cases hc
    · rw [hsw.due] at hc
      cases hc
    · rw [hsw.rowDense, hsw.cap]
      exact hduals.searching hdue
    · rw [hsw.rowDense, hsw.cap]
      exact hsw.u_le
  · obtain rfl := Sum.inl.inj (heq.symm.trans hs)
    -- the end of the phase
    obtain ⟨hstop, hst, hok, hg, hdense, hsw, harm, hauction, hdue⟩ := endPhaseOne_frame s
    refine ⟨hstop ▸ h.stopFree, hst.trans h.status, hok.trans h.shapeOk, hg.trans h.graph,
      hdense.trans h.rowDense, fun hc => ?_, fun hc => ?_,
      .inr ⟨rfl, phaseOne_end hone, phaseOne_end_duals hone hduals h.graph h.rowDense hlast⟩⟩
    · obtain ⟨hf, hd, ha⟩ := h.fresh (hsw.symm.trans hc)
      exact ⟨harm.trans hf, hdue hd, hauction ▸ ha⟩
    · obtain ⟨hd, ha⟩ := h.armed (harm.symm.trans hc)
      exact ⟨hdue hd, hauction ▸ ha⟩
  · -- the switch
    obtain rfl := Sum.inl.inj (heq.symm.trans hs)
    refine ⟨h.stopFree, h.status, h.shapeOk, h.graph, h.rowDense,
      fun hc => absurd hc.symm Bool.false_ne_true, fun _ => (h.fresh hsw).2, .inl ⟨hphase, ?_, ?_⟩⟩
    · exact ⟨⟨hone.inv.lists, hone.inv.sound, hone.inv.dist, hone.inv.rowDone, hone.inv.matched⟩,
        hone.dense, hone.nodup, hone.listed, hone.complete, hone.passed⟩
    · exact ⟨hduals.searching, hduals.switched⟩
  · -- a search
    obtain rfl := Sum.inl.inj (heq.symm.trans hs)
    obtain ⟨hone', hdesc⟩ := phaseOne_search hone hj
    refine ⟨h.stopFree, h.status, h.shapeOk, h.graph, h.rowDense, h.fresh, h.armed,
      .inl ⟨hphase, hone', fun hdue => ?_, fun hdue => ?_⟩⟩
    · exact (hduals.searching hdue).trans hdesc
    · obtain ⟨hcap, hu⟩ := hduals.switched hdue
      exact ⟨hcap, fun i hi => (hdesc.1 i (sparsePart_iff.mpr hi)).trans (hu i hi)⟩

omit [FloorSemiring K] in
/-- A pass of phase 3 keeps the run going. -/
theorem running_phaseThree {s' : State n K} (h : Running cost g cap s) (hphase : s.phase = .three)
    (hthree : PhaseThree cost s) (hduals : DualsThree cost g cap s.u)
    (hs : phaseThreeStep (-1) s = .inl s') : Running cost g cap s' := by
  rcases phaseThreeStep_cases hthree with ⟨-, heq⟩ | ⟨j, hj, hm, heq⟩ | ⟨j, hj, hfree, hf, heq⟩ |
    ⟨j, -, -, heq⟩
  · cases heq.symm.trans hs
  · obtain rfl := Sum.inl.inj (heq.symm.trans hs)
    exact ⟨h.stopFree, h.status, h.shapeOk, h.graph, h.rowDense, h.fresh, h.armed,
      .inr ⟨hphase, phaseThree_skip hthree hj hm, hduals⟩⟩
  · obtain rfl := Sum.inl.inj (heq.symm.trans hs)
    obtain ⟨hthree', hfound⟩ := phaseThree_search hthree hj hfree hf
    refine ⟨h.stopFree, h.status, h.shapeOk, h.graph, h.rowDense, h.fresh, h.armed,
      .inr ⟨hphase, hthree', fun hperf => ?_⟩⟩
    obtain ⟨s₁, u₂, htwo, hdesc⟩ := hduals hperf
    exact ⟨s₁, u₂, htwo, hdesc.trans hfound.descends⟩
  · cases heq.symm.trans hs

theorem running_next {s' : State n K} (h : Running cost g cap s)
    (hs : advanceStep (-1) s = .inl s') : Running cost g cap s' := by
  unfold advanceStep at hs
  rcases h.phase with ⟨hphase, hone, hduals⟩ | ⟨hphase, hthree, hduals⟩
  · rw [hphase] at hs
    exact running_phaseOne h hphase hone hduals hs
  · rw [hphase] at hs
    exact running_phaseThree h hphase hthree hduals hs

theorem running_done {r : State n K × Bool} (h : Running cost g cap s)
    (hs : advanceStep (-1) s = .inr r) : r.2 = true ∧ RunEnd cost g cap r.1 := by
  unfold advanceStep at hs
  rcases h.phase with ⟨hphase, hone, hduals⟩ | ⟨hphase, hthree, hduals⟩
  · rw [hphase] at hs
    rcases phaseOneStep_cases h.stopFree with ⟨harmed, heq⟩ | ⟨-, heq⟩ | ⟨-, heq⟩ | ⟨j, -, -, heq⟩
    · rw [if_pos (hybridStep_switched hone (h.armed harmed).2).1] at heq
      cases heq.symm.trans hs
    · cases heq.symm.trans hs
    · cases heq.symm.trans hs
    · cases heq.symm.trans hs
  · rw [hphase] at hs
    obtain ⟨hr, hended⟩ := phaseThreeStep_ended hthree h.status hs
    have hrest : r.1.shapeOk = true ∧ r.1.g = g ∧ DualsThree cost g cap r.1.u := by
      rcases phaseThreeStep_cases hthree with ⟨-, heq⟩ | ⟨j, -, -, heq⟩ | ⟨j, -, -, -, heq⟩ |
        ⟨j, hfree, hnot, heq⟩
      · obtain rfl := Sum.inr.inj (heq.symm.trans hs)
        exact ⟨h.shapeOk, h.graph, hduals⟩
      · cases heq.symm.trans hs
      · cases heq.symm.trans hs
      · obtain rfl := Sum.inr.inj (heq.symm.trans hs)
        refine ⟨h.shapeOk, h.graph, fun hperf => ?_⟩
        obtain ⟨s₁, u₂, htwo, hdesc⟩ := hduals hperf
        obtain ⟨-, ⟨hfound, -⟩ | ⟨-, hfailed⟩⟩ := search_inv hthree.inv hfree rfl
        · rw [hnot] at hfound
          cases hfound
        · exact ⟨s₁, u₂, htwo, hdesc.trans hfailed.descends⟩
    exact ⟨hr, hended, hrest.1, hrest.2.1, hrest.2.2⟩

omit [FloorSemiring K] in
/-- The state the constructor leaves once the graph is built: the run starts in phase 1. -/
theorem enter_running (hg : g.Lists cost) (order : MatchingSearchOrder) (alg : MatchingAlgorithm)
    (auction : Option (AuctionOptions K)) (nnz : ℤ) :
    Running cost g (initialU g (isDense g))
      (((State.blank order alg auction nnz : State n K).initial g).enter) := by
  have hinv : Inv _ cost ((State.blank order alg auction nnz : State n K).initial g) :=
    initial_inv hg fun _ => rfl
  have henter : ((State.blank order alg auction nnz : State n K).initial g).enter
      = ((State.blank order alg auction nnz : State n K).initial g).listFreeSparse :=
    if_pos ⟨rfl, rfl, rfl⟩
  rw [henter]
  refine ⟨Int.negSucc_lt_zero 0, rfl, rfl, rfl, rfl, fun _ => ⟨rfl, rfl, rfl⟩,
    fun hc => absurd hc Bool.false_ne_true, .inl ⟨rfl, phaseOne_enter hinv rfl rfl, fun _ => ?_,
      fun hc => absurd hc Bool.false_ne_true⟩⟩
  exact Descends.refl _ _ _ _

end Run

/-! ## From the constructor on -/

section Constructor

variable [FloorSemiring K]

/-- Once the graph is built, an `advance` without a budget ends as it should. -/
theorem advance_runEnd {log : K → K} {A : CscLower K} (hA : A.Valid) {g : CostGraph A.dim K}
    (hn : A.dim ≠ 0) (hg : buildCostGraph log (A.lowerColumns hA) = .ok g)
    (order : MatchingSearchOrder) (alg : MatchingAlgorithm) (auction : Option (AuctionOptions K)) :
    (advance (new log A order alg auction) (-1)).2 = true ∧
      RunEnd (matchingCost log (A.lowerColumns hA)) g (initialU g (isDense g))
        (advance (new log A order alg auction) (-1)).1 := by
  have hrun := enter_running (buildCostGraph_ok hg).1 order alg auction A.nnz
  have hnew : new log A order alg auction = (State.blank order alg auction A.nnz).initial g := by
    unfold new
    rw [dif_pos hA, if_neg hn, hg]
  rw [hnew]
  unfold advance
  rw [if_neg]
  · exact Loop.run_induct (h := advanceStep_decreases (-1))
      (Q := fun r : State A.dim K × Bool => r.2 = true ∧
        RunEnd (matchingCost log (A.lowerColumns hA)) g (initialU g (isDense g)) r.1)
      (fun _ _ h hs => running_next h hs) (fun _ _ h hs => running_done h hs) hrun
  · rintro (hc | hc)
    · exact hc rfl
    · exact Phase.noConfusion hc

/-- What a run says of the cost matrix when it is over. -/
structure Solved (cost : Fin n → Fin n → WithTop K) (s : State n K) : Prop where
  success_iff : s.status = .success ↔ ∃ σ : Fin n ≃ Fin n, Perfect cost σ
  singular_iff : s.status = .singularMatrix ↔ ¬∃ σ : Fin n ≃ Fin n, Perfect cost σ
  optimal : s.status = .success → ∃ σ : Fin n ≃ Fin n, Optimal cost σ ∧
    ∀ i j, (s.rowMatch i = some j ↔ i = σ j) ∧ (s.colToRow j = some i ↔ i = σ j)
  feasible : Feasible cost s.u s.v
  tight : ∀ i j, s.rowMatch i = some j → Tight cost s.u s.v i j

omit [FloorSemiring K] in
theorem Ended.solved {cost : Fin n → Fin n → WithTop K} {s : State n K} (h : Ended cost s) :
    Solved cost s := by
  obtain ⟨⟨hinverse, hfeas, htight⟩, hstatus⟩ := h
  rw [partCost_all] at hfeas
  have htight' : ∀ i j, s.rowMatch i = some j → Tight cost s.u s.v i j := by
    intro i j hij
    have ht := htight i j hij
    rwa [partCost_all] at ht
  -- with every column matched, the matching is perfect and tight
  have hmatched : (∀ j, s.colToRow j ≠ none) → ∃ σ : Fin n ≃ Fin n, Optimal cost σ ∧
      ∀ i j, (s.rowMatch i = some j ↔ i = σ j) ∧ (s.colToRow j = some i ↔ i = σ j) := by
    intro hall
    obtain ⟨σ, hσ⟩ := Paired.equiv hinverse rfl hall
    have hcol : ∀ i j, s.colToRow j = some i ↔ i = σ j := by
      intro i j
      rw [hσ j, Option.some_inj]
      exact eq_comm
    refine ⟨σ, optimal_of_tight hfeas fun j => htight' _ _ ((hinverse _ _).mpr (hσ j)), ?_⟩
    exact fun i j => ⟨(hinverse i j).trans (hcol i j), hcol i j⟩
  rw [partPerfect_all] at hstatus
  rcases hstatus with ⟨hs, hall⟩ | ⟨hs, hnone⟩
  · obtain ⟨σ, hopt, hσ⟩ := hmatched hall
    refine ⟨⟨fun _ => ⟨σ, hopt.1⟩, fun _ => hs⟩, ⟨fun hc => ?_, fun hc => absurd ⟨σ, hopt.1⟩ hc⟩,
      fun _ => ⟨σ, hopt, hσ⟩, hfeas, htight'⟩
    rw [hs] at hc
    cases hc
  · refine ⟨⟨fun hc => ?_, fun hc => absurd hc hnone⟩, ⟨fun _ => hnone, fun _ => hs⟩, fun hc => ?_,
      hfeas, htight'⟩
    · rw [hs] at hc
      cases hc
    · rw [hs] at hc
      cases hc

omit [FloorSemiring K] in
/-- A column without an entry cannot be matched. -/
theorem not_perfect_of_error {log : K → K} {L : LowerColumns n K} {e : ErrorCode}
    (h : buildCostGraph log L = .error e) :
    e = .singularMatrix ∧ ¬∃ σ : Fin n ≃ Fin n, Perfect (matchingCost log L) σ := by
  obtain ⟨⟨j, hj⟩, he⟩ := buildCostGraph_error.mp h
  refine ⟨he, ?_⟩
  rintro ⟨σ, hσ⟩
  exact hσ j (if_pos (hj (σ j)))

omit [IsStrictOrderedRing K] [FloorSemiring K] in
/-- Zero duals are feasible. -/
theorem feasible_zero (log : K → K) (L : LowerColumns n K) :
    Feasible (matchingCost log L) (fun _ => 0) (fun _ => 0) := by
  intro i j c hc
  rw [add_zero]
  exact matchingCost_nonneg L hc

/-- Every run to the end solves the assignment problem of its matrix, under either
    algorithm. -/
theorem advance_solved (log : K → K) {A : CscLower K} (hA : A.Valid) (order : MatchingSearchOrder)
    (alg : MatchingAlgorithm) (auction : Option (AuctionOptions K)) :
    (advance (new log A order alg auction) (-1)).2 = true ∧
      Solved (matchingCost log (A.lowerColumns hA))
        (advance (new log A order alg auction) (-1)).1 := by
  -- `new` settles an empty matrix and one with an empty column; the rest is run
  by_cases hn : A.dim = 0
  · have hempty : IsEmpty (Fin A.dim) := hn ▸ Fin.isEmpty
    unfold new
    rw [dif_pos hA, if_pos hn]
    unfold advance
    rw [if_pos (.inr rfl)]
    have hperfect : ∃ σ : Fin A.dim ≃ Fin A.dim, Perfect (matchingCost log (A.lowerColumns hA)) σ :=
      ⟨Equiv.refl _, fun j => isEmptyElim j⟩
    exact ⟨rfl, ⟨fun _ => hperfect, fun _ => rfl⟩,
      ⟨fun hc => ErrorCode.noConfusion hc, fun hc => absurd hperfect hc⟩,
      fun _ => ⟨Equiv.refl _, optimal_of_tight (feasible_zero log _) fun j => isEmptyElim j,
        fun i => isEmptyElim i⟩,
      feasible_zero log _, fun i => isEmptyElim i⟩
  · cases hg : buildCostGraph log (A.lowerColumns hA) with
    | error e =>
      obtain ⟨rfl, hnone⟩ := not_perfect_of_error hg
      unfold new
      rw [dif_pos hA, if_neg hn, hg]
      unfold advance
      rw [if_pos (.inl fun hc => ErrorCode.noConfusion hc)]
      exact ⟨rfl, ⟨fun hc => ErrorCode.noConfusion hc, fun hc => absurd hc hnone⟩,
        ⟨fun _ => hnone, fun _ => rfl⟩, fun hc => ErrorCode.noConfusion hc,
        feasible_zero log _, fun i j hc => (nomatch hc)⟩
    | ok g =>
      obtain ⟨hr, hend⟩ := advance_runEnd hA hn hg order alg auction
      exact ⟨hr, hend.ended.solved⟩

end Constructor

end Matching
end SmfSolver
