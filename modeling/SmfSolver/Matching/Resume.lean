/-
  SmfSolver.Matching.Resume

  Pausing never changes the result: any sequence of `advance` calls with any budgets
  whose last call returns true ends in the very state a single unbudgeted call ends
  in, work count included.

  A pass under a budget is the unbudgeted pass, or it pauses in a state from which
  the unbudgeted pass does what it would have done (`auctionStep_pass`,
  `hybridStep_pass`, `advanceStep_pass`); `Loop.run_resume` lifts that to the loops.
  Two things must survive a re-entry: the snapshot before the auction is taken once
  (`AuctionState.phase` is set before the first pause), and the free columns are not
  listed again (`Listed`: while the auction is armed the list is not empty).
-/
import SmfSolver.Matching.Advance
import Mathlib.Data.Rat.Floor

namespace SmfSolver
namespace Matching

open Lib

variable {n : ℕ} {K : Type*} [Field K] [LinearOrder K]

/-! ## The auction -/

theorem auctionStep_pass (g : CostGraph n K) (dense : Fin n → Bool) (opt : AuctionOptions K)
    (workBudget : ℤ) (s : MatchArrays n K × AuctionState n K) :
    auctionStep g dense opt workBudget s = auctionStep g dense opt (-1) s ∨
      auctionStep g dense opt workBudget s = .inr (.paused, s) := by
  have hneg : ¬((0 : ℤ) ≤ -1 ∧ (-1 : ℤ) ≤ s.1.work) := fun h => absurd h.1 (by decide)
  unfold auctionStep
  split
  · exact .inl rfl
  · rw [if_neg hneg]
    split_ifs
    · exact .inl rfl
    · exact .inr rfl
    · exact .inl rfl

/-- A started auction stays started. -/
theorem nextPhase_started {g : CostGraph n K} {dense : Fin n → Bool} {opt : AuctionOptions K}
    {s : MatchArrays n K × AuctionState n K} (h : s.2.phase ≠ none) :
    (nextPhase g dense opt s).2.phase ≠ none := by
  have hfold : ∀ (l : List (Fin n)) (t : MatchArrays n K × AuctionState n K),
      (l.foldl (unmatchLoose g dense) t).2.phase = t.2.phase := by
    intro l
    induction l with
    | nil => exact fun t => rfl
    | cons j l ih =>
      intro t
      rw [List.foldl_cons, ih]
      unfold unmatchLoose
      split
      · rfl
      · dsimp only
        split_ifs <;> rfl
  unfold nextPhase
  rw [hfold]
  dsimp only
  rw [Ne, Option.map_eq_none_iff]
  exact h

theorem bid_phase (g : CostGraph n K) (dense : Fin n → Bool) (j : Fin n)
    (s : MatchArrays n K × AuctionState n K) : (bid g dense j s).2.phase = s.2.phase := by
  have hcompact : ∀ st : AuctionState n K, (compactQueue st).phase = st.phase := by
    intro st
    unfold compactQueue
    split_ifs <;> rfl
  unfold bid
  dsimp only
  split
  · rfl
  · unfold placeBid
    dsimp only
    split <;> rw [hcompact]

theorem auctionStep_started {g : CostGraph n K} {dense : Fin n → Bool} {opt : AuctionOptions K}
    {workBudget : ℤ} {s s' : MatchArrays n K × AuctionState n K} (h : s.2.phase ≠ none)
    (hstep : auctionStep g dense opt workBudget s = .inl s') : s'.2.phase ≠ none := by
  unfold auctionStep at hstep
  split at hstep
  · split_ifs at hstep
    obtain rfl := Sum.inl.inj hstep
    exact nextPhase_started h
  · split_ifs at hstep
    obtain rfl := Sum.inl.inj hstep
    rw [bid_phase]
    exact h

variable [IsStrictOrderedRing K] [FloorSemiring K]

/-- An auction under a budget is the unbudgeted one, or it pauses in a started state
    from which the unbudgeted one ends the same. -/
theorem auctionAdvance_pass (g : CostGraph n K) (dense : Fin n → Bool)
    (firstQueue firstQueue' : List (Fin n)) (opt : ValidOptions K) (workBudget : ℤ)
    (s : MatchArrays n K × AuctionState n K) :
    auctionAdvance g dense firstQueue opt workBudget s
        = auctionAdvance g dense firstQueue opt (-1) s ∨
      ∃ s', auctionAdvance g dense firstQueue opt workBudget s = (.paused, s') ∧
        auctionAdvance g dense firstQueue' opt (-1) s'
          = auctionAdvance g dense firstQueue opt (-1) s ∧ s'.2.phase ≠ none := by
  unfold auctionAdvance
  have hstarted : (if s.2.phase = none then auctionStart g dense firstQueue opt.toAuctionOptions s
      else s).2.phase ≠ none := by
    split_ifs with h
    · exact Option.some_ne_none 0
    · exact h
  rcases Loop.run_resume (h := auctionStep_decreases g dense opt (-1))
      (auctionStep_decreases g dense opt workBudget) (fun t => (AuctionStatus.paused, t))
      (P := fun t => t.2.phase ≠ none) (Q := fun t => t.2.phase ≠ none)
      (fun t t' ht hstep => auctionStep_started ht hstep)
      (fun t ht => (auctionStep_pass g dense opt.toAuctionOptions workBudget t).imp_right
        fun hpause => ⟨t, hpause, rfl, ht⟩) hstarted with hrun | ⟨s', hpause, hsame, hs'⟩
  · exact .inl hrun
  · refine .inr ⟨s', hpause, ?_, hs'⟩
    rw [if_neg hs']
    exact hsame

/-- Without a budget the auction never pauses. -/
theorem auctionAdvance_unpaused (g : CostGraph n K) (dense : Fin n → Bool)
    (firstQueue : List (Fin n)) (opt : ValidOptions K) (s : MatchArrays n K × AuctionState n K) :
    (auctionAdvance g dense firstQueue opt (-1) s).1 ≠ .paused := by
  refine Loop.run_induct (P := fun _ => True)
    (Q := fun r : AuctionStatus × MatchArrays n K × AuctionState n K => r.1 ≠ .paused)
    (fun _ _ _ _ => trivial) ?_ trivial
  intro t r _ hstep
  unfold auctionStep at hstep
  split at hstep
  · split_ifs at hstep
    · obtain rfl := Sum.inr.inj hstep
      exact AuctionStatus.noConfusion
    · obtain rfl := Sum.inr.inj hstep
      exact AuctionStatus.noConfusion
  · split_ifs at hstep with hcap hneg
    · obtain rfl := Sum.inr.inj hstep
      exact AuctionStatus.noConfusion
    · exact absurd hneg.1 (by decide)

/-! ## The switch -/

omit [IsStrictOrderedRing K] [FloorSemiring K] in
theorem hybridSnapshot_started {s : State n K} (h : s.auction.phase ≠ none) :
    s.hybridSnapshot = s := if_neg h

/-- The same for the switch: a pause inside the auction, and the rest of the step
    whole at the resumption. -/
theorem hybridStep_pass (s : State n K) (workBudget : ℤ) :
    s.hybridStep workBudget = s.hybridStep (-1) ∨
      ∃ s', s.hybridStep workBudget = (s', false) ∧ s'.hybridStep (-1) = s.hybridStep (-1) ∧
        s'.status = s.status ∧ s'.phase = s.phase ∧ s'.hybridArmed = s.hybridArmed ∧
        s'.searchOrder = s.searchOrder := by
  obtain ⟨q, f, u, hsnap⟩ := hybridSnapshot_frame s
  rcases auctionAdvance_pass s.g s.rowDense q q s.auctionOpt workBudget
      (s.toMatchArrays, s.auction) with hrun | ⟨s', hpause, hsame, hstarted⟩
  · left
    unfold State.hybridStep
    rw [hsnap]
    dsimp only
    rw [hrun]
  · right
    refine ⟨{ s.hybridSnapshot with toMatchArrays := s'.1, auction := s'.2 }, ?_, ?_, ?_⟩
    · unfold State.hybridStep
      rw [hsnap]
      dsimp only
      rw [hpause]
    · unfold State.hybridStep
      rw [hybridSnapshot_started hstarted, hsnap]
      dsimp only
      rw [hsame]
    · rw [hsnap]
      exact ⟨rfl, rfl, rfl, rfl⟩

theorem hybridStep_unpaused (s : State n K) : (s.hybridStep (-1)).2 = true := by
  unfold State.hybridStep
  dsimp only
  split
  · rename_i h
    exact absurd h (auctionAdvance_unpaused _ _ _ _ _)
  · split_ifs <;> rfl

/-! ## The run -/

/-- While the auction is armed, phase 1's list of columns is not empty: entering the
    run again lists nothing. -/
def Listed (s : State n K) : Prop :=
  s.status = .success ∧ s.phase ≠ .four ∧
    (s.phase = .one → s.hybridArmed = true → s.searchOrder ≠ [])

/-- A paused state is entered as it is. -/
def Paused (s : State n K) : Prop := Listed s ∧ s.enter = s

omit [IsStrictOrderedRing K] [FloorSemiring K] in
theorem enter_of_nonempty {s : State n K} (h : s.searchOrder ≠ []) : s.enter = s :=
  if_neg fun hc => h hc.2.2

theorem advanceStep_one {s : State n K} (workBudget : ℤ) (h : s.phase = .one) :
    advanceStep workBudget s = phaseOneStep workBudget s := by
  unfold advanceStep
  split
  · rfl
  · rename_i h'
    rw [h] at h'
    cases h'
  · rename_i h'
    rw [h] at h'
    cases h'

theorem advanceStep_three {s : State n K} (workBudget : ℤ) (h : s.phase = .three) :
    advanceStep workBudget s = phaseThreeStep workBudget s := by
  unfold advanceStep
  split
  · rename_i h'
    rw [h] at h'
    cases h'
  · rfl
  · rename_i h'
    rw [h] at h'
    cases h'

theorem phaseOneStep_pass {s : State n K} (workBudget : ℤ) (hphase : s.phase = .one)
    (hs : Listed s) :
    phaseOneStep workBudget s = phaseOneStep (-1) s ∨
      ∃ s', phaseOneStep workBudget s = .inr (s', false) ∧
        phaseOneStep (-1) s' = phaseOneStep (-1) s ∧ s'.phase = .one ∧ Paused s' := by
  unfold phaseOneStep
  -- a pause is in the auction or before a search, and the next call takes it up there
  by_cases harmed : s.hybridArmed = true
  · rw [if_pos harmed]
    rcases hybridStep_pass s workBudget with hrun | ⟨s', hpause, hsame, hst, hp, ha, ho⟩
    · left
      rw [if_pos harmed, hrun]
    · right
      have hne : s'.searchOrder ≠ [] := ho ▸ hs.2.2 hphase harmed
      refine ⟨s', ?_, ?_, hp.trans hphase,
        ⟨⟨hst.trans hs.1, hp ▸ hs.2.1, fun _ _ => hne⟩, enter_of_nonempty hne⟩⟩
      · rw [hpause]
        rfl
      · dsimp only
        rw [ha, if_pos harmed, if_pos harmed, hsame]
  · rw [if_neg harmed, if_neg harmed]
    cases hj : s.searchOrder[s.nextCol]? with
    | none => exact .inl rfl
    | some j =>
      dsimp only
      have hneg : ¬s.outOfBudget (-1) := fun h => absurd h.1 (by decide)
      have hne : s.searchOrder ≠ [] := by
        intro hnil
        rw [hnil] at hj
        cases hj
      by_cases hfull : n ≤ s.matched
      · left
        rw [if_pos hfull, if_pos hfull]
      · rw [if_neg hfull, if_neg hfull, if_neg hneg]
        by_cases hbudget : s.outOfBudget workBudget
        · right
          refine ⟨s, if_pos hbudget, ?_, hphase, hs, enter_of_nonempty hne⟩
          rw [if_neg harmed, hj]
          dsimp only
          rw [if_neg hfull, if_neg hneg]
        · left
          rw [if_neg hbudget]

omit [IsStrictOrderedRing K] [FloorSemiring K] in
theorem phaseThreeStep_pass (s : State n K) (workBudget : ℤ) :
    phaseThreeStep workBudget s = phaseThreeStep (-1) s ∨
      phaseThreeStep workBudget s = .inr (s, false) := by
  have hneg : ¬s.outOfBudget (-1) := fun h => absurd h.1 (by decide)
  unfold phaseThreeStep
  by_cases hlt : s.nextCol < n
  · rw [dif_pos hlt, dif_pos hlt]
    dsimp only
    rw [if_neg hneg]
    by_cases hfull : n ≤ s.matched
    · left
      rw [if_pos hfull, if_pos hfull]
    · rw [if_neg hfull, if_neg hfull]
      by_cases hfree : s.colToRow ⟨s.nextCol, hlt⟩ = none
      · rw [if_pos hfree, if_pos hfree]
        by_cases hbudget : s.outOfBudget workBudget
        · exact .inr (if_pos hbudget)
        · exact .inl (if_neg hbudget)
      · left
        rw [if_neg hfree, if_neg hfree]
  · left
    rw [dif_neg hlt, dif_neg hlt]

theorem advanceStep_pass {s : State n K} (workBudget : ℤ) (hs : Listed s) :
    advanceStep workBudget s = advanceStep (-1) s ∨
      ∃ s', advanceStep workBudget s = .inr (s', false) ∧
        advanceStep (-1) s' = advanceStep (-1) s ∧ Paused s' := by
  cases hphase : s.phase with
  | one =>
    rw [advanceStep_one _ hphase, advanceStep_one _ hphase]
    refine (phaseOneStep_pass workBudget hphase hs).imp_right ?_
    rintro ⟨s', hpause, hsame, hone, hs'⟩
    exact ⟨s', hpause, (advanceStep_one _ hone).trans hsame, hs'⟩
  | three =>
    rw [advanceStep_three _ hphase, advanceStep_three _ hphase]
    refine (phaseThreeStep_pass s workBudget).imp_right fun hpause => ⟨s, hpause, ?_, hs, ?_⟩
    · exact advanceStep_three _ hphase
    · refine if_neg fun hc => ?_
      rw [hphase] at hc
      cases hc.1
  | four => exact absurd hphase hs.2.1

/-- The unbudgeted run goes through states the invariant holds of. -/
theorem advanceStep_listed {s s' : State n K} (hs : Listed s)
    (h : advanceStep (-1) s = .inl s') : Listed s' := by
  unfold advanceStep at h
  split at h
  · rename_i hphase
    unfold phaseOneStep at h
    by_cases harmed : s.hybridArmed = true
    · rw [if_pos harmed] at h
      dsimp only at h
      split_ifs at h with hdone
      obtain rfl := Sum.inl.inj h
      obtain ⟨hst, hp, -, ha, -⟩ := hybridStep_true hdone
      refine ⟨hst.trans hs.1, hp ▸ hs.2.1, fun _ hc => ?_⟩
      rw [ha] at hc
      cases hc
    · rw [if_neg harmed] at h
      -- the invariant asks for a search order in phase 1 only, which ends here
      have hend : Listed s.endPhaseOne := by
        refine ⟨?_, Phase.noConfusion, Phase.noConfusion⟩
        unfold State.endPhaseOne
        dsimp only
        split_ifs <;> exact hs.1
      split at h
      · obtain rfl := Sum.inl.inj h
        exact hend
      · rename_i j hj
        have hne : s.searchOrder ≠ [] := by
          intro hnil
          rw [hnil] at hj
          cases hj
        split_ifs at h
        · obtain rfl := Sum.inl.inj h
          exact hend
        · obtain rfl := Sum.inl.inj h
          exact ⟨hs.1, hs.2.1, fun _ _ => hne⟩
        · obtain rfl := Sum.inl.inj h
          exact ⟨hs.1, hs.2.1, fun _ _ => hne⟩
  · rename_i hphase
    unfold phaseThreeStep at h
    dsimp only at h
    split_ifs at h
    · obtain rfl := Sum.inl.inj h
      exact ⟨hs.1, hs.2.1, hs.2.2⟩
    · obtain rfl := Sum.inl.inj h
      exact ⟨hs.1, hs.2.1, hs.2.2⟩
  · cases h

/-- A pass that ends the run for good leaves it in a state `advance` returns at once. -/
theorem advanceStep_ended {s : State n K} {workBudget : ℤ} {r : State n K × Bool}
    (h : advanceStep workBudget s = .inr r) (hr : r.2 = true) : r.1.phase = .four := by
  unfold advanceStep at h
  split at h
  · unfold phaseOneStep at h
    by_cases harmed : s.hybridArmed = true
    · rw [if_pos harmed] at h
      dsimp only at h
      split_ifs at h
      obtain rfl := Sum.inr.inj h
      cases hr
    · rw [if_neg harmed] at h
      split at h
      · cases h
      · split_ifs at h
        · obtain rfl := Sum.inr.inj h
          cases hr
        · obtain rfl := Sum.inr.inj h
          rfl
        · obtain rfl := Sum.inr.inj h
          rfl
  · unfold phaseThreeStep at h
    dsimp only at h
    split_ifs at h
    · obtain rfl := Sum.inr.inj h
      rfl
    · obtain rfl := Sum.inr.inj h
      cases hr
    · obtain rfl := Sum.inr.inj h
      rfl
    · obtain rfl := Sum.inr.inj h
      rfl
  · obtain rfl := Sum.inr.inj h
    assumption

/-- Without a budget no pass pauses. -/
theorem advanceStep_unpaused {s : State n K} {r : State n K × Bool}
    (h : advanceStep (-1) s = .inr r) : r.2 = true := by
  -- a negative budget is none
  have hneg : ∀ t : State n K, ¬t.outOfBudget (-1) := fun t h => absurd h.1 (by decide)
  unfold advanceStep at h
  split at h
  · unfold phaseOneStep at h
    by_cases harmed : s.hybridArmed = true
    · rw [if_pos harmed] at h
      dsimp only at h
      rw [if_pos (hybridStep_unpaused s)] at h
      cases h
    · rw [if_neg harmed] at h
      split at h
      · cases h
      · rw [if_neg (hneg s)] at h
        split_ifs at h
        · obtain rfl := Sum.inr.inj h
          rfl
        · obtain rfl := Sum.inr.inj h
          rfl
  · unfold phaseThreeStep at h
    dsimp only at h
    split_ifs at h with _ _ _ hbudget
    · obtain rfl := Sum.inr.inj h
      rfl
    · exact absurd hbudget (hneg s)
    · obtain rfl := Sum.inr.inj h
      rfl
    · obtain rfl := Sum.inr.inj h
      rfl
  · obtain rfl := Sum.inr.inj h
    rfl

/-- The states `advance` is called in: a finished one, or one that can be entered. -/
def Callable (s : State n K) : Prop :=
  (s.status ≠ .success ∨ s.phase = .four) ∨ Listed s.enter

/-- `advance` without a budget runs to the end. -/
theorem advance_unbudgeted (s : State n K) : (advance s (-1)).2 = true := by
  unfold advance
  split_ifs
  · rfl
  · exact Loop.run_induct (P := fun _ => True)
      (Q := fun r : State n K × Bool => r.2 = true)
      (fun _ _ _ _ => trivial) (fun _ _ _ h => advanceStep_unpaused h) trivial

/-- A finished state is returned as it is, by any later call. -/
theorem advance_finished {s t : State n K} {workBudget : ℤ}
    (h : advance s workBudget = (t, true)) (workBudget' : ℤ) :
    advance t workBudget' = (t, true) := by
  have hend : t.status ≠ .success ∨ t.phase = .four := by
    unfold advance at h
    split_ifs at h with hend
    · obtain rfl := (Prod.mk.inj h).1
      exact hend
    · right
      have hrun : ∀ r, r = Loop.run (advanceStep workBudget) advanceMeasure
          (advanceStep_decreases workBudget) s.enter → r.2 = true → r.1.phase = .four := by
        rintro r rfl
        exact Loop.run_induct (P := fun _ => True)
          (Q := fun r : State n K × Bool => r.2 = true → r.1.phase = .four)
          (fun _ _ _ _ => trivial) (fun _ _ _ hs hr => advanceStep_ended hs hr) trivial
      exact hrun (t, true) h.symm rfl
  exact if_pos hend

/-- One call: it ends where the unbudgeted call ends, or it pauses in a state from
    which the unbudgeted call ends there. -/
theorem advance_pass {s : State n K} (hs : Callable s) (workBudget : ℤ) :
    advance s workBudget = advance s (-1) ∨
      ∃ t, advance s workBudget = (t, false) ∧ advance t (-1) = advance s (-1) ∧ Callable t := by
  rcases hs with hend | hlisted
  · left
    rw [advance, advance, if_pos hend, if_pos hend]
  · by_cases hend : s.status ≠ .success ∨ s.phase = .four
    · left
      rw [advance, advance, if_pos hend, if_pos hend]
    · rcases Loop.run_resume (h := advanceStep_decreases (-1))
          (advanceStep_decreases workBudget) (fun t => (t, false))
          (P := Listed) (Q := Paused) (fun t t' ht hstep => advanceStep_listed ht hstep)
          (fun t ht => advanceStep_pass workBudget ht) hlisted
          with hrun | ⟨t, hpause, hsame, ht⟩
      · left
        rw [advance, advance, if_neg hend, if_neg hend, hrun]
      · right
        refine ⟨t, ?_, ?_, .inr (ht.2.symm ▸ ht.1)⟩
        · rw [advance, if_neg hend, hpause]
        · have hgo : ¬(t.status ≠ .success ∨ t.phase = .four) :=
            fun hc => hc.elim (fun h => h ht.1.1) ht.1.2.1
          rw [advance, advance, if_neg hend, if_neg hgo, ht.2, hsame]

/-- A sequence of calls: the state after the last one, and its result. -/
def calls (s : State n K) (budgets : List ℤ) : State n K × Bool :=
  budgets.foldl (fun r b => advance r.1 b) (s, false)

/-- Any calls from `s` end where the unbudgeted call ends, or are still paused on the
    way there. -/
theorem calls_pass {s : State n K} (hs : Callable s) (budgets : List ℤ) :
    calls s budgets = advance s (-1) ∨
      ∃ t, calls s budgets = (t, false) ∧ advance t (-1) = advance s (-1) ∧ Callable t := by
  induction budgets using List.reverseRecOn with
  | nil => exact .inr ⟨s, rfl, rfl, hs⟩
  | append_singleton budgets b ih =>
    have hlast : calls s (budgets ++ [b]) = advance (calls s budgets).1 b := by
      unfold calls
      rw [List.foldl_append]
      rfl
    rw [hlast]
    rcases ih with hdone | ⟨t, hpause, hsame, ht⟩
    · left
      rw [hdone]
      have htrue : advance s (-1) = ((advance s (-1)).1, true) :=
        Prod.ext rfl (advance_unbudgeted s)
      rw [advance_finished htrue b]
      exact htrue.symm
    · rw [hpause]
      rcases advance_pass ht b with hrun | ⟨t', hpause', hsame', ht'⟩
      · exact .inl (hrun.trans hsame)
      · exact .inr ⟨t', hpause', hsame'.trans hsame, ht'⟩

omit [FloorSemiring K] in
/-- A new matcher can be run. -/
theorem callable_new (log : K → K) (A : CscLower K) (order : MatchingSearchOrder)
    (alg : MatchingAlgorithm) (auction : Option (AuctionOptions K)) :
    Callable (new log A order alg auction) := by
  have harmed : ∀ s : State A.dim K, s.hybridArmed = false → s.enter.hybridArmed = false := by
    intro s h
    unfold State.enter
    split_ifs <;> exact h
  unfold new
  dsimp only
  split_ifs
  · exact .inl (.inr rfl)
  · split
    · rename_i hbuild
      obtain ⟨-, rfl⟩ := buildCostGraph_error.mp hbuild
      exact .inl (.inl ErrorCode.noConfusion)
    · refine .inr ⟨?_, ?_, fun _ hc => ?_⟩
      · unfold State.enter
        split_ifs <;> rfl
      · unfold State.enter
        split_ifs <;> exact Phase.noConfusion
      · rw [harmed _ rfl] at hc
        cases hc
  · exact .inl (.inl ErrorCode.noConfusion)

/-- Every sequence of budgeted calls whose last one returns true ends in the state,
    and so with the status, matching, duals, work and scale, of one unbudgeted call. -/
theorem advance_budgets (log exp : K → K) (A : CscLower K) (order : MatchingSearchOrder)
    (alg : MatchingAlgorithm) (auction : Option (AuctionOptions K)) (budgets : List ℤ)
    (h : (calls (new log A order alg auction) budgets).2 = true) :
    calls (new log A order alg auction) budgets = advance (new log A order alg auction) (-1) ∧
      (calls (new log A order alg auction) budgets).1.current log exp
        = (advance (new log A order alg auction) (-1)).1.current log exp := by
  have hsame : calls (new log A order alg auction) budgets
      = advance (new log A order alg auction) (-1) := by
    rcases calls_pass (callable_new log A order alg auction) budgets with hrun | ⟨t, hpause, -⟩
    · exact hrun
    · rw [hpause] at h
      cases h
  exact ⟨hsame, by rw [hsame]⟩

/-- Two copies of a pattern whose initial phase leaves one column free; every entry
    is 1, where the logarithm is 0. -/
def twoTails : CscLower ℚ where
  n := 8
  colPtr := [0, 1, 3, 4, 4, 5, 7, 8, 8]
  rowIdx := [0, 2, 3, 2, 4, 6, 7, 6]
  values := [1, 1, 1, 1, 1, 1, 1, 1]

/-- Hybrid switching after the first search: the calls pause before and after that
    search and three times inside the auction. -/
theorem advance_budgets_twoTails :
    let s := new (fun _ => 0) twoTails .degree .hybrid (some
      { epsFactor := 10, epsFinal := 1 / 100, bidCap := 50, epsStart := 1 / 10, switchPasses := 0 })
    (calls s [0, 5, 6, 18, 36, -1]).2 = true ∧
      calls s [0, 5, 6, 18, 36, -1] = advance s (-1) := by
  have hdone : (calls (new (fun _ => 0) twoTails .degree .hybrid (some
      { epsFactor := 10, epsFinal := 1 / 100, bidCap := 50, epsStart := 1 / 10,
        switchPasses := 0 }))
      [0, 5, 6, 18, 36, -1]).2 = true := by
    decide +kernel
  exact ⟨hdone, (advance_budgets _ (fun _ => 1) _ _ _ _ _ hdone).1⟩

end Matching
end SmfSolver
