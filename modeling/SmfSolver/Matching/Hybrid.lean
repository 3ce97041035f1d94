/-
  SmfSolver.Matching.Hybrid

  Hybrid ends at the duals of ShortestPath.  A run's row duals are the greatest optimal
  ones below what phase 2 makes of the greatest optimal ones of the sparse part below
  the initial ones (`RunEnd.duals`); nothing of that depends on the matching, the order
  of the searches or the switch (`RunEnd.duals_unique`).  The scale is read off the
  duals (`RunEnd.scale_eq`).
-/
import SmfSolver.Matching.ShortestPath

namespace SmfSolver
namespace Matching

open Lib Lib.Assignment

variable {n : ℕ} {K : Type*} [Field K] [LinearOrder K] [IsStrictOrderedRing K]

section Ends

variable {cost : Fin n → Fin n → WithTop K} {g : CostGraph n K} {cap : Fin n → K}
  {s s' : State n K}

/-- Two runs over a perfectly matchable sparse part that matched every column have the
    same duals. -/
theorem RunEnd.duals_unique (h : RunEnd cost g cap s) (h' : RunEnd cost g cap s')
    (hsparse : PartPerfect (sparsePart (isDense g)) cost) (hfull : ∀ j, s.colToRow j ≠ none)
    (hfull' : ∀ j, s'.colToRow j ≠ none) : s.u = s'.u ∧ s.v = s'.v := by
  obtain ⟨s₁, u₂, htwo, hdesc⟩ := h.duals hsparse
  obtain ⟨s₁', u₂', htwo', hdesc'⟩ := h'.duals hsparse
  obtain rfl := htwo.unique htwo'
  have hs := h.ended.sound
  have hs' := h'.ended.sound
  have hu : s.u = s'.u := funext fun i =>
    hdesc.unique hdesc' (hs.partDual fun j _ => hfull j) (hs'.partDual fun j _ => hfull' j) rfl
  refine ⟨hu, funext fun j => ?_⟩
  obtain ⟨m, -, hm⟩ := hs.bijOn fun j _ => hfull j
  obtain ⟨m', -, hm'⟩ := hs'.bijOn fun j _ => hfull' j
  exact column_unique hs.feasible hs'.feasible (fun i _ => congrFun hu i)
    ⟨m j, hs.tight _ _ (hm j rfl)⟩ ⟨m' j, hs'.tight _ _ (hm' j rfl)⟩

omit [IsStrictOrderedRing K] in
/-- On a tight matching the scale's column dual is the column's dual. -/
theorem tightV_eq (hg : g.Lists cost) {a : MatchArrays n K} (h : Sound (allPart n) cost a)
    (j : Fin n) : tightV g a.colToRow a.u a.v j = a.v j := by
  unfold tightV
  split
  · rfl
  · rename_i e he
    have hmatch := List.find?_some he
    rw [decide_eq_true_eq] at hmatch
    have hcost := (hg.mem_iff e.1 j e.2).mp (List.mem_of_find?_eq_some he)
    obtain ⟨-, -, htight⟩ := h.edge ((h.inverse e.1 j).mpr hmatch.symm)
    rw [hcost, WithTop.coe_inj] at htight
    rw [htight, add_sub_cancel_left]

omit [IsStrictOrderedRing K] in
/-- The scale of a run that succeeded, in terms of its duals. -/
theorem RunEnd.scale_eq (log exp : K → K) (hg : g.Lists cost) (h : RunEnd cost g cap s)
    (hsuccess : s.status = .success) :
    (s.current log exp).scale =
      List.ofFn fun i => exp (max (-340) (min 340 (0.5 * (s.u i + s.v i - log (g.colMax i))))) := by
  unfold State.current State.result
  rw [if_neg (not_not.mpr hsuccess), if_pos h.shapeOk, h.graph]
  refine congrArg List.ofFn (funext fun i => ?_)
  unfold scaleOf
  rw [tightV_eq hg h.ended.sound i]

end Ends

variable [FloorSemiring K]

/-- A matrix of order 0 is done at once, with an empty scale. -/
theorem advance_empty_scale (log exp : K → K) {A : CscLower K} (hA : A.Valid) (hn : A.dim = 0)
    (order : MatchingSearchOrder) (alg : MatchingAlgorithm) (auction : Option (AuctionOptions K)) :
    ((advance (new log A order alg auction) (-1)).1.current log exp).scale = [] := by
  have hdone : (advance (new log A order alg auction) (-1)).1 =
      { (State.blank order alg auction A.nnz : State A.dim K) with phase := .four } := by
    unfold new
    rw [dif_pos hA, if_pos hn]
    unfold advance
    rw [if_pos (.inr rfl)]
  have hok : ({ (State.blank order alg auction A.nnz : State A.dim K) with
      phase := .four } : State A.dim K).shapeOk = true := rfl
  have hsuccess : ({ (State.blank order alg auction A.nnz : State A.dim K) with
      phase := .four } : State A.dim K).status = .success := rfl
  rw [hdone]
  unfold State.current State.result
  rw [if_neg (not_not.mpr hsuccess), if_pos hok]
  refine List.eq_nil_of_length_eq_zero ?_
  rw [List.length_ofFn, hn]

/-- Where the sparse part and the whole graph have perfect matchings, Hybrid ends with
    an optimal perfect matching, and with the row duals and the scale of ShortestPath in
    degree order, whatever its order, its options and its switch.  The canonical duals
    are what makes it so: they are the greatest optimal duals of the sparse part that
    are not above the duals at the switch. -/
theorem hybrid_duals (log exp : K → K) {A : CscLower K} (hA : A.Valid) {g : CostGraph A.dim K}
    (hg : buildCostGraph log (A.lowerColumns hA) = .ok g)
    (hsparse : PartPerfect (sparsePart (isDense g)) (matchingCost log (A.lowerColumns hA)))
    (hfull : ∃ σ : Fin A.dim ≃ Fin A.dim, Perfect (matchingCost log (A.lowerColumns hA)) σ)
    (order : MatchingSearchOrder) (auction auction' : Option (AuctionOptions K)) :
    let cost := matchingCost log (A.lowerColumns hA)
    let h := (advance (new log A order .hybrid auction) (-1)).1
    let p := (advance (new log A .degree .shortestPath auction') (-1)).1
    (h.status = .success ∧ ∃ σ : Fin A.dim ≃ Fin A.dim, Optimal cost σ ∧
        ∀ j, h.colToRow j = some (σ j)) ∧
      h.u = p.u ∧ (h.current log exp).scale = (p.current log exp).scale ∧
      ∀ s : State A.dim K, Inv (sparsePart s.rowDense) cost s →
        (∀ i, s.rowDense i = false → s.u i ≤ s.hybridResetU i) →
        (∀ j, s.rowDense j = false → s.colToRow j ≠ none) →
        PartDual (sparsePart s.rowDense) cost s.canonicalDuals.u ∧
          PartDescends (sparsePart s.rowDense) cost s.hybridResetU s.canonicalDuals.u := by
  intro cost h p
  have hcanon : ∀ s : State A.dim K, Inv (sparsePart s.rowDense) cost s →
      (∀ i, s.rowDense i = false → s.u i ≤ s.hybridResetU i) →
      (∀ j, s.rowDense j = false → s.colToRow j ≠ none) →
      PartDual (sparsePart s.rowDense) cost s.canonicalDuals.u ∧
        PartDescends (sparsePart s.rowDense) cost s.hybridResetU s.canonicalDuals.u := by
    intro s hs hu hall
    refine ⟨?_, canonicalDuals_descends hs hu hall⟩
    exact (canonicalDuals_inv hs).sound.partDual fun j hj => hall j (sparsePart_iff.mp hj)
  have hsolved : Solved cost h := (advance_solved log hA order .hybrid auction).2
  have hsolved' : Solved cost p := (advance_solved log hA .degree .shortestPath auction').2
  have hsuccess := hsolved.success_iff.mpr hfull
  have hsuccess' := hsolved'.success_iff.mpr hfull
  obtain ⟨σ, hopt, hσ⟩ := hsolved.optimal hsuccess
  obtain ⟨σ', -, hσ'⟩ := hsolved'.optimal hsuccess'
  have hcol : ∀ j, h.colToRow j = some (σ j) := fun j => (hσ _ j).2.mpr rfl
  have hcol' : ∀ j, p.colToRow j = some (σ' j) := fun j => (hσ' _ j).2.mpr rfl
  refine ⟨⟨hsuccess, σ, hopt, hcol⟩, ?_⟩
  -- an empty matrix is never run; else both runs end with the same duals, hence one scale
  by_cases hn : A.dim = 0
  · have hempty : IsEmpty (Fin A.dim) := hn ▸ Fin.isEmpty
    refine ⟨funext fun i => isEmptyElim i, ?_, hcanon⟩
    exact (advance_empty_scale log exp hA hn order .hybrid auction).trans
      (advance_empty_scale log exp hA hn .degree .shortestPath auction').symm
  · obtain ⟨-, hend⟩ := advance_runEnd hA hn hg order .hybrid auction
    obtain ⟨-, hend'⟩ := advance_runEnd hA hn hg .degree .shortestPath auction'
    obtain ⟨hu, hv⟩ := hend.duals_unique hend' hsparse
      (fun j => (hcol j).symm ▸ Option.some_ne_none _) fun j => (hcol' j).symm ▸
        Option.some_ne_none _
    have hlists := (buildCostGraph_ok hg).1
    refine ⟨hu, ?_, hcanon⟩
    rw [hend.scale_eq log exp hlists hsuccess, hend'.scale_eq log exp hlists hsuccess', hu, hv]

theorem pathMatrix_valid : pathMatrix.Valid := by decide

/-- The perfect matching of the path matrix. -/
def pathSwap : Fin pathMatrix.dim ≃ Fin pathMatrix.dim :=
  Equiv.swap ⟨1, by decide⟩ ⟨2, by decide⟩

/-- Options that switch before the first search. -/
def eagerSwitch : AuctionOptions ℚ where
  epsFactor := 10
  epsFinal := 1 / 100
  bidCap := 50
  epsStart := 1 / 10
  switchPasses := 0

theorem hybrid_duals_path :
    ∃ g, buildCostGraph (fun _ => 0) (pathMatrix.lowerColumns pathMatrix_valid) = .ok g ∧
      let h := (advance (new (fun _ => 0) pathMatrix .column .hybrid (some eagerSwitch)) (-1)).1
      let p := (advance (new (fun _ => 0) pathMatrix .degree .shortestPath none) (-1)).1
      h.u = p.u ∧
        (h.current (fun _ => 0) fun _ => 1).scale = (p.current (fun _ => 0) fun _ => 1).scale := by
  have hentry : ∀ j, (pathMatrix.lowerColumns pathMatrix_valid).entry (pathSwap j) j ≠ 0 := by
    decide +kernel
  cases hg : buildCostGraph (fun _ => (0 : ℚ)) (pathMatrix.lowerColumns pathMatrix_valid) with
  | error e =>
    obtain ⟨⟨j, hj⟩, -⟩ := buildCostGraph_error.mp hg
    exact absurd (hj _) (hentry j)
  | ok g =>
    have hsparse : ∀ i, sparsePart (isDense g) i = true := by
      intro i
      rw [sparsePart_iff]
      exact decide_eq_false fun hc => absurd hc.1 (by decide)
    have hcost : ∀ j, matchingCost (fun _ => (0 : ℚ)) (pathMatrix.lowerColumns pathMatrix_valid)
        (pathSwap j) j ≠ ⊤ := by
      intro j
      unfold matchingCost
      rw [if_neg (hentry j)]
      exact WithTop.coe_ne_top
    -- with no dense row the swap is a perfect matching of the sparse part and of the graph
    have hbij : Set.BijOn pathSwap {j | sparsePart (isDense g) j = true}
        {i | sparsePart (isDense g) i = true} :=
      ⟨fun j _ => hsparse _, pathSwap.injective.injOn,
        fun i _ => ⟨pathSwap.symm i, hsparse _, pathSwap.apply_symm_apply i⟩⟩
    have h := hybrid_duals (fun _ => 0) (fun _ => 1) pathMatrix_valid hg
      ⟨pathSwap, hbij, fun j _ => hcost j⟩ ⟨pathSwap, hcost⟩ .column (some eagerSwitch) none
    exact ⟨g, rfl, h.2.1, h.2.2.1⟩

end Matching
end SmfSolver
