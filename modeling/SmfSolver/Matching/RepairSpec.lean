/-
  SmfSolver.Matching.RepairSpec

  The repair after an auction.  Its walk gives rows their duals at the switch back
  (`Walked`), its pass over the columns makes v feasible and frees what is not tight
  (`Repairing`), so phase 1 goes on from a `Sound` matching below the duals at the
  switch (`hybridStep_phaseOne`).
-/
import SmfSolver.Matching.AuctionSpec
import SmfSolver.Matching.Resume

namespace SmfSolver
namespace Matching

open Lib Lib.Assignment

variable {n : ℕ} {K : Type*} [Field K] [LinearOrder K] [IsStrictOrderedRing K]

/-! ## The walk -/

section Repair

variable {cost : Fin n → Fin n → WithTop K}

/-- The walk gives back duals at the switch, and remembers the rows it marked. -/
structure Walked (s : State n K) (w : RepairWalk n K) : Prop where
  u : ∀ i, w.u i = s.u i ∨ w.u i = s.hybridResetU i
  seen : ∀ i, w.seen i = true → i ∈ w.reached

omit [IsStrictOrderedRing K] in
theorem repairWalk_spec (s : State n K) (hdone : ∀ i, s.rowDone i = false) :
    Walked s s.repairWalk := by
  unfold State.repairWalk
  refine Loop.run_induct (P := Walked s) (Q := Walked s) (fun w w' h hs => ?_)
    (fun w r h hs => ?_) ?_
  · unfold repairStep at hs
    split at hs
    · cases hs
    · rename_i j stack _
      obtain rfl := Sum.inl.inj hs
      have hstart : Walked s { w with stack := stack, work := w.work + (s.g.col j).length } :=
        ⟨h.u, h.seen⟩
      generalize { w with stack := stack, work := w.work + (s.g.col j).length } = w₀ at hstart
      -- on the entries of the column taken from the stack
      induction s.g.col j generalizing w₀ with
      | nil => exact hstart
      | cons e l ih =>
        refine ih _ ?_
        unfold repairEntry
        split_ifs
        · exact hstart
        · refine ⟨fun i => ?_, fun i hi => ?_⟩
          · by_cases hie : i = e.1
            · subst hie
              exact .inr (Function.update_self ..)
            · exact (hstart.u i).imp (Function.update_of_ne hie ..).trans
                (Function.update_of_ne hie ..).trans
          · have hi' : Function.update w₀.seen e.1 true i = true := hi
            by_cases hie : i = e.1
            · exact hie ▸ List.mem_append_right _ (List.mem_singleton_self _)
            · rw [Function.update_of_ne hie] at hi'
              exact List.mem_append_left _ (hstart.seen i hi')
  · unfold repairStep at hs
    split at hs
    · obtain rfl := Sum.inr.inj hs
      exact h
    · cases hs
  · refine ⟨fun i => .inl rfl, fun i hi => ?_⟩
    have hi' : s.rowDone i = true := hi
    rw [hdone i] at hi'
    cases hi'

/-! ## The columns -/

/-- The repair of every column but those of `l`. -/
structure Repairing (cost : Fin n → Fin n → WithTop K) (l : List (Fin n))
    (s : State n K) : Prop where
  matching : SparseMatching s.g s.rowDense s.rowMatch s.colToRow
  feasible : ∀ i j c, j ∉ l → partCost (sparsePart s.rowDense) cost i j = (c : K) →
    s.u i + s.v j ≤ c
  tight : ∀ i j, j ∉ l → s.rowMatch i = some j →
    Tight (partCost (sparsePart s.rowDense) cost) s.u s.v i j
  matched : s.matched + (l.filter fun j => (s.colToRow j).isSome).length = matchedCount s.colToRow

omit [LinearOrder K] [IsStrictOrderedRing K] in
/-- The matched row's entry gives its value. -/
theorem matchedValue_eq {g : CostGraph n K} (hg : g.Lists cost) {dense : Fin n → Bool}
    (u : Fin n → K) {r j : Fin n} {c : K} (hr : (r, c) ∈ sparseEntries g dense j) :
    matchedValue u r (sparseEntries g dense j) = ((c - u r : K) : WithTop K) := by
  have hfold : ∀ (l : List (Fin n × K)) (m : WithTop K), (∀ e ∈ l, e.1 = r → e.2 = c) →
      (m = ((c - u r : K) : WithTop K) ∨ (r, c) ∈ l) →
      l.foldl (fun m e => if e.1 = r then ((e.2 - u e.1 : K) : WithTop K) else m) m
        = ((c - u r : K) : WithTop K) := by
    intro l
    induction l with
    | nil =>
      rintro m - (hm | hm)
      · exact hm
      · exact absurd hm List.not_mem_nil
    | cons e l ih =>
      intro m hc hm
      refine ih _ (fun e' he' => hc e' (List.mem_cons_of_mem e he')) ?_
      dsimp only
      by_cases her : e.1 = r
      · rw [if_pos her, hc e List.mem_cons_self her, her]
        exact .inl rfl
      · rw [if_neg her]
        refine hm.imp_right fun hm => (List.mem_cons.mp hm).resolve_left ?_
        rintro rfl
        exact her rfl
  refine hfold _ ⊤ (fun e he her => ?_) (.inr hr)
  have hcost := ((mem_sparseEntries hg).mp hr).2
  have hcost' := ((mem_sparseEntries hg).mp (show (e.1, e.2) ∈ _ from he)).2
  rw [her, hcost] at hcost'
  exact (WithTop.coe_inj.mp hcost').symm

omit [Field K] [LinearOrder K] [IsStrictOrderedRing K] in
/-- Freeing a matched column leaves one matched column less. -/
theorem matchedCount_release {col : Fin n → Option (Fin n)} {r j : Fin n} (hj : col j = some r) :
    matchedCount col = matchedCount (Function.update col j none) + 1 := by
  refine matchedCount_succ (j := j) (Function.update_self ..) fun j' => ?_
  by_cases hjj : j' = j
  · subst hjj
    rw [hj]
    exact ⟨fun hc => (nomatch hc), fun hc => absurd rfl hc.2⟩
  · rw [Function.update_of_ne hjj]
    exact ⟨fun hc => ⟨hc, hjj⟩, fun hc => hc.1⟩

theorem repairColumn_repairing {s : State n K} (hg : s.g.Lists cost) {j : Fin n}
    {l : List (Fin n)} (hjl : j ∉ l) (h : Repairing cost (j :: l) s) :
    Repairing cost l (repairColumn s j) := by
  have hmem : ∀ {j'}, j' ∉ l → j' ≠ j → j' ∉ j :: l := by
    intro j' hl hne hc
    exact (List.mem_cons.mp hc).elim hne hl
  unfold repairColumn
  by_cases hd : s.rowDense j = true
  · -- a dense column has no edge
    rw [if_pos hd]
    have hfree : s.colToRow j = none := by
      cases hc : s.colToRow j with
      | none => rfl
      | some i =>
        have := (h.matching.edge i j ((h.matching.paired i j).mpr hc)).1
        rw [hd] at this
        cases this
    refine ⟨h.matching, fun i j' c hl hc => ?_, fun i j' hl hij => ?_, ?_⟩
    · refine h.feasible i j' c (hmem hl ?_) hc
      rintro rfl
      have := sparsePart_iff.mp (partCost_eq.mp hc).2.1
      rw [hd] at this
      cases this
    · refine h.tight i j' (hmem hl ?_) hij
      rintro rfl
      rw [h.matching.paired, hfree] at hij
      cases hij
    · have hm := h.matched
      rw [List.filter_cons, hfree] at hm
      exact hm
  · rw [if_neg hd]
    rw [Bool.not_eq_true] at hd
    dsimp only
    -- the column's potential becomes its least reduced cost
    set vj := (minOf ((sparseEntries s.g s.rowDense j).map fun e => e.2 - s.u e.1)).untopD 0
      with hvj
    have hle : ∀ i c, s.rowDense i = false → cost i j = (c : K) → vj ≤ c - s.u i :=
      fun i c hi hc => minOf_reduced_le hg s.u hi hc
    have hfeas : ∀ i j' c, j' ∉ l → partCost (sparsePart s.rowDense) cost i j' = (c : K) →
        s.u i + Function.update s.v j vj j' ≤ c := by
      intro i j' c hl hc
      by_cases hjj : j' = j
      · subst hjj
        obtain ⟨hi, -, hcost⟩ := partCost_eq.mp hc
        rw [Function.update_self]
        linarith [hle i c (sparsePart_iff.mp hi) hcost]
      · rw [Function.update_of_ne hjj]
        exact h.feasible i j' c (hmem hl hjj) hc
    have htight : ∀ i j', j' ∉ l → j' ≠ j → s.rowMatch i = some j' →
        Tight (partCost (sparsePart s.rowDense) cost) s.u (Function.update s.v j vj) i j' := by
      intro i j' hl hjj hij
      unfold Tight
      rw [Function.update_of_ne hjj]
      exact h.tight i j' (hmem hl hjj) hij
    have hm := h.matched
    split
    -- a free column has no edge to check
    · rename_i hfree
      refine ⟨h.matching, hfeas, fun i j' hl hij => htight i j' hl ?_ hij, ?_⟩
      · rintro rfl
        rw [h.matching.paired, hfree] at hij
        cases hij
      · rw [List.filter_cons, hfree] at hm
        exact hm
    -- a matched one keeps its row only if the edge is at that least value
    · rename_i r hr
      have hrow := (h.matching.paired r j).mpr hr
      obtain ⟨-, c, hc⟩ := h.matching.edge r j hrow
      obtain ⟨hrd, hcost⟩ := (mem_sparseEntries hg).mp hc
      rw [List.filter_cons, hr] at hm
      have hm' : s.matched + ((l.filter fun j => (s.colToRow j).isSome).length + 1)
          = matchedCount s.colToRow := hm
      rw [matchedValue_eq hg s.u hc]
      split_ifs with hloose
      · -- the edge is above the column's least value
        refine ⟨h.matching.release hr, hfeas, fun i j' hl hij => ?_, ?_⟩
        · have hij' : Function.update s.rowMatch r none i = some j' := hij
          by_cases hir : i = r
          · rw [hir, Function.update_self] at hij'
            cases hij'
          · rw [Function.update_of_ne hir] at hij'
            refine htight i j' hl ?_ hij'
            rintro rfl
            exact hir (h.matching.paired.row_injective hij' hrow)
        · have hfilter : (l.filter fun j' => (Function.update s.colToRow j none j').isSome)
              = l.filter fun j' => (s.colToRow j').isSome := by
            refine List.filter_congr fun j' hj' => ?_
            have hne : j' ≠ j := by
              rintro rfl
              exact hjl hj'
            rw [Function.update_of_ne hne]
          have hcount := matchedCount_release hr
          show s.matched + (l.filter fun j' =>
            (Function.update s.colToRow j none j').isSome).length
            = matchedCount (Function.update s.colToRow j none)
          rw [hfilter]
          omega
      · refine ⟨h.matching, hfeas, fun i j' hl hij => ?_, ?_⟩
        · by_cases hjj : j' = j
          · subst hjj
            obtain rfl := h.matching.paired.row_injective hij hrow
            rw [not_lt, WithTop.coe_le_coe] at hloose
            have heq : vj = c - s.u i := le_antisymm (hle i c hrd hcost) hloose
            have hpc : partCost (sparsePart s.rowDense) cost i j' = (c : K) :=
              partCost_eq.mpr ⟨sparsePart_iff.mpr hrd, sparsePart_iff.mpr hd, hcost⟩
            have htj : Tight (partCost (sparsePart s.rowDense) cost) s.u
                (Function.update s.v j' vj) i j' := by
              unfold Tight
              rw [Function.update_self, hpc, heq, add_sub_cancel]
            exact htj
          · exact htight i j' hl hjj hij
        · show s.matched + 1 + (l.filter fun j' => (s.colToRow j').isSome).length
            = matchedCount s.colToRow
          omega

theorem foldl_repairColumn_repairing {s : State n K} (hg : s.g.Lists cost) (l : List (Fin n))
    (hl : l.Nodup) (h : Repairing cost l s) :
    Repairing cost [] (l.foldl repairColumn s) ∧ (l.foldl repairColumn s).u = s.u := by
  induction l generalizing s with
  | nil => exact ⟨h, rfl⟩
  | cons j l ih =>
    obtain ⟨hjl, hl⟩ := List.nodup_cons.mp hl
    have hstep := repairColumn_repairing hg hjl h
    obtain ⟨a, m, hframe⟩ := repairColumn_frame s j
    have hu : (repairColumn s j).u = s.u := by
      unfold repairColumn
      split_ifs
      · rfl
      · dsimp only
        split
        · rfl
        · split_ifs
          · rfl
          · rfl
    obtain ⟨hrest, hrestu⟩ := ih (hframe ▸ hg) hl hstep
    exact ⟨hrest, hrestu.trans hu⟩

omit [Field K] [LinearOrder K] [IsStrictOrderedRing K] in
theorem matchedCount_eq_length (col : Fin n → Option (Fin n)) :
    matchedCount col = ((List.finRange n).filter fun j => (col j).isSome).length := by
  rw [← List.toFinset_card_of_nodup ((List.nodup_finRange n).filter _)]
  refine congrArg Finset.card (Finset.ext fun j => ?_)
  rw [Finset.mem_filter, List.mem_toFinset, List.mem_filter]
  exact ⟨fun hj => ⟨List.mem_finRange j, hj.2⟩, fun hj => ⟨Finset.mem_univ j, hj.2⟩⟩

/-- The state between the walk and the pass over the columns. -/
def State.walked (s : State n K) : State n K :=
  { s with
    u := s.repairWalk.u
    rowDone := resetTouched false s.repairWalk.reached s.repairWalk.seen
    work := s.repairWalk.work
    matched := 0 }

omit [IsStrictOrderedRing K] in
theorem repair_eq (s : State n K) :
    s.repair =
      { ((List.finRange n).foldl repairColumn s.walked).listFreeSparse with
        nextCol := 0
        repaired :=
          ((List.finRange n).foldl repairColumn s.walked).listFreeSparse.searchOrder.length } :=
  rfl

/-- The repair leaves a `Sound` matching below the duals at the switch, and lists its
    free sparse columns. -/
theorem repair_spec {s : State n K} (hg : s.g.Lists cost)
    (hm : SparseMatching s.g s.rowDense s.rowMatch s.colToRow)
    (hu : ∀ i, s.rowDense i = false → s.u i ≤ s.hybridResetU i)
    (hdist : ∀ i, s.dist i = if sparsePart s.rowDense i then ⊤ else ⊥)
    (hdone : ∀ i, s.rowDone i = false) :
    Inv (sparsePart s.rowDense) cost s.repair ∧
      (∀ i, s.rowDense i = false → s.repair.u i ≤ s.hybridResetU i) ∧
      s.repair.searchOrder.Nodup ∧
      ∀ j, j ∈ s.repair.searchOrder ↔ s.rowDense j = false ∧ s.repair.colToRow j = none := by
  have hwalk := repairWalk_spec s hdone
  -- before the columns are gone through, none of them need be feasible or tight
  have hstart : Repairing cost (List.finRange n) s.walked := by
    refine ⟨hm, fun i j c hj => absurd (List.mem_finRange j) hj,
      fun i j hj => absurd (List.mem_finRange j) hj, ?_⟩
    rw [matchedCount_eq_length]
    exact Nat.zero_add _
  obtain ⟨hend, hendu⟩ :=
    foldl_repairColumn_repairing (s := s.walked) hg _ (List.nodup_finRange n) hstart
  obtain ⟨a, m, hframe⟩ := foldl_repairColumn_frame (List.finRange n) s.walked
  obtain ⟨hnodup, hmem⟩ := listFreeSparse_spec ((List.finRange n).foldl repairColumn s.walked)
  rw [repair_eq]
  rw [hframe] at hend hendu hnodup hmem ⊢
  refine ⟨⟨hg, ⟨hend.matching.paired, ?_, ?_⟩, hdist, fun i => ?_, hend.matched⟩, fun i hi => ?_,
    hnodup, hmem⟩
  · exact fun i j c hc => hend.feasible i j c List.not_mem_nil hc
  · exact fun i j hij => hend.tight i j List.not_mem_nil hij
  · show resetTouched false s.repairWalk.reached s.repairWalk.seen i = false
    rw [resetTouched_apply]
    split_ifs with hr
    · rfl
    · rw [← Bool.not_eq_true]
      exact fun hs => hr (hwalk.seen i hs)
  · have hui : a.u i = s.repairWalk.u i := congrFun hendu i
    show a.u i ≤ s.hybridResetU i
    rw [hui]
    rcases hwalk.u i with h | h
    · rw [h]
      exact hu i hi
    · exact h.le

end Repair

/-! ## The switch -/

section Switch

variable {cost : Fin n → Fin n → WithTop K} [FloorSemiring K]

omit [IsStrictOrderedRing K] [FloorSemiring K] in
theorem Sound.sparseMatching {g : CostGraph n K} (hg : g.Lists cost) {dense : Fin n → Bool}
    {a : MatchArrays n K} (h : Sound (sparsePart dense) cost a) :
    SparseMatching g dense a.rowMatch a.colToRow := by
  refine ⟨h.inverse, fun i j hij => ?_⟩
  obtain ⟨hi, hj, hc⟩ := h.edge hij
  exact ⟨sparsePart_iff.mp hj, _, (mem_sparseEntries hg).mpr ⟨sparsePart_iff.mp hi, hc⟩⟩

omit [IsStrictOrderedRing K] [FloorSemiring K] [Field K] [LinearOrder K] in
theorem foldl_mark (l : List (Fin n)) (d : Fin n → Bool) (i : Fin n) :
    l.foldl (fun d j => Function.update d j true) d i = true ↔ i ∈ l ∨ d i = true := by
  induction l generalizing d with
  | nil => exact ⟨.inr, fun h => h.resolve_left List.not_mem_nil⟩
  | cons j l ih =>
    rw [List.foldl_cons, ih, List.mem_cons]
    by_cases hij : i = j
    · subst hij
      rw [Function.update_self]
      exact ⟨fun _ => .inl (.inl rfl), fun _ => .inr rfl⟩
    · rw [Function.update_of_ne hij]
      constructor
      · exact fun h => h.imp_left .inr
      · exact fun h => h.imp_left fun h => h.resolve_left hij

omit [IsStrictOrderedRing K] [FloorSemiring K] in
/-- The state between the auction and the repair. -/
def State.afterAuction (s : State n K) (a : MatchArrays n K) (st : AuctionState n K) : State n K :=
  { s with
    toMatchArrays := a
    auction := st
    hybridQueue := s.searchOrder.drop s.nextCol
    hybridFailed := (s.searchOrder.take s.nextCol).filter fun j => (s.colToRow j).isNone
    hybridResetU := s.u }

/-- What the switch leaves. -/
structure Switched (cost : Fin n → Fin n → WithTop K) (s t : State n K) : Prop where
  phaseOne : PhaseOne cost t
  g : t.g = s.g
  rowDense : t.rowDense = s.rowDense
  stopFree : t.stopFree = s.stopFree
  shapeOk : t.shapeOk = s.shapeOk
  due : t.canonDue = true
  cap : t.hybridResetU = s.u
  u_le : ∀ i, s.rowDense i = false → t.u i ≤ s.u i

/-- The auction and the repair take phase 1 to a matching and duals from which it can
    go on. -/
theorem hybridStep_switched {s : State n K} (h : PhaseOne cost s)
    (hphase : s.auction.phase = none) :
    (s.hybridStep (-1)).2 = true ∧ Switched cost s (s.hybridStep (-1)).1 := by
  have hsnap : s.hybridSnapshot =
      { s with
        hybridQueue := s.searchOrder.drop s.nextCol
        hybridFailed := (s.searchOrder.take s.nextCol).filter fun j => (s.colToRow j).isNone
        hybridResetU := s.u } := if_pos hphase
  unfold State.hybridStep
  rw [hsnap]
  dsimp only
  -- the auction lowers potentials only and keeps a matching
  have hbid := auctionAdvance_bidding s.g s.rowDense s.u s.auctionOpt (-1)
    (s := (s.toMatchArrays, s.auction)) hphase (h.inv.sound.sparseMatching h.inv.lists)
    h.nodup h.listed fun i _ => le_rfl
  have hnot := auctionAdvance_unpaused s.g s.rowDense (s.searchOrder.drop s.nextCol) s.auctionOpt
    (s.toMatchArrays, s.auction)
  generalize auctionAdvance s.g s.rowDense (s.searchOrder.drop s.nextCol) s.auctionOpt (-1)
    (s.toMatchArrays, s.auction) = r at hbid hnot
  split
  · rename_i hp
    exact absurd hp hnot
  · generalize hs₂ : ({ s with
        toMatchArrays := r.2.1
        auction := r.2.2
        hybridQueue := s.searchOrder.drop s.nextCol
        hybridFailed := (s.searchOrder.take s.nextCol).filter fun j => (s.colToRow j).isNone
        hybridResetU := s.u } : State n K) = s₂
    -- the repair gives back what the searches start from
    have hrep : Inv (sparsePart s.rowDense) cost s₂.repair ∧
        (∀ i, s.rowDense i = false → s₂.repair.u i ≤ s.u i) ∧ s₂.repair.searchOrder.Nodup ∧
        ∀ j, j ∈ s₂.repair.searchOrder ↔ s.rowDense j = false ∧ s₂.repair.colToRow j = none := by
      subst hs₂
      exact repair_spec (s := s.afterAuction r.2.1 r.2.2) h.inv.lists hbid.matching hbid.u_le
        h.inv.dist h.inv.rowDone
    obtain ⟨hinv, hu, hnodup, hmem⟩ := hrep
    obtain ⟨a, m, d, order, rep, hframe⟩ := repair_frame s₂
    rw [hframe] at hinv hu hnodup hmem ⊢
    subst hs₂
    -- with failed columns the searches go on over the others
    split_ifs with hempty
    · refine ⟨rfl, phaseOne_of_list ?_ h.dense rfl hnodup (fun j hj => (hmem j).mp hj)
        (fun _ j hd hc => (hmem j).mpr ⟨hd, hc⟩), rfl, rfl, rfl, rfl, rfl, rfl, hu⟩
      exact ⟨hinv.lists, hinv.sound, hinv.dist, hinv.rowDone, hinv.matched⟩
    · refine ⟨rfl, phaseOne_of_list ?_ h.dense rfl (hnodup.filter _)
        (fun j hj => (hmem j).mp (List.mem_of_mem_filter hj)) (fun hperf => ?_), rfl, rfl, rfl, rfl,
        rfl, rfl, hu⟩
      · refine ⟨hinv.lists, hinv.sound, hinv.dist, fun i => ?_, hinv.matched⟩
        dsimp only
        rw [resetTouched_apply]
        split_ifs with hi
        · rfl
        · rw [← Bool.not_eq_true, foldl_mark]
          rintro (hc | hc)
          · exact hi hc
          · have := hinv.rowDone i
            dsimp only at this
            rw [this] at hc
            cases hc
      · -- no search has failed
        refine absurd ?_ hempty
        rw [List.isEmpty_iff]
        show (s.searchOrder.take s.nextCol).filter (fun j => (s.colToRow j).isNone) = []
        rw [List.filter_eq_nil_iff]
        intro j hj hc
        exact h.passed hperf j hj (Option.isNone_iff_eq_none.mp hc)

end Switch

end Matching
end SmfSolver
