/-
  SmfSolver.Matching.AuctionSpec

  What the auction keeps, `Bidding`: a matching on sparse entries, row duals that only
  fall, and a queue of distinct free sparse columns.  Its duals need not be feasible;
  the repair makes them so.
-/
import SmfSolver.Matching.Phases

namespace SmfSolver
namespace Matching

open Lib Lib.Assignment

variable {n : ℕ} {K : Type*} [Field K] [LinearOrder K] [IsStrictOrderedRing K]

/-- A matching on the entries of the sparse part. -/
structure SparseMatching (g : CostGraph n K) (dense : Fin n → Bool)
    (row col : Fin n → Option (Fin n)) : Prop where
  paired : Paired row col
  edge : ∀ i j, row i = some j → dense j = false ∧ ∃ c, (i, c) ∈ sparseEntries g dense j

/-- The invariant of the auction, under the row duals `cap` it started from. -/
structure Bidding (g : CostGraph n K) (dense : Fin n → Bool) (cap : Fin n → K)
    (s : MatchArrays n K × AuctionState n K) : Prop where
  matching : SparseMatching g dense s.1.rowMatch s.1.colToRow
  eps_nonneg : 0 ≤ s.2.eps
  nodup : (s.2.queue.drop s.2.head).Nodup
  queued : ∀ j ∈ s.2.queue.drop s.2.head, dense j = false ∧ s.1.colToRow j = none
  u_le : ∀ i, dense i = false → s.1.u i ≤ cap i

omit [Field K] [LinearOrder K] [IsStrictOrderedRing K] in
/-- Freeing a matched column. -/
theorem SparseMatching.release {g : CostGraph n K} {dense : Fin n → Bool}
    {row col : Fin n → Option (Fin n)} (h : SparseMatching g dense row col) {r j : Fin n}
    (hj : col j = some r) :
    SparseMatching g dense (Function.update row r none) (Function.update col j none) := by
  refine ⟨h.paired.release ((h.paired r j).mpr hj), fun i j' hij => ?_⟩
  by_cases hi : i = r
  · rw [hi, Function.update_self] at hij
    cases hij
  · rw [Function.update_of_ne hi] at hij
    exact h.edge i j' hij

/-! ## Bids -/

section Bids

variable {g : CostGraph n K} {dense : Fin n → Bool} {cap : Fin n → K}
  {s : MatchArrays n K × AuctionState n K}

omit [IsStrictOrderedRing K] in
/-- The best row of a scan is one of its entries, its value the least. -/
theorem foldl_scanBid_spec (u : Fin n → K) (l : List (Fin n × K)) {b : Bid n K}
    (h : l.foldl (scanBid u) none = some b) :
    (b.row, b.cost) ∈ l ∧ b.b1 = b.cost - u b.row ∧ (b.b1 : WithTop K) ≤ b.b2 := by
  -- for any start of the scan and any list `L` that holds the entries
  have hfold : ∀ (l : List (Fin n × K)) (best : Option (Bid n K)) (L : List (Fin n × K)),
      (∀ b, best = some b → (b.row, b.cost) ∈ L ∧ b.b1 = b.cost - u b.row ∧
        (b.b1 : WithTop K) ≤ b.b2) → (∀ e ∈ l, e ∈ L) → ∀ b, l.foldl (scanBid u) best = some b →
      (b.row, b.cost) ∈ L ∧ b.b1 = b.cost - u b.row ∧ (b.b1 : WithTop K) ≤ b.b2 := by
    intro l
    induction l with
    | nil => exact fun best L hbest _ b hb => hbest b hb
    | cons e l ih =>
      intro best L hbest hL
      refine ih (scanBid u best e) L (fun b hb => ?_) fun e' he' => hL e'
        (List.mem_cons_of_mem e he')
      have he := hL e List.mem_cons_self
      unfold scanBid at hb
      dsimp only at hb
      split at hb
      · obtain rfl := Option.some.inj hb
        exact ⟨he, rfl, le_top⟩
      · rename_i b₀
        obtain ⟨hmem, hval, hle⟩ := hbest b₀ rfl
        split_ifs at hb with hlt hlt₂
        · obtain rfl := Option.some.inj hb
          exact ⟨he, rfl, WithTop.coe_le_coe.mpr hlt.le⟩
        · obtain rfl := Option.some.inj hb
          exact ⟨hmem, hval, WithTop.coe_le_coe.mpr (not_lt.mp hlt)⟩
        · obtain rfl := Option.some.inj hb
          exact ⟨hmem, hval, hle⟩
  exact hfold l none l (fun b hb => (nomatch hb)) (fun e he => he) b h

/-- A bid offers at least the value of its best row. -/
theorem Bid.le_second {b : Bid n K} (hb : (b.b1 : WithTop K) ≤ b.b2) (st : AuctionState n K)
    (heps : 0 ≤ st.eps) : b.b1 ≤ b.second st := by
  unfold Bid.second
  split
  · exact le_add_of_nonneg_right (heps.trans (le_max_left _ _))
  · rename_i x hx
    rw [hx] at hb
    exact WithTop.coe_le_coe.mp hb

omit [LinearOrder K] [IsStrictOrderedRing K] [Field K] in
theorem compactQueue_drop (st : AuctionState n K) :
    (compactQueue st).queue.drop (compactQueue st).head = st.queue.drop st.head := by
  unfold compactQueue
  split_ifs
  · exact List.drop_zero
  · rfl

/-- A bid keeps the invariant: its column is free and leaves the queue, the column it
    displaces is free afterwards and joins it. -/
theorem bid_bidding (h : Bidding g dense cap s) {j : Fin n}
    (hj : s.2.queue[s.2.head]? = some j) : Bidding g dense cap (bid g dense j s) := by
  obtain ⟨hlt, hget⟩ := List.getElem?_eq_some_iff.mp hj
  have hdrop : s.2.queue.drop s.2.head = j :: s.2.queue.drop (s.2.head + 1) := by
    rw [List.drop_eq_getElem_cons hlt, hget]
  have hnodup := h.nodup
  rw [hdrop, List.nodup_cons] at hnodup
  have hqueued : ∀ j' ∈ s.2.queue.drop (s.2.head + 1),
      dense j' = false ∧ s.1.colToRow j' = none :=
    fun j' hj' => h.queued j' (hdrop ▸ List.mem_cons_of_mem j hj')
  obtain ⟨hjd, hjc⟩ := h.queued j (hdrop ▸ List.mem_cons_self)
  unfold bid
  dsimp only
  split
  · exact ⟨h.matching, h.eps_nonneg, hnodup.2, hqueued, h.u_le⟩
  · rename_i b hb
    obtain ⟨hmem, hval, hle⟩ := foldl_scanBid_spec _ _ hb
    -- the row's dual falls
    have hu : ∀ (st : AuctionState n K), st.eps = s.2.eps → ∀ i, dense i = false →
        Function.update s.1.u b.row (b.cost - b.second st - st.eps) i ≤ cap i := by
      intro st heps i hi
      by_cases hib : i = b.row
      · rw [hib, Function.update_self]
        have hsecond := Bid.le_second hle st (heps.symm ▸ h.eps_nonneg)
        have hcap := h.u_le b.row (hib ▸ hi)
        have heps' : 0 ≤ st.eps := heps.symm ▸ h.eps_nonneg
        linarith
      · rw [Function.update_of_ne hib]
        exact h.u_le i hi
    have hedge : ∀ i j', Function.update s.1.rowMatch b.row (some j) i = some j' →
        dense j' = false ∧ ∃ c, (i, c) ∈ sparseEntries g dense j' := by
      intro i j' hij
      by_cases hib : i = b.row
      · rw [hib, Function.update_self] at hij
        obtain rfl := Option.some.inj hij
        exact ⟨hjd, b.cost, hib ▸ hmem⟩
      · rw [Function.update_of_ne hib] at hij
        exact h.matching.edge i j' hij
    have hother : ∀ j' ∈ s.2.queue.drop (s.2.head + 1), j' ≠ j := by
      intro j' hj' hc
      exact hnodup.1 (hc ▸ hj')
    unfold placeBid
    dsimp only
    split
    · rename_i hfree
      refine ⟨⟨h.matching.paired.assign hfree hjc, hedge⟩, ?_, ?_, ?_, hu _ rfl⟩
      · rw [compactQueue_eps]
        exact h.eps_nonneg
      · rw [compactQueue_drop]
        exact hnodup.2
      · rw [compactQueue_drop]
        intro j' hj'
        obtain ⟨hd, hc⟩ := hqueued j' hj'
        exact ⟨hd, (Function.update_of_ne (hother j' hj') ..).trans hc⟩
    · rename_i k hk
      have hkc : s.1.colToRow k = some b.row := (h.matching.paired _ _).mp hk
      have hkd := (h.matching.edge _ _ hk).1
      have hkj : k ≠ j := by
        rintro rfl
        rw [hkc] at hjc
        cases hjc
      have hkq : k ∉ s.2.queue.drop (s.2.head + 1) := by
        intro hc
        rw [(hqueued k hc).2] at hkc
        cases hkc
      have happend : (s.2.queue ++ [k]).drop (s.2.head + 1)
          = s.2.queue.drop (s.2.head + 1) ++ [k] :=
        List.drop_append_of_le_length hlt
      refine ⟨⟨h.matching.paired.displace hk hjc, hedge⟩, ?_, ?_, ?_, hu _ rfl⟩
      · rw [compactQueue_eps]
        exact h.eps_nonneg
      · rw [compactQueue_drop]
        show ((s.2.queue ++ [k]).drop (s.2.head + 1)).Nodup
        rw [happend]
        exact List.nodup_append.mpr ⟨hnodup.2, List.nodup_singleton k, fun j' hj' k' hk' heq =>
          hkq (List.mem_singleton.mp hk' ▸ heq ▸ hj')⟩
      · rw [compactQueue_drop]
        intro j' hj'
        have hj'' : j' ∈ (s.2.queue ++ [k]).drop (s.2.head + 1) := hj'
        rw [happend, List.mem_append, List.mem_singleton] at hj''
        rcases hj'' with hj'' | rfl
        · obtain ⟨hd, hc⟩ := hqueued j' hj''
          refine ⟨hd, (Function.update_of_ne (hother j' hj'') ..).trans ?_⟩
          by_cases hjk : j' = k
          · rw [hjk, Function.update_self]
          · rw [Function.update_of_ne hjk]
            exact hc
        · exact ⟨hkd, (Function.update_of_ne hkj ..).trans (Function.update_self ..)⟩

end Bids

/-! ## Phases -/

section Phases

variable {g : CostGraph n K} {dense : Fin n → Bool} {cap : Fin n → K}

omit [IsStrictOrderedRing K] in
/-- Freeing a loose column: it joins the queue, which had only columns freed before. -/
theorem unmatchLoose_bidding {s : MatchArrays n K × AuctionState n K}
    (h : Bidding g dense cap s) (hhead : s.2.head = 0) (j : Fin n) (hj : j ∉ s.2.queue) :
    Bidding g dense cap (unmatchLoose g dense s j) ∧ (unmatchLoose g dense s j).2.head = 0 ∧
      ∀ j' ∈ (unmatchLoose g dense s j).2.queue, j' ∈ s.2.queue ∨ j' = j := by
  have hnodup := h.nodup
  have hqueued := h.queued
  rw [hhead, List.drop_zero] at hnodup hqueued
  unfold unmatchLoose
  split
  · exact ⟨h, hhead, fun j' hj' => .inl hj'⟩
  · rename_i r hr
    dsimp only
    -- a dense column stays matched, a loose one is freed, a tight one keeps its row
    split_ifs with hd hloose
    · exact ⟨h, hhead, fun j' hj' => .inl hj'⟩
    · refine ⟨⟨h.matching.release hr, h.eps_nonneg, ?_, ?_, h.u_le⟩, hhead, fun j' hj' => ?_⟩
      · show ((s.2.queue ++ [j]).drop s.2.head).Nodup
        rw [hhead, List.drop_zero]
        exact List.nodup_append.mpr ⟨hnodup, List.nodup_singleton j, fun j' hj' k' hk' heq =>
          hj (List.mem_singleton.mp hk' ▸ heq ▸ hj')⟩
      · intro j' hj'
        have hj'' : j' ∈ (s.2.queue ++ [j]).drop s.2.head := hj'
        rw [hhead, List.drop_zero, List.mem_append, List.mem_singleton] at hj''
        rcases hj'' with hj'' | rfl
        · obtain ⟨hd', hc⟩ := hqueued j' hj''
          refine ⟨hd', (Function.update_of_ne ?_ ..).trans hc⟩
          rintro rfl
          exact hj hj''
        · exact ⟨Bool.not_eq_true _ ▸ hd, Function.update_self ..⟩
      · rcases List.mem_append.mp hj' with hj' | hj'
        · exact .inl hj'
        · exact .inr (List.mem_singleton.mp hj')
    · exact ⟨⟨h.matching, h.eps_nonneg, h.nodup, h.queued, h.u_le⟩, hhead, fun j' hj' => .inl hj'⟩

omit [IsStrictOrderedRing K] in
theorem foldl_unmatchLoose_bidding (l : List (Fin n)) (hl : l.Nodup)
    {s : MatchArrays n K × AuctionState n K} (h : Bidding g dense cap s) (hhead : s.2.head = 0)
    (hq : ∀ j ∈ l, j ∉ s.2.queue) : Bidding g dense cap (l.foldl (unmatchLoose g dense) s) := by
  induction l generalizing s with
  | nil => exact h
  | cons j l ih =>
    obtain ⟨hjl, hl⟩ := List.nodup_cons.mp hl
    obtain ⟨h', hhead', hq'⟩ := unmatchLoose_bidding h hhead j (hq j List.mem_cons_self)
    refine ih hl h' hhead' fun j' hj' hc => ?_
    rcases hq' j' hc with hc | rfl
    · exact hq j' (List.mem_cons_of_mem j hj') hc
    · exact hjl hj'

omit [IsStrictOrderedRing K] in
theorem nextPhase_bidding (opt : ValidOptions K) {s : MatchArrays n K × AuctionState n K}
    (h : Bidding g dense cap s) :
      Bidding g dense cap (nextPhase g dense opt.toAuctionOptions s) := by
  refine foldl_unmatchLoose_bidding _ (List.nodup_finRange n) ⟨h.matching, ?_, ?_, ?_, h.u_le⟩ rfl
    fun j _ => List.not_mem_nil
  · exact opt.final_pos.le.trans (le_max_right _ _)
  · exact List.nodup_nil
  · exact fun j hj => absurd hj List.not_mem_nil

variable [FloorSemiring K]

/-- A whole auction that has not been started. -/
theorem auctionAdvance_bidding (g : CostGraph n K) (dense : Fin n → Bool) (cap : Fin n → K)
    (opt : ValidOptions K) {queue : List (Fin n)} (workBudget : ℤ)
    {s : MatchArrays n K × AuctionState n K} (hphase : s.2.phase = none)
    (hm : SparseMatching g dense s.1.rowMatch s.1.colToRow) (hnodup : queue.Nodup)
    (hqueued : ∀ j ∈ queue, dense j = false ∧ s.1.colToRow j = none)
    (hu : ∀ i, dense i = false → s.1.u i ≤ cap i) :
    Bidding g dense cap (auctionAdvance g dense queue opt workBudget s).2 := by
  unfold auctionAdvance
  rw [if_pos hphase]
  -- a pass is the next phase or a bid; at the end the state is that of the last pass
  refine Loop.run_induct (P := Bidding g dense cap)
    (Q := fun r : AuctionStatus × MatchArrays n K × AuctionState n K => Bidding g dense cap r.2)
    (fun s s' h hs => ?_) (fun s r h hs => ?_) ?_
  · unfold auctionStep at hs
    split at hs
    · split_ifs at hs
      obtain rfl := Sum.inl.inj hs
      exact nextPhase_bidding opt h
    · split_ifs at hs
      obtain rfl := Sum.inl.inj hs
      exact bid_bidding h ‹_›
  · unfold auctionStep at hs
    split at hs
    · split_ifs at hs
      · obtain rfl := Sum.inr.inj hs
        exact h
      · obtain rfl := Sum.inr.inj hs
        exact h
    · split_ifs at hs
      · obtain rfl := Sum.inr.inj hs
        exact h
      · obtain rfl := Sum.inr.inj hs
        exact h
  · exact ⟨hm, opt.final_pos.le.trans (le_max_right _ _), hnodup, hqueued, hu⟩

end Phases

end Matching
end SmfSolver
