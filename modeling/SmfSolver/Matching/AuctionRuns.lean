/-
  SmfSolver.Matching.AuctionRuns

  The auction over its whole run, however often a budget pauses it.

  A pass is one turn of the loop that goes on (`Pass`); a call resumes where the last one
  paused (`auctionCalls`), so what a run reaches is what passes reach.  `Orderly` is what
  holds at every pass; `Cared` follows a column from the queue to its match.
-/
import SmfSolver.Matching.RepairSpec
import SmfSolver.Matching.Resume
import Mathlib.Tactic.FinCases

namespace SmfSolver
namespace Matching

open Lib Lib.Assignment

variable {n : ℕ} {K : Type*} [Field K] [LinearOrder K]

/-- The live part of the queue. -/
def AuctionState.live (st : AuctionState n K) : List (Fin n) := st.queue.drop st.head

/-- One pass of the loop that goes on, under some budget. -/
def Pass (g : CostGraph n K) (dense : Fin n → Bool) (opt : AuctionOptions K)
    (s s' : MatchArrays n K × AuctionState n K) : Prop :=
  ∃ workBudget, auctionStep g dense opt workBudget s = .inl s'

/-- What the passes lead to. -/
abbrev Reaches (g : CostGraph n K) (dense : Fin n → Bool) (opt : AuctionOptions K) :
    MatchArrays n K × AuctionState n K → MatchArrays n K × AuctionState n K → Prop :=
  Relation.ReflTransGen (Pass g dense opt)

/-- The matched edge of column `j` is within epsilon of the column's minimum. -/
def WithinEps (g : CostGraph n K) (dense : Fin n → Bool) (eps : K) (a : MatchArrays n K)
    (j : Fin n) : Prop :=
  ∀ r c, a.colToRow j = some r → (r, c) ∈ sparseEntries g dense j →
    ∀ e ∈ sparseEntries g dense j, c - a.u r ≤ e.2 - a.u e.1 + eps

/-- The state of the auction at a pass: a matching of sparse rows and columns on existing
    entries, each within epsilon of its column's minimum, and a queue of distinct free
    columns. -/
structure Orderly (g : CostGraph n K) (dense : Fin n → Bool)
    (s : MatchArrays n K × AuctionState n K) : Prop where
  paired : Paired s.1.rowMatch s.1.colToRow
  sparse : ∀ i j, s.1.rowMatch i = some j → dense i = false ∧ dense j = false ∧
    ∃ c, (i, c) ∈ sparseEntries g dense j
  within : ∀ j, WithinEps g dense s.2.eps s.1 j
  once : s.2.live.Nodup
  free : ∀ j ∈ s.2.live, dense j = false ∧ s.1.colToRow j = none

/-- A column that was queued is matched, is queued, or was dropped. -/
def Cared (s : MatchArrays n K × AuctionState n K) (j : Fin n) : Prop :=
  s.1.colToRow j ≠ none ∨ j ∈ s.2.live ∨ s.2.dropped = true

section Passes

variable {g : CostGraph n K} {dense : Fin n → Bool} {opt : AuctionOptions K}
  {s s' : MatchArrays n K × AuctionState n K} {j : Fin n}

/-- A pass starts a phase or takes the bid of the queue's head. -/
theorem Pass.cases (h : Pass g dense opt s s') :
    s.2.live = [] ∧ s' = nextPhase g dense opt s ∨
      ∃ j, s.2.queue[s.2.head]? = some j ∧ s' = bid g dense j s := by
  obtain ⟨workBudget, h⟩ := h
  unfold auctionStep at h
  split at h
  case h_1 hnone =>
    split_ifs at h
    exact .inl ⟨List.drop_eq_nil_of_le (List.getElem?_eq_none_iff.mp hnone), (Sum.inl.inj h).symm⟩
  case h_2 j hj =>
    split_ifs at h
    exact .inr ⟨j, hj, (Sum.inl.inj h).symm⟩

omit [Field K] [LinearOrder K] in
theorem live_of_head (hj : s.2.queue[s.2.head]? = some j) :
    s.2.live = j :: s.2.queue.drop (s.2.head + 1) := by
  obtain ⟨hlt, hget⟩ := List.getElem?_eq_some_iff.mp hj
  rw [AuctionState.live, List.drop_eq_getElem_cons hlt, hget]

omit [Field K] [LinearOrder K] in
@[simp] theorem live_compactQueue (st : AuctionState n K) : (compactQueue st).live = st.live :=
  compactQueue_drop st

end Passes

/-! ## The second best -/

section Scan

/-- Every other row of the column offers at least the second best. -/
theorem foldl_scanBid_second (u : Fin n → K) (l : List (Fin n × K)) {b : Bid n K}
    (h : l.foldl (scanBid u) none = some b) :
    ∀ e ∈ l, e.1 = b.row ∨ b.b2 ≤ ((e.2 - u e.1 : K) : WithTop K) := by
  -- by induction on the rows to come, with the best two of the rows `seen`
  have hfold : ∀ (l seen : List (Fin n × K)) (best : Option (Bid n K)),
      (best = none → seen = []) →
      (∀ b, best = some b → (b.b1 : WithTop K) ≤ b.b2 ∧ ∀ e ∈ seen,
        (e.1 = b.row ∧ e.2 - u e.1 = b.b1) ∨ b.b2 ≤ ((e.2 - u e.1 : K) : WithTop K)) →
      ∀ b, l.foldl (scanBid u) best = some b → ∀ e ∈ seen ++ l,
        (e.1 = b.row ∧ e.2 - u e.1 = b.b1) ∨ b.b2 ≤ ((e.2 - u e.1 : K) : WithTop K) := by
    intro l
    induction l with
    | nil =>
      intro seen best _ hbest b hb e he
      rw [List.append_nil] at he
      exact (hbest b hb).2 e he
    | cons e₀ l ih =>
      intro seen best hnone hbest b hb e he
      refine ih (seen ++ [e₀]) (scanBid u best e₀) (fun hn => ?_) (fun b' hb' => ?_) b hb e
        (by simpa using he)
      · unfold scanBid at hn
        dsimp only at hn
        split at hn
        · cases hn
        · split_ifs at hn
      · unfold scanBid at hb'
        dsimp only at hb'
        split at hb'
        · obtain rfl := Option.some.inj hb'
          rw [hnone rfl]
          refine ⟨le_top, fun e he => ?_⟩
          obtain rfl := List.mem_singleton.mp he
          exact .inl ⟨rfl, rfl⟩
        · rename_i b₀
          obtain ⟨hle, hseen⟩ := hbest b₀ rfl
          split_ifs at hb' with hlt hlt₂
          · -- a new best row: the old one is the second best
            obtain rfl := Option.some.inj hb'
            refine ⟨WithTop.coe_le_coe.mpr hlt.le, fun e he => ?_⟩
            rcases List.mem_append.mp he with he | he
            · rcases hseen e he with ⟨-, hval⟩ | hval
              · exact .inr (WithTop.coe_le_coe.mpr hval.ge)
              · exact .inr (hle.trans hval)
            · obtain rfl := List.mem_singleton.mp he
              exact .inl ⟨rfl, rfl⟩
          · obtain rfl := Option.some.inj hb'
            -- not the best, but better than the second best
            refine ⟨WithTop.coe_le_coe.mpr (not_lt.mp hlt), fun e he => ?_⟩
            rcases List.mem_append.mp he with he | he
            · exact (hseen e he).imp_right fun hval => hlt₂.le.trans hval
            · obtain rfl := List.mem_singleton.mp he
              exact .inr le_rfl
          · obtain rfl := Option.some.inj hb'
            -- no better than the second best
            refine ⟨hle, fun e he => ?_⟩
            rcases List.mem_append.mp he with he | he
            · exact hseen e he
            · obtain rfl := List.mem_singleton.mp he
              exact .inr (not_lt.mp hlt₂)
  intro e he
  exact (hfold l [] none (fun _ => rfl) (fun _ hb => (nomatch hb)) b h e he).imp_left And.left

end Scan

/-! ## Bids -/

section Bids

variable {g : CostGraph n K} {cost : Fin n → Fin n → WithTop K} {dense : Fin n → Bool}
  {s : MatchArrays n K × AuctionState n K} {b : Bid n K} {j : Fin n}

theorem placeBid_u (b : Bid n K) (j : Fin n) (s : MatchArrays n K × AuctionState n K) :
    (placeBid b j s).1.u =
      Function.update s.1.u b.row (b.cost - b.second s.2 - s.2.eps) := by
  unfold placeBid
  dsimp only
  split <;> rfl

/-- Whom a column is matched to after a bid: the bidder to its row, the others as before. -/
theorem placeBid_col {j' r : Fin n} (h : (placeBid b j s).1.colToRow j' = some r) :
    j' = j ∧ r = b.row ∨
      j' ≠ j ∧ s.1.colToRow j' = some r ∧ s.1.rowMatch b.row ≠ some j' := by
  unfold placeBid at h
  dsimp only at h
  -- whether or not the row had a match, the bidder gets it and the old match loses it
  by_cases hj : j' = j
  · subst hj
    refine .inl ⟨rfl, ?_⟩
    split at h
    · dsimp only at h
      rw [Function.update_self] at h
      exact (Option.some.inj h).symm
    · dsimp only at h
      rw [Function.update_self] at h
      exact (Option.some.inj h).symm
  · refine .inr ⟨hj, ?_⟩
    split at h
    case h_1 hnone =>
      dsimp only at h
      rw [Function.update_of_ne hj] at h
      exact ⟨h, by rw [hnone]; exact nofun⟩
    case h_2 k hk =>
      dsimp only at h
      rw [Function.update_of_ne hj] at h
      have hjk : j' ≠ k := by
        rintro rfl
        rw [Function.update_self] at h
        cases h
      rw [Function.update_of_ne hjk] at h
      refine ⟨h, fun hrow => hjk ?_⟩
      exact (Option.some.inj (hk.symm.trans hrow)).symm

variable [IsStrictOrderedRing K]

/-- The price of the row that was won falls, no other dual moves. -/
theorem bid_u_le (heps : 0 ≤ s.2.eps) (j i : Fin n) : (bid g dense j s).1.u i ≤ s.1.u i := by
  unfold bid
  dsimp only
  split
  · exact le_rfl
  case h_2 b hb =>
    obtain ⟨-, hval, hle⟩ := foldl_scanBid_spec _ _ hb
    rw [placeBid_u]
    by_cases hi : i = b.row
    · subst hi
      rw [Function.update_self]
      have hsecond := Bid.le_second hle
        { s.2 with head := s.2.head + 1, bidsInPhase := s.2.bidsInPhase + 1 } heps
      dsimp only at hval hsecond ⊢
      linarith
    · rw [Function.update_of_ne hi]

/-- A bid leaves every matched edge within epsilon: the bidder's by the second best, the
    others because no other entry of their column gets cheaper. -/
theorem bid_within (hg : g.Lists cost) (hm : SparseMatching g dense s.1.rowMatch s.1.colToRow)
    (heps : 0 ≤ s.2.eps) (hw : ∀ j, WithinEps g dense s.2.eps s.1 j) (j j' : Fin n) :
    WithinEps g dense (bid g dense j s).2.eps (bid g dense j s).1 j' := by
  have hfall : ∀ i, (bid g dense j s).1.u i ≤ s.1.u i := bid_u_le heps j
  unfold bid at hfall ⊢
  dsimp only at hfall ⊢
  split
  · exact hw j'
  case h_2 b hb =>
    rw [hb] at hfall
    dsimp only at hfall
    obtain ⟨hmem, hval, hle⟩ := foldl_scanBid_spec _ _ hb
    have hsecond := foldl_scanBid_second _ _ hb
    intro r c hr hrc e he
    rw [(placeBid_counters _ _ _).1]
    dsimp only
    -- the bidder has the row it bid for
    rcases placeBid_col hr with ⟨rfl, rfl⟩ | ⟨hj, hcol, hrow⟩
    · have hc : c = b.cost := by
        have h₁ := ((mem_sparseEntries hg).mp hrc).2
        rw [((mem_sparseEntries hg).mp hmem).2] at h₁
        exact (WithTop.coe_inj.mp h₁).symm
      rw [placeBid_u, Function.update_self, hc]
      by_cases hrow : e.1 = b.row
      · have hce : e.2 = b.cost := by
          have h₁ := ((mem_sparseEntries hg).mp (show (e.1, e.2) ∈ _ from he)).2
          rw [hrow, ((mem_sparseEntries hg).mp hmem).2] at h₁
          exact (WithTop.coe_inj.mp h₁).symm
        rw [hrow, Function.update_self, hce]
        exact le_add_of_nonneg_right heps
      · have hb2 := (hsecond e he).resolve_left hrow
        rw [Function.update_of_ne hrow]
        have hle₂ : b.second { s.2 with head := s.2.head + 1, bidsInPhase := s.2.bidsInPhase + 1 }
            ≤ e.2 - s.1.u e.1 := by
          unfold Bid.second
          split
          case h_1 htop =>
            rw [htop] at hb2
            exact absurd hb2 (not_le.mpr (WithTop.coe_lt_top _))
          case h_2 x hx =>
            rw [hx] at hb2
            exact WithTop.coe_le_coe.mp hb2
        dsimp only at hle₂ ⊢
        linarith
    · -- the row of another column did not change hands
      have hne : r ≠ b.row := by
        rintro rfl
        exact hrow ((hm.paired _ _).mpr hcol)
      have hbase := hw j' r c hcol hrc e he
      have hfallE := hfall e.1
      rw [placeBid_u] at hfallE ⊢
      rw [Function.update_of_ne hne]
      dsimp only at hfallE ⊢
      linarith

omit [IsStrictOrderedRing K] in
/-- A column that is cared for stays so through a bid. -/
theorem bid_cared (hj : s.2.queue[s.2.head]? = some j) {j' : Fin n} (h : Cared s j') :
    Cared (bid g dense j s) j' := by
  obtain ⟨hlt, -⟩ := List.getElem?_eq_some_iff.mp hj
  unfold bid
  dsimp only
  split
  · exact .inr (.inr rfl)
  case h_2 b hb =>
    unfold placeBid Cared
    dsimp only
    split
    case h_1 hfree =>
      dsimp only
      -- the bidder is matched now, the others are where they were
      by_cases hjj : j' = j
      · refine .inl ?_
        rw [hjj, Function.update_self]
        exact nofun
      · rcases h with h | h | h
        · exact .inl (by rw [Function.update_of_ne hjj]; exact h)
        · rw [live_of_head hj] at h
          refine .inr (.inl ?_)
          rw [live_compactQueue]
          exact (List.mem_cons.mp h).resolve_left hjj
        · refine .inr (.inr ?_)
          unfold compactQueue
          split_ifs
          · exact h
          · exact h
    case h_2 k hk =>
      dsimp only
      have hlive : (compactQueue { s.2 with
          head := s.2.head + 1, bidsInPhase := s.2.bidsInPhase + 1, queue :=
            s.2.queue ++ [k] }).live
          = s.2.queue.drop (s.2.head + 1) ++ [k] := by
        rw [live_compactQueue]
        exact List.drop_append_of_le_length hlt
      -- the column that lost its row waits at the end of the queue
      by_cases hjj : j' = j
      · refine .inl ?_
        rw [hjj, Function.update_self]
        exact nofun
      · by_cases hjk : j' = k
        · refine .inr (.inl ?_)
          rw [hlive, hjk]
          exact List.mem_append_right _ (List.mem_singleton_self k)
        rcases h with h | h | h
        · exact .inl (by rw [Function.update_of_ne hjj, Function.update_of_ne hjk]; exact h)
        · rw [live_of_head hj] at h
          refine .inr (.inl ?_)
          rw [hlive]
          exact List.mem_append_left _ ((List.mem_cons.mp h).resolve_left hjj)
        · refine .inr (.inr ?_)
          unfold compactQueue
          split_ifs
          · exact h
          · exact h

end Bids

/-! ## Phases -/

section Phases

variable {g : CostGraph n K} {cost : Fin n → Fin n → WithTop K} {dense : Fin n → Bool}
  {s : MatchArrays n K × AuctionState n K} {j j' : Fin n}

/-- What freeing a loose column leaves alone. -/
structure Loosens (s s' : MatchArrays n K × AuctionState n K) : Prop where
  u : s'.1.u = s.1.u
  eps : s'.2.eps = s.2.eps
  head : s'.2.head = s.2.head
  dropped : s'.2.dropped = s.2.dropped
  col : ∀ j r, s'.1.colToRow j = some r → s.1.colToRow j = some r
  queue : ∀ j ∈ s.2.queue, j ∈ s'.2.queue
  freed : ∀ j, s.1.colToRow j ≠ none → s'.1.colToRow j ≠ none ∨ j ∈ s'.2.queue

omit [Field K] [LinearOrder K] in
theorem Loosens.refl (s : MatchArrays n K × AuctionState n K) : Loosens s s :=
  ⟨rfl, rfl, rfl, rfl, fun _ _ h => h, fun _ h => h, fun _ h => .inl h⟩

omit [Field K] [LinearOrder K] in
theorem Loosens.trans {s s' s'' : MatchArrays n K × AuctionState n K} (h : Loosens s s')
    (h' : Loosens s' s'') : Loosens s s'' where
  u := h'.u.trans h.u
  eps := h'.eps.trans h.eps
  head := h'.head.trans h.head
  dropped := h'.dropped.trans h.dropped
  col := fun j r hr => h.col j r (h'.col j r hr)
  queue := fun j hj => h'.queue j (h.queue j hj)
  freed := fun j hj => (h.freed j hj).elim (h'.freed j) fun hq => .inr (h'.queue j hq)

theorem unmatchLoose_loosens (g : CostGraph n K) (dense : Fin n → Bool)
    (s : MatchArrays n K × AuctionState n K) (j : Fin n) :
    Loosens s (unmatchLoose g dense s j) := by
  unfold unmatchLoose
  split
  · exact .refl s
  · dsimp only
    split_ifs
    · exact .refl s
    · refine ⟨rfl, rfl, rfl, rfl, fun j' r hr => ?_, fun j' hj' => List.mem_append_left _ hj',
        fun j' hj' => ?_⟩
      · dsimp only at hr
        by_cases hjj : j' = j
        · rw [hjj, Function.update_self] at hr
          cases hr
        · rwa [Function.update_of_ne hjj] at hr
      · by_cases hjj : j' = j
        · exact .inr (List.mem_append_right _ (List.mem_singleton.mpr hjj))
        · exact .inl (by dsimp only; rwa [Function.update_of_ne hjj])
    · exact ⟨rfl, rfl, rfl, rfl, fun _ _ h => h, fun _ h => h, fun _ h => .inl h⟩

theorem foldl_unmatchLoose_loosens (g : CostGraph n K) (dense : Fin n → Bool) (l : List (Fin n))
    (s : MatchArrays n K × AuctionState n K) : Loosens s (l.foldl (unmatchLoose g dense) s) := by
  induction l generalizing s with
  | nil => exact .refl s
  | cons j l ih => exact (unmatchLoose_loosens g dense s j).trans (ih _)

variable [IsStrictOrderedRing K]

/-- A column that stays matched is not loose. -/
theorem unmatchLoose_within (hg : g.Lists cost)
    (hm : SparseMatching g dense s.1.rowMatch s.1.colToRow) (j : Fin n) :
    WithinEps g dense s.2.eps (unmatchLoose g dense s j).1 j := by
  intro r c hr hrc e he
  have hcol := (unmatchLoose_loosens g dense s j).col j r hr
  have hd := (hm.edge r j ((hm.paired r j).mpr hcol)).1
  have hle : minOf ((sparseEntries g dense j).map fun e => e.2 - s.1.u e.1)
      ≤ ((e.2 - s.1.u e.1 : K) : WithTop K) := minOf_le (List.mem_map.mpr ⟨e, he, rfl⟩)
  rw [(unmatchLoose_loosens g dense s j).u]
  unfold unmatchLoose at hr
  rw [hcol] at hr
  dsimp only at hr
  rw [hd, if_neg Bool.false_ne_true] at hr
  split_ifs at hr with hloose
  · dsimp only at hr
    rw [Function.update_self] at hr
    cases hr
  · rw [matchedValue_eq hg s.1.u hrc, not_lt] at hloose
    have hfinal := hloose.trans (add_le_add_left hle _)
    exact WithTop.coe_le_coe.mp hfinal

/-- After the columns of `l` none of them is loose. -/
theorem foldl_unmatchLoose_within (hg : g.Lists cost) (l : List (Fin n))
    (hm : SparseMatching g dense s.1.rowMatch s.1.colToRow) {j : Fin n} (hj : j ∈ l) :
    WithinEps g dense s.2.eps (l.foldl (unmatchLoose g dense) s).1 j := by
  induction l generalizing s with
  | nil => exact absurd hj List.not_mem_nil
  | cons j₀ l ih =>
    have hstep := unmatchLoose_loosens g dense s j₀
    have hm' : SparseMatching g dense (unmatchLoose g dense s j₀).1.rowMatch
        (unmatchLoose g dense s j₀).1.colToRow := by
      unfold unmatchLoose
      split
      · exact hm
      case h_2 r hr =>
        dsimp only
        split_ifs
        · exact hm
        · exact hm.release hr
        · exact hm
    rw [List.foldl_cons, ← hstep.eps]
    by_cases hjl : j ∈ l
    · exact ih hm' hjl
    · obtain rfl := (List.mem_cons.mp hj).resolve_right hjl
      have hrest := foldl_unmatchLoose_loosens g dense l (unmatchLoose g dense s j)
      intro r c hr hrc e he
      rw [hrest.u, hstep.eps]
      exact unmatchLoose_within hg hm j r c (hrest.col j r hr) hrc e he

end Phases

/-! ## A pass -/

section Pass

variable {g : CostGraph n K} {cost : Fin n → Fin n → WithTop K} {dense : Fin n → Bool}
  {opt : ValidOptions K} {s s' : MatchArrays n K × AuctionState n K}

/-- The state with the next phase's epsilon and an empty queue. -/
def newPhase (opt : AuctionOptions K) (s : MatchArrays n K × AuctionState n K) :
    MatchArrays n K × AuctionState n K :=
  (s.1, { s.2 with
    eps := max (s.2.eps / opt.epsFactor) opt.epsFinal
    phase := s.2.phase.map (· + 1)
    queue := []
    head := 0
    bidsInPhase := 0 })

theorem nextPhase_loosens (g : CostGraph n K) (dense : Fin n → Bool) (opt : AuctionOptions K)
    (s : MatchArrays n K × AuctionState n K) :
    Loosens (newPhase opt s) (nextPhase g dense opt s) :=
  foldl_unmatchLoose_loosens g dense _ _

variable [IsStrictOrderedRing K]

/-- The invariant of the auction: what the duals need, and every matched edge near its
    column's minimum. -/
structure Auctioning (g : CostGraph n K) (dense : Fin n → Bool)
    (s : MatchArrays n K × AuctionState n K) : Prop where
  bidding : Bidding g dense s.1.u s
  within : ∀ j, WithinEps g dense s.2.eps s.1 j
  started : s.2.phase ≠ none

omit [IsStrictOrderedRing K] in
theorem Auctioning.orderly (hg : g.Lists cost) (h : Auctioning g dense s) : Orderly g dense s where
  paired := h.bidding.matching.paired
  sparse := fun i j hij => by
    obtain ⟨hj, c, hc⟩ := h.bidding.matching.edge i j hij
    exact ⟨((mem_sparseEntries hg).mp hc).1, hj, c, hc⟩
  within := h.within
  once := h.bidding.nodup
  free := h.bidding.queued

omit [IsStrictOrderedRing K] in
/-- The invariant does not depend on the duals it is compared with. -/
theorem Bidding.recap {cap : Fin n → K} (h : Bidding g dense cap s) : Bidding g dense s.1.u s :=
  ⟨h.matching, h.eps_nonneg, h.nodup, h.queued, fun _ _ => le_rfl⟩

/-- No row dual rises. -/
theorem Pass.u_le (h : Auctioning g dense s) (hp : Pass g dense opt.toAuctionOptions s s')
    (i : Fin n) :
    s'.1.u i ≤ s.1.u i := by
  rcases hp.cases with ⟨-, rfl⟩ | ⟨j, -, rfl⟩
  · exact ((congrFun (nextPhase_loosens g dense opt.toAuctionOptions s).u i)).le
  · exact bid_u_le h.bidding.eps_nonneg j i

theorem Auctioning.pass (hg : g.Lists cost) (h : Auctioning g dense s)
    (hp : Pass g dense opt.toAuctionOptions s s') : Auctioning g dense s' := by
  rcases hp.cases with ⟨-, rfl⟩ | ⟨j, hj, rfl⟩
  · refine ⟨(nextPhase_bidding opt h.bidding).recap, fun j => ?_, ?_⟩
    · have hw := foldl_unmatchLoose_within (s := newPhase opt.toAuctionOptions s) hg
        (List.finRange n) h.bidding.matching (List.mem_finRange j)
      rwa [← (nextPhase_loosens g dense opt.toAuctionOptions s).eps] at hw
    · exact nextPhase_started h.started
  · refine ⟨(bid_bidding h.bidding hj).recap,
      bid_within hg h.bidding.matching h.bidding.eps_nonneg h.within j, ?_⟩
    rw [bid_phase]
    exact h.started

end Pass

/-! ## Columns that were queued -/

section Cared

variable {g : CostGraph n K} {dense : Fin n → Bool} {opt : AuctionOptions K}
  {s s' : MatchArrays n K × AuctionState n K} {j : Fin n}

/-- At the end of a phase no column waits; the next one queues those it frees. -/
theorem nextPhase_cared (hlive : s.2.live = []) (h : Cared s j) :
    Cared (nextPhase g dense opt s) j := by
  have hl := nextPhase_loosens g dense opt s
  have hqueue : (nextPhase g dense opt s).2.live = (nextPhase g dense opt s).2.queue := by
    unfold AuctionState.live
    rw [hl.head]
    exact List.drop_zero
  rcases h with h | h | h
  · refine (hl.freed j h).imp_right fun hq => .inl ?_
    rwa [hqueue]
  · rw [hlive] at h
    cases h
  · exact .inr (.inr (hl.dropped.trans h))

theorem Cared.pass (hp : Pass g dense opt s s') (h : Cared s j) : Cared s' j := by
  rcases hp.cases with ⟨hlive, rfl⟩ | ⟨k, hk, rfl⟩
  · exact nextPhase_cared hlive h
  · exact bid_cared hk h

theorem Cared.reaches (hr : Reaches g dense opt s s') (h : Cared s j) : Cared s' j := by
  induction hr with
  | refl => exact h
  | tail _ hp ih => exact ih.pass hp

end Cared

/-! ## Calls -/

section Calls

variable {g : CostGraph n K} {cost : Fin n → Fin n → WithTop K} {dense : Fin n → Bool}
  {opt : ValidOptions K} {queue : List (Fin n)} {s s' : MatchArrays n K × AuctionState n K}

/-- How the loop is left. -/
structure Left (opt : AuctionOptions K) (workBudget : ℤ)
    (r : AuctionStatus × MatchArrays n K × AuctionState n K) : Prop where
  paused : r.1 = .paused → r.2.2.live ≠ [] ∧ r.2.2.bidsInPhase < r.2.2.bidLimit ∧
    0 ≤ workBudget ∧ workBudget ≤ r.2.1.work
  done : r.1 = .done → r.2.2.live = [] ∧ r.2.2.eps ≤ opt.epsFinal ∧ r.2.2.dropped = false

theorem auctionStep_left {workBudget : ℤ} {r : AuctionStatus × MatchArrays n K × AuctionState n K}
    (h : auctionStep g dense opt.toAuctionOptions workBudget s = .inr r) :
    r.2 = s ∧ Left opt.toAuctionOptions workBudget r := by
  unfold auctionStep at h
  split at h
  case h_1 hnone =>
    have hlive : s.2.live = [] := List.drop_eq_nil_of_le (List.getElem?_eq_none_iff.mp hnone)
    split_ifs at h with heps hdrop
    · obtain rfl := Sum.inr.inj h
      exact ⟨rfl, nofun, nofun⟩
    · obtain rfl := Sum.inr.inj h
      exact ⟨rfl, nofun, fun _ => ⟨hlive, heps, Bool.eq_false_iff.mpr hdrop⟩⟩
  case h_2 j hj =>
    split_ifs at h with hcap hbudget
    · obtain rfl := Sum.inr.inj h
      exact ⟨rfl, nofun, nofun⟩
    · obtain rfl := Sum.inr.inj h
      refine ⟨rfl, fun _ => ⟨?_, not_le.mp hcap, hbudget⟩, nofun⟩
      rw [live_of_head hj]
      exact List.cons_ne_nil _ _

/-- On Done every column that was queued is matched. -/
theorem Left.served {workBudget : ℤ} {r : AuctionStatus × MatchArrays n K × AuctionState n K}
    (h : Left opt.toAuctionOptions workBudget r) (hdone : r.1 = .done) {j : Fin n}
    (hj : Cared r.2 j) : r.2.1.colToRow j ≠ none := by
  obtain ⟨hlive, -, hdrop⟩ := h.done hdone
  rcases hj with hj | hj | hj
  · exact hj
  · rw [hlive] at hj
    cases hj
  · rw [hdrop] at hj
    cases hj

variable [IsStrictOrderedRing K] [FloorSemiring K]

/-- The calls of a run that is paused again and again: each takes up the state the one
    before it left, under a budget of its own. -/
def auctionCalls (g : CostGraph n K) (dense : Fin n → Bool) (queue : List (Fin n))
    (opt : ValidOptions K) (budget : ℕ → ℤ) (s : MatchArrays n K × AuctionState n K) :
    ℕ → AuctionStatus × MatchArrays n K × AuctionState n K
  | 0 => auctionAdvance g dense queue opt (budget 0) s
  | k + 1 => auctionAdvance g dense queue opt (budget (k + 1)) (auctionCalls g dense queue opt
      budget s k).2

/-- A call of a started auction: passes, and the loop is left. -/
theorem auctionAdvance_reaches (workBudget : ℤ) (hs : s.2.phase ≠ none) :
    Reaches g dense opt.toAuctionOptions s (auctionAdvance g dense queue opt workBudget s).2 ∧
      Left opt.toAuctionOptions workBudget (auctionAdvance g dense queue opt workBudget s) := by
  unfold auctionAdvance
  rw [if_neg hs]
  refine Loop.run_induct
    (P := fun t => Reaches g dense opt.toAuctionOptions s t)
    (Q := fun r => Reaches g dense opt.toAuctionOptions s r.2 ∧
      Left opt.toAuctionOptions workBudget r)
    (fun t t' ht hstep => ht.tail ⟨workBudget, hstep⟩) (fun t r ht hstep => ?_) .refl
  obtain ⟨heq, hleft⟩ := auctionStep_left hstep
  exact ⟨heq ▸ ht, hleft⟩

/-- The first call starts the auction. -/
theorem auctionAdvance_start (workBudget : ℤ) (hs : s.2.phase = none) :
    auctionAdvance g dense queue opt workBudget s
      = auctionAdvance g dense queue opt workBudget
          (auctionStart g dense queue opt.toAuctionOptions s) := by
  unfold auctionAdvance
  rw [if_pos hs, if_neg (show (auctionStart g dense queue opt.toAuctionOptions s).2.phase ≠ none
    from Option.some_ne_none 0)]

omit [FloorSemiring K] in
theorem Auctioning.reaches (hg : g.Lists cost) (h : Auctioning g dense s)
    (hr : Reaches g dense opt.toAuctionOptions s s') : Auctioning g dense s' := by
  induction hr with
  | refl => exact h
  | tail _ hp ih => exact ih.pass hg hp

/-- The invariant at the start: the searches leave a matching on tight edges under
    feasible duals, and the caller queues distinct free columns. -/
theorem auctionStart_auctioning (hg : g.Lists cost) (hs : Sound (sparsePart dense) cost s.1)
    (hnodup : queue.Nodup) (hfree : ∀ j ∈ queue, dense j = false ∧ s.1.colToRow j = none) :
    Auctioning g dense (auctionStart g dense queue opt.toAuctionOptions s) := by
  have heps : 0 ≤ (auctionStart g dense queue opt.toAuctionOptions s).2.eps :=
    le_max_of_le_right opt.final_pos.le
  refine ⟨⟨hs.sparseMatching hg, heps, hnodup, hfree, fun _ _ => le_rfl⟩,
    fun j r c hr hrc e he => ?_,
    Option.some_ne_none 0⟩
  obtain ⟨hrs, hjs, hcost⟩ := hs.edge ((hs.inverse r j).mpr hr)
  obtain ⟨hes, hec⟩ := (mem_sparseEntries (i := e.1) hg).mp he
  have htight : c = s.1.u r + s.1.v j := by
    rw [((mem_sparseEntries hg).mp hrc).2] at hcost
    exact WithTop.coe_inj.mp hcost
  have hfeasible : s.1.u e.1 + s.1.v j ≤ e.2 :=
    hs.feasible e.1 j e.2 (partCost_eq.mpr ⟨sparsePart_iff.mpr hes, hjs, hec⟩)
  change c - s.1.u r ≤ e.2 - s.1.u e.1 + _
  linarith

/-- Passes in a row lower the measure each. -/
theorem measure_passes {p : ℕ → MatchArrays n K × AuctionState n K} {m : ℕ}
    (hp : ∀ k < m, Pass g dense opt.toAuctionOptions (p k) (p (k + 1))) :
    auctionMeasure opt.toAuctionOptions (p m) + m ≤ auctionMeasure opt.toAuctionOptions (p 0) := by
  induction m with
  | zero => exact le_rfl
  | succ m ih =>
    obtain ⟨workBudget, hstep⟩ := hp m (Nat.lt_succ_self m)
    have hlt := auctionStep_decreases g dense opt workBudget _ _ hstep
    have hle := ih fun k hk => hp k (Nat.lt_succ_of_lt hk)
    omega

omit [IsStrictOrderedRing K] [FloorSemiring K] in
/-- A paused auction whose next call has work left to spend bids. -/
theorem auctionStep_resumed {budget budget' : ℤ}
    (h : Left opt.toAuctionOptions budget (.paused, s))
      (hb : budget' < 0 ∨ (s.1.work : ℤ) < budget') :
    ∃ s', auctionStep g dense opt.toAuctionOptions budget' s = .inl s' := by
  obtain ⟨hlive, hbids, -, -⟩ := h.paused rfl
  have hgo : ¬(0 ≤ budget' ∧ budget' ≤ (s.1.work : ℤ)) := by omega
  unfold auctionStep
  split
  case h_1 hnone =>
    exact absurd (List.drop_eq_nil_of_le (List.getElem?_eq_none_iff.mp hnone)) hlive
  case h_2 j hj =>
    rw [if_neg (not_le.mpr hbids), if_neg hgo]
    exact ⟨_, rfl⟩

theorem Reaches.measure_le (hr : Reaches g dense opt.toAuctionOptions s s') :
    auctionMeasure opt.toAuctionOptions s' ≤ auctionMeasure opt.toAuctionOptions s := by
  induction hr with
  | refl => exact le_rfl
  | tail _ hp ih =>
    obtain ⟨workBudget, hstep⟩ := hp
    exact (auctionStep_decreases g dense opt workBudget _ _ hstep).le.trans ih

/-- Such a call brings the measure down. -/
theorem auctionAdvance_resumed {budget budget' : ℤ} (hs : s.2.phase ≠ none)
    (h : Left opt.toAuctionOptions budget (.paused, s))
      (hb : budget' < 0 ∨ (s.1.work : ℤ) < budget') :
    auctionMeasure opt.toAuctionOptions (auctionAdvance g dense queue opt budget' s).2
      < auctionMeasure opt.toAuctionOptions s := by
  obtain ⟨s', hstep⟩ := (@auctionStep_resumed _ _ _ _ g dense) h hb
  have hs' : s'.2.phase ≠ none := auctionStep_started hs hstep
  have hsame : auctionAdvance g dense queue opt budget' s
      = auctionAdvance g dense queue opt budget' s' := by
    unfold auctionAdvance
    rw [if_neg hs, if_neg hs']
    exact Loop.run_next hstep
  rw [hsame]
  exact (auctionAdvance_reaches budget' hs').1.measure_le.trans_lt
    (auctionStep_decreases g dense opt budget' _ _ hstep)

/-- Every call of a run ends in a state the passes lead to. -/
theorem auctionCalls_reaches (hs : s.2.phase = none) (budget : ℕ → ℤ) (k : ℕ) :
    Reaches g dense opt.toAuctionOptions (auctionStart g dense queue opt.toAuctionOptions s)
        (auctionCalls g dense queue opt budget s k).2 ∧
      Left opt.toAuctionOptions (budget k) (auctionCalls g dense queue opt budget s k) ∧
      (auctionCalls g dense queue opt budget s k).2.2.phase ≠ none := by
  have hstarted : (auctionStart g dense queue opt.toAuctionOptions s).2.phase ≠ none :=
    Option.some_ne_none 0
  have hkeep : ∀ {t t' : MatchArrays n K × AuctionState n K}, t.2.phase ≠ none →
      Reaches g dense opt.toAuctionOptions t t' → t'.2.phase ≠ none := by
    intro t t' ht hr
    induction hr with
    | refl => exact ht
    | tail _ hp ih =>
      obtain ⟨workBudget, hstep⟩ := hp
      exact auctionStep_started ih hstep
  induction k with
  | zero =>
    rw [auctionCalls, auctionAdvance_start _ hs]
    obtain ⟨hr, hleft⟩ := (@auctionAdvance_reaches _ _ _ _ g dense opt queue) (budget 0) hstarted
    exact ⟨hr, hleft, hkeep hstarted hr⟩
  | succ k ih =>
    obtain ⟨hr, -, hphase⟩ := ih
    obtain ⟨hr', hleft⟩ :=
      (@auctionAdvance_reaches _ _ _ _ g dense opt queue) (budget (k + 1)) hphase
    exact ⟨hr.trans hr', hleft, hkeep hphase hr'⟩

/-- A run none of whose calls goes without work to spend is over within the measure. -/
theorem auctionCalls_ends (hs : s.2.phase = none) {budget : ℕ → ℤ}
    (hb : ∀ k, budget (k + 1) < 0 ∨
      ((auctionCalls g dense queue opt budget s k).2.1.work : ℤ) < budget (k + 1)) :
    ∃ k ≤ auctionMeasure opt.toAuctionOptions (auctionStart g dense queue opt.toAuctionOptions s),
      (auctionCalls g dense queue opt budget s k).1 ≠ .paused := by
  by_contra hnever
  push Not at hnever
  have hfall : ∀ k ≤ auctionMeasure opt.toAuctionOptions
      (auctionStart g dense queue opt.toAuctionOptions s) + 1,
      auctionMeasure opt.toAuctionOptions (auctionCalls g dense queue opt budget s k).2 + k
        ≤ auctionMeasure opt.toAuctionOptions
            (auctionStart g dense queue opt.toAuctionOptions s) := by
    intro k hk
    induction k with
    | zero => exact (auctionCalls_reaches hs budget 0).1.measure_le
    | succ k ih =>
      obtain ⟨-, hleft, hphase⟩ := (@auctionCalls_reaches _ _ _ _ g dense opt queue) hs budget k
      have hpause : Left opt.toAuctionOptions (budget k)
          (.paused, (auctionCalls g dense queue opt budget s k).2) := by
        rw [← hnever k (by omega)]
        exact hleft
      have hlt := (@auctionAdvance_resumed _ _ _ _ g dense _ queue) hphase hpause
        (hb k)
      have hle := ih (by omega)
      rw [auctionCalls]
      omega
  have hlast := hfall _ le_rfl
  omega

/-- A finished auction, called again, is as it was. -/
theorem auctionAdvance_over (s : MatchArrays n K × AuctionState n K) (workBudget : ℤ) :
    auctionAdvance g dense queue opt workBudget (auctionAdvance g dense queue opt (-1) s).2
      = auctionAdvance g dense queue opt (-1) s := by
  -- a pass that ends without a budget ends whatever the budget, and changes nothing
  have hover : ∀ t r, auctionStep g dense opt.toAuctionOptions (-1) t = .inr r →
      r.2 = t ∧ auctionStep g dense opt.toAuctionOptions workBudget t = .inr r := by
    intro t r h
    refine ⟨(auctionStep_left h).1, ?_⟩
    unfold auctionStep at h ⊢
    split
    case h_1 hnone =>
      rw [hnone] at h
      exact h
    case h_2 j hj =>
      rw [hj] at h
      dsimp only at h
      split_ifs at h with hcap hneg
      · rw [if_pos hcap]
        exact h
      · exact absurd hneg.1 (by decide)
  have hstarted : (if s.2.phase = none then auctionStart g dense queue opt.toAuctionOptions s
      else s).2.phase ≠ none := by
    split_ifs with h
    · exact Option.some_ne_none 0
    · exact h
  have hend : ∀ r, r = auctionAdvance g dense queue opt (-1) s →
      r.2.2.phase ≠ none ∧ auctionStep g dense opt.toAuctionOptions workBudget r.2 = .inr r := by
    rintro r rfl
    refine Loop.run_induct (P := fun t => t.2.phase ≠ none)
      (Q := fun r : AuctionStatus × MatchArrays n K × AuctionState n K => r.2.2.phase ≠ none ∧
        auctionStep g dense opt.toAuctionOptions workBudget r.2 = .inr r)
      (fun t t' ht hstep => auctionStep_started ht hstep) (fun t r ht hstep => ?_) hstarted
    obtain ⟨rfl, hstep'⟩ := hover t r hstep
    exact ⟨ht, hstep'⟩
  generalize auctionAdvance g dense queue opt (-1) s = r at hend
  obtain ⟨hphase, hstep⟩ := hend r rfl
  unfold auctionAdvance
  rw [if_neg hphase]
  exact Loop.run_done hstep

/-- Every call of a run is the unbudgeted call, or it paused on the way there. -/
theorem auctionCalls_pass (s : MatchArrays n K × AuctionState n K) (budget : ℕ → ℤ) (k : ℕ) :
    auctionCalls g dense queue opt budget s k = auctionAdvance g dense queue opt (-1) s ∨
      (auctionCalls g dense queue opt budget s k).1 = .paused ∧
        auctionAdvance g dense queue opt (-1) (auctionCalls g dense queue opt budget s k).2
          = auctionAdvance g dense queue opt (-1) s := by
  induction k with
  | zero =>
    refine (auctionAdvance_pass g dense queue queue opt (budget 0) s).imp_right ?_
    rintro ⟨t, hpause, hsame, -⟩
    rw [auctionCalls, hpause]
    exact ⟨rfl, hsame⟩
  | succ k ih =>
    rw [auctionCalls]
    rcases ih with hdone | ⟨-, hsame⟩
    · left
      rw [hdone]
      exact auctionAdvance_over s (budget (k + 1))
    · rw [← hsame]
      refine (auctionAdvance_pass g dense queue queue opt (budget (k + 1)) _).imp_right ?_
      rintro ⟨t, hpause, hsame', -⟩
      rw [hpause]
      exact ⟨rfl, hsame'⟩

/-! ## A run -/

/-- An auction from its start, over any calls. -/
structure AuctionRuns (g : CostGraph n K) (dense : Fin n → Bool) (queue : List (Fin n))
    (opt : ValidOptions K) (s : MatchArrays n K × AuctionState n K) : Prop where
  /-- Every state on the way, paused at or not. -/
  orderly : ∀ t, Reaches g dense opt.toAuctionOptions
    (auctionStart g dense queue opt.toAuctionOptions s) t → Orderly g dense t
  /-- No row dual rises, from the start on. -/
  falls : ∀ t t', Reaches g dense opt.toAuctionOptions
    (auctionStart g dense queue opt.toAuctionOptions s) t →
      Reaches g dense opt.toAuctionOptions t t' → ∀ i, t'.1.u i ≤ t.1.u i ∧ t.1.u i ≤ s.1.u i
  /-- There is a bound on the passes in a row. -/
  bounded : ∃ most, ∀ p : ℕ → MatchArrays n K × AuctionState n K, ∀ m,
    p 0 = auctionStart g dense queue opt.toAuctionOptions s →
      (∀ k < m, Pass g dense opt.toAuctionOptions (p k) (p (k + 1))) → m ≤ most
  /-- A call under any budgets stops on the way. -/
  calls : ∀ budget k, Reaches g dense opt.toAuctionOptions
    (auctionStart g dense queue opt.toAuctionOptions s)
      (auctionCalls g dense queue opt budget s k).2
  /-- It has paused, or it is Done or Capped, and then as without a budget. -/
  same : ∀ budget k, (auctionCalls g dense queue opt budget s k).1 ≠ .paused →
    auctionCalls g dense queue opt budget s k = auctionAdvance g dense queue opt (-1) s
  /-- Calls that may spend work do not pause for ever. -/
  ends : ∃ most, ∀ budget : ℕ → ℤ, (∀ k, budget (k + 1) < 0 ∨
    ((auctionCalls g dense queue opt budget s k).2.1.work : ℤ) < budget (k + 1)) →
      ∃ k ≤ most, (auctionCalls g dense queue opt budget s k).1 ≠ .paused
  /-- On Done every column that was queued is matched. -/
  served : ∀ budget k, (auctionCalls g dense queue opt budget s k).1 = .done →
    ∀ t j, Reaches g dense opt.toAuctionOptions
      (auctionStart g dense queue opt.toAuctionOptions s) t →
        Reaches g dense opt.toAuctionOptions t (auctionCalls g dense queue opt budget s k).2 →
          j ∈ t.2.live → (auctionCalls g dense queue opt budget s k).2.1.colToRow j ≠ none

/-- From feasible duals, tight on the matched edges, and a queue of distinct free columns,
    the auction keeps its matching and its queue in order at every pause and ends. -/
theorem auction_runs (hg : g.Lists cost) (opt : ValidOptions K) (hphase : s.2.phase = none)
    (hs : Sound (sparsePart dense) cost s.1) (hnodup : queue.Nodup)
    (hfree : ∀ j ∈ queue, dense j = false ∧ s.1.colToRow j = none) :
    AuctionRuns g dense queue opt s := by
  have hstart : Auctioning g dense (auctionStart g dense queue opt.toAuctionOptions s) :=
    auctionStart_auctioning hg hs hnodup hfree
  have hfall : ∀ {t t'}, Auctioning g dense t → Reaches g dense opt.toAuctionOptions t t' →
      ∀ i, t'.1.u i ≤ t.1.u i := by
    intro t t' ht hr i
    induction hr with
    | refl => exact le_rfl
    | tail hr hp ih => exact (hp.u_le (ht.reaches hg hr) i).trans ih
  exact {
    orderly := fun t hr => (hstart.reaches hg hr).orderly hg
    falls := fun t t' hr hr' i => ⟨hfall (hstart.reaches hg hr) hr' i, hfall hstart hr i⟩
    bounded := ⟨auctionMeasure opt.toAuctionOptions
      (auctionStart g dense queue opt.toAuctionOptions s), fun p m h₀ hp => by
        have hle := measure_passes hp
        rw [h₀] at hle
        omega⟩
    calls := fun budget k => (auctionCalls_reaches hphase budget k).1
    same := fun budget k hpause =>
      (auctionCalls_pass s budget k).resolve_right fun h => hpause h.1
    ends := ⟨_, fun budget hb => auctionCalls_ends hphase hb⟩
    served := fun budget k hdone t j _ hr hj =>
      (auctionCalls_reaches hphase budget k).2.1.served hdone (Cared.reaches hr (.inr (.inl hj))) }

end Calls

/-! ## A run with a dense row -/

/-- Two columns that compete for row 0, and a column with row 2 only. -/
def contestCost : Fin 3 → Fin 3 → WithTop ℚ :=
  ![![0, 0, ⊤], ![1, ⊤, ⊤], ![⊤, 1, 0]]

/-- Its columns as lists. -/
def contest : CostGraph 3 ℚ where
  col j := (List.finRange 3).filterMap fun i =>
    WithTop.recTopCoe none (fun c => some (i, c)) (contestCost i j)
  colMax := fun _ => 1

theorem contest_lists : contest.Lists contestCost := by
  refine ⟨by decide, fun i j c => ?_⟩
  simp only [contest, List.mem_filterMap, List.mem_finRange, true_and]
  constructor
  · rintro ⟨k, hk⟩
    cases h : contestCost k j using WithTop.recTopCoe with
    | top => simp [h] at hk
    | coe c' => simp_all
  · intro h
    exact ⟨i, by simp [h]⟩

/-- Nothing matched yet, every dual 0. -/
def contestStart : MatchArrays 3 ℚ × AuctionState 3 ℚ :=
  ({ u := fun _ => 0, v := fun _ => 0, rowMatch := fun _ => none, colToRow := fun _ => none,
     work := 0 }, .fresh 3 ℚ)

/-- With row and column 2 dense, columns 0 and 1 bid for row 0. -/
theorem auction_runs_contest :
    AuctionRuns contest (· == 2) [0, 1]
      (validated hybridAuctionOptions hybridAuctionOptions) contestStart := by
  refine auction_runs contest_lists _ rfl ⟨fun i j => ⟨nofun, nofun⟩, fun i j c hc => ?_, nofun⟩
    (by decide) (by decide)
  have hmem := (contest_lists.mem_iff i j c).mpr (partCost_eq.mp hc).2.2
  have hpos : ∀ j, ∀ e ∈ contest.col j, 0 ≤ e.2 := by decide
  exact (add_zero (0 : ℚ)).le.trans (hpos j _ hmem)

end Matching
end SmfSolver
