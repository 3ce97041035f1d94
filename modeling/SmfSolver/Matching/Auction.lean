/-
  SmfSolver.Matching.Auction

  The epsilon-scaling auction on the sparse part of the cost graph: columns bid
  for rows, a row's price is -u_i, and every phase divides the epsilon until its
  last value.  `auctionAdvance` is resumable: it pauses between bids when the work
  reaches the budget, and goes on from its `AuctionState`.

  Numbers are exact: K is an ordered field with a ceiling.  The options are valid
  by their type (`ValidOptions`), which is what bounds the number of phases.
-/
import SmfSolver.Lib.Loop
import SmfSolver.Matching.CostGraph
import Mathlib.Algebra.Order.Floor.Semiring
import Mathlib.Tactic.FieldSimp
import Mathlib.Tactic.Positivity

namespace SmfSolver
namespace Matching

open Lib

/-- The matching and its duals: what the searches, the auction and the repair all
    update in place. -/
structure MatchArrays (n : ℕ) (K : Type*) where
  /-- Row duals. -/
  u : Fin n → K
  /-- Column duals. -/
  v : Fin n → K
  /-- The matched column of each row. -/
  rowMatch : Fin n → Option (Fin n)
  /-- The matched row of each column. -/
  colToRow : Fin n → Option (Fin n)
  /-- Edges scanned. -/
  work : ℕ

/-! ## Options -/

/-- Tuning of the auction. -/
structure AuctionOptions (K : Type*) where
  epsFactor : K
  epsFinal : K
  bidCap : K
  epsStart : K
  switchPasses : K

/-- Options the auction runs under. -/
structure ValidOptions (K : Type*) [Field K] [LinearOrder K] extends AuctionOptions K where
  factor_ge : 3 / 2 ≤ epsFactor
  final_pos : 0 < epsFinal

section Options

variable {K : Type*} [Field K] [LinearOrder K] [IsStrictOrderedRing K]

/-- Every field out of its domain takes the default's value, and the valid ones are
    clamped. -/
def validated (opt dflt : AuctionOptions K) : ValidOptions K where
  epsFactor := max (if 1 < opt.epsFactor then opt.epsFactor else dflt.epsFactor) (3 / 2)
  epsFinal := max (if 0 < opt.epsFinal then opt.epsFinal else dflt.epsFinal) (1 / 10 ^ 12)
  bidCap := min (if 0 < opt.bidCap then opt.bidCap else dflt.bidCap) (10 ^ 6)
  epsStart := min (if 0 < opt.epsStart then opt.epsStart else dflt.epsStart) (10 ^ 3)
  switchPasses := if 0 ≤ opt.switchPasses then opt.switchPasses else dflt.switchPasses
  factor_ge := le_max_right _ _
  final_pos := lt_of_lt_of_le (by positivity) (le_max_right _ _)

/-- The auction kernel's own defaults. -/
def AuctionOptions.kernel : AuctionOptions K where
  epsFactor := 5
  epsFinal := 1 / 10 ^ 3
  bidCap := 50
  epsStart := 0
  switchPasses := 4

/-- The Hybrid defaults.  (The environment variable that overrides the switch point
    in benchmarks is one more choice of options.) -/
def hybridAuctionOptions : AuctionOptions K where
  epsFactor := 10
  epsFinal := 1 / 10 ^ 2
  bidCap := 50
  epsStart := 1 / 10
  switchPasses := 4

end Options

/-! ## The auction -/

inductive AuctionStatus
  | done
  | paused
  | capped
  deriving DecidableEq, Repr

/-- Everything the auction needs to go on. -/
structure AuctionState (n : ℕ) (K : Type*) where
  eps : K
  /-- `none`: not started. -/
  phase : Option ℕ
  /-- Free sparse columns, first in first out from `head` on. -/
  queue : List (Fin n)
  head : ℕ
  bidsInPhase : ℕ
  costRange : K
  bidLimit : ℕ
  dropped : Bool

/-- The auction before it starts. -/
def AuctionState.fresh (n : ℕ) (K : Type*) [Zero K] : AuctionState n K where
  eps := 0
  phase := none
  queue := []
  head := 0
  bidsInPhase := 0
  costRange := 0
  bidLimit := 0
  dropped := false

/-- The queue drops its popped front from this many popped entries on. -/
def queueCompactMin : ℕ := 1024

section Auction

variable {n : ℕ} {K : Type*} [Field K] [LinearOrder K]

/-- The least value of a list, `⊤` for none. -/
def minOf (l : List K) : WithTop K := l.foldl (fun m d => min m (d : WithTop K)) ⊤

/-- The entries of column `j` with a sparse row. -/
def sparseEntries (g : CostGraph n K) (dense : Fin n → Bool) (j : Fin n) : List (Fin n × K) :=
  (g.col j).filter fun e => !dense e.1

/-- The distance of the matched entry of a column, `⊤` when its row is not there. -/
def matchedValue (u : Fin n → K) (r : Fin n) (l : List (Fin n × K)) : WithTop K :=
  l.foldl (fun m e => if e.1 = r then ((e.2 - u e.1 : K) : WithTop K) else m) ⊤

/-- The columns that are not dense. -/
def sparseCols (n : ℕ) (dense : Fin n → Bool) : List (Fin n) :=
  (List.finRange n).filter fun j => !dense j

/-- Sets the auction up: the sparse part's cost bounds, the bid limit, the first
    epsilon and the first queue. -/
def auctionStart [FloorSemiring K] (g : CostGraph n K) (dense : Fin n → Bool)
    (firstQueue : List (Fin n)) (opt : AuctionOptions K)
    (s : MatchArrays n K × AuctionState n K) : MatchArrays n K × AuctionState n K :=
  let cols := sparseCols n dense
  let cs := cols.flatMap fun j => (sparseEntries g dense j).map (·.2)
  let cmax := cs.foldl max 0
  ({ s.1 with work := s.1.work + (cols.map fun j => (g.col j).length).sum },
    { s.2 with
      costRange := match minOf cs with
        | ⊤ => 0
        | (cmin : K) => cmax - cmin
      bidLimit := ⌈opt.bidCap * (cols.length : K)⌉₊
      -- a start the caller asks for, else a part of the largest cost
      eps := max (if 0 < opt.epsStart then opt.epsStart else cmax / opt.epsFactor) opt.epsFinal
      queue := firstQueue
      head := 0
      bidsInPhase := 0
      phase := some 0 })

/-- Frees the matched sparse column `j` when its edge is more than `eps` above the
    column's minimum. -/
def unmatchLoose (g : CostGraph n K) (dense : Fin n → Bool)
    (s : MatchArrays n K × AuctionState n K) (j : Fin n) : MatchArrays n K × AuctionState n K :=
  match s.1.colToRow j with
  | none => s
  | some r =>
    if dense j then s
    else
      let a := { s.1 with work := s.1.work + (g.col j).length }
      let l := sparseEntries g dense j
      -- a smaller epsilon finds the edge too dear
      if minOf (l.map fun e => e.2 - a.u e.1) + (s.2.eps : WithTop K) < matchedValue a.u r l then
        ({ a with
            rowMatch := Function.update a.rowMatch r none
            colToRow := Function.update a.colToRow j none },
          { s.2 with queue := s.2.queue ++ [j] })
      else (a, s.2)

/-- The next phase: a smaller epsilon, and the columns it makes too loose are queued. -/
def nextPhase (g : CostGraph n K) (dense : Fin n → Bool) (opt : AuctionOptions K)
    (s : MatchArrays n K × AuctionState n K) : MatchArrays n K × AuctionState n K :=
  (List.finRange n).foldl (unmatchLoose g dense)
    (s.1, { s.2 with
      eps := max (s.2.eps / opt.epsFactor) opt.epsFinal
      phase := s.2.phase.map (· + 1)
      queue := []
      head := 0
      bidsInPhase := 0 })

/-- The cheapest row of a bidding column, and its two smallest values. -/
structure Bid (n : ℕ) (K : Type*) where
  row : Fin n
  cost : K
  b1 : K
  b2 : WithTop K

/-- One entry of the bidding column; ties go to the lowest position. -/
def scanBid (u : Fin n → K) (best : Option (Bid n K)) (e : Fin n × K) : Option (Bid n K) :=
  let d := e.2 - u e.1
  match best with
  | none => some { row := e.1, cost := e.2, b1 := d, b2 := ⊤ }
  | some b =>
    if d < b.b1 then some { row := e.1, cost := e.2, b1 := d, b2 := b.b1 }
    else if (d : WithTop K) < b.b2 then some { b with b2 := d }
    else some b

/-- The queue without its popped front once that is long enough. -/
def compactQueue (st : AuctionState n K) : AuctionState n K :=
  if queueCompactMin ≤ st.head ∧ st.queue.length ≤ 2 * st.head then
    { st with queue := st.queue.drop st.head, head := 0 }
  else st

/-- The second-best value of a bid; a single sparse row's price rises by the sparse
    part's cost range, at least by epsilon. -/
def Bid.second (b : Bid n K) (st : AuctionState n K) : K :=
  match b.b2 with
  | ⊤ => b.b1 + max st.eps st.costRange
  | (x : K) => x

/-- Column `j` takes the row it bids for; the column it displaces goes to the back
    of the queue. -/
def placeBid (b : Bid n K) (j : Fin n) (s : MatchArrays n K × AuctionState n K) :
    MatchArrays n K × AuctionState n K :=
  let a := { s.1 with
    v := Function.update s.1.v j (b.second s.2)
    u := Function.update s.1.u b.row (b.cost - b.second s.2 - s.2.eps) }
  -- the price of the row falls by the bid, whoever had it
  match a.rowMatch b.row with
  | none =>
    ({ a with
        rowMatch := Function.update a.rowMatch b.row (some j)
        colToRow := Function.update a.colToRow j (some b.row) },
      compactQueue s.2)
  | some k =>
    ({ a with
        rowMatch := Function.update a.rowMatch b.row (some j)
        colToRow := Function.update (Function.update a.colToRow k none) j (some b.row) },
      compactQueue { s.2 with queue := s.2.queue ++ [k] })

/-- The bid of column `j`, the head of the queue. -/
def bid (g : CostGraph n K) (dense : Fin n → Bool) (j : Fin n)
    (s : MatchArrays n K × AuctionState n K) : MatchArrays n K × AuctionState n K :=
  let a := { s.1 with work := s.1.work + (g.col j).length }
  let st := { s.2 with head := s.2.head + 1 }
  match (sparseEntries g dense j).foldl (scanBid a.u) none with
  | none => (a, { st with dropped := true })
  | some b => placeBid b j (a, { st with bidsInPhase := st.bidsInPhase + 1 })

/-- One pass of the auction's loop. -/
def auctionStep (g : CostGraph n K) (dense : Fin n → Bool) (opt : AuctionOptions K)
    (workBudget : ℤ) (s : MatchArrays n K × AuctionState n K) :
    (MatchArrays n K × AuctionState n K) ⊕ (AuctionStatus × MatchArrays n K × AuctionState n K) :=
  match s.2.queue[s.2.head]? with
  | none =>
    if s.2.eps ≤ opt.epsFinal then
      .inr (if s.2.dropped then .capped else .done, s)
    else .inl (nextPhase g dense opt s)
  | some j =>
    if s.2.bidLimit ≤ s.2.bidsInPhase then .inr (.capped, s)
    else if 0 ≤ workBudget ∧ workBudget ≤ s.1.work then .inr (.paused, s)
    else .inl (bid g dense j s)

end Auction

/-! ## Termination -/

section Queue

variable {n : ℕ} {K : Type*}

theorem compactQueue_live (st : AuctionState n K) :
    (compactQueue st).queue.length - (compactQueue st).head = st.queue.length - st.head := by
  unfold compactQueue
  split_ifs
  · rw [List.length_drop, Nat.sub_zero]
  · rfl

@[simp] theorem compactQueue_eps (st : AuctionState n K) : (compactQueue st).eps = st.eps := by
  unfold compactQueue
  split_ifs <;> rfl

@[simp] theorem compactQueue_bids (st : AuctionState n K) :
    (compactQueue st).bidsInPhase = st.bidsInPhase := by
  unfold compactQueue
  split_ifs <;> rfl

@[simp] theorem compactQueue_limit (st : AuctionState n K) :
    (compactQueue st).bidLimit = st.bidLimit := by
  unfold compactQueue
  split_ifs <;> rfl

end Queue

section Termination

variable {n : ℕ} {K : Type*} [Field K] [LinearOrder K]

/-- What a placed bid does to the auction's counters. -/
theorem placeBid_counters (b : Bid n K) (j : Fin n) (s : MatchArrays n K × AuctionState n K) :
    (placeBid b j s).2.eps = s.2.eps ∧ (placeBid b j s).2.bidLimit = s.2.bidLimit ∧
      (placeBid b j s).2.bidsInPhase = s.2.bidsInPhase ∧
      (placeBid b j s).2.queue.length - (placeBid b j s).2.head
        ≤ s.2.queue.length - s.2.head + 1 := by
  unfold placeBid
  dsimp only
  split
  · simp only [compactQueue_eps, compactQueue_limit, compactQueue_bids, compactQueue_live]
    exact ⟨trivial, trivial, trivial, Nat.le_succ _⟩
  · simp only [compactQueue_eps, compactQueue_limit, compactQueue_bids, compactQueue_live,
      List.length_append, List.length_singleton]
    refine ⟨trivial, trivial, trivial, ?_⟩
    omega

/-- A bid keeps epsilon and the limit, and either counts as a bid or takes a column
    out of the queue. -/
theorem bid_counters (g : CostGraph n K) (dense : Fin n → Bool) (j : Fin n)
    {s : MatchArrays n K × AuctionState n K} (hhead : s.2.head < s.2.queue.length) :
    (bid g dense j s).2.eps = s.2.eps ∧ (bid g dense j s).2.bidLimit = s.2.bidLimit ∧
      ((bid g dense j s).2.bidsInPhase = s.2.bidsInPhase + 1 ∧
          (bid g dense j s).2.queue.length - (bid g dense j s).2.head
            ≤ s.2.queue.length - s.2.head ∨
        (bid g dense j s).2.bidsInPhase = s.2.bidsInPhase ∧
          (bid g dense j s).2.queue.length - (bid g dense j s).2.head
            < s.2.queue.length - s.2.head) := by
  unfold bid
  dsimp only
  split
  · refine ⟨rfl, rfl, .inr ⟨rfl, ?_⟩⟩
    show s.2.queue.length - (s.2.head + 1) < s.2.queue.length - s.2.head
    omega
  · rename_i b _
    obtain ⟨heps, hlimit, hbids, hlen⟩ := placeBid_counters b j
      ({ s.1 with work := s.1.work + (g.col j).length },
        { s.2 with head := s.2.head + 1, bidsInPhase := s.2.bidsInPhase + 1 })
    refine ⟨heps, hlimit, .inl ⟨hbids, hlen.trans ?_⟩⟩
    show s.2.queue.length - (s.2.head + 1) + 1 ≤ s.2.queue.length - s.2.head
    omega

/-- Freeing a column keeps epsilon and the counters and queues at most that column. -/
theorem unmatchLoose_counters (g : CostGraph n K) (dense : Fin n → Bool)
    (s : MatchArrays n K × AuctionState n K) (j : Fin n) :
    (unmatchLoose g dense s j).2.eps = s.2.eps ∧
      (unmatchLoose g dense s j).2.bidLimit = s.2.bidLimit ∧
      (unmatchLoose g dense s j).2.queue.length ≤ s.2.queue.length + 1 := by
  unfold unmatchLoose
  split
  · exact ⟨rfl, rfl, Nat.le_succ _⟩
  · dsimp only
    split_ifs
    · exact ⟨rfl, rfl, Nat.le_succ _⟩
    · exact ⟨rfl, rfl, by rw [List.length_append, List.length_singleton]⟩
    · exact ⟨rfl, rfl, Nat.le_succ _⟩

theorem foldl_unmatchLoose_counters (g : CostGraph n K) (dense : Fin n → Bool) (l : List (Fin n))
    (s : MatchArrays n K × AuctionState n K) :
    (l.foldl (unmatchLoose g dense) s).2.eps = s.2.eps ∧
      (l.foldl (unmatchLoose g dense) s).2.bidLimit = s.2.bidLimit ∧
      (l.foldl (unmatchLoose g dense) s).2.queue.length ≤ s.2.queue.length + l.length := by
  induction l generalizing s with
  | nil => exact ⟨rfl, rfl, le_rfl⟩
  | cons j l ih =>
    obtain ⟨heps, hlimit, hlen⟩ := ih (unmatchLoose g dense s j)
    obtain ⟨heps', hlimit', hlen'⟩ := unmatchLoose_counters g dense s j
    refine ⟨heps.trans heps', hlimit.trans hlimit', hlen.trans ?_⟩
    rw [List.length_cons]
    omega

theorem nextPhase_counters (g : CostGraph n K) (dense : Fin n → Bool) (opt : AuctionOptions K)
    (s : MatchArrays n K × AuctionState n K) :
    (nextPhase g dense opt s).2.eps = max (s.2.eps / opt.epsFactor) opt.epsFinal ∧
      (nextPhase g dense opt s).2.bidLimit = s.2.bidLimit ∧
      (nextPhase g dense opt s).2.queue.length ≤ n := by
  obtain ⟨heps, hlimit, hlen⟩ := foldl_unmatchLoose_counters g dense (List.finRange n)
    (s.1, { s.2 with
      eps := max (s.2.eps / opt.epsFactor) opt.epsFinal
      phase := s.2.phase.map (· + 1)
      queue := []
      head := 0
      bidsInPhase := 0 })
  refine ⟨heps, hlimit, hlen.trans ?_⟩
  rw [List.length_finRange]
  exact (Nat.zero_add n).le

variable [IsStrictOrderedRing K] [FloorSemiring K]

/-- A bound on the phases left: each phase that is not the last lowers it. -/
def phasesLeft (opt : AuctionOptions K) (eps : K) : ℕ := ⌈2 * eps / opt.epsFinal⌉₊

theorem phasesLeft_lt (opt : ValidOptions K) {eps : K} (h : opt.epsFinal < eps) :
    phasesLeft opt.toAuctionOptions (max (eps / opt.epsFactor) opt.epsFinal)
      < phasesLeft opt.toAuctionOptions eps := by
  have hf := opt.final_pos
  have hfac := opt.factor_ge
  have heps : 0 < eps := hf.trans h
  have hdiv : eps / opt.epsFactor ≤ 2 / 3 * eps := by
    rw [div_le_iff₀ (by linarith)]
    nlinarith
  unfold phasesLeft
  rcases le_total (2 / 3 * eps) opt.epsFinal with hlast | hmore
  · rw [max_eq_right (hdiv.trans hlast), mul_div_assoc, div_self hf.ne', mul_one]
    have htwo : ⌈(2 : K)⌉₊ = 2 := Nat.ceil_natCast 2
    rw [htwo, Nat.lt_ceil]
    push_cast
    rw [lt_div_iff₀ hf]
    linarith
  · refine lt_of_le_of_lt (Nat.ceil_mono (b := 2 * eps / opt.epsFinal - 1) ?_) ?_
    · rw [le_sub_iff_add_le, div_add_one hf.ne', div_le_div_iff_of_pos_right hf]
      have hmax : max (eps / opt.epsFactor) opt.epsFinal ≤ 2 / 3 * eps := max_le hdiv hmore
      linarith
    · rw [Nat.lt_ceil]
      have hone : 1 ≤ 2 * eps / opt.epsFinal := by
        rw [le_div_iff₀ hf]
        linarith
      have hceil := Nat.ceil_lt_add_one (sub_nonneg.mpr hone)
      linarith

/-- The auction's measure: phases, then bids, then queued columns. -/
def auctionMeasure (opt : AuctionOptions K) (s : MatchArrays n K × AuctionState n K) : ℕ :=
  phasesLeft opt s.2.eps * (2 * s.2.bidLimit + n + 1) + 2 * (s.2.bidLimit - s.2.bidsInPhase)
    + (s.2.queue.length - s.2.head)

theorem auctionStep_decreases (g : CostGraph n K) (dense : Fin n → Bool) (opt : ValidOptions K)
    (workBudget : ℤ) :
    Loop.Decreases (auctionStep g dense opt.toAuctionOptions workBudget)
      (auctionMeasure opt.toAuctionOptions) := by
  intro s s' h
  unfold auctionStep at h
  split at h
  · split_ifs at h with heps
    obtain rfl := Sum.inl.inj h
    obtain ⟨heps', hlimit, hlen⟩ := nextPhase_counters g dense opt.toAuctionOptions s
    have hlt := phasesLeft_lt opt (not_le.mp heps)
    unfold auctionMeasure
    rw [heps', hlimit]
    have hmul := Nat.mul_le_mul_right (2 * s.2.bidLimit + n + 1) (Nat.succ_le_of_lt hlt)
    rw [Nat.succ_mul] at hmul
    omega
  · rename_i j hj
    split_ifs at h with hcap hbudget
    obtain rfl := Sum.inl.inj h
    obtain ⟨hhead, -⟩ := List.getElem?_eq_some_iff.mp hj
    obtain ⟨heps, hlimit, hcount⟩ := bid_counters g dense j hhead
    unfold auctionMeasure
    rw [heps, hlimit]
    omega

/-- Runs bids until every sparse column is matched in the last phase, the budget is
    reached at a bid boundary, or a phase exceeds its bids. -/
def auctionAdvance (g : CostGraph n K) (dense : Fin n → Bool) (firstQueue : List (Fin n))
    (opt : ValidOptions K) (workBudget : ℤ) (s : MatchArrays n K × AuctionState n K) :
    AuctionStatus × MatchArrays n K × AuctionState n K :=
  Loop.run (auctionStep g dense opt.toAuctionOptions workBudget) _
    (auctionStep_decreases g dense opt workBudget)
    (if s.2.phase = none then auctionStart g dense firstQueue opt.toAuctionOptions s else s)

end Termination

end Matching
end SmfSolver
