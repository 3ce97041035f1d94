/-
  SmfSolver.Matching.SymmetricMatcher

  The resumable maximum-product matching: the constructor's initial phase (duals of
  the sparse part, greedy matching, length-2 augmentations), the searches over the
  sparse part, the duals of the dense rows and columns, the searches over the full
  graph, and, under Hybrid, the switch to the auction with its repair and its
  canonical duals.

  `advance` runs one loop, `advanceStep` is its pass: control is in phase 1's inner
  loop, at phase 1's end or in phase 3's loop, by the phase and the flags.  A false
  result means that the work reached the budget.
-/
import SmfSolver.Matching.Search
import Mathlib.Data.List.Sort

namespace SmfSolver
namespace Matching

open Lib

/-- The order of phase 1's searches. -/
inductive MatchingSearchOrder
  | column
  | degree
  deriving DecidableEq, Repr

/-- The sparse part's engine. -/
inductive MatchingAlgorithm
  | shortestPath
  | hybrid
  deriving DecidableEq, Repr

/-- Searches left: phase 1 (sparse part) or 3 (full graph); 4 once none is left. -/
inductive Phase
  | one
  | three
  | four
  deriving DecidableEq, Repr

/-- The matcher's state. -/
structure State (n : ℕ) (K : Type*) [Field K] [LinearOrder K] extends MatchArrays n K where
  shapeOk : Bool
  status : ErrorCode
  g : CostGraph n K
  dist : Fin n → Dist K
  rowDone : Fin n → Bool
  /-- Dense row and column. -/
  rowDense : Fin n → Bool
  matched : ℕ
  anyDense : Bool
  phase : Phase
  nextCol : ℕ
  order : MatchingSearchOrder
  alg : MatchingAlgorithm
  auctionOpt : ValidOptions K
  auction : AuctionState n K
  /-- Columns the repair left free. -/
  repaired : ℕ
  /-- Phase 1 switches to the auction before the first search at which the work has
      passed this. -/
  switchWork : K
  switched : Bool
  searchOrder : List (Fin n)
  stopFree : ℤ
  /-- The column duals of the initial phase. -/
  initV : Fin n → K
  /-- The next pass runs the auction. -/
  hybridArmed : Bool
  hybridQueue : List (Fin n)
  /-- Phase-1 searches that failed before the switch. -/
  hybridFailed : List (Fin n)
  /-- The row duals at the switch. -/
  hybridResetU : Fin n → K
  canonDue : Bool

/-! ## The initial phase -/

section Initial

variable {n : ℕ} {K : Type*} [Field K] [LinearOrder K]

/-- More entries than max(16, 10 sqrt n), in matrices of order above 50. -/
def isDense (g : CostGraph n K) (j : Fin n) : Bool :=
  50 < n ∧ 16 < (g.col j).length ∧ 100 * n < (g.col j).length ^ 2

/-- `u[i] = min_j cost(i, j)` on the sparse part, 0 without sparse entries. -/
def initialU (g : CostGraph n K) (dense : Fin n → Bool) (i : Fin n) : K :=
  if dense i then 0
  else (minOf ((sparseCols n dense).flatMap fun j =>
    ((g.col j).filter (·.1 = i)).map (·.2))).untopD 0

/-- `v[j] = min_i cost(i, j) - u[i]` on the sparse part, 0 without sparse entries. -/
def initialV (g : CostGraph n K) (dense : Fin n → Bool) (u : Fin n → K) (j : Fin n) : K :=
  if dense j then 0
  else (minOf ((sparseEntries g dense j).map fun e => e.2 - u e.1)).untopD 0

/-- The matching under construction and, for the augmentations, each column's scan
    cursor: the entries it has not passed. -/
structure Greedy (n : ℕ) (K : Type*) where
  rowMatch : Fin n → Option (Fin n)
  colToRow : Fin n → Option (Fin n)
  matched : ℕ
  cursor : Fin n → List (Fin n × K)

/-- Entry `e` of column `j` is on a tight edge to a sparse row. -/
def tightEntry (dense : Fin n → Bool) (u v : Fin n → K) (j : Fin n) (e : Fin n × K) : Bool :=
  !dense e.1 && decide (e.2 - u e.1 - v j ≤ 0)

/-- Matches column `j` to its first free sparse row along a tight edge. -/
def greedyColumn (g : CostGraph n K) (dense : Fin n → Bool) (u v : Fin n → K)
    (s : Greedy n K) (j : Fin n) : Greedy n K :=
  if dense j then s
  else
    match (g.col j).find? fun e => tightEntry dense u v j e && (s.rowMatch e.1).isNone with
    | none => s
    | some e =>
      { s with
        rowMatch := Function.update s.rowMatch e.1 (some j)
        colToRow := Function.update s.colToRow j (some e.1)
        matched := s.matched + 1 }

/-- Moves a cursor past the first entry that passes the test: its row, if there is
    one, and the rest. -/
def advanceCursor (test : Fin n × K → Bool) :
    List (Fin n × K) → Option (Fin n) × List (Fin n × K)
  | [] => (none, [])
  | e :: l => if test e then (some e.1, l) else advanceCursor test l

/-- The entries of the free column `j` left to try: it takes row `i` from column
    `jj`, which moves to another free tight row. -/
def augmentEntries (dense : Fin n → Bool) (u v : Fin n → K) (j : Fin n) :
    List (Fin n × K) → Greedy n K → Greedy n K
  | [], s => s
  | e :: l, s =>
    if tightEntry dense u v j e then
      match s.rowMatch e.1 with
      | none => augmentEntries dense u v j l s
      | some jj =>
        -- column `jj` looks on from where its last look ended
        let moved := advanceCursor
          (fun e' => tightEntry dense u v jj e' && (s.rowMatch e'.1).isNone) (s.cursor jj)
        let s' := { s with cursor := Function.update s.cursor jj moved.2 }
        match moved.1 with
        | none => augmentEntries dense u v j l s'
        | some freeRow =>
          { s' with
            rowMatch := Function.update (Function.update s.rowMatch freeRow (some jj)) e.1 (some j)
            colToRow := Function.update (Function.update s.colToRow jj (some freeRow)) j (some e.1)
            matched := s.matched + 1 }
    else augmentEntries dense u v j l s

/-- The length-2 augmentation of column `j`. -/
def augmentColumn (g : CostGraph n K) (dense : Fin n → Bool) (u v : Fin n → K)
    (s : Greedy n K) (j : Fin n) : Greedy n K :=
  if s.matched < n ∧ dense j = false ∧ s.colToRow j = none then
    augmentEntries dense u v j (g.col j) s
  else s

/-- The greedy matching and the length-2 augmentations. -/
def initialMatching (g : CostGraph n K) (dense : Fin n → Bool) (u v : Fin n → K) : Greedy n K :=
  (List.finRange n).foldl (augmentColumn g dense u v)
    ((List.finRange n).foldl (greedyColumn g dense u v)
      { rowMatch := fun _ => none
        colToRow := fun _ => none
        matched := 0
        cursor := g.col })

variable [IsStrictOrderedRing K]

/-- The state before the matrix is looked at. -/
def State.blank (order : MatchingSearchOrder) (alg : MatchingAlgorithm)
    (auction : Option (AuctionOptions K)) (nnz : ℤ) : State n K :=
  let opt := match alg with
    | .shortestPath => validated AuctionOptions.kernel AuctionOptions.kernel
    | .hybrid => validated (auction.getD hybridAuctionOptions) hybridAuctionOptions
  { u := fun _ => 0
    v := fun _ => 0
    rowMatch := fun _ => none
    colToRow := fun _ => none
    work := 0
    shapeOk := true
    status := .success
    g := { col := fun _ => [], colMax := fun _ => 0 }
    dist := fun _ => ⊤
    rowDone := fun _ => false
    rowDense := fun _ => false
    matched := 0
    anyDense := false
    phase := .one
    nextCol := 0
    order := order
    alg := alg
    auctionOpt := opt
    auction := AuctionState.fresh n K
    repaired := 0
    switchWork := match alg with
      | .shortestPath => 0
      | .hybrid => opt.switchPasses * 2.0 * (nnz : K)
    switched := false
    searchOrder := []
    stopFree := -1
    initV := fun _ => 0
    hybridArmed := false
    hybridQueue := []
    hybridFailed := []
    hybridResetU := fun _ => 0
    canonDue := false }

/-- The initial phase on the graph `g`.  Phase 1 hides the dense rows from its
    searches by a distance of -inf. -/
def State.initial (s : State n K) (g : CostGraph n K) : State n K :=
  let dense := isDense g
  let u := initialU g dense
  let v := initialV g dense u
  let m := initialMatching g dense u v
  { s with
    g := g
    rowDense := dense
    anyDense := (List.finRange n).any dense
    u := u
    v := v
    rowMatch := m.rowMatch
    colToRow := m.colToRow
    matched := m.matched
    initV := v
    dist := fun i => if dense i then ⊥ else ⊤ }

/-- The constructor. -/
def new (log : K → K) (A : CscLower K) (order : MatchingSearchOrder) (alg : MatchingAlgorithm)
    (auction : Option (AuctionOptions K)) : State A.dim K :=
  let s : State A.dim K := State.blank order alg auction A.nnz
  if h : A.Valid then
    if A.dim = 0 then { s with phase := .four }
    else
      match buildCostGraph log (A.lowerColumns h) with
      | .error e => { s with status := e }
      | .ok g => s.initial g
  else { s with shapeOk := false, status := .illegalValue }

end Initial

/-! ## The searches -/

section Searches

variable {n : ℕ} {K : Type*} [Field K] [LinearOrder K]

/-- Shortest augmenting path from a free column; true when it matched the column. -/
def State.search (s : State n K) (start : Fin n) : State n K × Bool :=
  let w := searchScan s.g start s.toMatchArrays s.dist s.rowDone
  ({ s with
      toMatchArrays := searchArrays start s.toMatchArrays w
      matched := if w.freeRow.isSome then s.matched + 1 else s.matched
      dist := resetTouched ⊤ w.touched w.dist
      rowDone := resetTouched false w.touched w.done },
    w.freeRow.isSome)

/-- Lists phase 1's free sparse columns in the search order. -/
def State.listFreeSparse (s : State n K) : State n K :=
  let free := (sparseCols n s.rowDense).filter fun j => (s.colToRow j).isNone
  { s with
    searchOrder := match s.order with
      | .column => free
      | .degree => free.insertionSort fun a b => (s.g.col b).length ≤ (s.g.col a).length }

/-! ## Phase 2 -/

/-- Dense rows take the largest u, then dense columns the largest v, that keep every
    reduced cost non-negative.  (A dense column has entries, so its minimum is one.) -/
def State.denseDuals (s : State n K) : State n K :=
  let u := fun i =>
    if s.rowDense i then
      (minOf ((sparseCols n s.rowDense).flatMap fun j =>
        ((s.g.col j).filter (·.1 = i)).map fun e => e.2 - s.v j)).untopD 0
    else s.u i
  { s with
    u := u
    v := fun j =>
      if s.rowDense j then (minOf ((s.g.col j).map fun e => e.2 - u e.1)).untopD 0 else s.v j
    dist := fun i => if s.rowDense i then ⊤ else s.dist i }

end Searches

/-! ## Hybrid: repair -/

section Walk

variable {n : ℕ} {K : Type*}

/-- The repair's walk from the free columns over alternating paths. -/
structure RepairWalk (n : ℕ) (K : Type*) where
  /-- Columns to expand; the end of the source's stack is the head here. -/
  stack : List (Fin n)
  seen : Fin n → Bool
  reached : List (Fin n)
  u : Fin n → K
  work : ℕ

/-- One entry of an expanded column: an unseen sparse row gets its dual at the switch
    back. -/
def repairEntry (dense : Fin n → Bool) (resetU : Fin n → K) (rowMatch : Fin n → Option (Fin n))
    (w : RepairWalk n K) (e : Fin n × K) : RepairWalk n K :=
  if dense e.1 || w.seen e.1 then w
  else
    { w with
      seen := Function.update w.seen e.1 true
      reached := w.reached ++ [e.1]
      u := Function.update w.u e.1 (resetU e.1)
      stack := match rowMatch e.1 with
        | none => w.stack
        | some k => k :: w.stack }

/-- One pass of the walk's loop. -/
def repairStep (g : CostGraph n K) (dense : Fin n → Bool) (resetU : Fin n → K)
    (rowMatch : Fin n → Option (Fin n)) (w : RepairWalk n K) : RepairWalk n K ⊕ RepairWalk n K :=
  match w.stack with
  | [] => .inr w
  | j :: stack =>
    .inl ((g.col j).foldl (repairEntry dense resetU rowMatch)
      { w with stack := stack, work := w.work + (g.col j).length })

/-- Unseen rows weigh two, queued columns one. -/
def repairMeasure (w : RepairWalk n K) : ℕ :=
  2 * ((List.finRange n).filter fun i => !w.seen i).length + w.stack.length

theorem repairEntry_measure (dense : Fin n → Bool) (resetU : Fin n → K)
    (rowMatch : Fin n → Option (Fin n)) (w : RepairWalk n K) (l : List (Fin n × K)) :
    repairMeasure (l.foldl (repairEntry dense resetU rowMatch) w) ≤ repairMeasure w := by
  induction l generalizing w with
  | nil => exact le_rfl
  | cons e l ih =>
    refine (ih _).trans ?_
    unfold repairEntry
    split_ifs with h
    · exact le_rfl
    · rw [Bool.or_eq_true, not_or, Bool.not_eq_true, Bool.not_eq_true] at h
      have hopen := open_update h.2
      unfold repairMeasure
      dsimp only
      split
      · omega
      · rw [List.length_cons]
        omega

theorem repairStep_decreases (g : CostGraph n K) (dense : Fin n → Bool) (resetU : Fin n → K)
    (rowMatch : Fin n → Option (Fin n)) :
    Loop.Decreases (repairStep g dense resetU rowMatch) repairMeasure := by
  intro w w' h
  unfold repairStep at h
  split at h
  · cases h
  · rename_i j stack hstack
    obtain rfl := Sum.inl.inj h
    refine lt_of_le_of_lt (repairEntry_measure dense resetU rowMatch _ _) ?_
    unfold repairMeasure
    rw [hstack, List.length_cons]
    exact Nat.lt_succ_self _

end Walk

section Repair

variable {n : ℕ} {K : Type*} [Field K] [LinearOrder K]

/-- The walk from the free sparse columns. -/
def State.repairWalk (s : State n K) : RepairWalk n K :=
  Loop.run (repairStep s.g s.rowDense s.hybridResetU s.rowMatch) repairMeasure
    (repairStep_decreases s.g s.rowDense s.hybridResetU s.rowMatch)
    { stack := ((sparseCols n s.rowDense).filter fun j => (s.colToRow j).isNone).reverse
      seen := s.rowDone
      reached := []
      u := s.u
      work := s.work }

/-- The second half of the repair, sparse column `j`: an exactly feasible v, and a
    matched edge left loose is unmatched. -/
def repairColumn (s : State n K) (j : Fin n) : State n K :=
  if s.rowDense j then s
  else
    let l := sparseEntries s.g s.rowDense j
    let vj := (minOf (l.map fun e => e.2 - s.u e.1)).untopD 0
    let s' := { s with work := s.work + (s.g.col j).length, v := Function.update s.v j vj }
    match s.colToRow j with
    | none => s'
    | some r =>
      -- a matched edge above the least reduced cost is given up
      if (vj : WithTop K) < matchedValue s.u r l then
        { s' with
          rowMatch := Function.update s'.rowMatch r none
          colToRow := Function.update s'.colToRow j none }
      else { s' with matched := s'.matched + 1 }

/-- After the auction: the duals at the switch come back on every row a free column
    reaches, v is made exactly feasible on the sparse part, loose matched edges are
    unmatched, and the free sparse columns are listed for the searches. -/
def State.repair (s : State n K) : State n K :=
  let w := s.repairWalk
  let s₁ := { s with
    u := w.u
    rowDone := resetTouched false w.reached w.seen
    work := w.work
    matched := 0 }
  let s₂ := ((List.finRange n).foldl repairColumn s₁).listFreeSparse
  { s₂ with nextCol := 0, repaired := s₂.searchOrder.length }

/-! ## Hybrid: canonical duals -/

/-- The working state of `canonicalDuals`. -/
structure Canon (n : ℕ) (K : Type*) where
  delta : Fin n → K
  done : Fin n → Bool
  heap : IndexedMinHeap n K
  work : ℕ

/-- One entry of the column matched to the row popped at distance `dk`. -/
def canonEntry (a : MatchArrays n K) (j : Fin n) (dk : K) (w : Canon n K) (e : Fin n × K) :
    Canon n K :=
  let nd := dk + max 0 (e.2 - a.u e.1 - a.v j)
  if w.done e.1 = false ∧ nd < w.delta e.1 then
    { w with
      delta := Function.update w.delta e.1 nd
      heap := w.heap.pushOrDecrease e.1 nd }
  else w

/-- One pass: the row at the top of the heap is done, and the rows of its column get
    their distance over it. -/
def canonStep (g : CostGraph n K) (a : MatchArrays n K) (w : Canon n K) : Canon n K ⊕ Canon n K :=
  match w.heap.top? with
  | none => .inr w
  | some (dk, k) =>
    let w' := { w with heap := w.heap.pop, done := Function.update w.done k true }
    match a.rowMatch k with
    | none => .inl w'
    | some j =>
      .inl ((g.col j).foldl (canonEntry a j dk) { w' with work := w'.work + (g.col j).length })

/-- Rows neither done nor queued weigh two, queued rows one. -/
def canonMeasure (w : Canon n K) : ℕ :=
  2 * ((List.finRange n).filter fun i => !(w.done i || w.heap.contains i)).length + w.heap.size

/-- Rows that turn true in a test leave the filtered list. -/
theorem filter_length_le {p q : Fin n → Bool} (h : ∀ i, p i = true → q i = true) :
    ((List.finRange n).filter fun i => !q i).length
      ≤ ((List.finRange n).filter fun i => !p i).length := by
  refine (List.monotone_filter_right _ fun i hq => ?_).length_le
  by_contra hp
  rw [Bool.not_eq_true, Bool.not_eq_false'] at hp
  rw [h i hp] at hq
  cases hq

/-- If row `i` turns true as well, the list loses a row. -/
theorem filter_length_lt {p q : Fin n → Bool} (h : ∀ i, p i = true → q i = true) {i : Fin n}
    (hp : p i = false) (hq : q i = true) :
    ((List.finRange n).filter fun i => !q i).length + 1
      ≤ ((List.finRange n).filter fun i => !p i).length := by
  rw [← open_update hp]
  refine Nat.succ_le_succ (filter_length_le fun k hk => ?_)
  by_cases hki : k = i
  · rw [hki]
    exact hq
  · rw [Function.update_of_ne hki] at hk
    exact h k hk

theorem canonEntry_measure (a : MatchArrays n K) (j : Fin n) (dk : K) (w : Canon n K)
    (l : List (Fin n × K)) :
    canonMeasure (l.foldl (canonEntry a j dk) w) ≤ canonMeasure w := by
  induction l generalizing w with
  | nil => exact le_rfl
  | cons e l ih =>
    refine (ih _).trans ?_
    unfold canonEntry
    dsimp only
    split_ifs with h
    · unfold canonMeasure
      dsimp only
      have hkeep : ∀ i, (w.done i || w.heap.contains i) = true →
          (w.done i || (w.heap.pushOrDecrease e.1
            (dk + max 0 (e.2 - a.u e.1 - a.v j))).contains i) = true := by
        intro i hi
        rw [Bool.or_eq_true] at hi ⊢
        exact hi.imp_right fun hc => IndexedMinHeap.pushOrDecrease_contains (.inr hc)
      by_cases hc : w.heap.contains e.1 = true
      · rw [IndexedMinHeap.pushOrDecrease_size_of_contains hc]
        have := filter_length_le hkeep
        omega
      · have hlt := filter_length_lt hkeep (i := e.1)
          (by rw [h.1, Bool.false_or]; exact Bool.not_eq_true _ ▸ hc)
          (by rw [IndexedMinHeap.pushOrDecrease_contains (.inl rfl), Bool.or_true])
        have := w.heap.pushOrDecrease_size e.1 (dk + max 0 (e.2 - a.u e.1 - a.v j))
        omega
    · exact le_rfl

theorem canonStep_decreases (g : CostGraph n K) (a : MatchArrays n K) :
    Loop.Decreases (canonStep g a) canonMeasure := by
  intro w w' h
  unfold canonStep at h
  split at h
  · cases h
  · rename_i dk k htop
    -- a pass pops one row and marks it done; a row that it pushes weighs one for two
    have hpop :
        canonMeasure { w with heap := w.heap.pop, done := Function.update w.done k true } + 1
          ≤ canonMeasure w := by
      have hsize : 0 < w.heap.size := by
        unfold IndexedMinHeap.top? at htop
        unfold IndexedMinHeap.size
        obtain ⟨l, hl⟩ := List.head?_eq_some_iff.mp htop
        rw [hl]
        exact Nat.succ_pos _
      have hkeep : ∀ i, (w.done i || w.heap.contains i) = true →
          (Function.update w.done k true i || w.heap.pop.contains i) = true := by
        intro i hi
        by_cases hik : i = k
        · rw [hik, Function.update_self, Bool.true_or]
        · rw [Function.update_of_ne hik]
          rw [Bool.or_eq_true] at hi ⊢
          exact hi.imp_right fun hc => IndexedMinHeap.pop_contains htop hik hc
      have := filter_length_le hkeep
      unfold canonMeasure
      dsimp only
      rw [w.heap.pop_size]
      omega
    dsimp only at h
    split at h
    · obtain rfl := Sum.inl.inj h
      exact hpop
    · obtain rfl := Sum.inl.inj h
      exact lt_of_le_of_lt (canonEntry_measure a _ dk _ _) hpop

/-- Every sparse row starts at its distance to the dual at the switch; dense rows are
    done. -/
def State.canonStart (s : State n K) : Canon n K :=
  (List.finRange n).foldl
    (fun w i =>
      if s.rowDense i then { w with done := Function.update w.done i true }
      else
        let d := max 0 (s.hybridResetU i - s.u i)
        { w with delta := Function.update w.delta i d, heap := w.heap.pushOrDecrease i d })
    { delta := fun _ => 0, done := fun _ => false, heap := IndexedMinHeap.reset, work := s.work }

/-- The shortest distances of `canonicalDuals`. -/
def State.canonRun (s : State n K) : Canon n K :=
  Loop.run (canonStep s.g s.toMatchArrays) canonMeasure
    (canonStep_decreases s.g s.toMatchArrays) s.canonStart

/-- Moves the sparse rows' duals up by their distances and the matched columns' down;
    the free sparse columns keep the initial phase's v. -/
def State.canonicalDuals (s : State n K) : State n K :=
  let w := s.canonRun
  let u := fun i => s.u i + w.delta i
  let v := (List.finRange n).foldl
    (fun v i => match s.rowMatch i with
      | none => v
      | some j => Function.update v j (v j - w.delta i)) s.v
  -- a free column keeps what it had at the start, lowered where a row went up
  let free := (sparseCols n s.rowDense).filter fun j => (s.colToRow j).isNone
  { s with
    canonDue := false
    u := u
    v := fun j =>
      if s.rowDense j = false ∧ s.colToRow j = none then
        (sparseEntries s.g s.rowDense j).foldl (fun m e => min m (e.2 - u e.1)) (s.initV j)
      else v j
    work := w.work + (free.map fun j => (s.g.col j).length).sum }

/-- The snapshot a switch takes before the auction starts. -/
def State.hybridSnapshot (s : State n K) : State n K :=
  if s.auction.phase = none then
    { s with
      hybridQueue := s.searchOrder.drop s.nextCol
      hybridFailed := (s.searchOrder.take s.nextCol).filter fun j => (s.colToRow j).isNone
      hybridResetU := s.u }
  else s

/-- The end of phase 1. -/
def State.endPhaseOne (s : State n K) : State n K :=
  let s := if s.canonDue then s.canonicalDuals else s
  let s := if s.anyDense then s.denseDuals else s
  { s with phase := .three, nextCol := 0 }

/-- The budget is used up. -/
def State.outOfBudget (s : State n K) (workBudget : ℤ) : Prop :=
  0 ≤ workBudget ∧ workBudget ≤ s.work

instance (s : State n K) (workBudget : ℤ) : Decidable (s.outOfBudget workBudget) :=
  inferInstanceAs (Decidable (_ ∧ _))

/-- One pass of phase 3. -/
def phaseThreeStep (workBudget : ℤ) (s : State n K) : State n K ⊕ State n K × Bool :=
  if h : s.nextCol < n then
    let j : Fin n := ⟨s.nextCol, h⟩
    if n ≤ s.matched then .inr ({ s with phase := .four }, true)
    else if s.colToRow j = none then
      if s.outOfBudget workBudget then .inr (s, false)
      else
        let r := s.search j
        if r.2 then .inl { r.1 with nextCol := s.nextCol + 1 }
        else .inr ({ r.1 with status := .singularMatrix, phase := .four }, true)
    else .inl { s with nextCol := s.nextCol + 1 }
  else .inr ({ s with phase := .four }, true)

end Repair

/-! ## The resumable run -/

section Advance

variable {n : ℕ} {K : Type*} [Field K] [LinearOrder K] [IsStrictOrderedRing K] [FloorSemiring K]

/-- The auction and the repair; false: paused by the budget inside the auction. -/
def State.hybridStep (s : State n K) (workBudget : ℤ) : State n K × Bool :=
  let s₁ := s.hybridSnapshot
  let r := auctionAdvance s₁.g s₁.rowDense s₁.hybridQueue s₁.auctionOpt workBudget
    (s₁.toMatchArrays, s₁.auction)
  let s₂ : State n K := { s₁ with toMatchArrays := r.2.1, auction := r.2.2 }
  match r.1 with
  | .paused => (s₂, false)
  | _ =>
    let s₃ : State n K := { s₂.repair with canonDue := true, hybridArmed := false }
    -- the searches that failed before the switch would fail again: phase 3 takes them
    if s₃.hybridFailed.isEmpty then (s₃, true)
    else
      let marked := s₃.hybridFailed.foldl (fun d j => Function.update d j true) s₃.rowDone
      let order := s₃.searchOrder.filter fun j => !marked j
      ({ s₃ with
          searchOrder := order
          rowDone := resetTouched false s₃.hybridFailed marked
          repaired := order.length }, true)

/-- One pass of phase 1. -/
def phaseOneStep (workBudget : ℤ) (s : State n K) : State n K ⊕ State n K × Bool :=
  if s.hybridArmed then
    let r := s.hybridStep workBudget
    if r.2 then .inl r.1 else .inr (r.1, false)
  else
    match s.searchOrder[s.nextCol]? with
    | none => .inl s.endPhaseOne
    | some j =>
      if n ≤ s.matched then .inl s.endPhaseOne
      else if s.outOfBudget workBudget then .inr (s, false)
      -- the searches have cost enough: the auction takes over, once
      else if s.alg = .hybrid ∧ s.switched = false ∧ s.switchWork < (s.work : K) then
        .inl { s with switched := true, hybridArmed := true }
      -- the caller is content with so many free columns
      else if 0 ≤ s.stopFree ∧ (n : ℤ) - s.matched ≤ s.stopFree then
        .inr ({ (if s.anyDense then s.denseDuals else s) with phase := .four }, true)
      else .inl { (s.search j).1 with nextCol := s.nextCol + 1 }

/-- One pass of `advance`. -/
def advanceStep (workBudget : ℤ) (s : State n K) : State n K ⊕ State n K × Bool :=
  match s.phase with
  | .one => phaseOneStep workBudget s
  | .three => phaseThreeStep workBudget s
  | .four => .inr (s, true)

end Advance

end Matching
end SmfSolver
