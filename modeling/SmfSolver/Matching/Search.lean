/-
  SmfSolver.Matching.Search

  One shortest augmenting path search from a free column: Dijkstra on the reduced
  costs c - u - v, with a list for the rows at the current distance beside the
  heap, the early exit at the closest free row, the dual update over the finalized
  rows and the augmentation along the parents.

  A distance is an element of `WithBot (WithTop K)`: `⊤` is the untouched row's inf,
  `⊥` the -inf that hides a dense row from phase 1.  The scratch lists of the source
  (touched, finalized, level, the heap, row_parent) are the fields of `Scan`; they
  are empty when a search starts, since a search clears the heap and its counters.
  `dist` and `row_done` outlive a search, which resets them on the touched rows.
-/
import SmfSolver.Matching.Auction
import SmfSolver.Matching.IndexedMinHeap
import Mathlib.Order.WithBot

namespace SmfSolver
namespace Matching

open Lib

/-- A tentative search distance. -/
abbrev Dist (K : Type*) := WithBot (WithTop K)

/-- The finite value of a distance. -/
def distValue {K : Type*} [Zero K] (d : Dist K) : K := (d.unbotD 0).untopD 0

/-- The search's working state. -/
structure Scan (n : ℕ) (K : Type*) where
  dist : Fin n → Dist K
  /-- The column the search reached the row from. -/
  parent : Fin n → Option (Fin n)
  done : Fin n → Bool
  touched : List (Fin n)
  finalized : List (Fin n)
  /-- Rows at the current distance, those from the list's head on. -/
  level : List (Fin n)
  heap : IndexedMinHeap n K
  /-- The closest free row seen, and its distance. -/
  freeRow : Option (Fin n)
  pathLen : WithTop K
  base : K
  work : ℕ

section Search

variable {n : ℕ} {K : Type*} [Field K] [LinearOrder K]

/-- Row `i` gets distance `nd` through column `j`. -/
def Scan.reach (w : Scan n K) (i j : Fin n) (nd : K) : Scan n K :=
  { w with
    touched := if w.dist i = ⊤ then w.touched ++ [i] else w.touched
    dist := Function.update w.dist i ((nd : WithTop K) : Dist K)
    parent := Function.update w.parent i (some j) }

/-- A free row is reached: the closest one ends the path. -/
def Scan.reachFree (w : Scan n K) (i j : Fin n) (nd : K) : Scan n K :=
  let w' := w.reach i j nd
  if (nd : WithTop K) < w.pathLen then { w' with freeRow := some i, pathLen := nd } else w'

/-- A matched row is reached: it queues in the level list at the current distance,
    in the heap above it. -/
def Scan.reachMatched (w : Scan n K) (i j : Fin n) (base nd : K) : Scan n K :=
  let w' := w.reach i j nd
  if nd = base then { w' with level := w'.level ++ [i] }
  else { w' with heap := w'.heap.pushOrDecrease i nd }

/-- The rows of column `j` (its entries still to scan), at distance `base`. -/
def relaxEntries (a : MatchArrays n K) (j : Fin n) (base : K) :
    List (Fin n × K) → Scan n K → Scan n K
  | [], w => w
  | e :: l, w =>
    let nd := base + max 0 (e.2 - a.u e.1 - a.v j)
    if ((nd : WithTop K) : Dist K) < w.dist e.1 then
      if a.rowMatch e.1 = none then
        -- nothing beats a free row at the current distance: the scan ends there
        if nd = base then w.reachFree e.1 j nd
        else relaxEntries a j base l (w.reachFree e.1 j nd)
      else if (nd : WithTop K) < w.pathLen then
        relaxEntries a j base l (w.reachMatched e.1 j base nd)
      else relaxEntries a j base l w
    else relaxEntries a j base l w

/-- Scans column `j`, reached at distance `base`. -/
def relax (g : CostGraph n K) (a : MatchArrays n K) (j : Fin n) (base : K) (w : Scan n K) :
    Scan n K :=
  relaxEntries a j base (g.col j) { w with work := w.work + (g.col j).length }

/-- Finalizes row `i` and scans the column it is matched to. -/
def Scan.finalize (g : CostGraph n K) (a : MatchArrays n K) (w : Scan n K) (i : Fin n) (base : K) :
    Scan n K :=
  let w' := { w with
    done := Function.update w.done i true
    finalized := w.finalized ++ [i]
    base := base }
  match a.rowMatch i with
  | none => w'
  | some j => relax g a j base w'

/-- One pass of the search's loop. -/
def scanStep (g : CostGraph n K) (a : MatchArrays n K) (w : Scan n K) : Scan n K ⊕ Scan n K :=
  match w.level with
  | i :: level =>
    if w.pathLen ≤ w.base then .inr w
    else if w.done i then .inl { w with level := level }
    else .inl (Scan.finalize g a { w with level := level } i w.base)
  | [] =>
    match w.heap.top? with
    | none => .inr w
    | some (d, i) =>
      if w.pathLen ≤ d then .inr w
      -- a row moved to `level` keeps its older, larger entry
      else if w.done i ∨ w.dist i < ((d : WithTop K) : Dist K) then
        .inl { w with heap := w.heap.pop }
      else .inl (Scan.finalize g a { w with heap := w.heap.pop } i d)

/-! ## Termination -/

/-- Queued entries. -/
def Scan.queued (w : Scan n K) : ℕ := w.level.length + w.heap.size

omit [Field K] in
theorem Scan.reachFree_queued (w : Scan n K) (i j : Fin n) (nd : K) :
    (w.reachFree i j nd).queued = w.queued := by
  unfold Scan.reachFree
  dsimp only
  split_ifs <;> rfl

omit [Field K] in
theorem Scan.reachMatched_queued (w : Scan n K) (i j : Fin n) (base nd : K) :
    (w.reachMatched i j base nd).queued ≤ w.queued + 1 := by
  unfold Scan.reachMatched Scan.queued
  dsimp only
  split_ifs
  · show (w.level ++ [i]).length + w.heap.size ≤ _
    rw [List.length_append, List.length_singleton]
    omega
  · have := w.heap.pushOrDecrease_size i nd
    show w.level.length + (w.heap.pushOrDecrease i nd).size ≤ _
    omega

omit [Field K] in
theorem Scan.reachFree_done (w : Scan n K) (i j : Fin n) (nd : K) :
    (w.reachFree i j nd).done = w.done := by
  unfold Scan.reachFree
  dsimp only
  split_ifs <;> rfl

omit [Field K] in
theorem Scan.reachMatched_done (w : Scan n K) (i j : Fin n) (base nd : K) :
    (w.reachMatched i j base nd).done = w.done := by
  unfold Scan.reachMatched
  dsimp only
  split_ifs <;> rfl

/-- A column's scan finalizes nothing and queues at most one entry for each entry
    of the column. -/
theorem relaxEntries_queued (a : MatchArrays n K) (j : Fin n) (base : K) (l : List (Fin n × K))
    (w : Scan n K) :
    (relaxEntries a j base l w).done = w.done ∧
      (relaxEntries a j base l w).queued ≤ w.queued + l.length := by
  induction l generalizing w with
  | nil => exact ⟨rfl, le_rfl⟩
  | cons e l ih =>
    unfold relaxEntries
    dsimp only
    rw [List.length_cons]
    split_ifs
    · rw [Scan.reachFree_done, Scan.reachFree_queued]
      exact ⟨rfl, by omega⟩
    · obtain ⟨hdone, hq⟩ := ih (w.reachFree e.1 j (base + max 0 (e.2 - a.u e.1 - a.v j)))
      rw [Scan.reachFree_done] at hdone
      rw [Scan.reachFree_queued] at hq
      exact ⟨hdone, by omega⟩
    · obtain ⟨hdone, hq⟩ := ih (w.reachMatched e.1 j base (base + max 0 (e.2 - a.u e.1 - a.v j)))
      rw [Scan.reachMatched_done] at hdone
      have := w.reachMatched_queued e.1 j base (base + max 0 (e.2 - a.u e.1 - a.v j))
      exact ⟨hdone, by omega⟩
    · obtain ⟨hdone, hq⟩ := ih w
      exact ⟨hdone, by omega⟩
    · obtain ⟨hdone, hq⟩ := ih w
      exact ⟨hdone, by omega⟩

/-- Rows not finalized yet. -/
def Scan.open (w : Scan n K) : ℕ := ((List.finRange n).filter fun i => !w.done i).length

/-- Entries of the whole graph. -/
def CostGraph.entries (g : CostGraph n K) : ℕ :=
  ((List.finRange n).map fun j => (g.col j).length).sum

omit [Field K] [LinearOrder K] in
theorem CostGraph.length_le_entries (g : CostGraph n K) (j : Fin n) :
    (g.col j).length ≤ g.entries :=
  List.single_le_sum (fun _ _ => Nat.zero_le _) _ (List.mem_map_of_mem (List.mem_finRange j))

/-- Marking an open row leaves one open row less. -/
theorem open_update {done : Fin n → Bool} {i : Fin n} (h : done i = false) :
    ((List.finRange n).filter fun k => !Function.update done i true k).length + 1
      = ((List.finRange n).filter fun k => !done k).length := by
  have herase : ((List.finRange n).filter fun k => !Function.update done i true k)
      = ((List.finRange n).filter fun k => !done k).erase i := by
    rw [((List.nodup_finRange n).filter _).erase_eq_filter, List.filter_filter]
    refine List.filter_congr fun k _ => ?_
    by_cases hk : k = i
    · subst hk
      simp
    · simp [hk]
  have hmem : i ∈ (List.finRange n).filter fun k => !done k :=
    List.mem_filter.mpr ⟨List.mem_finRange i, by rw [h]; rfl⟩
  rw [herase, List.length_erase_of_mem hmem]
  exact Nat.sub_add_cancel (List.length_pos_of_mem hmem)

/-- The search's measure: open rows, then queued entries. -/
def scanMeasure (g : CostGraph n K) (w : Scan n K) : ℕ := w.open * (g.entries + 1) + w.queued

theorem finalize_measure (g : CostGraph n K) (a : MatchArrays n K) {w : Scan n K} {i : Fin n}
    (base : K) (h : w.done i = false) :
    scanMeasure g (w.finalize g a i base) + 1 ≤ scanMeasure g w := by
  -- one row fewer is open, which pays for every entry the row can queue
  have hopen : ((List.finRange n).filter fun k => !Function.update w.done i true k).length + 1
      = w.open := open_update h
  have hmul : w.open * (g.entries + 1)
      = ((List.finRange n).filter fun k => !Function.update w.done i true k).length
          * (g.entries + 1) + (g.entries + 1) := by
    rw [← hopen, Nat.succ_mul]
  unfold Scan.finalize scanMeasure
  rw [hmul]
  dsimp only
  split
  · show ((List.finRange n).filter fun k => !Function.update w.done i true k).length
      * (g.entries + 1) + w.queued + 1 ≤ _
    omega
  · rename_i j _
    unfold relax
    obtain ⟨hdone, hq⟩ := relaxEntries_queued a j base (g.col j)
      { w with
        done := Function.update w.done i true
        finalized := w.finalized ++ [i]
        base := base
        work := w.work + (g.col j).length }
    have hlen := g.length_le_entries j
    unfold Scan.open
    rw [hdone]
    have hq' : Scan.queued (relaxEntries a j base (g.col j)
      { w with
        done := Function.update w.done i true
        finalized := w.finalized ++ [i]
        base := base
        work := w.work + (g.col j).length }) ≤ w.queued + (g.col j).length := hq
    dsimp only
    omega

theorem scanStep_decreases (g : CostGraph n K) (a : MatchArrays n K) :
    Loop.Decreases (scanStep g a) (scanMeasure g) := by
  intro w w' h
  -- a pass pops one entry, from the level or from the heap, and may finalize its row
  unfold scanStep at h
  split at h
  · rename_i i level hlevel
    have hpop : scanMeasure g { w with level := level } + 1 = scanMeasure g w := by
      unfold scanMeasure Scan.queued Scan.open
      rw [hlevel, List.length_cons]
      dsimp only
      omega
    split_ifs at h with hlen hdone
    · obtain rfl := Sum.inl.inj h
      omega
    · obtain rfl := Sum.inl.inj h
      have := finalize_measure g a (w := { w with level := level }) w.base
        (Bool.not_eq_true _ ▸ hdone)
      omega
  · split at h
    · cases h
    · rename_i d i htop
      have hsize : 0 < w.heap.size := by
        unfold IndexedMinHeap.top? at htop
        unfold IndexedMinHeap.size
        rw [List.head?_eq_some_iff] at htop
        obtain ⟨l, hl⟩ := htop
        rw [hl]
        exact Nat.succ_pos _
      have hpop : scanMeasure g { w with heap := w.heap.pop } + 1 = scanMeasure g w := by
        unfold scanMeasure Scan.queued Scan.open
        dsimp only
        rw [w.heap.pop_size]
        omega
      split_ifs at h with hlen hdone
      · obtain rfl := Sum.inl.inj h
        omega
      · obtain rfl := Sum.inl.inj h
        rw [not_or, Bool.not_eq_true] at hdone
        have := finalize_measure g a (w := { w with heap := w.heap.pop }) d hdone.1
        omega

/-- The search's loop, from the scan of the start column on. -/
def scanFrom (g : CostGraph n K) (a : MatchArrays n K) (w : Scan n K) : Scan n K :=
  Loop.run (scanStep g a) (scanMeasure g) (scanStep_decreases g a) w

/-! ## The search -/

/-- The working state a search starts with. -/
def Scan.start (a : MatchArrays n K) (dist : Fin n → Dist K) (rowDone : Fin n → Bool) :
    Scan n K where
  dist := dist
  parent := fun _ => none
  done := rowDone
  touched := []
  finalized := []
  level := []
  heap := IndexedMinHeap.reset
  freeRow := none
  pathLen := ⊤
  base := 0
  work := a.work

/-- The dual update of one finalized row and of its matched column. -/
def updateDuals (dist : Fin n → Dist K) (pathLen : K) (a : MatchArrays n K) (i : Fin n) :
    MatchArrays n K :=
  let delta := pathLen - distValue (dist i)
  { a with
    u := Function.update a.u i (a.u i - delta)
    v := match a.rowMatch i with
      | none => a.v
      | some mc => Function.update a.v mc (a.v mc + delta) }

/-- Flips the path from row `r` back to the start column.  (The path visits a row at
    most once, so `n` passes are enough.) -/
def augment (start : Fin n) (parent : Fin n → Option (Fin n)) :
    ℕ → Fin n → MatchArrays n K → MatchArrays n K
  | 0, _, a => a
  | fuel + 1, r, a =>
    match parent r with
    | none => a
    | some c =>
      let a' := { a with
        rowMatch := Function.update a.rowMatch r (some c)
        colToRow := Function.update a.colToRow c (some r) }
      match (if c = start then none else a.colToRow c) with
      | none => a'
      | some prev => augment start parent fuel prev a'

/-- Resets the rows a search touched. -/
def resetTouched {α : Type*} (x : α) (touched : List (Fin n)) (f : Fin n → α) : Fin n → α :=
  touched.foldl (fun f i => Function.update f i x) f

/-- The scan a search from `start` ends with. -/
def searchScan (g : CostGraph n K) (start : Fin n) (a : MatchArrays n K) (dist : Fin n → Dist K)
    (rowDone : Fin n → Bool) : Scan n K :=
  scanFrom g a (relax g a start 0 (Scan.start a dist rowDone))

/-- The arrays after a search that ended with scan `w`: on a free row, the dual
    update and the augmentation. -/
def searchArrays (start : Fin n) (a : MatchArrays n K) (w : Scan n K) : MatchArrays n K :=
  let a' := { a with work := w.work }
  match w.freeRow with
  | none => a'
  | some r =>
    let len := w.pathLen.untopD 0
    let a'' := w.finalized.foldl (updateDuals w.dist len)
      { a' with v := Function.update a'.v start (a'.v start + len) }
    augment start w.parent n r a''

end Search

end Matching
end SmfSolver
