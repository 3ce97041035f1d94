/-
  SmfSolver.Matching.SearchSpec

  What one search of the matcher finds.  `ScanInv` is the invariant of the search's
  loop: it says of every working list what its entries mean.  An entry keeps it
  (`reachFree`, `reachMatched`, `skip`), so the scan of a column does (`relaxEntries`),
  so a pass does (`scanStep_inv`); `ScanEnd` is what it leaves behind.

  The rows and columns a search sees are a part of the matrix, `part`: the sparse ones
  in phase 1, all in phase 3.
-/
import SmfSolver.Lib.Assignment
import SmfSolver.Matching.MinHeapSpec
import SmfSolver.Matching.SymmetricMatcher

namespace SmfSolver
namespace Matching

open Lib Lib.Assignment

variable {n : ℕ} {K : Type*} [Field K] [LinearOrder K]

/-- The costs of the part: `⊤` outside. -/
def partCost (part : Fin n → Bool) (cost : Fin n → Fin n → WithTop K) (i j : Fin n) : WithTop K :=
  if part i = true ∧ part j = true then cost i j else ⊤

omit [Field K] [LinearOrder K] in
theorem partCost_eq {part : Fin n → Bool} {cost : Fin n → Fin n → WithTop K} {i j : Fin n} {c : K} :
    partCost part cost i j = c ↔ part i = true ∧ part j = true ∧ cost i j = c := by
  unfold partCost
  split_ifs with h
  · exact ⟨fun hc => ⟨h.1, h.2, hc⟩, fun hc => hc.2.2⟩
  · exact ⟨fun hc => absurd hc WithTop.top_ne_coe, fun hc => absurd ⟨hc.1, hc.2.1⟩ h⟩

/-! ## The loop invariant -/

/-- What a search may assume: the matching is consistent, and the start column is a
    free column of the part, as all matched columns are columns of the part. -/
structure Ready (part : Fin n → Bool) (start : Fin n) (a : MatchArrays n K) : Prop where
  inverse : ∀ i j, a.rowMatch i = some j ↔ a.colToRow j = some i
  start_free : a.colToRow start = none
  part_start : part start = true
  part_col : ∀ i j, a.rowMatch i = some j → part j = true

/-- The distance of a scanned column. -/
def label (a : MatchArrays n K) (start : Fin n) (w : Scan n K) (j : Fin n) : K :=
  if j = start then 0
  else
    match a.colToRow j with
    | none => 0
    | some k => distValue (w.dist k)

/-- The distance of row `e.1` over column `j`. -/
def candidate (a : MatchArrays n K) (base : K) (j : Fin n) (e : Fin n × K) : K :=
  base + max 0 (e.2 - a.u e.1 - a.v j)

/-- The state of a scan.  `j₀` is the column under scan and `todo` its entries left;
    with `todo = []` no scan is under way. -/
structure ScanInv (g : CostGraph n K) (part : Fin n → Bool) (start : Fin n) (a : MatchArrays n K)
    (j₀ : Fin n) (todo : List (Fin n × K)) (w : Scan n K) : Prop where
  /-- Rows outside the part are hidden, untouched rows at `⊤`, touched ones finite. -/
  dist_cases : ∀ i, part i = false ∧ w.dist i = ⊥ ∧ i ∉ w.touched ∨
    part i = true ∧ w.dist i = ⊤ ∧ i ∉ w.touched ∨
    part i = true ∧ i ∈ w.touched ∧ ∃ x : K, w.dist i = ((x : WithTop K) : Dist K)
  done_iff : ∀ i, w.done i = true ↔ i ∈ w.finalized
  final_nodup : w.finalized.Nodup
  final_touched : ∀ i ∈ w.finalized, i ∈ w.touched
  final_matched : ∀ i ∈ w.finalized, ∃ j, a.rowMatch i = some j
  final_le : ∀ i ∈ w.finalized, distValue (w.dist i) ≤ w.base
  base_nonneg : 0 ≤ w.base
  base_le : (w.base : WithTop K) ≤ w.pathLen
  reached : ∀ i ∈ w.touched, ∃ j c, w.parent i = some j ∧ (i, c) ∈ g.col j ∧
    Expanded a.rowMatch start w.finalized j ∧
    distValue (w.dist i) = candidate a (label a start w j) j (i, c)
  /-- A finalized row was reached from a column scanned before. -/
  reached_before : ∀ pre k post, w.finalized = pre ++ k :: post → ∃ j, w.parent k = some j ∧
    Expanded a.rowMatch start pre j
  scanned : ∀ j e, Expanded a.rowMatch start w.finalized j → e ∈ g.col j →
    (j = j₀ → e ∉ todo) → part e.1 = true →
    w.dist e.1 ≤ (((candidate a (label a start w j) j e : K) : WithTop K) : Dist K) ∨
      w.pathLen ≤ ((candidate a (label a start w j) j e : K) : WithTop K)
  free_le : ∀ i ∈ w.touched, a.rowMatch i = none →
    w.pathLen ≤ ((distValue (w.dist i) : K) : WithTop K)
  free_row : w.freeRow = none ∧ w.pathLen = ⊤ ∨ ∃ r, w.freeRow = some r ∧ a.rowMatch r = none ∧
    r ∈ w.touched ∧ w.pathLen = ((distValue (w.dist r) : K) : WithTop K)
  queued : ∀ i ∈ w.touched, a.rowMatch i ≠ none → i ∉ w.finalized →
    i ∈ w.level ∨ (distValue (w.dist i), i) ∈ w.heap.heap
  level_base : ∀ i ∈ w.level, i ∈ w.touched ∧ a.rowMatch i ≠ none ∧ distValue (w.dist i) = w.base
  heap_ok : w.heap.Ok
  heap_base : ∀ e ∈ w.heap.heap, e.2 ∈ w.touched ∧ a.rowMatch e.2 ≠ none ∧ w.base ≤ e.1 ∧
    distValue (w.dist e.2) ≤ e.1

section Invariant

variable [IsStrictOrderedRing K]
variable {g : CostGraph n K} {part : Fin n → Bool} {start : Fin n} {a : MatchArrays n K}

omit [LinearOrder K] [IsStrictOrderedRing K] in
theorem distValue_coe (x : K) : distValue ((x : WithTop K) : Dist K) = x := rfl

omit [IsStrictOrderedRing K] in
/-- A touched row's distance is its value. -/
theorem ScanInv.dist_eq {j₀ : Fin n} {todo : List (Fin n × K)} {w : Scan n K}
    (h : ScanInv g part start a j₀ todo w) {i : Fin n} (hi : i ∈ w.touched) :
    w.dist i = (((distValue (w.dist i) : K) : WithTop K) : Dist K) := by
  rcases h.dist_cases i with ⟨-, -, hn⟩ | ⟨-, -, hn⟩ | ⟨-, -, x, hx⟩
  · exact absurd hi hn
  · exact absurd hi hn
  · rw [hx, distValue_coe]

theorem candidate_ge (a : MatchArrays n K) (base : K) (j : Fin n) (e : Fin n × K) :
    base ≤ candidate a base j e :=
  le_add_of_nonneg_right (le_max_left _ _)

omit [IsStrictOrderedRing K] in
/-- A candidate distance that beats row `i`'s leaves hidden rows alone. -/
theorem ScanInv.part_of_lt {j₀ : Fin n} {todo : List (Fin n × K)} {w : Scan n K}
    (h : ScanInv g part start a j₀ todo w) {i : Fin n} {x : K}
    (hlt : ((x : WithTop K) : Dist K) < w.dist i) : part i = true := by
  rcases h.dist_cases i with ⟨-, hd, -⟩ | ⟨hp, -⟩ | ⟨hp, -⟩
  · rw [hd] at hlt
    exact absurd hlt not_lt_bot
  · exact hp
  · exact hp

omit [IsStrictOrderedRing K] in
/-- No finalized row is beaten: its distance is at most the base. -/
theorem ScanInv.not_final_of_lt {j₀ : Fin n} {todo : List (Fin n × K)} {w : Scan n K}
    (h : ScanInv g part start a j₀ todo w) {i : Fin n} {x : K} (hx : w.base ≤ x)
    (hlt : ((x : WithTop K) : Dist K) < w.dist i) : i ∉ w.finalized := by
  intro hi
  rw [h.dist_eq (h.final_touched i hi), WithBot.coe_lt_coe, WithTop.coe_lt_coe] at hlt
  exact absurd (h.final_le i hi) (not_le.mpr (lt_of_le_of_lt hx hlt))

omit [LinearOrder K] [IsStrictOrderedRing K] in
/-- The label of a scanned column depends on its finalized row's distance only. -/
theorem label_congr (hr : Ready part start a) {w w' : Scan n K}
    (hd : ∀ k ∈ w.finalized, w'.dist k = w.dist k) {j : Fin n}
    (hj : Expanded a.rowMatch start w.finalized j) : label a start w' j = label a start w j := by
  unfold label
  rcases hj with rfl | ⟨k, hk, hkj⟩
  · rw [if_pos rfl, if_pos rfl]
  · rw [(hr.inverse k j).mp hkj]
    dsimp only
    rw [hd k hk]

omit [LinearOrder K] [IsStrictOrderedRing K] in
theorem label_matched (hr : Ready part start a) (w : Scan n K) {k j : Fin n}
    (hkj : a.rowMatch k = some j) : label a start w j = distValue (w.dist k) := by
  have hcol := (hr.inverse k j).mp hkj
  have hne : j ≠ start := by
    rintro rfl
    rw [hr.start_free] at hcol
    cases hcol
  unfold label
  rw [if_neg hne, hcol]

/-! ## One entry of a scan -/

omit [Field K] [IsStrictOrderedRing K] in
theorem reach_dist_self (w : Scan n K) (i j : Fin n) (nd : K) :
    (w.reach i j nd).dist i = ((nd : WithTop K) : Dist K) := Function.update_self ..

omit [Field K] [IsStrictOrderedRing K] in
theorem reach_dist_of_ne (w : Scan n K) {i k : Fin n} (j : Fin n) (nd : K) (hk : k ≠ i) :
    (w.reach i j nd).dist k = w.dist k := Function.update_of_ne hk ..

omit [IsStrictOrderedRing K] in
theorem ScanInv.mem_reach {j₀ : Fin n} {todo : List (Fin n × K)} {w : Scan n K}
    (h : ScanInv g part start a j₀ todo w) {i : Fin n} (hpart : part i = true) (j : Fin n) (nd : K)
    (k : Fin n) : k ∈ (w.reach i j nd).touched ↔ k ∈ w.touched ∨ k = i := by
  show k ∈ (if w.dist i = ⊤ then w.touched ++ [i] else w.touched) ↔ _
  split_ifs with htop
  · rw [List.mem_append, List.mem_singleton]
  · refine ⟨.inl, ?_⟩
    rintro (hk | rfl)
    · exact hk
    · rcases h.dist_cases k with ⟨hp, -⟩ | ⟨-, hd, -⟩ | ⟨-, ht, -⟩
      · rw [hpart] at hp
        cases hp
      · exact absurd hd htop
      · exact ht

/-- Row `e.1` is reached at a shorter distance over the column under scan: what holds
    afterwards, whatever is done to the queues, if the queues are right afterwards. -/
theorem ScanInv.of_reach (hr : Ready part start a) {j₀ : Fin n} {e : Fin n × K}
    {todo todo' : List (Fin n × K)} {w w' : Scan n K}
    (h : ScanInv g part start a j₀ (e :: todo) w)
    (hexp : Expanded a.rowMatch start w.finalized j₀) (hmem : e ∈ g.col j₀)
    (hlabel : label a start w j₀ = w.base)
    (hlt : (((candidate a w.base j₀ e : K) : WithTop K) : Dist K) < w.dist e.1)
    (hdist : w'.dist = (w.reach e.1 j₀ (candidate a w.base j₀ e)).dist)
    (hparent : w'.parent = (w.reach e.1 j₀ (candidate a w.base j₀ e)).parent)
    (htouched : w'.touched = (w.reach e.1 j₀ (candidate a w.base j₀ e)).touched)
    (hdone : w'.done = w.done) (hfinal : w'.finalized = w.finalized) (hbase : w'.base = w.base)
    (hpath : w'.pathLen ≤ w.pathLen) (hbasePath : (w.base : WithTop K) ≤ w'.pathLen)
    (hrest : ∀ e' ∈ todo, e' ∉ todo' → w'.pathLen ≤ (w.base : WithTop K))
    (hfree : ∀ i ∈ w'.touched, a.rowMatch i = none →
      w'.pathLen ≤ ((distValue (w'.dist i) : K) : WithTop K))
    (hfreeRow : w'.freeRow = none ∧ w'.pathLen = ⊤ ∨ ∃ r, w'.freeRow = some r ∧
      a.rowMatch r = none ∧ r ∈ w'.touched ∧
      w'.pathLen = ((distValue (w'.dist r) : K) : WithTop K))
    (hqueued : ∀ i ∈ w'.touched, a.rowMatch i ≠ none → i ∉ w.finalized →
      i ∈ w'.level ∨ (distValue (w'.dist i), i) ∈ w'.heap.heap)
    (hlevel : ∀ i ∈ w'.level, i ∈ w'.touched ∧ a.rowMatch i ≠ none ∧
      distValue (w'.dist i) = w.base)
    (hheap : w'.heap.Ok)
    (hheapBase : ∀ e' ∈ w'.heap.heap, e'.2 ∈ w'.touched ∧ a.rowMatch e'.2 ≠ none ∧
      w.base ≤ e'.1 ∧ distValue (w'.dist e'.2) ≤ e'.1) :
    ScanInv g part start a j₀ todo' w' := by
  have hpart := h.part_of_lt hlt
  -- a finalized row is no farther than `base`: the row reached is none of them
  have hnf := h.not_final_of_lt (candidate_ge a w.base j₀ e) hlt
  have hself : w'.dist e.1 = (((candidate a w.base j₀ e : K) : WithTop K) : Dist K) := by
    rw [hdist, reach_dist_self]
  have hother : ∀ k, k ≠ e.1 → w'.dist k = w.dist k := by
    intro k hk
    rw [hdist, reach_dist_of_ne _ _ _ hk]
  have hfinalDist : ∀ k ∈ w.finalized, w'.dist k = w.dist k :=
    fun k hk => hother k fun hc => hnf (hc ▸ hk)
  have hmemTouched : ∀ k, k ∈ w'.touched ↔ k ∈ w.touched ∨ k = e.1 := by
    intro k
    rw [htouched]
    exact h.mem_reach hpart j₀ _ k
  have hlabelEq : ∀ {j}, Expanded a.rowMatch start w.finalized j →
      label a start w' j = label a start w j := fun hj => label_congr hr hfinalDist hj
  constructor
  case dist_cases =>
    intro i
    rw [hmemTouched]
    by_cases hi : i = e.1
    · rw [hi]
      exact .inr (.inr ⟨hpart, .inr rfl, _, hself⟩)
    · rw [hother i hi]
      rcases h.dist_cases i with ⟨hp, hd, ht⟩ | ⟨hp, hd, ht⟩ | ⟨hp, ht, hx⟩
      · exact .inl ⟨hp, hd, fun hc => hc.elim ht hi⟩
      · exact .inr (.inl ⟨hp, hd, fun hc => hc.elim ht hi⟩)
      · exact .inr (.inr ⟨hp, .inl ht, hx⟩)
  case done_iff =>
    rw [hdone, hfinal]
    exact h.done_iff
  case final_nodup => exact hfinal ▸ h.final_nodup
  case final_touched =>
    intro i hi
    rw [hfinal] at hi
    exact (hmemTouched i).mpr (.inl (h.final_touched i hi))
  case final_matched => exact hfinal ▸ h.final_matched
  case final_le =>
    intro i hi
    rw [hfinal] at hi
    rw [hfinalDist i hi, hbase]
    exact h.final_le i hi
  case base_nonneg => exact hbase ▸ h.base_nonneg
  case base_le => exact hbase ▸ hbasePath
  -- the new row by the entry under scan, an old one as before
  case reached =>
    intro i hi
    rw [hfinal]
    by_cases hie : i = e.1
    · subst hie
      refine ⟨j₀, e.2, ?_, hmem, hexp, ?_⟩
      · rw [hparent]
        exact Function.update_self ..
      · rw [hself, distValue_coe, hlabelEq hexp, hlabel]
    · obtain ⟨j, c, hp, hc, hj, hd⟩ := h.reached i (((hmemTouched i).mp hi).resolve_right hie)
      refine ⟨j, c, ?_, hc, hj, ?_⟩
      · rw [hparent]
        exact (Function.update_of_ne hie ..).trans hp
      · rw [hother i hie, hlabelEq hj]
        exact hd
  case reached_before =>
    intro pre k post hk
    rw [hfinal] at hk
    obtain ⟨j, hp, hj⟩ := h.reached_before pre k post hk
    refine ⟨j, ?_, hj⟩
    have hkf : k ∈ w.finalized := hk ▸ List.mem_append_right _ List.mem_cons_self
    have hne : k ≠ e.1 := by
      rintro rfl
      exact hnf hkf
    rw [hparent]
    exact (Function.update_of_ne hne ..).trans hp
  -- of the column under scan, the entries done; the bound falls with the distance
  case scanned =>
    intro j e' hj he' hskip hp
    rw [hfinal] at hj
    rw [hlabelEq hj]
    by_cases htodo : j = j₀ ∧ e' ∈ e :: todo
    · obtain ⟨rfl, htodo⟩ := htodo
      rw [hlabel]
      rcases List.mem_cons.mp htodo with rfl | htodo
      · exact .inl hself.le
      · refine .inr ((hrest e' htodo (hskip rfl)).trans ?_)
        exact WithTop.coe_le_coe.mpr (candidate_ge a w.base j e')
    · rcases h.scanned j e' hj he' (fun hjj hc => htodo ⟨hjj, hc⟩) hp with hd | hl
      · refine .inl (le_trans ?_ hd)
        by_cases hee : e'.1 = e.1
        · rw [hee, hself]
          exact hlt.le
        · rw [hother _ hee]
      · exact .inr (hpath.trans hl)
  case free_le => exact hfree
  case free_row => exact hfreeRow
  case queued => exact hfinal.symm ▸ hqueued
  case level_base => exact hbase.symm ▸ hlevel
  case heap_ok => exact hheap
  case heap_base => exact hbase.symm ▸ hheapBase

/-- Reaching a free row. -/
theorem ScanInv.reachFree (hr : Ready part start a) {j₀ : Fin n} {e : Fin n × K}
    {todo : List (Fin n × K)} (todo' : List (Fin n × K)) {w : Scan n K}
    (h : ScanInv g part start a j₀ (e :: todo) w)
    (hexp : Expanded a.rowMatch start w.finalized j₀) (hmem : e ∈ g.col j₀)
    (hlabel : label a start w j₀ = w.base)
    (hlt : (((candidate a w.base j₀ e : K) : WithTop K) : Dist K) < w.dist e.1)
    (hmatch : a.rowMatch e.1 = none)
    (hrest : ∀ e' ∈ todo, e' ∉ todo' → candidate a w.base j₀ e = w.base) :
    ScanInv g part start a j₀ todo' (w.reachFree e.1 j₀ (candidate a w.base j₀ e)) := by
  have hpart := h.part_of_lt hlt
  have hreach := h.mem_reach hpart j₀ (candidate a w.base j₀ e)
  have hge : (w.base : WithTop K) ≤ ((candidate a w.base j₀ e : K) : WithTop K) :=
    WithTop.coe_le_coe.mpr (candidate_ge a w.base j₀ e)
  -- matched rows keep their distances
  have hmatched : ∀ i, a.rowMatch i ≠ none →
      (w.reach e.1 j₀ (candidate a w.base j₀ e)).dist i = w.dist i :=
    fun i hi => reach_dist_of_ne _ _ _ fun hc => hi (hc ▸ hmatch)
  have hkeep : ∀ i ∈ w.touched, i ∈ (w.reach e.1 j₀ (candidate a w.base j₀ e)).touched :=
    fun i hi => (hreach i).mpr (.inl hi)
  have hdrop : ∀ i ∈ (w.reach e.1 j₀ (candidate a w.base j₀ e)).touched,
      a.rowMatch i ≠ none → i ∈ w.touched := by
    intro i hi hm
    exact ((hreach i).mp hi).resolve_right fun hc => hm (hc ▸ hmatch)
  have hqueued : ∀ i ∈ (w.reach e.1 j₀ (candidate a w.base j₀ e)).touched, a.rowMatch i ≠ none →
      i ∉ w.finalized → i ∈ w.level ∨
        (distValue ((w.reach e.1 j₀ (candidate a w.base j₀ e)).dist i), i) ∈ w.heap.heap := by
    intro i hi hm hnf
    rw [hmatched i hm]
    exact h.queued i (hdrop i hi hm) hm hnf
  have hlevel : ∀ i ∈ w.level, i ∈ (w.reach e.1 j₀ (candidate a w.base j₀ e)).touched ∧
      a.rowMatch i ≠ none ∧
      distValue ((w.reach e.1 j₀ (candidate a w.base j₀ e)).dist i) = w.base := by
    intro i hi
    obtain ⟨ht, hm, hd⟩ := h.level_base i hi
    exact ⟨hkeep i ht, hm, by rw [hmatched i hm]; exact hd⟩
  have hheap : ∀ e' ∈ w.heap.heap, e'.2 ∈ (w.reach e.1 j₀ (candidate a w.base j₀ e)).touched ∧
      a.rowMatch e'.2 ≠ none ∧ w.base ≤ e'.1 ∧
      distValue ((w.reach e.1 j₀ (candidate a w.base j₀ e)).dist e'.2) ≤ e'.1 := by
    intro e' he'
    obtain ⟨ht, hm, hb, hd⟩ := h.heap_base e' he'
    exact ⟨hkeep _ ht, hm, hb, by rw [hmatched _ hm]; exact hd⟩
  have hself : distValue ((w.reach e.1 j₀ (candidate a w.base j₀ e)).dist e.1)
      = candidate a w.base j₀ e := by
    rw [reach_dist_self, distValue_coe]
  unfold Scan.reachFree
  dsimp only
  split_ifs with hshort
  · refine h.of_reach hr hexp hmem hlabel hlt rfl rfl rfl rfl rfl rfl hshort.le hge ?_ ?_ ?_
      hqueued hlevel h.heap_ok hheap
    · intro e' he' hskip
      show ((candidate a w.base j₀ e : K) : WithTop K) ≤ _
      rw [hrest e' he' hskip]
    · intro i hi hm
      show ((candidate a w.base j₀ e : K) : WithTop K) ≤ _
      by_cases hie : i = e.1
      · rw [hie]
        exact (congrArg _ hself.symm).le
      · rcases (hreach i).mp hi with ht | hc
        · refine hshort.le.trans ?_
          show _ ≤ ((distValue ((w.reach e.1 j₀ _).dist i) : K) : WithTop K)
          rw [reach_dist_of_ne _ _ _ hie]
          exact h.free_le i ht hm
        · exact absurd hc hie
    · exact .inr ⟨e.1, rfl, hmatch, (hreach _).mpr (.inr rfl),
        congrArg _ hself.symm⟩
  · rw [not_lt] at hshort
    refine h.of_reach hr hexp hmem hlabel hlt rfl rfl rfl rfl rfl rfl le_rfl h.base_le ?_ ?_ ?_
      hqueued hlevel h.heap_ok hheap
    · intro e' he' hskip
      show w.pathLen ≤ _
      rw [← hrest e' he' hskip]
      exact hshort
    · intro i hi hm
      show w.pathLen ≤ _
      by_cases hie : i = e.1
      · rw [hie]
        exact hshort.trans (congrArg _ hself.symm).le
      · rcases (hreach i).mp hi with ht | hc
        · rw [reach_dist_of_ne _ _ _ hie]
          exact h.free_le i ht hm
        · exact absurd hc hie
    · refine h.free_row.imp_right ?_
      rintro ⟨r, hr', hm, ht, hl⟩
      have hne : r ≠ e.1 := by
        rintro rfl
        rw [h.dist_eq ht, WithBot.coe_lt_coe, ← hl] at hlt
        exact absurd hshort (not_le.mpr hlt)
      refine ⟨r, hr', hm, hkeep r ht, ?_⟩
      rw [reach_dist_of_ne _ _ _ hne]
      exact hl

/-- Reaching a matched row below the path's length. -/
theorem ScanInv.reachMatched (hr : Ready part start a) {j₀ : Fin n} {e : Fin n × K}
    {todo : List (Fin n × K)} {w : Scan n K}
    (h : ScanInv g part start a j₀ (e :: todo) w)
    (hexp : Expanded a.rowMatch start w.finalized j₀) (hmem : e ∈ g.col j₀)
    (hlabel : label a start w j₀ = w.base)
    (hlt : (((candidate a w.base j₀ e : K) : WithTop K) : Dist K) < w.dist e.1)
    (hmatch : a.rowMatch e.1 ≠ none) :
    ScanInv g part start a j₀ todo (w.reachMatched e.1 j₀ w.base (candidate a w.base j₀ e)) := by
  have hpart := h.part_of_lt hlt
  have hreach := h.mem_reach hpart j₀ (candidate a w.base j₀ e)
  have hfreeDist : ∀ i, a.rowMatch i = none →
      (w.reach e.1 j₀ (candidate a w.base j₀ e)).dist i = w.dist i :=
    fun i hi => reach_dist_of_ne _ _ _ fun hc => hmatch (hc ▸ hi)
  have hkeep : ∀ i ∈ w.touched, i ∈ (w.reach e.1 j₀ (candidate a w.base j₀ e)).touched :=
    fun i hi => (hreach i).mpr (.inl hi)
  have hself : distValue ((w.reach e.1 j₀ (candidate a w.base j₀ e)).dist e.1)
      = candidate a w.base j₀ e := by
    rw [reach_dist_self, distValue_coe]
  -- a queued row that is beaten had a larger distance
  have hbeaten : e.1 ∈ w.touched → candidate a w.base j₀ e < distValue (w.dist e.1) := by
    intro ht
    rw [h.dist_eq ht, WithBot.coe_lt_coe, WithTop.coe_lt_coe] at hlt
    exact hlt
  have hfree : ∀ i ∈ (w.reach e.1 j₀ (candidate a w.base j₀ e)).touched, a.rowMatch i = none →
      w.pathLen ≤ ((distValue ((w.reach e.1 j₀ (candidate a w.base j₀ e)).dist i) : K)
        : WithTop K) := by
    intro i hi hm
    rw [hfreeDist i hm]
    refine h.free_le i (((hreach i).mp hi).resolve_right ?_) hm
    exact fun hc => hmatch (hc ▸ hm)
  have hfreeRow : w.freeRow = none ∧ w.pathLen = ⊤ ∨ ∃ r, w.freeRow = some r ∧
      a.rowMatch r = none ∧ r ∈ (w.reach e.1 j₀ (candidate a w.base j₀ e)).touched ∧
      w.pathLen = ((distValue ((w.reach e.1 j₀ (candidate a w.base j₀ e)).dist r) : K)
        : WithTop K) := by
    refine h.free_row.imp_right ?_
    rintro ⟨r, hr', hm, ht, hl⟩
    exact ⟨r, hr', hm, hkeep r ht, by rw [hfreeDist r hm]; exact hl⟩
  unfold Scan.reachMatched
  dsimp only
  split_ifs with hbase
  · refine h.of_reach hr hexp hmem hlabel hlt rfl rfl rfl rfl rfl rfl le_rfl h.base_le
      (fun e' he' hskip => absurd he' hskip) hfree hfreeRow ?_ ?_ h.heap_ok ?_
    · intro i hi hm hnf
      show i ∈ w.level ++ [e.1] ∨ _
      by_cases hie : i = e.1
      · rw [hie]
        exact .inl (List.mem_append_right _ (List.mem_singleton_self _))
      · have ht := ((hreach i).mp hi).resolve_right hie
        show _ ∨ (distValue ((w.reach e.1 j₀ (candidate a w.base j₀ e)).dist i), i) ∈ w.heap.heap
        rw [reach_dist_of_ne _ _ _ hie]
        exact (h.queued i ht hm hnf).imp_left (List.mem_append_left _)
    · intro i hi
      show _ ∧ _ ∧ distValue ((w.reach e.1 j₀ (candidate a w.base j₀ e)).dist i) = w.base
      by_cases hie : i = e.1
      · rw [hie, hself]
        exact ⟨(hreach _).mpr (.inr rfl), hmatch, hbase⟩
      · rcases List.mem_append.mp hi with hi | hi
        · obtain ⟨ht, hm, hd⟩ := h.level_base i hi
          exact ⟨hkeep i ht, hm, by rw [reach_dist_of_ne _ _ _ hie]; exact hd⟩
        · exact absurd (List.mem_singleton.mp hi) hie
    · intro e' he'
      obtain ⟨ht, hm, hb, hd⟩ := h.heap_base e' he'
      refine ⟨hkeep _ ht, hm, hb, ?_⟩
      show distValue ((w.reach e.1 j₀ (candidate a w.base j₀ e)).dist e'.2) ≤ e'.1
      by_cases hie : e'.2 = e.1
      · rw [hie, hself]
        exact (hbeaten (hie ▸ ht)).le.trans (hie ▸ hd)
      · rw [reach_dist_of_ne _ _ _ hie]
        exact hd
  · have hdec : ∀ k', (k', e.1) ∈ w.heap.heap → candidate a w.base j₀ e ≤ k' := by
      intro k' hk'
      obtain ⟨ht, -, -, hd⟩ := h.heap_base _ hk'
      exact (hbeaten ht).le.trans hd
    obtain ⟨hok, hheap⟩ := IndexedMinHeap.pushOrDecrease_ok h.heap_ok _ _ hdec
    refine h.of_reach hr hexp hmem hlabel hlt rfl rfl rfl rfl rfl rfl le_rfl h.base_le
      (fun e' he' hskip => absurd he' hskip) hfree hfreeRow ?_ ?_ hok ?_
    · intro i hi hm hnf
      show i ∈ w.level ∨ (distValue ((w.reach e.1 j₀ (candidate a w.base j₀ e)).dist i), i)
        ∈ (w.heap.pushOrDecrease e.1 (candidate a w.base j₀ e)).heap
      rw [hheap]
      by_cases hie : i = e.1
      · rw [hie, hself]
        exact .inr (.inl rfl)
      · have ht := ((hreach i).mp hi).resolve_right hie
        rw [reach_dist_of_ne _ _ _ hie]
        exact (h.queued i ht hm hnf).imp_right fun hq => .inr ⟨hq, hie⟩
    · intro i hi
      show _ ∧ _ ∧ distValue ((w.reach e.1 j₀ (candidate a w.base j₀ e)).dist i) = w.base
      obtain ⟨ht, hm, hd⟩ := h.level_base i hi
      have hie : i ≠ e.1 := by
        rintro rfl
        have := hbeaten ht
        rw [hd] at this
        exact absurd (candidate_ge a w.base j₀ e) (not_le.mpr this)
      exact ⟨hkeep i ht, hm, by rw [reach_dist_of_ne _ _ _ hie]; exact hd⟩
    · intro e' he'
      show _ ∧ _ ∧ _ ∧ distValue ((w.reach e.1 j₀ (candidate a w.base j₀ e)).dist e'.2) ≤ e'.1
      rcases (hheap e').mp he' with rfl | ⟨hold, hie⟩
      · exact ⟨(hreach _).mpr (.inr rfl), hmatch, candidate_ge a w.base j₀ e,
          hself.le⟩
      · obtain ⟨ht, hm, hb, hd⟩ := h.heap_base e' hold
        exact ⟨hkeep _ ht, hm, hb, by rw [reach_dist_of_ne _ _ _ hie]; exact hd⟩

omit [IsStrictOrderedRing K] in
/-- An entry that changes nothing: it is no shorter than what is known. -/
theorem ScanInv.skip {j₀ : Fin n} {e : Fin n × K} {todo : List (Fin n × K)} {w : Scan n K}
    (h : ScanInv g part start a j₀ (e :: todo) w) (hlabel : label a start w j₀ = w.base)
    (hskip : w.dist e.1 ≤ (((candidate a w.base j₀ e : K) : WithTop K) : Dist K) ∨
      w.pathLen ≤ ((candidate a w.base j₀ e : K) : WithTop K)) :
    ScanInv g part start a j₀ todo w := by
  refine { h with scanned := fun j e' hj he' htodo hp => ?_ }
  by_cases hje : j = j₀ ∧ e' = e
  · obtain ⟨rfl, rfl⟩ := hje
    rw [hlabel]
    exact hskip
  · refine h.scanned j e' hj he' (fun hjj => ?_) hp
    rw [List.mem_cons, not_or]
    exact ⟨fun hee => hje ⟨hjj, hee⟩, htodo hjj⟩

/-- Scanning a column to its end, or to a free row at the current distance. -/
theorem ScanInv.relaxEntries (hr : Ready part start a) {j₀ : Fin n} (l : List (Fin n × K))
    {w : Scan n K} (h : ScanInv g part start a j₀ l w)
    (hexp : Expanded a.rowMatch start w.finalized j₀) (hmem : ∀ e ∈ l, e ∈ g.col j₀)
    (hlabel : label a start w j₀ = w.base) :
    ScanInv g part start a j₀ [] (Matching.relaxEntries a j₀ w.base l w) := by
  induction l generalizing w with
  | nil => exact h
  | cons e l ih =>
    have hmem₀ : e ∈ g.col j₀ := hmem e List.mem_cons_self
    have hmem' : ∀ e' ∈ l, e' ∈ g.col j₀ := fun e' he' => hmem e' (List.mem_cons_of_mem _ he')
    -- the next entries see the same finalized rows, base and label
    have hnext : ∀ w' : Scan n K, ScanInv g part start a j₀ l w' → w'.finalized = w.finalized →
        w'.base = w.base → (∀ k ∈ w.finalized, w'.dist k = w.dist k) →
        ScanInv g part start a j₀ [] (Matching.relaxEntries a j₀ w.base l w') := by
      intro w' h' hfin hbase hdist
      rw [← hbase]
      refine ih h' (hfin ▸ hexp) hmem' ?_
      rw [label_congr hr hdist hexp, hlabel, hbase]
    unfold Matching.relaxEntries
    dsimp only
    have hcand : w.base + max 0 (e.2 - a.u e.1 - a.v j₀) = candidate a w.base j₀ e := rfl
    rw [hcand]
    by_cases hlt : (((candidate a w.base j₀ e : K) : WithTop K) : Dist K) < w.dist e.1
    · have hnf := h.not_final_of_lt (candidate_ge a w.base j₀ e) hlt
      have hdist : ∀ k ∈ w.finalized,
          (w.reach e.1 j₀ (candidate a w.base j₀ e)).dist k = w.dist k := by
        intro k hk
        refine reach_dist_of_ne _ _ _ ?_
        rintro rfl
        exact hnf hk
      rw [if_pos hlt]
      by_cases hmatch : a.rowMatch e.1 = none
      · rw [if_pos hmatch]
        by_cases hbase : candidate a w.base j₀ e = w.base
        · rw [if_pos hbase]
          exact h.reachFree hr [] hexp hmem₀ hlabel hlt hmatch fun _ _ _ => hbase
        · rw [if_neg hbase]
          have h' := h.reachFree hr l hexp hmem₀ hlabel hlt hmatch
            fun _ he' hskip => absurd he' hskip
          unfold Scan.reachFree at h' ⊢
          dsimp only at h' ⊢
          split_ifs at h' ⊢
          · exact hnext _ h' rfl rfl hdist
          · exact hnext _ h' rfl rfl hdist
      · rw [if_neg hmatch]
        by_cases hlen : ((candidate a w.base j₀ e : K) : WithTop K) < w.pathLen
        · rw [if_pos hlen]
          have h' := h.reachMatched hr hexp hmem₀ hlabel hlt hmatch
          unfold Scan.reachMatched at h' ⊢
          dsimp only at h' ⊢
          split_ifs at h' ⊢
          · exact hnext _ h' rfl rfl hdist
          · exact hnext _ h' rfl rfl hdist
        · rw [if_neg hlen]
          exact hnext w (h.skip hlabel (.inr (not_lt.mp hlen))) rfl rfl fun _ _ => rfl
    · rw [if_neg hlt]
      exact hnext w (h.skip hlabel (.inl (not_lt.mp hlt))) rfl rfl fun _ _ => rfl

/-! ## One pass of the loop -/

omit [IsStrictOrderedRing K] in
theorem expanded_append {rowMatch : Fin n → Option (Fin n)} {l l' : List (Fin n)} {j : Fin n}
    (h : Expanded rowMatch start l j) : Expanded rowMatch start (l ++ l') j :=
  h.imp_right fun ⟨k, hk, hkj⟩ => ⟨k, List.mem_append_left _ hk, hkj⟩

omit [IsStrictOrderedRing K] in
/-- Finalizing row `i` at `base'`: its column is the one under scan next. -/
theorem ScanInv.mark {j₀ : Fin n} {w : Scan n K} (h : ScanInv g part start a j₀ [] w)
    {i j : Fin n} {base' : K} {level' : List (Fin n)} {heap' : IndexedMinHeap n K} (work' : ℕ)
    (hij : a.rowMatch i = some j) (ht : i ∈ w.touched) (hdone : w.done i = false)
    (hdist : distValue (w.dist i) = base') (hbase : w.base ≤ base')
    (hlen : (base' : WithTop K) ≤ w.pathLen)
    (hqueued : ∀ k ∈ w.touched, a.rowMatch k ≠ none → k ∉ w.finalized → k ≠ i →
      k ∈ level' ∨ (distValue (w.dist k), k) ∈ heap'.heap)
    (hlevel : ∀ k ∈ level', k ∈ w.touched ∧ a.rowMatch k ≠ none ∧ distValue (w.dist k) = base')
    (hheap : heap'.Ok)
    (hheapBase : ∀ e ∈ heap'.heap, e.2 ∈ w.touched ∧ a.rowMatch e.2 ≠ none ∧ base' ≤ e.1 ∧
      distValue (w.dist e.2) ≤ e.1) :
    ScanInv g part start a j (g.col j)
      { w with
        done := Function.update w.done i true
        finalized := w.finalized ++ [i]
        level := level'
        heap := heap'
        base := base'
        work := work' } := by
  have hnf : i ∉ w.finalized := by
    intro hi
    rw [(h.done_iff i).mpr hi] at hdone
    cases hdone
  constructor
  case dist_cases => exact h.dist_cases
  case done_iff =>
    intro k
    show Function.update w.done i true k = true ↔ k ∈ w.finalized ++ [i]
    rw [List.mem_append, List.mem_singleton]
    by_cases hk : k = i
    · rw [hk, Function.update_self]
      exact ⟨fun _ => .inr rfl, fun _ => rfl⟩
    · rw [Function.update_of_ne hk]
      exact (h.done_iff k).trans ⟨.inl, fun hc => hc.resolve_right hk⟩
  case final_nodup =>
    exact List.nodup_append.mpr ⟨h.final_nodup, List.nodup_singleton i, fun k hk k' hk' heq =>
      hnf (List.mem_singleton.mp hk' ▸ heq ▸ hk)⟩
  case final_touched =>
    intro k hk
    rcases List.mem_append.mp hk with hk | hk
    · exact h.final_touched k hk
    · exact List.mem_singleton.mp hk ▸ ht
  case final_matched =>
    intro k hk
    rcases List.mem_append.mp hk with hk | hk
    · exact h.final_matched k hk
    · exact List.mem_singleton.mp hk ▸ ⟨j, hij⟩
  case final_le =>
    intro k hk
    rcases List.mem_append.mp hk with hk | hk
    · exact (h.final_le k hk).trans hbase
    · exact List.mem_singleton.mp hk ▸ hdist.le
  case base_nonneg => exact h.base_nonneg.trans hbase
  case base_le => exact hlen
  case reached =>
    intro k hk
    obtain ⟨j', c, hp, hc, hj', hd⟩ := h.reached k hk
    exact ⟨j', c, hp, hc, expanded_append hj', hd⟩
  -- row `i` was reached from a column that was expanded before it
  case reached_before =>
    intro pre k post heq
    rcases List.eq_nil_or_concat post with rfl | ⟨post', k', rfl⟩
    · obtain ⟨rfl, hki⟩ := List.append_inj' heq rfl
      obtain rfl := List.head_eq_of_cons_eq hki
      obtain ⟨j', -, hp, -, hj', -⟩ := h.reached i ht
      exact ⟨j', hp, hj'⟩
    · rw [List.concat_eq_append, ← List.cons_append, ← List.append_assoc] at heq
      exact h.reached_before pre k post' (List.append_inj' heq rfl).1
  -- the columns expanded so far are scanned; that of `i` is the list to do
  case scanned =>
    intro j' e hj' he htodo hp
    by_cases hjj : j' = j
    · exact absurd (hjj ▸ he) (htodo hjj)
    · refine h.scanned j' e ?_ he (fun _ => List.not_mem_nil) hp
      refine hj'.imp_right ?_
      rintro ⟨k, hk, hkj⟩
      rcases List.mem_append.mp hk with hk | hk
      · exact ⟨k, hk, hkj⟩
      · rw [List.mem_singleton.mp hk, hij] at hkj
        exact absurd (Option.some.inj hkj).symm hjj
  case free_le => exact h.free_le
  case free_row => exact h.free_row
  case queued =>
    intro k hk hm hn
    rw [List.mem_append, List.mem_singleton, not_or] at hn
    exact hqueued k hk hm hn.1 hn.2
  case level_base => exact hlevel
  case heap_ok => exact hheap
  case heap_base => exact hheapBase

/-- The row finalized by a pass, and the scan of its column. -/
theorem ScanInv.finalize (hr : Ready part start a) {j₀ : Fin n} {w : Scan n K}
    (h : ScanInv g part start a j₀ [] w) {i : Fin n} {base' : K} {level' : List (Fin n)}
    {heap' : IndexedMinHeap n K} (hm : a.rowMatch i ≠ none) (ht : i ∈ w.touched)
    (hdone : w.done i = false) (hdist : distValue (w.dist i) = base') (hbase : w.base ≤ base')
    (hlen : (base' : WithTop K) ≤ w.pathLen)
    (hqueued : ∀ k ∈ w.touched, a.rowMatch k ≠ none → k ∉ w.finalized → k ≠ i →
      k ∈ level' ∨ (distValue (w.dist k), k) ∈ heap'.heap)
    (hlevel : ∀ k ∈ level', k ∈ w.touched ∧ a.rowMatch k ≠ none ∧ distValue (w.dist k) = base')
    (hheap : heap'.Ok)
    (hheapBase : ∀ e ∈ heap'.heap, e.2 ∈ w.touched ∧ a.rowMatch e.2 ≠ none ∧ base' ≤ e.1 ∧
      distValue (w.dist e.2) ≤ e.1) :
    ∃ j, ScanInv g part start a j []
      (Scan.finalize g a { w with level := level', heap := heap' } i base') := by
  obtain ⟨j, hij⟩ := Option.ne_none_iff_exists'.mp hm
  have hmark := h.mark (w.work + (g.col j).length) hij ht hdone hdist hbase hlen hqueued hlevel
    hheap hheapBase
  have hexp : Expanded a.rowMatch start (w.finalized ++ [i]) j :=
    .inr ⟨i, List.mem_append_right _ (List.mem_singleton_self i), hij⟩
  refine ⟨j, ?_⟩
  unfold Scan.finalize
  rw [hij]
  exact hmark.relaxEntries hr _ hexp (fun _ he => he) ((label_matched hr _ hij).trans hdist)

theorem scanStep_inv (hr : Ready part start a) {w w' : Scan n K}
    (h : ∃ j₀, ScanInv g part start a j₀ [] w) (hs : scanStep g a w = .inl w') :
    ∃ j₀, ScanInv g part start a j₀ [] w' := by
  obtain ⟨j₀, h⟩ := h
  unfold scanStep at hs
  split at hs
  · rename_i i level hlevel
    obtain ⟨ht, hm, hd⟩ := h.level_base i (hlevel ▸ List.mem_cons_self)
    have hlevel' : ∀ k ∈ level, k ∈ w.touched ∧ a.rowMatch k ≠ none ∧
        distValue (w.dist k) = w.base :=
      fun k hk => h.level_base k (hlevel ▸ List.mem_cons_of_mem i hk)
    have hqueued : ∀ k ∈ w.touched, a.rowMatch k ≠ none → k ∉ w.finalized → k ≠ i →
        k ∈ level ∨ (distValue (w.dist k), k) ∈ w.heap.heap := by
      intro k hk hkm hkf hki
      have hq := h.queued k hk hkm hkf
      rw [hlevel] at hq
      exact hq.imp_left fun hc => (List.mem_cons.mp hc).resolve_left hki
    split_ifs at hs with hlen hdone
    · obtain rfl := Sum.inl.inj hs
      refine ⟨j₀, { h with queued := fun k hk hkm hkf => ?_, level_base := hlevel' }⟩
      refine hqueued k hk hkm hkf ?_
      rintro rfl
      exact hkf ((h.done_iff k).mp hdone)
    · obtain rfl := Sum.inl.inj hs
      exact h.finalize hr hm ht (Bool.not_eq_true _ ▸ hdone) hd le_rfl (not_le.mp hlen).le hqueued
        hlevel' h.heap_ok h.heap_base
  · rename_i hlevel
    split at hs
    · cases hs
    · rename_i d i htop
      obtain ⟨hmem, hleast⟩ := IndexedMinHeap.top_least h.heap_ok htop
      obtain ⟨hok, hpop⟩ := IndexedMinHeap.pop_ok h.heap_ok htop
      obtain ⟨ht, hm, hb, hd⟩ := h.heap_base _ hmem
      have hheap' : ∀ e ∈ w.heap.pop.heap, e.2 ∈ w.touched ∧ a.rowMatch e.2 ≠ none ∧
          w.base ≤ e.1 ∧ distValue (w.dist e.2) ≤ e.1 :=
        fun e he => h.heap_base e ((hpop e).mp he).1
      -- rows that wait are in the heap, at their distances
      have hqueued : ∀ k ∈ w.touched, a.rowMatch k ≠ none → k ∉ w.finalized →
          (distValue (w.dist k), k) ∈ w.heap.heap := by
        intro k hk hkm hkf
        have hq := h.queued k hk hkm hkf
        rw [hlevel] at hq
        exact hq.resolve_left List.not_mem_nil
      split_ifs at hs with hlen hdone
      · obtain rfl := Sum.inl.inj hs
        refine ⟨j₀, { h with
          queued := fun k hk hkm hkf => ?_
          heap_ok := hok
          heap_base := hheap' }⟩
        refine .inr ((hpop _).mpr ⟨hqueued k hk hkm hkf, ?_⟩)
        rintro rfl
        have hle := Prod.Lex.monotone_fst _ _ (hleast _ (hqueued k hk hkm hkf))
        rcases hdone with hdone | hstale
        · exact hkf ((h.done_iff k).mp hdone)
        · rw [h.dist_eq hk, WithBot.coe_lt_coe, WithTop.coe_lt_coe] at hstale
          exact absurd hle (not_le.mpr hstale)
      · obtain rfl := Sum.inl.inj hs
        rw [not_or, Bool.not_eq_true] at hdone
        have hdd : distValue (w.dist i) = d := by
          refine le_antisymm hd ?_
          have hstale := hdone.2
          rw [h.dist_eq ht, WithBot.coe_lt_coe, WithTop.coe_lt_coe] at hstale
          exact not_lt.mp hstale
        refine h.finalize hr hm ht hdone.1 hdd hb (not_le.mp hlen).le ?_ ?_ hok ?_
        · exact fun k hk hkm hkf hki => .inr ((hpop _).mpr ⟨hqueued k hk hkm hkf, hki⟩)
        · rw [hlevel]
          exact fun k hk => absurd hk List.not_mem_nil
        · intro e he
          obtain ⟨het, hem, -, hed⟩ := hheap' e he
          exact ⟨het, hem, Prod.Lex.monotone_fst _ _ (hleast e ((hpop e).mp he).1), hed⟩

/-! ## The end of a search -/

/-- Where the loop is left: the rows still waiting are no closer than the path. -/
structure ScanEnd (g : CostGraph n K) (part : Fin n → Bool) (start : Fin n) (a : MatchArrays n K)
    (w : Scan n K) : Prop where
  inv : ∃ j₀, ScanInv g part start a j₀ [] w
  waiting : ∀ i ∈ w.touched, a.rowMatch i ≠ none → i ∉ w.finalized →
    w.pathLen ≤ ((distValue (w.dist i) : K) : WithTop K)

omit [IsStrictOrderedRing K] in
theorem scanStep_end {w b : Scan n K} (h : ∃ j₀, ScanInv g part start a j₀ [] w)
    (hs : scanStep g a w = .inr b) : ScanEnd g part start a b := by
  obtain ⟨j₀, h⟩ := h
  unfold scanStep at hs
  split at hs
  · rename_i i level hlevel
    split_ifs at hs with hlen
    obtain rfl := Sum.inr.inj hs
    -- what is still queued is not nearer than the level that ended the search
    refine ⟨⟨j₀, h⟩, fun k hk hkm hkf => hlen.trans (WithTop.coe_le_coe.mpr ?_)⟩
    rcases h.queued k hk hkm hkf with hq | hq
    · exact (h.level_base k hq).2.2.ge
    · exact (h.heap_base _ hq).2.2.1
  · rename_i hlevel
    have hqueued : ∀ k ∈ w.touched, a.rowMatch k ≠ none → k ∉ w.finalized →
        (distValue (w.dist k), k) ∈ w.heap.heap := by
      intro k hk hkm hkf
      have hq := h.queued k hk hkm hkf
      rw [hlevel] at hq
      exact hq.resolve_left List.not_mem_nil
    split at hs
    · rename_i htop
      obtain rfl := Sum.inr.inj hs
      refine ⟨⟨j₀, h⟩, fun k hk hkm hkf => ?_⟩
      have hq := hqueued k hk hkm hkf
      rw [IndexedMinHeap.top_none.mp htop] at hq
      exact absurd hq List.not_mem_nil
    · rename_i d i htop
      split_ifs at hs with hlen
      obtain rfl := Sum.inr.inj hs
      refine ⟨⟨j₀, h⟩, fun k hk hkm hkf => hlen.trans (WithTop.coe_le_coe.mpr ?_)⟩
      have hleast := (IndexedMinHeap.top_least h.heap_ok htop).2
      exact Prod.Lex.monotone_fst _ _ (hleast _ (hqueued k hk hkm hkf))

omit [IsStrictOrderedRing K] in
/-- A search starts with nothing reached. -/
theorem ScanInv.init (dist : Fin n → Dist K) (rowDone : Fin n → Bool)
    (hdist : ∀ i, dist i = if part i then ⊤ else ⊥) (hdone : ∀ i, rowDone i = false) (work : ℕ) :
    ScanInv g part start a start (g.col start)
      { Scan.start a dist rowDone with work := work } := by
  have hnone : ∀ i, i ∉ (Scan.start a dist rowDone).touched := fun i => List.not_mem_nil
  constructor
  case dist_cases =>
    intro i
    show _ ∧ dist i = ⊥ ∧ _ ∨ _ ∧ dist i = ⊤ ∧ _ ∨ _
    rw [hdist i]
    cases hp : part i with
    | false => exact .inl ⟨rfl, rfl, hnone i⟩
    | true => exact .inr (.inl ⟨rfl, rfl, hnone i⟩)
  case done_iff =>
    intro i
    show rowDone i = true ↔ i ∈ []
    rw [hdone i]
    exact ⟨fun hc => absurd hc Bool.false_ne_true, fun hc => absurd hc List.not_mem_nil⟩
  case final_nodup => exact List.nodup_nil
  case final_touched => exact fun i hi => absurd hi List.not_mem_nil
  case final_matched => exact fun i hi => absurd hi List.not_mem_nil
  case final_le => exact fun i hi => absurd hi List.not_mem_nil
  case base_nonneg => exact le_rfl
  case base_le => exact le_top
  case reached => exact fun i hi => absurd hi List.not_mem_nil
  case reached_before =>
    intro pre k post hc
    have hlen := congrArg List.length hc
    rw [List.length_append, List.length_cons] at hlen
    exact absurd hlen (by show (0 : ℕ) ≠ _; omega)
  case scanned =>
    rintro j e (rfl | ⟨k, hk, -⟩) he htodo
    · exact absurd he (htodo rfl)
    · exact absurd hk List.not_mem_nil
  case free_le => exact fun i hi => absurd hi List.not_mem_nil
  case free_row => exact .inl ⟨rfl, rfl⟩
  case queued => exact fun i hi => absurd hi List.not_mem_nil
  case level_base => exact fun i hi => absurd hi List.not_mem_nil
  case heap_ok => exact IndexedMinHeap.reset_ok
  case heap_base => exact fun e he => absurd he List.not_mem_nil

theorem searchScan_end (hr : Ready part start a) {dist : Fin n → Dist K} {rowDone : Fin n → Bool}
    (hdist : ∀ i, dist i = if part i then ⊤ else ⊥) (hdone : ∀ i, rowDone i = false) :
    ScanEnd g part start a (searchScan g start a dist rowDone) := by
  have hinit : ScanInv g part start a start (g.col start)
      { Scan.start a dist rowDone with work := (Scan.start a dist rowDone).work +
        (g.col start).length } :=
    ScanInv.init dist rowDone hdist hdone _
  have hstart := hinit.relaxEntries hr (g.col start) (.inl rfl) (fun _ he => he) (if_pos rfl)
  exact Loop.run_induct (fun w w' => scanStep_inv hr) (fun w b => scanStep_end) ⟨start, hstart⟩

end Invariant

end Matching
end SmfSolver
