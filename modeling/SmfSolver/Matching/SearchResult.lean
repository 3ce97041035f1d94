/-
  SmfSolver.Matching.SearchResult

  What one search does to the matching and its duals.  A scan that was left is a
  `Tree` of the assignment problem if it found a free row (`ScanEnd.tree`) and a
  `Closed` set of columns if it found none (`ScanEnd.closed`).  The dual update is the
  tree's (`foldl_updateDuals`), the augmentation flips the path along the parents
  (`augment_spec`).  `search_found` and `search_failed` put these together: the
  invariant is `Sound`.
-/
import SmfSolver.Matching.SearchSpec

namespace SmfSolver
namespace Matching

open Lib Lib.Assignment

variable {n : ℕ} {K : Type*} [Field K] [LinearOrder K] [IsStrictOrderedRing K]

/-! ## The scan as a tree -/

/-- The matching and the duals of the part: a matching on tight edges, under feasible
    duals. -/
structure Sound (part : Fin n → Bool) (cost : Fin n → Fin n → WithTop K) (a : MatchArrays n K) :
    Prop where
  inverse : ∀ i j, a.rowMatch i = some j ↔ a.colToRow j = some i
  feasible : Feasible (partCost part cost) a.u a.v
  tight : ∀ i j, a.rowMatch i = some j → Tight (partCost part cost) a.u a.v i j

omit [IsStrictOrderedRing K] in
theorem Sound.edge {part : Fin n → Bool} {cost : Fin n → Fin n → WithTop K} {a : MatchArrays n K}
    (h : Sound part cost a) {i j : Fin n} (hij : a.rowMatch i = some j) :
    part i = true ∧ part j = true ∧ cost i j = ((a.u i + a.v j : K) : WithTop K) :=
  partCost_eq.mp (h.tight i j hij)

omit [IsStrictOrderedRing K] in
theorem Sound.ready {part : Fin n → Bool} {cost : Fin n → Fin n → WithTop K} {a : MatchArrays n K}
    (h : Sound part cost a) {start : Fin n} (hfree : a.colToRow start = none)
    (hpart : part start = true) : Ready part start a where
  inverse := h.inverse
  start_free := hfree
  part_start := hpart
  part_col := fun _ _ hij => (h.edge hij).2.1

section Scan

variable {g : CostGraph n K} {part : Fin n → Bool} {cost : Fin n → Fin n → WithTop K}
  {start : Fin n} {a : MatchArrays n K} {w : Scan n K}

omit [Field K] [LinearOrder K] [IsStrictOrderedRing K] in
theorem Ready.injective (hr : Ready part start a) {k k' j : Fin n} (hk : a.rowMatch k = some j)
    (hk' : a.rowMatch k' = some j) : k = k' :=
  Option.some.inj (((hr.inverse k j).mp hk).symm.trans ((hr.inverse k' j).mp hk'))

omit [Field K] [LinearOrder K] [IsStrictOrderedRing K] in
theorem Ready.start_unmatched (hr : Ready part start a) (k : Fin n) :
    a.rowMatch k ≠ some start := by
  intro hk
  have := (hr.inverse k start).mp hk
  rw [hr.start_free] at this
  cases this

omit [Field K] [LinearOrder K] [IsStrictOrderedRing K] in
theorem Ready.part_expanded (hr : Ready part start a) {l : List (Fin n)} {j : Fin n}
    (hj : Expanded a.rowMatch start l j) : part j = true := by
  rcases hj with rfl | ⟨k, -, hkj⟩
  · exact hr.part_start
  · exact hr.part_col k j hkj

/-- A feasible entry's reduced cost is not clipped. -/
theorem candidate_eq (hf : Feasible (partCost part cost) a.u a.v) {base c : K} {i j : Fin n}
    (hc : partCost part cost i j = c) :
    candidate a base j (i, c) = base + (c - a.u i - a.v j) := by
  have hle := hf i j c hc
  unfold candidate
  dsimp only
  rw [max_eq_right]
  linarith

omit [IsStrictOrderedRing K] in
/-- Every entry of a scanned column leads to a finalized row that is no farther, or is
    no shorter than the path. -/
theorem ScanEnd.scanned (h : ScanEnd g part start a w) {i j : Fin n} {c : K}
    (hj : Expanded a.rowMatch start w.finalized j) (hc : (i, c) ∈ g.col j) (hp : part i = true) :
    i ∈ w.finalized ∧ distValue (w.dist i) ≤ candidate a (label a start w j) j (i, c) ∨
      w.pathLen ≤ ((candidate a (label a start w j) j (i, c) : K) : WithTop K) := by
  obtain ⟨j₀, hinv⟩ := h.inv
  rcases hinv.scanned j (i, c) hj hc (fun _ => List.not_mem_nil) hp with hd | hl
  · rcases hinv.dist_cases i with ⟨hp', -⟩ | ⟨-, hd', -⟩ | ⟨-, ht, -⟩
    · rw [hp] at hp'
      cases hp'
    · rw [hd'] at hd
      exact absurd (WithBot.coe_le_coe.mp hd) (not_le.mpr (WithTop.coe_lt_top _))
    · rw [hinv.dist_eq ht, WithBot.coe_le_coe, WithTop.coe_le_coe] at hd
      by_cases hfin : i ∈ w.finalized
      · exact .inl ⟨hfin, hd⟩
      · right
        refine le_trans ?_ (WithTop.coe_le_coe.mpr hd)
        by_cases hm : a.rowMatch i = none
        · exact hinv.free_le i ht hm
        · exact h.waiting i ht hm hfin
  · exact .inr hl

/-- The edge a touched row was reached over. -/
theorem ScanEnd.edge (h : ScanEnd g part start a w) (hr : Ready part start a)
    (hg : g.Lists cost) (hf : Feasible (partCost part cost) a.u a.v) {i : Fin n}
    (ht : i ∈ w.touched) : ∃ j c, w.parent i = some j ∧
      Expanded a.rowMatch start w.finalized j ∧ partCost part cost i j = (c : K) ∧
      distValue (w.dist i) = label a start w j + (c - a.u i - a.v j) := by
  obtain ⟨j₀, hinv⟩ := h.inv
  obtain ⟨j, c, hp, hc, hj, hd⟩ := hinv.reached i ht
  have hpart : part i = true := by
    rcases hinv.dist_cases i with ⟨-, -, hn⟩ | ⟨-, -, hn⟩ | ⟨hpi, -⟩
    · exact absurd ht hn
    · exact absurd ht hn
    · exact hpi
  have hcost : partCost part cost i j = (c : K) :=
    partCost_eq.mpr ⟨hpart, hr.part_expanded hj, (hg.mem_iff i j c).mp hc⟩
  exact ⟨j, c, hp, hj, hcost, by rw [hd, candidate_eq hf hcost]⟩

/-- A search that found a free row is a tree. -/
theorem ScanEnd.tree (h : ScanEnd g part start a w) (hr : Ready part start a) (hg : g.Lists cost)
    (hf : Feasible (partCost part cost) a.u a.v) {len : K} (hlen : w.pathLen = (len : WithTop K)) :
    Tree (partCost part cost) a.u a.v a.rowMatch start w.finalized
      (fun i => distValue (w.dist i)) (label a start w) len := by
  obtain ⟨j₀, hinv⟩ := h.inv
  constructor
  case injective => exact hr.injective
  case start_free => exact hr.start_unmatched
  case final_matched => exact hinv.final_matched
  case dist_le =>
    intro k hk
    have hbase := hinv.base_le
    rw [hlen, WithTop.coe_le_coe] at hbase
    exact (hinv.final_le k hk).trans hbase
  case label_start => exact if_pos rfl
  case label_matched => exact fun k _ j hkj => label_matched hr w hkj
  case reached =>
    intro pre k post hsplit
    have hk : k ∈ w.finalized := hsplit ▸ List.mem_append_right _ List.mem_cons_self
    obtain ⟨j, c, hp, -, hcost, hd⟩ := h.edge hr hg hf (hinv.final_touched k hk)
    obtain ⟨j', hp', hj'⟩ := hinv.reached_before pre k post hsplit
    obtain rfl := Option.some.inj (hp.symm.trans hp')
    exact ⟨j, c, hj', hcost, hd⟩
  case scanned =>
    intro i j c hj hc
    obtain ⟨hp, -, hcost⟩ := partCost_eq.mp hc
    have hs := h.scanned hj ((hg.mem_iff i j c).mpr hcost) hp
    rw [candidate_eq hf hc, hlen, WithTop.coe_le_coe] at hs
    exact hs

omit [IsStrictOrderedRing K] in
/-- A search that found none has scanned a closed set of columns. -/
theorem ScanEnd.closed (h : ScanEnd g part start a w) (hr : Ready part start a)
    (hg : g.Lists cost) (hfree : w.freeRow = none) :
    Closed (partCost part cost) a.rowMatch start w.finalized := by
  obtain ⟨j₀, hinv⟩ := h.inv
  constructor
  case injective => exact hr.injective
  case start_free => exact hr.start_unmatched
  case nodup => exact hinv.final_nodup
  case final_matched => exact hinv.final_matched
  case scanned =>
    intro i j hj hc
    obtain ⟨c, hc⟩ := WithTop.ne_top_iff_exists.mp hc
    obtain ⟨hp, -, hcost⟩ := partCost_eq.mp hc.symm
    rcases h.scanned hj ((hg.mem_iff i j c).mpr hcost) hp with ⟨hfin, -⟩ | hl
    · exact hfin
    · rcases hinv.free_row with ⟨-, htop⟩ | ⟨r, hr', -⟩
      · rw [htop] at hl
        exact absurd hl (not_le.mpr (WithTop.coe_lt_top _))
      · rw [hfree] at hr'
        cases hr'

end Scan

/-! ## The dual update -/

omit [LinearOrder K] [IsStrictOrderedRing K] in
theorem updateDuals_v_self (dist : Fin n → Dist K) (len : K) {a : MatchArrays n K} {i j : Fin n}
    (hij : a.rowMatch i = some j) :
    (updateDuals dist len a i).v j = a.v j + (len - distValue (dist i)) := by
  unfold updateDuals
  rw [hij]
  exact Function.update_self ..

omit [LinearOrder K] [IsStrictOrderedRing K] in
theorem updateDuals_v_of_ne (dist : Fin n → Dist K) (len : K) {a : MatchArrays n K} {i j : Fin n}
    (hij : a.rowMatch i ≠ some j) : (updateDuals dist len a i).v j = a.v j := by
  unfold updateDuals
  dsimp only
  cases hm : a.rowMatch i with
  | none => rfl
  | some mc =>
    refine Function.update_of_ne ?_ ..
    rintro rfl
    exact hij hm

/-- The updates of distinct matched rows, taken together. -/
structure Updated (dist : Fin n → Dist K) (len : K) (l : List (Fin n)) (a b : MatchArrays n K) :
    Prop where
  rowMatch : b.rowMatch = a.rowMatch
  colToRow : b.colToRow = a.colToRow
  work : b.work = a.work
  u : ∀ i, b.u i = if i ∈ l then a.u i - (len - distValue (dist i)) else a.u i
  v_of_mem : ∀ k ∈ l, ∀ j, a.rowMatch k = some j → b.v j = a.v j + (len - distValue (dist k))
  v_of_forall_ne : ∀ j, (∀ k ∈ l, a.rowMatch k ≠ some j) → b.v j = a.v j

omit [LinearOrder K] [IsStrictOrderedRing K] in
theorem foldl_updateDuals (dist : Fin n → Dist K) (len : K) (l : List (Fin n)) (a : MatchArrays n K)
    (hl : l.Nodup)
    (hinj : ∀ k k' j, a.rowMatch k = some j → a.rowMatch k' = some j → k = k') :
    Updated dist len l a (l.foldl (updateDuals dist len) a) := by
  -- on the finalized rows: each is matched to a column of its own
  induction l generalizing a with
  | nil =>
    exact ⟨rfl, rfl, rfl, fun i => (if_neg List.not_mem_nil).symm,
      fun k hk => absurd hk List.not_mem_nil, fun _ _ => rfl⟩
  | cons i l ih =>
    obtain ⟨hil, hl⟩ := List.nodup_cons.mp hl
    have h := ih (updateDuals dist len a i) hl hinj
    constructor
    case rowMatch => exact h.rowMatch
    case colToRow => exact h.colToRow
    case work => exact h.work
    case u =>
      intro k
      rw [List.foldl_cons, h.u k]
      by_cases hk : k = i
      · rw [hk, if_neg hil, if_pos List.mem_cons_self]
        exact Function.update_self ..
      · have hkeep : (updateDuals dist len a i).u k = a.u k := Function.update_of_ne hk ..
        rw [hkeep]
        simp only [List.mem_cons, hk, false_or]
    case v_of_mem =>
      intro k hk j hkj
      rcases List.mem_cons.mp hk with rfl | hk
      · -- no later row is matched to column j
        refine (h.v_of_forall_ne j fun k' hk' hk'j => ?_).trans (updateDuals_v_self dist len hkj)
        exact hil (hinj k k' j hkj hk'j ▸ hk')
      · have hij : a.rowMatch i ≠ some j := by
          intro hij
          exact hil (hinj i k j hij hkj ▸ hk)
        rw [List.foldl_cons, h.v_of_mem k hk j hkj, updateDuals_v_of_ne dist len hij]
    case v_of_forall_ne =>
      intro j hj
      refine (h.v_of_forall_ne j fun k hk => hj k (List.mem_cons_of_mem i hk)).trans ?_
      exact updateDuals_v_of_ne dist len (hj i List.mem_cons_self)

section Scan

variable {g : CostGraph n K} {part : Fin n → Bool} {cost : Fin n → Fin n → WithTop K}
  {start : Fin n} {a : MatchArrays n K} {w : Scan n K}

/-- The arrays after the dual update. -/
def raised (start : Fin n) (a : MatchArrays n K) (w : Scan n K) (len : K) : MatchArrays n K :=
  w.finalized.foldl (updateDuals w.dist len)
    { a with work := w.work, v := Function.update a.v start (a.v start + len) }

omit [LinearOrder K] [IsStrictOrderedRing K] in
/-- The dual update is the tree's. -/
theorem raised_eq (hr : Ready part start a) (hnodup : w.finalized.Nodup) (len : K) :
    (raised start a w len).rowMatch = a.rowMatch ∧ (raised start a w len).colToRow = a.colToRow ∧
      (raised start a w len).u =
        raiseU a.u w.finalized (fun i => distValue (w.dist i)) len ∧
      (raised start a w len).v =
        raiseV a.v a.rowMatch start w.finalized (label a start w) len := by
  -- the start column is raised by `len` first, the others by what is left of it
  have h := foldl_updateDuals w.dist len w.finalized
    { a with work := w.work, v := Function.update a.v start (a.v start + len) } hnodup
    fun _ _ _ => hr.injective
  refine ⟨h.rowMatch, h.colToRow, ?_, ?_⟩
  · funext i
    unfold raiseU
    refine (h.u i).trans ?_
    split_ifs
    · rfl
    · rfl
  · funext j
    unfold raiseV
    split_ifs with hj
    · rcases hj with rfl | ⟨k, hk, hkj⟩
      · refine (h.v_of_forall_ne j fun k _ => hr.start_unmatched k).trans ?_
        show Function.update a.v j (a.v j + len) j = _
        rw [Function.update_self, label, if_pos rfl, sub_zero]
      · refine (h.v_of_mem k hk j hkj).trans ?_
        have hne : j ≠ start := by
          rintro rfl
          exact hr.start_unmatched k hkj
        show Function.update a.v start (a.v start + len) j + _ = _
        rw [Function.update_of_ne hne, label_matched hr w hkj]
    · refine (h.v_of_forall_ne j fun k hk hkj => hj (.inr ⟨k, hk, hkj⟩)).trans ?_
      exact Function.update_of_ne (fun hc => hj (.inl hc)) ..

end Scan

/-! ## The augmentation -/

section Augment

omit [Field K] [LinearOrder K] [IsStrictOrderedRing K]

/-- A matching with row `r` half-matched: apart from `r`, rows and columns agree, and
    no column is matched to `r`. -/
structure Dangling (start r : Fin n) (a : MatchArrays n K) : Prop where
  inverse : ∀ i j, i ≠ r → (a.rowMatch i = some j ↔ a.colToRow j = some i)
  absent : ∀ j, a.colToRow j ≠ some r
  start_free : a.colToRow start = none

/-- What flipping the path from `r` gives.  `pre` are the rows it may pass. -/
structure Augmented (start : Fin n) (parent : Fin n → Option (Fin n)) (pre : List (Fin n))
    (r : Fin n) (a b : MatchArrays n K) : Prop where
  u : b.u = a.u
  v : b.v = a.v
  work : b.work = a.work
  inverse : ∀ i j, b.rowMatch i = some j ↔ b.colToRow j = some i
  edge : ∀ i j, b.colToRow j = some i → a.colToRow j = some i ∨
    parent i = some j ∧ (i = r ∨ i ∈ pre)
  col : ∀ j, b.colToRow j = none ↔ a.colToRow j = none ∧ j ≠ start

/-- Row `r` takes column `c`. -/
def takeColumn (a : MatchArrays n K) (r c : Fin n) : MatchArrays n K :=
  { a with
    rowMatch := Function.update a.rowMatch r (some c)
    colToRow := Function.update a.colToRow c (some r) }

/-- Then the rows other than the one that had column `c` agree with their columns. -/
theorem Dangling.takeColumn {start r : Fin n} {a : MatchArrays n K} (ha : Dangling start r a)
    {c i : Fin n} (hi : a.colToRow c ≠ some i) (j : Fin n) :
    (takeColumn a r c).rowMatch i = some j ↔ (takeColumn a r c).colToRow j = some i := by
  show Function.update a.rowMatch r (some c) i = some j ↔
    Function.update a.colToRow c (some r) j = some i
  by_cases hir : i = r
  · subst hir
    rw [Function.update_self]
    by_cases hjc : j = c
    · rw [hjc, Function.update_self]
      exact ⟨fun _ => rfl, fun _ => rfl⟩
    · rw [Function.update_of_ne hjc]
      exact ⟨fun hc => absurd (Option.some.inj hc).symm hjc, fun hc => absurd hc (ha.absent j)⟩
  · rw [Function.update_of_ne hir]
    by_cases hjc : j = c
    · rw [hjc, Function.update_self, ha.inverse i c hir]
      exact ⟨fun hc => absurd hc hi, fun hc => absurd (Option.some.inj hc).symm hir⟩
    · rw [Function.update_of_ne hjc]
      exact ha.inverse i j hir

theorem takeColumn_edge {a : MatchArrays n K} {r c i j : Fin n}
    (h : (takeColumn a r c).colToRow j = some i) : a.colToRow j = some i ∨ i = r ∧ j = c := by
  have h' : Function.update a.colToRow c (some r) j = some i := h
  by_cases hjc : j = c
  · rw [hjc, Function.update_self] at h'
    exact .inr ⟨(Option.some.inj h').symm, hjc⟩
  · rw [Function.update_of_ne hjc] at h'
    exact .inl h'

theorem takeColumn_none {a : MatchArrays n K} {r c j : Fin n} :
    (takeColumn a r c).colToRow j = none ↔ a.colToRow j = none ∧ j ≠ c := by
  show Function.update a.colToRow c (some r) j = none ↔ _
  by_cases hjc : j = c
  · rw [hjc, Function.update_self]
    exact ⟨fun hc => absurd hc (Option.some_ne_none r), fun hc => absurd rfl hc.2⟩
  · rw [Function.update_of_ne hjc]
    exact ⟨fun hc => ⟨hc, hjc⟩, fun hc => hc.1⟩

/-- Flips the path: by induction on the rows it may pass, which get fewer since every
    row was reached from a column scanned before. -/
theorem augment_spec {rowMatch : Fin n → Option (Fin n)}
    {start : Fin n} {parent : Fin n → Option (Fin n)}
    (fuel : ℕ) (pre : List (Fin n)) (hpre : pre.Nodup) (hfuel : pre.length < fuel)
    (hreach : ∀ p k q, pre = p ++ k :: q → ∃ c, parent k = some c ∧ Expanded rowMatch start p c)
    {r : Fin n} (hr : r ∉ pre) {c : Fin n} (hrc : parent r = some c)
    (hc : Expanded rowMatch start pre c) {a : MatchArrays n K} (ha : Dangling start r a)
    (hold : ∀ k ∈ pre, ∀ j, rowMatch k = some j → a.rowMatch k = some j) :
    Augmented start parent pre r a (augment start parent fuel r a) := by
  induction fuel generalizing pre r c a with
  | zero => exact absurd hfuel (Nat.not_lt_zero _)
  | succ fuel ih =>
    unfold augment
    rw [hrc]
    dsimp only
    by_cases hcs : c = start
    · -- the path ends at the start column
      subst hcs
      rw [if_pos rfl]
      dsimp only
      have hfree : ∀ i, a.colToRow c ≠ some i := by
        intro i
        rw [ha.start_free]
        exact (Option.some_ne_none i).symm
      refine ⟨rfl, rfl, rfl, fun i j => ha.takeColumn (hfree i) j, fun i j hij => ?_, fun j => ?_⟩
      · refine (takeColumn_edge hij).imp_right ?_
        rintro ⟨rfl, rfl⟩
        exact ⟨hrc, .inl rfl⟩
      · exact takeColumn_none
    · obtain ⟨k, hk, hkc⟩ := hc.resolve_left hcs
      obtain ⟨p, q, hsplit⟩ := List.append_of_mem hk
      have hkr : k ≠ r := fun hkr => hr (hkr ▸ hk)
      have hak : a.colToRow c = some k := (ha.inverse k c hkr).mp (hold k hk c hkc)
      have hmem : ∀ k' ∈ p, k' ∈ pre := fun k' hk' => hsplit ▸ List.mem_append_left _ hk'
      have hkp : k ∉ p := by
        rw [hsplit, List.nodup_append] at hpre
        exact fun hkp => hpre.2.2 k hkp k List.mem_cons_self rfl
      obtain ⟨c', hkc', hc'⟩ := hreach p k q hsplit
      have hlen : p.length < fuel := by
        have := congrArg List.length hsplit
        rw [List.length_append, List.length_cons] at this
        omega
      -- row `k` has lost column `c` to row `r`
      have hdangling : Dangling start k (takeColumn a r c) := by
        constructor
        case inverse =>
          intro i j hik
          refine ha.takeColumn ?_ j
          rw [hak]
          exact fun hc => hik (Option.some.inj hc).symm
        case absent =>
          intro j hj
          rcases takeColumn_edge hj with hkj | ⟨hkr', -⟩
          · rw [← ha.inverse k j hkr, hold k hk c hkc] at hkj
            obtain rfl := Option.some.inj hkj
            have htaken : (takeColumn a r c).colToRow c = some r := Function.update_self ..
            exact hkr (Option.some.inj (hj.symm.trans htaken))
          · exact hkr hkr'
        case start_free => exact takeColumn_none.mpr ⟨ha.start_free, Ne.symm hcs⟩
      have hold' : ∀ k' ∈ p, ∀ j, rowMatch k' = some j →
          (takeColumn a r c).rowMatch k' = some j := by
        intro k' hk' j hkj
        have hne : k' ≠ r := fun hkr => hr (hkr ▸ hmem k' hk')
        exact (Function.update_of_ne hne ..).trans (hold k' (hmem k' hk') j hkj)
      have hreach' : ∀ p' k' q', p = p' ++ k' :: q' →
          ∃ c, parent k' = some c ∧ Expanded rowMatch start p' c := by
        intro p' k' q' hp
        refine hreach p' k' (q' ++ k :: q) ?_
        rw [hsplit, hp, List.append_assoc, List.cons_append]
      have hnodup : p.Nodup := (List.nodup_append.mp (hsplit ▸ hpre)).1
      have h := ih p hnodup hlen hreach' hkp hkc' hc' hdangling hold'
      rw [if_neg hcs, hak]
      refine ⟨h.u, h.v, h.work, h.inverse, fun i j hij => ?_, fun j => ?_⟩
      · rcases h.edge i j hij with hij | ⟨hp, hi⟩
        · refine (takeColumn_edge hij).imp_right ?_
          rintro ⟨rfl, rfl⟩
          exact ⟨hrc, .inl rfl⟩
        · refine .inr ⟨hp, .inr ?_⟩
          rcases hi with rfl | hi
          · exact hk
          · exact hmem i hi
      · refine (h.col j).trans ?_
        rw [takeColumn_none]
        constructor
        · exact fun hj => ⟨hj.1.1, hj.2⟩
        · rintro ⟨hj, hjs⟩
          refine ⟨⟨hj, ?_⟩, hjs⟩
          rintro rfl
          rw [hak] at hj
          cases hj

end Augment

/-! ## One search -/

section Search

variable {g : CostGraph n K} {part : Fin n → Bool} {cost : Fin n → Fin n → WithTop K}
  {start : Fin n} {a : MatchArrays n K} {w : Scan n K}

/-- Row potentials that are optimal for the part. -/
abbrev PartDual (part : Fin n → Bool) (cost : Fin n → Fin n → WithTop K) (x : Fin n → K) : Prop :=
  OptimalDual (partCost part cost) {i | part i = true} {j | part j = true} x

/-- What a search that found a free row leaves. -/
structure Found (part : Fin n → Bool) (cost : Fin n → Fin n → WithTop K) (start : Fin n)
    (a b : MatchArrays n K) : Prop where
  sound : Sound part cost b
  col : ∀ j, b.colToRow j = none ↔ a.colToRow j = none ∧ j ≠ start
  u_le : ∀ i, b.u i ≤ a.u i
  u_outside : ∀ i, part i = false → b.u i = a.u i
  v_outside : ∀ j, part j = false → b.v j = a.v j
  /-- The searches do not fall below an optimal potential. -/
  le_u : ∀ x, PartDual part cost x → (∀ i, part i = true → x i ≤ a.u i) →
    ∀ i, part i = true → x i ≤ b.u i

theorem search_found (ha : Sound part cost a) (hg : g.Lists cost) (hfree : a.colToRow start = none)
    (hpart : part start = true) (h : ScanEnd g part start a w) {r : Fin n}
    (hw : w.freeRow = some r) : Found part cost start a (searchArrays start a w) := by
  have hr := ha.ready hfree hpart
  obtain ⟨j₀, hinv⟩ := h.inv
  obtain ⟨r', hr', hrm, hrt, hlen⟩ := hinv.free_row.resolve_left fun hc => by
    rw [hw] at hc
    cases hc.1
  obtain rfl := Option.some.inj (hw.symm.trans hr')
  have htree := h.tree hr hg ha.feasible hlen
  obtain ⟨hrow, hcol, hu, hv⟩ := raised_eq (w := w) hr hinv.final_nodup (distValue (w.dist r))
  set len := distValue (w.dist r) with hlenDef
  set a' := raised start a w len with ha'
  have hrfin : r ∉ w.finalized := by
    intro hc
    obtain ⟨j, hj⟩ := hinv.final_matched r hc
    rw [hrm] at hj
    cases hj
  obtain ⟨c, cc, hrc, hexp, hcost, hd⟩ := h.edge hr hg ha.feasible hrt
  -- the row found has no column yet, and `start` has no row: the path joins them
  have hdangling : Dangling start r a' := by
    constructor
    case inverse =>
      intro i j _
      rw [hrow, hcol]
      exact hr.inverse i j
    case absent =>
      intro j hj
      rw [hcol, ← hr.inverse, hrm] at hj
      cases hj
    case start_free =>
      rw [hcol]
      exact hfree
  have hfuel : w.finalized.length < n := by
    have hnodup : (r :: w.finalized).Nodup := List.nodup_cons.mpr ⟨hrfin, hinv.final_nodup⟩
    have hle := hnodup.length_le_card
    rw [List.length_cons, Fintype.card_fin] at hle
    exact hle
  -- the path visits each finalized row once at most, so the fuel is enough
  have haug := augment_spec n w.finalized hinv.final_nodup hfuel
    hinv.reached_before hrfin hrc hexp hdangling fun k _ j hkj => (congrFun hrow k).trans hkj
  have hresult : searchArrays start a w = augment start w.parent n r a' := by
    unfold searchArrays
    rw [hw, hlen]
    rfl
  rw [hresult]
  set b := augment start w.parent n r a' with hb
  have hbu : b.u = raiseU a.u w.finalized (fun i => distValue (w.dist i)) len := haug.u.trans hu
  have hbv : b.v = raiseV a.v a.rowMatch start w.finalized (label a start w) len :=
    haug.v.trans hv
  constructor
  case sound =>
    constructor
    case inverse => exact haug.inverse
    case feasible =>
      rw [hbu, hbv]
      exact htree.raise_feasible ha.feasible
    case tight =>
      intro i j hij
      rw [hbu, hbv]
      rcases haug.edge i j ((haug.inverse i j).mp hij) with hold | ⟨hp, hi⟩
      · rw [hcol, ← hr.inverse] at hold
        exact htree.raise_tight hold (ha.tight i j hold)
      · -- the edges of the path flipped
        have hit : i ∈ w.touched := by
          rcases hi with rfl | hi
          · exact hrt
          · exact hinv.final_touched i hi
        obtain ⟨j', c', hp', hexp', hcost', hd'⟩ := h.edge hr hg ha.feasible hit
        obtain rfl := Option.some.inj (hp.symm.trans hp')
        refine Tree.raise_path hexp' hcost' hd' ?_
        rcases hi with rfl | hi
        · exact .inr ⟨hrfin, rfl⟩
        · exact .inl ⟨hi, rfl⟩
  case col =>
    intro j
    rw [haug.col j, hcol]
  case u_le =>
    intro i
    rw [hbu]
    exact htree.raiseU_le i
  case u_outside =>
    intro i hi
    rw [hbu]
    unfold raiseU
    refine if_neg fun hfin => ?_
    obtain ⟨j, hj⟩ := hinv.final_matched i hfin
    rw [(ha.edge hj).1] at hi
    cases hi
  case v_outside =>
    intro j hj
    rw [hbv]
    unfold raiseV
    refine if_neg fun hexp => ?_
    rw [hr.part_expanded hexp] at hj
    cases hj
  -- the raise stays below every optimal potential that was above
  case le_u =>
    intro x hx hle i hi
    rw [hbu]
    exact htree.le_raise ha.tight (fun j hj => hr.part_expanded hj) hx hle hi

omit [IsStrictOrderedRing K] in
/-- A search that found none: the part has no perfect matching. -/
theorem search_failed (ha : Sound part cost a) (hg : g.Lists cost) (hfree : a.colToRow start = none)
    (hpart : part start = true) (h : ScanEnd g part start a w) (hw : w.freeRow = none)
    {m : Fin n → Fin n} (hm : Set.InjOn m {j | part j = true}) :
    ∃ j, part j = true ∧ partCost part cost (m j) j = ⊤ := by
  have hr := ha.ready hfree hpart
  have hcols : ∀ j, Expanded a.rowMatch start w.finalized j → j ∈ {j | part j = true} :=
    fun j hj => hr.part_expanded hj
  obtain ⟨j, hj, htop⟩ := (h.closed hr hg hw).no_matching hcols hm
  exact ⟨j, hj, htop⟩

end Search

end Matching
end SmfSolver
