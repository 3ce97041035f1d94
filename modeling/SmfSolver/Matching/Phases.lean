/-
  SmfSolver.Matching.Phases

  What the matcher's state keeps while a part of the matrix is searched (`Inv`), from
  the initial phase (`initial_inv`) over every search (`search_inv`) and the duals of
  the dense rows (`denseDuals_inv`).  `PhaseOne` and `PhaseThree` add what the two
  phases know about their lists of columns.
-/
import SmfSolver.Matching.Advance
import SmfSolver.Matching.InitialSpec

namespace SmfSolver
namespace Matching

open Lib Lib.Assignment

variable {n : ℕ} {K : Type*} [Field K] [LinearOrder K] [IsStrictOrderedRing K]

/-! ## Parts -/

/-- The whole matrix. -/
def allPart (n : ℕ) : Fin n → Bool := fun _ => true

omit [Field K] [LinearOrder K] [IsStrictOrderedRing K] in
@[simp] theorem partCost_all (cost : Fin n → Fin n → WithTop K) :
    partCost (allPart n) cost = cost := by
  funext i j
  exact if_pos ⟨rfl, rfl⟩

/-- The part's columns can all be matched with its rows. -/
def PartPerfect (part : Fin n → Bool) (cost : Fin n → Fin n → WithTop K) : Prop :=
  ∃ m : Fin n → Fin n, Set.BijOn m {j | part j = true} {i | part i = true} ∧
    ∀ j, part j = true → cost (m j) j ≠ ⊤

omit [Field K] [LinearOrder K] [IsStrictOrderedRing K] in
theorem partPerfect_all {cost : Fin n → Fin n → WithTop K} :
    PartPerfect (allPart n) cost ↔ ∃ σ : Fin n ≃ Fin n, Perfect cost σ := by
  constructor
  · rintro ⟨m, hm, hc⟩
    have hinj : Function.Injective m := fun j j' heq => hm.injOn rfl rfl heq
    exact ⟨Equiv.ofBijective m (Finite.injective_iff_bijective.mp hinj), fun j => hc j rfl⟩
  · rintro ⟨σ, hσ⟩
    refine ⟨σ, ⟨fun _ _ => rfl, σ.injective.injOn, fun i _ => ⟨σ.symm i, rfl, ?_⟩⟩, fun j _ => hσ j⟩
    exact σ.apply_symm_apply i

section Full

variable {part : Fin n → Bool} {cost : Fin n → Fin n → WithTop K} {a : MatchArrays n K}

omit [IsStrictOrderedRing K] in
/-- With every column of the part matched, the matching is a bijection of the part. -/
theorem Sound.bijOn (h : Sound part cost a) (hfull : ∀ j, part j = true → a.colToRow j ≠ none) :
    ∃ m : Fin n → Fin n, Set.BijOn m {j | part j = true} {i | part i = true} ∧
      ∀ j, part j = true → a.rowMatch (m j) = some j := by
  have hex : ∀ j, ∃ i, part j = true → a.colToRow j = some i := by
    intro j
    by_cases hj : part j = true
    · obtain ⟨i, hi⟩ := Option.ne_none_iff_exists'.mp (hfull j hj)
      exact ⟨i, fun _ => hi⟩
    · exact ⟨j, fun hc => absurd hc hj⟩
  choose m hm using hex
  have hrow : ∀ j, part j = true → a.rowMatch (m j) = some j :=
    fun j hj => (h.inverse _ _).mpr (hm j hj)
  have hmaps : Set.MapsTo m {j | part j = true} {i | part i = true} :=
    fun j hj => (h.edge (hrow j hj)).1
  have hinj : Set.InjOn m {j | part j = true} := by
    intro j hj j' hj' heq
    have hr := hrow j hj
    rw [heq, hrow j' hj'] at hr
    exact (Option.some.inj hr).symm
  exact ⟨m, (Set.toFinite _).injOn_iff_bijOn_of_mapsTo hmaps |>.mp hinj, hrow⟩

omit [IsStrictOrderedRing K] in
/-- Then the row duals are optimal for the part. -/
theorem Sound.partDual (h : Sound part cost a) (hfull : ∀ j, part j = true → a.colToRow j ≠ none) :
    PartDual part cost a.u := by
  obtain ⟨m, hm, hrow⟩ := h.bijOn hfull
  exact ⟨a.v, m, hm, h.feasible, fun j hj => h.tight _ _ (hrow j hj)⟩

end Full

/-! ## The state's invariant -/

/-- The state between two searches of the part. -/
structure Inv (part : Fin n → Bool) (cost : Fin n → Fin n → WithTop K) (s : State n K) : Prop where
  lists : s.g.Lists cost
  sound : Sound part cost s.toMatchArrays
  dist : ∀ i, s.dist i = if part i then ⊤ else ⊥
  rowDone : ∀ i, s.rowDone i = false
  matched : s.matched = matchedCount s.colToRow

omit [LinearOrder K] [IsStrictOrderedRing K] in
theorem resetTouched_apply {α : Type*} (x : α) (l : List (Fin n)) (f : Fin n → α) (i : Fin n) :
    resetTouched x l f i = if i ∈ l then x else f i := by
  unfold resetTouched
  induction l generalizing f with
  | nil => exact (if_neg List.not_mem_nil).symm
  | cons k l ih =>
    rw [List.foldl_cons, ih]
    by_cases hl : i ∈ l
    · rw [if_pos hl, if_pos (List.mem_cons_of_mem k hl)]
    · rw [if_neg hl]
      by_cases hk : i = k
      · rw [hk, Function.update_self, if_pos List.mem_cons_self]
      · rw [Function.update_of_ne hk, if_neg]
        exact fun hc => (List.mem_cons.mp hc).elim hk hl

/-- What a failed search says and changes. -/
structure Failed (part : Fin n → Bool) (cost : Fin n → Fin n → WithTop K) (a b : MatchArrays n K) :
    Prop where
  none : ¬PartPerfect part cost
  same : ∃ work, b = { a with work := work }

section Search

variable {part : Fin n → Bool} {cost : Fin n → Fin n → WithTop K} {s : State n K} {start : Fin n}

/-- The row duals `u` lie between the cap and the part's optimal duals below it. -/
abbrev PartDescends (part : Fin n → Bool) (cost : Fin n → Fin n → WithTop K) (cap u : Fin n → K) :
    Prop :=
  Descends (partCost part cost) {i | part i = true} {j | part j = true} cap u

omit [IsStrictOrderedRing K] in
theorem Found.descends {a b : MatchArrays n K} (h : Found part cost start a b) :
    PartDescends part cost a.u b.u :=
  ⟨fun i _ => h.u_le i, h.le_u⟩

omit [IsStrictOrderedRing K] in
theorem Failed.descends {a b : MatchArrays n K} (h : Failed part cost a b) :
    PartDescends part cost a.u b.u := by
  obtain ⟨work, rfl⟩ := h.same
  exact Descends.refl _ _ _ _

theorem search_inv (h : Inv part cost s) (hfree : s.colToRow start = none)
    (hpart : part start = true) :
    Inv part cost (s.search start).1 ∧
      ((s.search start).2 = true ∧
          Found part cost start s.toMatchArrays (s.search start).1.toMatchArrays ∨
        (s.search start).2 = false ∧
          Failed part cost s.toMatchArrays (s.search start).1.toMatchArrays) := by
  have hend : ScanEnd s.g part start s.toMatchArrays
      (searchScan s.g start s.toMatchArrays s.dist s.rowDone) :=
    searchScan_end (h.sound.ready hfree hpart) h.dist h.rowDone
  unfold State.search
  dsimp only
  generalize searchScan s.g start s.toMatchArrays s.dist s.rowDone = w at hend
  obtain ⟨j₀, hinv⟩ := hend.inv
  -- the touched rows are reset
  have hdist : ∀ i, resetTouched ⊤ w.touched w.dist i = if part i then ⊤ else ⊥ := by
    intro i
    rw [resetTouched_apply]
    rcases hinv.dist_cases i with ⟨hp, hd, ht⟩ | ⟨hp, hd, ht⟩ | ⟨hp, ht, -⟩
    · rw [if_neg ht, hd, hp]
      rfl
    · rw [if_neg ht, hd, hp]
      rfl
    · rw [if_pos ht, hp]
      rfl
  have hdone : ∀ i, resetTouched false w.touched w.done i = false := by
    intro i
    rw [resetTouched_apply]
    split_ifs with ht
    · rfl
    · rw [← Bool.not_eq_true, hinv.done_iff i]
      exact fun hfin => ht (hinv.final_touched i hfin)
  cases hw : w.freeRow with
  | none =>
    have harrays : searchArrays start s.toMatchArrays w =
        { s.toMatchArrays with work := w.work } := by
      unfold searchArrays
      rw [hw]
    rw [harrays]
    refine ⟨⟨h.lists, ⟨h.sound.inverse, h.sound.feasible, h.sound.tight⟩, hdist, hdone, h.matched⟩,
      .inr ⟨rfl, fun hperf => ?_, w.work, rfl⟩⟩
    obtain ⟨m, hm, hc⟩ := hperf
    obtain ⟨j, hj, htop⟩ := search_failed h.sound h.lists hfree hpart hend hw hm.injOn
    refine hc j hj ?_
    unfold partCost at htop
    rwa [if_pos ⟨hm.mapsTo hj, hj⟩] at htop
  | some r =>
    have hfound := search_found h.sound h.lists hfree hpart hend hw
    refine ⟨⟨h.lists, hfound.sound, hdist, hdone, ?_⟩, .inl ⟨rfl, hfound⟩⟩
    exact (congrArg (· + 1) h.matched).trans (matchedCount_succ hfree hfound.col).symm

end Search

/-! ## The initial phase and the dense rows -/

section Dense

variable {cost : Fin n → Fin n → WithTop K}

theorem initial_inv {g : CostGraph n K} (hg : g.Lists cost) {s : State n K}
    (hdone : ∀ i, s.rowDone i = false) :
    Inv (sparsePart (s.initial g).rowDense) cost (s.initial g) := by
  have hf := initialV_feasible (isDense g) hg (initialU g (isDense g))
  have hm := initialMatching_ok hg hf
  refine ⟨hg, ⟨hm.paired, hf, hm.tight⟩, fun i => ?_, hdone, hm.matched⟩
  show (if isDense g i then ⊥ else ⊤) = if !isDense g i then ⊤ else ⊥
  cases isDense g i with
  | false => rfl
  | true => rfl

omit [IsStrictOrderedRing K] in
theorem denseDuals_u_sparse (s : State n K) {i : Fin n} (hi : s.rowDense i = false) :
    s.denseDuals.u i = s.u i := by
  unfold State.denseDuals
  dsimp only
  rw [hi, if_neg Bool.false_ne_true]

omit [IsStrictOrderedRing K] in
theorem denseDuals_v_sparse (s : State n K) {j : Fin n} (hj : s.rowDense j = false) :
    s.denseDuals.v j = s.v j := by
  unfold State.denseDuals
  dsimp only
  rw [hj, if_neg Bool.false_ne_true]

/-- The dense rows' and columns' duals are feasible on every entry. -/
theorem denseDuals_feasible {s : State n K} (hg : s.g.Lists cost)
    (hf : Feasible (partCost (sparsePart s.rowDense) cost) s.u s.v) :
    Feasible cost s.denseDuals.u s.denseDuals.v := by
  intro i j c hc
  have hmem := (hg.mem_iff i j c).mpr hc
  by_cases hj : s.rowDense j = true
  · have hle : s.denseDuals.v j ≤ c - s.denseDuals.u i := by
      unfold State.denseDuals
      dsimp only
      rw [if_pos hj]
      exact minOf_untopD_le (List.mem_map.mpr ⟨(i, c), hmem, rfl⟩)
    linarith
  · rw [Bool.not_eq_true] at hj
    rw [denseDuals_v_sparse s hj]
    by_cases hi : s.rowDense i = true
    · have hle : s.denseDuals.u i ≤ c - s.v j := by
        unfold State.denseDuals
        dsimp only
        rw [if_pos hi]
        refine minOf_untopD_le (List.mem_flatMap.mpr ⟨j, ?_, List.mem_map.mpr ⟨(i, c), ?_, rfl⟩⟩)
        · exact List.mem_filter.mpr ⟨List.mem_finRange j, by rw [hj]; rfl⟩
        · exact List.mem_filter.mpr ⟨hmem, decide_eq_true rfl⟩
      linarith
    · rw [Bool.not_eq_true] at hi
      rw [denseDuals_u_sparse s hi]
      exact hf i j c (partCost_eq.mpr ⟨sparsePart_iff.mpr hi, sparsePart_iff.mpr hj, hc⟩)

theorem denseDuals_inv {s : State n K} (h : Inv (sparsePart s.rowDense) cost s) :
    Inv (allPart n) cost s.denseDuals := by
  refine ⟨h.lists, ⟨h.sound.inverse, ?_, fun i j hij => ?_⟩, fun i => ?_, h.rowDone, h.matched⟩
  · rw [partCost_all]
    exact denseDuals_feasible h.lists h.sound.feasible
  · -- the matched edges are sparse
    obtain ⟨hi, hj, hc⟩ := h.sound.edge hij
    rw [sparsePart_iff] at hi hj
    unfold Tight
    rw [partCost_all, hc]
    show _ = ((s.denseDuals.u i + s.denseDuals.v j : K) : WithTop K)
    rw [denseDuals_u_sparse s hi, denseDuals_v_sparse s hj]
  · show (if s.rowDense i then ⊤ else s.dist i) = ⊤
    split_ifs with hi
    · rfl
    · rw [h.dist i, if_pos]
      exact sparsePart_iff.mpr (Bool.not_eq_true _ ▸ hi)

omit [IsStrictOrderedRing K] in
/-- Without dense rows the sparse part is the whole matrix. -/
theorem Inv.of_no_dense {s : State n K} (h : Inv (sparsePart s.rowDense) cost s)
    (hnone : ∀ i, s.rowDense i = false) : Inv (allPart n) cost s := by
  have hpart : sparsePart s.rowDense = allPart n := by
    funext i
    exact sparsePart_iff.mpr (hnone i)
  rwa [hpart] at h

end Dense

/-! ## Phase 1 -/

section PhaseOne

variable {cost : Fin n → Fin n → WithTop K}

/-- Phase 1: the columns still listed are free and sparse, and if the sparse part has
    a perfect matching they are all the free sparse columns, and no search has failed. -/
structure PhaseOne (cost : Fin n → Fin n → WithTop K) (s : State n K) : Prop where
  inv : Inv (sparsePart s.rowDense) cost s
  dense : s.anyDense = (List.finRange n).any s.rowDense
  nodup : (s.searchOrder.drop s.nextCol).Nodup
  listed : ∀ j ∈ s.searchOrder.drop s.nextCol, s.rowDense j = false ∧ s.colToRow j = none
  complete : PartPerfect (sparsePart s.rowDense) cost → ∀ j, s.rowDense j = false →
    s.colToRow j = none → j ∈ s.searchOrder.drop s.nextCol
  passed : PartPerfect (sparsePart s.rowDense) cost → ∀ j ∈ s.searchOrder.take s.nextCol,
    s.colToRow j ≠ none

omit [Field K] [LinearOrder K] [IsStrictOrderedRing K] in
theorem mem_sparseCols {dense : Fin n → Bool} {j : Fin n} :
    j ∈ sparseCols n dense ↔ dense j = false := by
  unfold sparseCols
  rw [List.mem_filter, Bool.not_eq_true']
  exact ⟨fun h => h.2, fun h => ⟨List.mem_finRange j, h⟩⟩

omit [IsStrictOrderedRing K] in
/-- The listed columns are the free sparse ones, each once. -/
theorem listFreeSparse_spec (s : State n K) :
    s.listFreeSparse.searchOrder.Nodup ∧
      ∀ j, j ∈ s.listFreeSparse.searchOrder ↔ s.rowDense j = false ∧ s.colToRow j = none := by
  have hnodup : ((sparseCols n s.rowDense).filter fun j => (s.colToRow j).isNone).Nodup :=
    ((List.nodup_finRange n).filter _).filter _
  have hmem : ∀ j, j ∈ (sparseCols n s.rowDense).filter (fun j => (s.colToRow j).isNone) ↔
      s.rowDense j = false ∧ s.colToRow j = none := by
    intro j
    rw [List.mem_filter, mem_sparseCols, Option.isNone_iff_eq_none]
  unfold State.listFreeSparse
  dsimp only
  split
  · exact ⟨hnodup, hmem⟩
  · refine ⟨(List.perm_insertionSort _ _).nodup_iff.mpr hnodup, fun j => ?_⟩
    exact (List.perm_insertionSort _ _).mem_iff.trans (hmem j)

omit [IsStrictOrderedRing K] in
/-- Phase 1 at the head of its list. -/
theorem phaseOne_of_list {s : State n K} (hinv : Inv (sparsePart s.rowDense) cost s)
    (hdense : s.anyDense = (List.finRange n).any s.rowDense) (hnext : s.nextCol = 0)
    (hnodup : s.searchOrder.Nodup)
    (hlisted : ∀ j ∈ s.searchOrder, s.rowDense j = false ∧ s.colToRow j = none)
    (hcomplete : PartPerfect (sparsePart s.rowDense) cost → ∀ j, s.rowDense j = false →
      s.colToRow j = none → j ∈ s.searchOrder) : PhaseOne cost s := by
  have hdrop : s.searchOrder.drop s.nextCol = s.searchOrder := by
    rw [hnext]
    exact List.drop_zero
  refine ⟨hinv, hdense, hdrop.symm ▸ hnodup, hdrop.symm ▸ hlisted, hdrop.symm ▸ hcomplete, ?_⟩
  intro _ j hj
  rw [hnext, List.take_zero] at hj
  exact absurd hj List.not_mem_nil

omit [IsStrictOrderedRing K] in
theorem phaseOne_enter {s : State n K} (h : Inv (sparsePart s.rowDense) cost s)
    (hdense : s.anyDense = (List.finRange n).any s.rowDense) (hnext : s.nextCol = 0) :
    PhaseOne cost s.listFreeSparse := by
  obtain ⟨hnodup, hmem⟩ := listFreeSparse_spec s
  exact phaseOne_of_list ⟨h.lists, h.sound, h.dist, h.rowDone, h.matched⟩ hdense hnext hnodup
    (fun j hj => (hmem j).mp hj) fun _ j hd hc => (hmem j).mpr ⟨hd, hc⟩

/-- One search of phase 1. -/
theorem phaseOne_search {s : State n K} (h : PhaseOne cost s) {j : Fin n}
    (hj : s.searchOrder[s.nextCol]? = some j) :
    PhaseOne cost { (s.search j).1 with nextCol := s.nextCol + 1 } ∧
      PartDescends (sparsePart s.rowDense) cost s.u (s.search j).1.u := by
  -- `j` is the first column left to search, so none after it is `j`
  have hdrop : s.searchOrder.drop s.nextCol = j :: s.searchOrder.drop (s.nextCol + 1) := by
    obtain ⟨hlt, hget⟩ := List.getElem?_eq_some_iff.mp hj
    rw [List.drop_eq_getElem_cons hlt, hget]
  obtain ⟨hjd, hjc⟩ := h.listed j (hdrop ▸ List.mem_cons_self)
  obtain ⟨hinv, hcase⟩ := search_inv h.inv hjc (sparsePart_iff.mpr hjd)
  have hnodup := h.nodup
  rw [hdrop, List.nodup_cons] at hnodup
  have hlisted : ∀ j' ∈ s.searchOrder.drop (s.nextCol + 1),
      s.rowDense j' = false ∧ s.colToRow j' = none :=
    fun j' hj' => h.listed j' (hdrop ▸ List.mem_cons_of_mem j hj')
  refine ⟨?_, hcase.elim (fun hc => hc.2.descends) fun hc => hc.2.descends⟩
  constructor
  case inv => exact ⟨hinv.lists, hinv.sound, hinv.dist, hinv.rowDone, hinv.matched⟩
  case dense => exact h.dense
  case nodup => exact hnodup.2
  case listed =>
    intro j' hj'
    obtain ⟨hd, hc⟩ := hlisted j' hj'
    refine ⟨hd, ?_⟩
    rcases hcase with ⟨-, hfound⟩ | ⟨-, hfailed⟩
    · refine (hfound.col j').mpr ⟨hc, ?_⟩
      rintro rfl
      exact hnodup.1 hj'
    · obtain ⟨work, hsame⟩ := hfailed.same
      exact (congrFun (congrArg MatchArrays.colToRow hsame) j').trans hc
  case complete =>
    intro hperf j' hd hc
    rcases hcase with ⟨-, hfound⟩ | ⟨-, hfailed⟩
    · obtain ⟨hc', hne⟩ := (hfound.col j').mp hc
      have hmem := h.complete hperf j' hd hc'
      rw [hdrop] at hmem
      exact (List.mem_cons.mp hmem).resolve_left hne
    · exact absurd hperf hfailed.none
  case passed =>
    intro hperf j' hj'
    have hj'' : j' ∈ s.searchOrder.take (s.nextCol + 1) := hj'
    rw [List.take_add_one, hj, List.mem_append] at hj''
    rcases hcase with ⟨-, hfound⟩ | ⟨-, hfailed⟩
    · intro hc
      obtain ⟨hc, hne⟩ := (hfound.col j').mp hc
      rcases hj'' with hj'' | hj''
      · exact h.passed hperf j' hj'' hc
      · exact hne (List.mem_singleton.mp hj'')
    · exact absurd hperf hfailed.none

end PhaseOne

/-! ## Phase 3 -/

section PhaseThree

variable {cost : Fin n → Fin n → WithTop K}

/-- Phase 3: the columns it has passed are matched. -/
structure PhaseThree (cost : Fin n → Fin n → WithTop K) (s : State n K) : Prop where
  inv : Inv (allPart n) cost s
  passed : ∀ j : Fin n, j.1 < s.nextCol → s.colToRow j ≠ none

/-- One search of phase 3. -/
theorem phaseThree_search {s : State n K} (h : PhaseThree cost s) {j : Fin n}
    (hj : j.1 = s.nextCol) (hfree : s.colToRow j = none) (hfound : (s.search j).2 = true) :
    PhaseThree cost { (s.search j).1 with nextCol := s.nextCol + 1 } ∧
      Found (allPart n) cost j s.toMatchArrays (s.search j).1.toMatchArrays := by
  obtain ⟨hinv, hcase⟩ := search_inv h.inv hfree rfl
  rcases hcase with ⟨-, hf⟩ | ⟨hf, -⟩
  · refine ⟨⟨⟨hinv.lists, hinv.sound, hinv.dist, hinv.rowDone, hinv.matched⟩, ?_⟩, hf⟩
    intro j' hj' hc
    obtain ⟨hc, hne⟩ := (hf.col j').mp hc
    have hlt : j'.1 < s.nextCol + 1 := hj'
    have hne' : j'.1 ≠ j.1 := fun hv => hne (Fin.ext hv)
    exact h.passed j' (by omega) hc
  · rw [hfound] at hf
    cases hf

omit [IsStrictOrderedRing K] in
theorem phaseThree_skip {s : State n K} (h : PhaseThree cost s) {j : Fin n} (hj : j.1 = s.nextCol)
    (hmatched : s.colToRow j ≠ none) : PhaseThree cost { s with nextCol := s.nextCol + 1 } := by
  refine ⟨⟨h.inv.lists, h.inv.sound, h.inv.dist, h.inv.rowDone, h.inv.matched⟩, fun j' hj' => ?_⟩
  have hlt : j'.1 < s.nextCol + 1 := hj'
  by_cases hv : j'.1 = j.1
  · rw [Fin.ext hv]
    exact hmatched
  · exact h.passed j' (by omega)

end PhaseThree

end Matching
end SmfSolver
