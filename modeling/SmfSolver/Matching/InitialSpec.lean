/-
  SmfSolver.Matching.InitialSpec

  The initial phase leaves a `Sound` matching of the sparse part: its v is feasible
  for whatever u (`initialV_feasible`), and the greedy matching and the length-2
  augmentations use tight edges only (`initialMatching_ok`).
-/
import SmfSolver.Lib.PartialMatching
import SmfSolver.Matching.SearchResult

namespace SmfSolver
namespace Matching

open Lib Lib.Assignment

variable {n : ℕ} {K : Type*} [Field K] [LinearOrder K]

/-! ## Minima -/

omit [Field K] in
theorem foldl_min_le (l : List K) (m : WithTop K) :
    l.foldl (fun m d => min m (d : WithTop K)) m ≤ m ∧
      ∀ d ∈ l, l.foldl (fun m d => min m (d : WithTop K)) m ≤ (d : WithTop K) := by
  induction l generalizing m with
  | nil => exact ⟨le_rfl, fun d hd => absurd hd List.not_mem_nil⟩
  | cons d₀ l ih =>
    obtain ⟨hm, hl⟩ := ih (min m (d₀ : WithTop K))
    refine ⟨hm.trans (min_le_left _ _), fun d hd => ?_⟩
    rcases List.mem_cons.mp hd with rfl | hd
    · exact hm.trans (min_le_right _ _)
    · exact hl d hd

omit [Field K] in
theorem minOf_le {l : List K} {d : K} (h : d ∈ l) : minOf l ≤ (d : WithTop K) :=
  (foldl_min_le l ⊤).2 d h

theorem minOf_untopD_le {l : List K} {d : K} (h : d ∈ l) : (minOf l).untopD 0 ≤ d := by
  have hle := minOf_le h
  cases hm : minOf l with
  | top =>
    rw [hm] at hle
    exact absurd hle (not_le.mpr (WithTop.coe_lt_top d))
  | coe m =>
    rw [hm] at hle
    exact WithTop.coe_le_coe.mp hle

/-! ## Duals of the sparse part -/

/-- The rows and columns that are not dense. -/
def sparsePart (dense : Fin n → Bool) : Fin n → Bool := fun i => !dense i

theorem sparsePart_iff {dense : Fin n → Bool} {i : Fin n} :
    sparsePart dense i = true ↔ dense i = false := by
  unfold sparsePart
  rw [Bool.not_eq_true']

variable {g : CostGraph n K} {cost : Fin n → Fin n → WithTop K} {dense : Fin n → Bool}

omit [Field K] [LinearOrder K] in
theorem mem_sparseEntries (hg : g.Lists cost) {i j : Fin n} {c : K} :
    (i, c) ∈ sparseEntries g dense j ↔ dense i = false ∧ cost i j = (c : K) := by
  unfold sparseEntries
  rw [List.mem_filter, hg.mem_iff]
  refine ⟨fun h => ⟨Bool.not_eq_true' _ ▸ h.2, h.1⟩, fun h => ⟨h.2, ?_⟩⟩
  show (!dense i) = true
  rw [h.1]
  rfl

variable [IsStrictOrderedRing K]

omit [IsStrictOrderedRing K] in
/-- A column's least c - u is a feasible v. -/
theorem minOf_reduced_le (hg : g.Lists cost) (u : Fin n → K) {i j : Fin n} {c : K}
    (hi : dense i = false) (hc : cost i j = (c : K)) :
    (minOf ((sparseEntries g dense j).map fun e => e.2 - u e.1)).untopD 0 ≤ c - u i :=
  minOf_untopD_le (List.mem_map.mpr ⟨(i, c), (mem_sparseEntries hg).mpr ⟨hi, hc⟩, rfl⟩)

theorem initialV_feasible (dense : Fin n → Bool) (hg : g.Lists cost) (u : Fin n → K) :
    Feasible (partCost (sparsePart dense) cost) u (initialV g dense u) := by
  intro i j c hc
  obtain ⟨hi, hj, hcost⟩ := partCost_eq.mp hc
  rw [sparsePart_iff] at hi hj
  have hle := minOf_reduced_le hg u hi hcost
  unfold initialV
  rw [hj, if_neg Bool.false_ne_true]
  linarith

/-! ## The greedy matching and the augmentations -/

/-- A matching on tight edges under construction. -/
structure GreedyOk (g : CostGraph n K) (dense : Fin n → Bool) (cost : Fin n → Fin n → WithTop K)
    (u v : Fin n → K) (s : Greedy n K) : Prop where
  paired : Paired s.rowMatch s.colToRow
  tight : ∀ i j, s.rowMatch i = some j → Tight (partCost (sparsePart dense) cost) u v i j
  matched : s.matched = matchedCount s.colToRow
  cursor : ∀ j, ∀ e ∈ s.cursor j, e ∈ g.col j

section Greedy

variable {u v : Fin n → K}

theorem tight_of_tightEntry (hg : g.Lists cost)
    (hf : Feasible (partCost (sparsePart dense) cost) u v) {j : Fin n} (hj : dense j = false)
    {e : Fin n × K} (he : e ∈ g.col j) (ht : tightEntry dense u v j e = true) :
    Tight (partCost (sparsePart dense) cost) u v e.1 j := by
  unfold tightEntry at ht
  rw [Bool.and_eq_true, Bool.not_eq_true', decide_eq_true_eq] at ht
  have hc : partCost (sparsePart dense) cost e.1 j = (e.2 : K) :=
    partCost_eq.mpr ⟨sparsePart_iff.mpr ht.1, sparsePart_iff.mpr hj, (hg.mem_iff _ _ _).mp he⟩
  have hle := hf e.1 j e.2 hc
  unfold Tight
  rw [hc, WithTop.coe_inj]
  linarith [ht.2]

theorem greedyColumn_ok (hg : g.Lists cost)
    (hf : Feasible (partCost (sparsePart dense) cost) u v) {s : Greedy n K}
    (h : GreedyOk g dense cost u v s) {j : Fin n} (hj : s.colToRow j = none) :
    GreedyOk g dense cost u v (greedyColumn g dense u v s j) ∧
      ∀ j', j' ≠ j → (greedyColumn g dense u v s j).colToRow j' = s.colToRow j' := by
  unfold greedyColumn
  by_cases hd : dense j = true
  · rw [if_pos hd]
    exact ⟨h, fun _ _ => rfl⟩
  · rw [if_neg hd]
    rw [Bool.not_eq_true] at hd
    split
    · exact ⟨h, fun _ _ => rfl⟩
    · rename_i e hfind
      have hmem := List.mem_of_find?_eq_some hfind
      have htest := List.find?_some hfind
      rw [Bool.and_eq_true, Option.isNone_iff_eq_none] at htest
      refine ⟨⟨h.paired.assign htest.2 hj, fun i j' hij => ?_, ?_, h.cursor⟩, fun j' hjj => ?_⟩
      · dsimp only at hij
        by_cases hi : i = e.1
        · subst hi
          rw [Function.update_self] at hij
          obtain rfl := Option.some.inj hij
          exact tight_of_tightEntry hg hf hd hmem htest.1
        · rw [Function.update_of_ne hi] at hij
          exact h.tight i j' hij
      · exact (congrArg (· + 1) h.matched).trans
          (matchedCount_succ hj fun _ => update_some_eq_none).symm
      · exact Function.update_of_ne hjj ..

theorem foldl_greedyColumn_ok (hg : g.Lists cost)
    (hf : Feasible (partCost (sparsePart dense) cost) u v) {s : Greedy n K} (l : List (Fin n))
    (hl : l.Nodup) (h : GreedyOk g dense cost u v s) (hfree : ∀ j ∈ l, s.colToRow j = none) :
    GreedyOk g dense cost u v (l.foldl (greedyColumn g dense u v) s) := by
  induction l generalizing s with
  | nil => exact h
  | cons j l ih =>
    obtain ⟨hjl, hl⟩ := List.nodup_cons.mp hl
    obtain ⟨h', hkeep⟩ := greedyColumn_ok hg hf h (hfree j List.mem_cons_self)
    refine ih hl h' fun j' hj' => ?_
    rw [hkeep j' fun hc => hjl (hc ▸ hj')]
    exact hfree j' (List.mem_cons_of_mem j hj')

omit [Field K] [LinearOrder K] [IsStrictOrderedRing K] in
theorem advanceCursor_spec (test : Fin n × K → Bool) (l : List (Fin n × K)) :
    (∀ i, (advanceCursor test l).1 = some i → ∃ e ∈ l, e.1 = i ∧ test e = true) ∧
      ∀ e ∈ (advanceCursor test l).2, e ∈ l := by
  induction l with
  | nil => exact ⟨fun i hi => (nomatch hi), fun e he => he⟩
  | cons e l ih =>
    unfold advanceCursor
    split_ifs with ht
    · refine ⟨fun i hi => ⟨e, List.mem_cons_self, Option.some.inj hi, ht⟩, fun e' he' => ?_⟩
      exact List.mem_cons_of_mem e he'
    · refine ⟨fun i hi => ?_, fun e' he' => List.mem_cons_of_mem e (ih.2 e' he')⟩
      obtain ⟨e', he', hrest⟩ := ih.1 i hi
      exact ⟨e', List.mem_cons_of_mem e he', hrest⟩

theorem augmentEntries_ok (hg : g.Lists cost)
    (hf : Feasible (partCost (sparsePart dense) cost) u v) {j : Fin n} (hd : dense j = false)
    (l : List (Fin n × K)) (hl : ∀ e ∈ l, e ∈ g.col j) {s : Greedy n K}
    (h : GreedyOk g dense cost u v s) (hj : s.colToRow j = none) :
    GreedyOk g dense cost u v (augmentEntries dense u v j l s) := by
  induction l generalizing s with
  | nil => exact h
  | cons e l ih =>
    have hl' : ∀ e' ∈ l, e' ∈ g.col j := fun e' he' => hl e' (List.mem_cons_of_mem e he')
    unfold augmentEntries
    split_ifs with ht
    swap
    · exact ih hl' h hj
    split
    · exact ih hl' h hj
    · rename_i jj hjj
      dsimp only
      obtain ⟨hfound, hrest⟩ := advanceCursor_spec
        (fun e' => tightEntry dense u v jj e' && (s.rowMatch e'.1).isNone) (s.cursor jj)
      have hcursor : ∀ k, ∀ e' ∈ Function.update s.cursor jj (advanceCursor
          (fun e' => tightEntry dense u v jj e' && (s.rowMatch e'.1).isNone) (s.cursor jj)).2 k,
          e' ∈ g.col k := by
        intro k e' he'
        by_cases hk : k = jj
        · subst hk
          rw [Function.update_self] at he'
          exact h.cursor k e' (hrest e' he')
        · rw [Function.update_of_ne hk] at he'
          exact h.cursor k e' he'
      split
      · exact ih hl' ⟨h.paired, h.tight, h.matched, hcursor⟩ hj
      · rename_i freeRow hfree
        obtain ⟨e', he', rfl, htest⟩ := hfound _ hfree
        rw [Bool.and_eq_true, Option.isNone_iff_eq_none] at htest
        have hdjj : dense jj = false :=
          sparsePart_iff.mp (partCost_eq.mp (h.tight _ _ hjj)).2.1
        have hjne : jj ≠ j := by
          rintro rfl
          rw [(h.paired _ _).mp hjj] at hj
          cases hj
        have hrne : e'.1 ≠ e.1 := by
          intro hc
          rw [hc, hjj] at htest
          cases htest.2
        constructor
        case paired =>
          -- row e.1 goes over to column j, and column jj to the free row
          have hpair := (h.paired.displace hjj hj).assign (i := e'.1) (j := jj)
            ((Function.update_of_ne hrne ..).trans htest.2)
            ((Function.update_of_ne hjne ..).trans (Function.update_self ..))
          rw [Function.update_comm hrne.symm, Function.update_comm hjne.symm,
            Function.update_idem] at hpair
          exact hpair
        case tight =>
          intro i j' hij
          dsimp only at hij
          by_cases hi : i = e.1
          · subst hi
            rw [Function.update_self] at hij
            obtain rfl := Option.some.inj hij
            exact tight_of_tightEntry hg hf hd (hl e List.mem_cons_self) ht
          · rw [Function.update_of_ne hi] at hij
            by_cases hi' : i = e'.1
            · subst hi'
              rw [Function.update_self] at hij
              obtain rfl := Option.some.inj hij
              exact tight_of_tightEntry hg hf hdjj (h.cursor jj e' he') htest.1
            · rw [Function.update_of_ne hi'] at hij
              exact h.tight i j' hij
        case matched =>
          refine (congrArg (· + 1) h.matched).trans (matchedCount_succ hj fun j' => ?_).symm
          rw [update_some_eq_none, update_some_eq_none]
          refine and_congr_left fun _ => ⟨fun hc => hc.1, fun hc => ⟨hc, ?_⟩⟩
          rintro rfl
          rw [(h.paired _ _).mp hjj] at hc
          cases hc
        case cursor => exact hcursor

theorem augmentColumn_ok (hg : g.Lists cost)
    (hf : Feasible (partCost (sparsePart dense) cost) u v) {s : Greedy n K}
    (h : GreedyOk g dense cost u v s) (j : Fin n) :
    GreedyOk g dense cost u v (augmentColumn g dense u v s j) := by
  unfold augmentColumn
  split_ifs with hj
  · exact augmentEntries_ok hg hf hj.2.1 (g.col j) (fun _ he => he) h hj.2.2
  · exact h

theorem initialMatching_ok (hg : g.Lists cost)
    (hf : Feasible (partCost (sparsePart dense) cost) u v) :
    GreedyOk g dense cost u v (initialMatching g dense u v) := by
  have hempty : GreedyOk g dense cost u v
      { rowMatch := fun _ => none, colToRow := fun _ => none, matched := 0, cursor := g.col } :=
    ⟨paired_none, fun _ _ hc => (nomatch hc), matchedCount_none.symm, fun _ _ he => he⟩
  have hgreedy := foldl_greedyColumn_ok hg hf (List.finRange n) (List.nodup_finRange n) hempty
    fun _ _ => rfl
  unfold initialMatching
  generalize List.foldl (greedyColumn g dense u v) _ _ = s at hgreedy ⊢
  induction List.finRange n generalizing s with
  | nil => exact hgreedy
  | cons j l ih => exact ih _ (augmentColumn_ok hg hf hgreedy j)

end Greedy

end Matching
end SmfSolver
