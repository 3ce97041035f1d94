/-
  SmfSolver.Solve.SlackAccuracy

  What the check of a slack solve measures: `slack_omega` at most the target means that the
  column solves the full system within the target, entry by entry; and the refinement ends
  with every column so, or with a column that is not.
-/
import SmfSolver.Lib.BackwardError
import SmfSolver.Matching.CostGraph
import SmfSolver.Solve.SlackSolve

namespace SmfSolver
namespace Solve

open Lib
open Matching (rowSum_nil rowSum_cons rowSum_eq_zero rowSum_of_mem)

variable {K : Type} [Field K] {n m : ℕ}

/-! ## The symmetric product -/

/-- The columns with each value through `f`. -/
def mapped (f : K → K) (A : LowerColumns n K) : LowerColumns n K where
  col := fun j => (A.col j).map fun e => (e.1, f e.2)
  lower := fun j e he => by
    obtain ⟨e', he', rfl⟩ := List.mem_map.mp he
    exact A.lower j e' he'

theorem rowSum_above (A : LowerColumns n K) {i j : Fin n} (h : i < j) : rowSum (A.col j) i = 0 := by
  refine rowSum_eq_zero fun hmem => ?_
  obtain ⟨e, he, rfl⟩ := List.mem_map.mp hmem
  exact absurd (A.lower j e he) (not_le.mpr h)

/-- An entry is stored in its own column, or mirrored in the row's. -/
theorem entry_eq_add (A : LowerColumns n K) (i j : Fin n) :
    A.entry i j = rowSum (A.col j) i + if j ≠ i then rowSum (A.col i) j else 0 := by
  rw [LowerColumns.entry]
  rcases lt_trichotomy i j with hlt | rfl | hgt
  · rw [min_eq_left hlt.le, max_eq_right hlt.le, rowSum_above A hlt, if_pos hlt.ne', zero_add]
  · rw [min_self, max_self, if_neg (not_not.mpr rfl), add_zero]
  · rw [min_eq_right hgt.le, max_eq_left hgt.le, rowSum_above A hgt, if_pos hgt.ne, add_zero]

variable (f : K → K) (A : LowerColumns n K) (x : Fin n → K)

theorem foldl_addColumn (j : Fin n) (l : List (Fin n × K)) (y : Fin n → K) (t : K) :
    let s := l.foldl (fun (s : (Fin n → K) × K) e =>
      (Function.update s.1 e.1 (s.1 e.1 + f e.2 * x j),
        if e.1 ≠ j then s.2 + f e.2 * x e.1 else s.2)) (y, t)
    (∀ i, s.1 i = y i + rowSum (l.map fun e => (e.1, f e.2)) i * x j) ∧
      s.2 = t + ∑ c, if c ≠ j then rowSum (l.map fun e => (e.1, f e.2)) c * x c else 0 := by
  -- on the entries of the column
  induction l generalizing y t with
  | nil => simp
  | cons e l ih =>
    obtain ⟨hcol, hrow⟩ := ih (Function.update y e.1 (y e.1 + f e.2 * x j))
      (if e.1 ≠ j then t + f e.2 * x e.1 else t)
    refine ⟨fun i => ?_, ?_⟩
    · rw [List.foldl_cons, hcol i, List.map_cons, rowSum_cons]
      by_cases hi : i = e.1
      · rw [hi, Function.update_self, if_pos rfl]
        ring
      · rw [Function.update_of_ne hi, if_neg (Ne.symm hi)]
        ring
    · have hterm : ∀ c, (if c ≠ j then rowSum ((e :: l).map fun e => (e.1, f e.2)) c * x c else 0) =
          (if e.1 = c then (if e.1 ≠ j then f e.2 * x e.1 else 0) else 0) +
            if c ≠ j then rowSum (l.map fun e => (e.1, f e.2)) c * x c else 0 := fun c => by
        rw [List.map_cons, rowSum_cons]
        -- the entry's own row, and the diagonal that the row's sum leaves out
        by_cases hc : e.1 = c
        · subst hc
          by_cases hj : e.1 = j
          · simp [hj]
          · simp [hj, add_mul]
        · simp [hc]
      simp only [hterm]
      rw [List.foldl_cons, hrow, Finset.sum_add_distrib, Finset.sum_ite_eq Finset.univ e.1,
        if_pos (Finset.mem_univ _)]
      split_ifs with hj
      · ring
      · ring

theorem addColumn_apply (y : Fin n → K) (j i : Fin n) :
    addColumn f A x y j i = y i + rowSum ((mapped f A).col j) i * x j +
      if i = j then ∑ c, if c ≠ j then rowSum ((mapped f A).col j) c * x c else 0 else 0 := by
  obtain ⟨hcol, hrow⟩ := foldl_addColumn f x j (A.col j) y 0
  unfold addColumn
  by_cases hi : i = j
  · subst hi
    rw [Function.update_self, if_pos rfl, hcol, hrow, zero_add]
    rfl
  · rw [Function.update_of_ne hi, if_neg hi, hcol, add_zero]
    rfl

/-- All columns together are the symmetric matrix. -/
theorem foldl_addColumn_eq (y : Fin n → K) (i : Fin n) :
    (List.finRange n).foldl (addColumn f A x) y i = y i + ∑ j, (mapped f A).entry i j * x j := by
  have hfold : ∀ (l : List (Fin n)) (y : Fin n → K), l.foldl (addColumn f A x) y i = y i +
      (l.map fun j => rowSum ((mapped f A).col j) i * x j +
        if i = j then ∑ c, if c ≠ j then rowSum ((mapped f A).col j) c * x c else 0
          else 0).sum := by
    intro l
    induction l with
    | nil => simp
    | cons j l ih =>
      intro y
      rw [List.foldl_cons, ih, addColumn_apply, List.map_cons, List.sum_cons]
      ring
  rw [hfold, ← Fin.sum_univ_def, Finset.sum_add_distrib, Finset.sum_ite_eq Finset.univ i,
    if_pos (Finset.mem_univ _), ← Finset.sum_add_distrib]
  congr 1
  refine Finset.sum_congr rfl fun j _ => ?_
  rw [entry_eq_add]
  split_ifs with hj
  · ring
  · ring

variable {A x}

theorem entry_mapped_neg (i j : Fin n) : (mapped (fun v => -v) A).entry i j = -A.entry i j := by
  have hsum : ∀ (l : List (Fin n × K)) i, rowSum (l.map fun e => (e.1, -e.2)) i = -rowSum l i := by
    intro l i
    induction l with
    | nil => simp
    | cons e l ih =>
      rw [List.map_cons, rowSum_cons, rowSum_cons, ih]
      split_ifs with h
      · ring
      · ring
  exact hsum _ _

variable [LinearOrder K]

theorem entry_mapped_abs [IsStrictOrderedRing K]
    (hclean : ∀ j, ((A.col j).map Prod.fst).Nodup) (i j : Fin n) :
    (mapped (fun v => |v|) A).entry i j = |A.entry i j| := by
  have hsum : ∀ (l : List (Fin n × K)) i, (l.map Prod.fst).Nodup →
      rowSum (l.map fun e => (e.1, |e.2|)) i = |rowSum l i| := by
    intro l i hl
    have hkeys : (l.map fun e => (e.1, |e.2|)).map Prod.fst = l.map Prod.fst := by
      rw [List.map_map]
      rfl
    by_cases hi : i ∈ l.map Prod.fst
    · obtain ⟨e, he, rfl⟩ := List.mem_map.mp hi
      have habs : (e.1, |e.2|) ∈ l.map fun e => (e.1, |e.2|) :=
        List.mem_map_of_mem (f := fun e : Fin n × K => (e.1, |e.2|)) he
      rw [rowSum_of_mem hl he]
      exact rowSum_of_mem (hkeys ▸ hl) habs
    · rw [rowSum_eq_zero hi, rowSum_eq_zero (hkeys ▸ hi), abs_zero]
  exact hsum _ _ (hclean _)

omit [LinearOrder K] in
theorem slackResidual_eq (b : Fin n → K) : slackResidual A b x = residual A.entry b x := by
  funext i
  rw [slackResidual, foldl_addColumn_eq, Lib.residual, sub_eq_add_neg, ← Finset.sum_neg_distrib]
  simp only [entry_mapped_neg, neg_mul]

theorem slackDenominator_eq [IsStrictOrderedRing K]
    (hclean : ∀ j, ((A.col j).map Prod.fst).Nodup) (b : Fin n → K) :
    slackDenominator A b x = rowScale A.entry b x := by
  funext i
  rw [slackDenominator, foldl_addColumn_eq, rowScale, add_comm]
  simp only [entry_mapped_abs hclean]

/-! ## The target -/

theorem worstRatio_le {kMax τ : K} {r d : Fin n → K} [IsStrictOrderedRing K] (hd : ∀ i, 0 ≤ d i) :
    ∀ {l : List (Fin n)} {w : K}, worstRatio kMax r d l w ≤ τ →
      w ≤ τ ∧ ∀ i ∈ l, |r i| ≤ τ * d i := by
  intro l
  induction l with
  | nil => exact fun h => ⟨WithTop.coe_le_coe.mp h, fun i hi => absurd hi List.not_mem_nil⟩
  | cons a l ih =>
    intro w h
    rw [worstRatio] at h
    split_ifs at h with hmax hden hres
    · exact absurd h (not_le.mpr (WithTop.coe_lt_top τ))
    · obtain ⟨hw, hl⟩ := ih h
      refine ⟨(le_max_left _ _).trans hw, fun i hi => ?_⟩
      rcases List.mem_cons.mp hi with rfl | hi
      · exact (div_le_iff₀ hden).mp ((le_max_right _ _).trans hw)
      · exact hl i hi
    · exact absurd h (not_le.mpr (WithTop.coe_lt_top τ))
    · obtain ⟨hw, hl⟩ := ih h
      refine ⟨hw, fun i hi => ?_⟩
      rcases List.mem_cons.mp hi with rfl | hi
      · rw [le_antisymm (not_lt.mp hden) (hd i), mul_zero]
        exact not_lt.mp hres
      · exact hl i hi

/-- A column that passes the check solves the system within the target. -/
theorem solvesWithin_of_slackOmega [IsStrictOrderedRing K] {kMax τ : K} {b : Fin n → K}
    (hclean : ∀ j, ((A.col j).map Prod.fst).Nodup) (hτ : 0 ≤ τ) (h : slackOmega kMax A b x ≤ τ) :
    SolvesWithin A.entry b x τ := by
  rw [slackOmega, slackResidual_eq, slackDenominator_eq hclean] at h
  have hscale : ∀ i, 0 ≤ rowScale A.entry b x i := fun i =>
    add_nonneg (Finset.sum_nonneg fun j _ => mul_nonneg (abs_nonneg _) (abs_nonneg _))
      (abs_nonneg _)
  exact (solvesWithin_iff hτ).mpr fun i => (worstRatio_le hscale h).2 i (List.mem_finRange i)

/-! ## The refinement -/

namespace SlackFactor

variable (kMax : K) (sf : SlackFactor n K) (ctrl : SlackControl K)

/-- The error of a column in refinement is its own. -/
theorem refineColumn_w (bj : Fin n → K) : ∀ (k : ℕ) (s : RefinedColumn n K),
    s.w = slackOmega kMax sf.cv bj s.x →
      (sf.refineColumn kMax ctrl bj k s).w =
        slackOmega kMax sf.cv bj (sf.refineColumn kMax ctrl bj k s).x := by
  intro k
  induction k with
  | zero => exact fun s h => h
  | succ k ih =>
    intro s h
    rw [refineColumn]
    split_ifs
    · split
      · exact ih _ rfl
      · exact h
    · exact h

variable {sf ctrl}

/-- The columns are accurate, or one of them is not. -/
theorem refine_accurate {b x : Fin m → Fin n → K} (h : (sf.refine kMax ctrl b x).rc = .success) :
    let k := sf.refine kMax ctrl b x
    (k.accurate = true →
      ∀ j, slackOmega kMax sf.cv (b j) (k.b j) ≤ (ctrl.rest.slackOmegaTarget : WithTop K)) ∧
    (k.accurate = false →
      ∃ j, (ctrl.rest.slackOmegaTarget : WithTop K) < slackOmega kMax sf.cv (b j) (k.b j)) := by
  let τ : WithTop K := ctrl.rest.slackOmegaTarget
  let omega := fun (s : Refinement m n K) j => slackOmega kMax sf.cv (b j) (s.b j)
  -- a column that is done keeps its value
  have hrun : ∀ (l : List (Fin m)) (s : Refinement m n K), l.Nodup →
      (s.rc = .success → (s.accurate = true → ∀ j, j ∉ l → omega s j ≤ τ) ∧
        (s.accurate = false → ∃ j, j ∉ l ∧ τ < omega s j)) →
      let s' := l.foldl (sf.refineNext kMax ctrl b) s
      s'.rc = .success → (s'.accurate = true → ∀ j, omega s' j ≤ τ) ∧
        (s'.accurate = false → ∃ j, τ < omega s' j) := by
    intro l
    induction l with
    | nil =>
      intro s _ hs s' hrc
      obtain ⟨hgood, hbad⟩ := hs hrc
      exact ⟨fun ha j => hgood ha j List.not_mem_nil, fun ha => (hbad ha).imp fun j hj => hj.2⟩
    | cons a l ih =>
      intro s hnodup hs
      obtain ⟨ha, hl⟩ := List.nodup_cons.mp hnodup
      refine ih _ hl fun hrc => ?_
      unfold refineNext at hrc ⊢
      split_ifs at hrc ⊢ with hfail
      · exact absurd hrc hfail
      obtain ⟨hgood, hbad⟩ := hs (not_not.mp hfail)
      have hw := refineColumn_w kMax sf ctrl (b a) kSlackRefineSteps
        ⟨s.b a, slackOmega kMax sf.cv (b a) (s.b a), s.steps, .success⟩ rfl
      dsimp only [omega] at hgood hbad ⊢
      rw [Bool.and_eq_true, Bool.not_eq_true', decide_eq_false_iff_not, not_lt,
        Bool.and_eq_false_iff,
        Bool.not_eq_false', decide_eq_true_eq, hw]
      refine ⟨fun ⟨hacc, hle⟩ j hj => ?_, fun hacc => ?_⟩
      · by_cases hja : j = a
        · subst hja
          rwa [Function.update_self]
        · rw [Function.update_of_ne hja]
          exact hgood hacc j fun hmem => (List.mem_cons.mp hmem).elim hja hj
      · rcases hacc with hacc | hlt
        · obtain ⟨j, hj, hlt⟩ := hbad hacc
          have hja : j ≠ a := fun heq => hj (heq ▸ List.mem_cons_self ..)
          refine ⟨j, fun hmem => hj (List.mem_cons_of_mem _ hmem), ?_⟩
          rwa [Function.update_of_ne hja]
        · refine ⟨a, ha, ?_⟩
          rwa [Function.update_self]
  exact hrun _ _ (List.nodup_finRange m)
    (fun _ => ⟨fun _ j hj => absurd (List.mem_finRange j) hj, fun h => nomatch h⟩) h

end SlackFactor

end Solve
end SmfSolver
