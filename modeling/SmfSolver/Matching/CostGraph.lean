/-
  SmfSolver.Matching.CostGraph

  The matching's cost graph: the full symmetric pattern, duplicates merged and
  zeros dropped, with the cost of every entry

    cost(i, j) = log(col_max[j]) - log|a_ij| >= 0.

  `buildCostGraph` is the source's builder with its two paths: cleaned columns
  are expanded straight to their slots, any other columns are expanded first and
  merged per column.  The logarithm is a parameter; nothing is assumed of it.

  * `buildCostGraph_ok`: both paths build the graph of the matrix (`IsCostGraph`).
  * `buildCostGraph_error`: they fail exactly on a column without a nonzero.
-/
import SmfSolver.Matrix.CscLower
import Mathlib.Algebra.Order.Field.Basic
import Mathlib.Data.List.FinRange
import Mathlib.Data.List.Sort
import Mathlib.Tactic.Linarith
import Mathlib.Tactic.Ring
import Mathlib.Algebra.BigOperators.Fin
import Mathlib.Data.Finset.Lattice.Fold

namespace SmfSolver
namespace Matching

/-- The columns of the cost graph, as (row, cost) in stored order, and the largest
    |a_ij| of each column. -/
structure CostGraph (n : ℕ) (K : Type*) where
  col : Fin n → List (Fin n × K)
  colMax : Fin n → K

section Build

variable {n : ℕ} {K : Type*} [Field K] [LinearOrder K]

/-- The rows of every column strictly increase.  (That none lies above the
    diagonal, which the source tests in the same place, is in the type.) -/
def cleaned (L : LowerColumns n K) : Prop :=
  ∀ j, (L.col j).Pairwise fun e e' => e.1 < e'.1

instance (L : LowerColumns n K) : Decidable (cleaned L) := by
  unfold cleaned
  infer_instance

/-- The slots the expansion fills, in the order it fills them: entry (i, j) goes to
    column j and, off the diagonal, to column i. -/
def expansion (L : LowerColumns n K) : List (Fin n × (Fin n × K)) :=
  (List.finRange n).flatMap fun j =>
    (L.col j).flatMap fun e => if e.1 ≠ j then [(j, e), (e.1, (j, e.2))] else [(j, e)]

/-- What lands in column `c`: the slots of a column are filled in order. -/
def expandedColumn (L : LowerColumns n K) (c : Fin n) : List (Fin n × K) :=
  ((expansion L).filter (·.1 = c)).map (·.2)

/-- The largest absolute value of a list of entries, 0 for none. -/
def largest (l : List (Fin n × K)) : K := l.foldl (fun m e => max m |e.2|) 0

/-- Adds `v` to the slot of row `i`, or opens one at the end. -/
def addToSlot {K : Type*} [Add K] (i : Fin n) (v : K) : List (Fin n × K) → List (Fin n × K)
  | [] => [(i, v)]
  | e :: l => if e.1 = i then (e.1, e.2 + v) :: l else e :: addToSlot i v l

/-- Merges the duplicates of a column, summing them. -/
def mergeDuplicates {K : Type*} [Add K] (l : List (Fin n × K)) : List (Fin n × K) :=
  l.foldl (fun out e => addToSlot e.1 e.2 out) []

/-- Drops the zeros and keeps the absolute values. -/
def compactNonzeros (l : List (Fin n × K)) : List (Fin n × K) :=
  l.filterMap fun e => if 0 < |e.2| then some (e.1, |e.2|) else none

/-- The costs of a column of absolute values whose largest is `m`. -/
def costs (log : K → K) (m : K) (l : List (Fin n × K)) : List (Fin n × K) :=
  l.map fun e => (e.1, max 0 (log m - log e.2))

/-- The nonzero absolute values of column `c`: on cleaned input no two entries
    meet, and the expansion is already merged. -/
def absColumn (L : LowerColumns n K) (c : Fin n) : List (Fin n × K) :=
  if cleaned L then compactNonzeros (expandedColumn L c)
  else compactNonzeros (mergeDuplicates (expandedColumn L c))

/-- Builds the cost graph; fails on a column without nonzeros.  (The source also
    refuses an entry that is not finite; exact values all are.) -/
def buildCostGraph (log : K → K) (L : LowerColumns n K) : Except ErrorCode (CostGraph n K) :=
  if ∃ j, largest (absColumn L j) ≤ 0 then .error .singularMatrix
  else .ok
    { col := fun j => costs log (largest (absColumn L j)) (absColumn L j)
      colMax := fun j => largest (absColumn L j) }

end Build

/-! ## Row sums of a column under construction -/

section RowSum

variable {n : ℕ} {K : Type*} [AddCommMonoid K]

@[simp] theorem rowSum_nil (i : Fin n) : rowSum ([] : List (Fin n × K)) i = 0 := rfl

theorem rowSum_cons (e : Fin n × K) (l : List (Fin n × K)) (i : Fin n) :
    rowSum (e :: l) i = (if e.1 = i then e.2 else 0) + rowSum l i := by
  unfold rowSum
  by_cases h : e.1 = i
  · simp [h]
  · simp [h]

theorem rowSum_append (l l' : List (Fin n × K)) (i : Fin n) :
    rowSum (l ++ l') i = rowSum l i + rowSum l' i := by
  simp [rowSum]

/-- A row that does not occur sums to nothing. -/
theorem rowSum_eq_zero {l : List (Fin n × K)} {i : Fin n} (h : i ∉ l.map (·.1)) :
    rowSum l i = 0 := by
  induction l with
  | nil => rfl
  | cons e l ih =>
    rw [List.map_cons, List.mem_cons, not_or] at h
    rw [rowSum_cons, if_neg (Ne.symm h.1), ih h.2, add_zero]

/-- In a column without duplicates a row's sum is its one value. -/
theorem rowSum_of_mem {l : List (Fin n × K)} (hnd : (l.map (·.1)).Nodup) {e : Fin n × K}
    (he : e ∈ l) : rowSum l e.1 = e.2 := by
  induction l with
  | nil => cases he
  | cons e' l ih =>
    rw [List.map_cons, List.nodup_cons] at hnd
    rcases List.mem_cons.mp he with rfl | he
    · rw [rowSum_cons, if_pos rfl, rowSum_eq_zero hnd.1, add_zero]
    · have hne : e'.1 ≠ e.1 := fun h => hnd.1 (h ▸ List.mem_map_of_mem he)
      rw [rowSum_cons, if_neg hne, ih hnd.2 he, zero_add]

theorem rowSum_addToSlot (i : Fin n) (v : K) (l : List (Fin n × K)) (i' : Fin n) :
    rowSum (addToSlot i v l) i' = rowSum l i' + if i = i' then v else 0 := by
  induction l with
  | nil => simp [addToSlot, rowSum_cons]
  | cons e l ih =>
    unfold addToSlot
    by_cases h : e.1 = i
    · subst h
      rw [if_pos rfl, rowSum_cons, rowSum_cons]
      split_ifs with h'
      · exact add_right_comm _ _ _
      · rw [add_zero]
    · rw [if_neg h, rowSum_cons, ih, rowSum_cons, add_assoc]

theorem addToSlot_rows (i : Fin n) (v : K) (l : List (Fin n × K)) :
    (addToSlot i v l).map (·.1)
      = if i ∈ l.map (·.1) then l.map (·.1) else l.map (·.1) ++ [i] := by
  induction l with
  | nil => rfl
  | cons e l ih =>
    unfold addToSlot
    by_cases h : e.1 = i
    · simp [h]
    · rw [if_neg h, List.map_cons, ih, List.map_cons]
      by_cases hi : i ∈ l.map (·.1)
      · rw [if_pos hi, if_pos (List.mem_cons_of_mem _ hi)]
      · rw [if_neg hi, if_neg (fun hc => (List.mem_cons.mp hc).elim (h ∘ Eq.symm) hi)]
        rfl

/-- Merging opens one slot for each row. -/
theorem mergeDuplicates_nodup (l : List (Fin n × K)) :
    ((mergeDuplicates l).map (·.1)).Nodup := by
  have step : ∀ (l out : List (Fin n × K)), (out.map (·.1)).Nodup →
      ((l.foldl (fun out e => addToSlot e.1 e.2 out) out).map (·.1)).Nodup := by
    intro l
    induction l with
    | nil => exact fun out h => h
    | cons e l ih =>
      intro out h
      refine ih _ ?_
      rw [addToSlot_rows]
      split_ifs with hi
      · exact h
      · exact List.Nodup.append h (List.nodup_singleton _)
          (List.disjoint_singleton.mpr hi)
  exact step l [] List.nodup_nil

/-- Merging keeps every row's sum. -/
theorem rowSum_mergeDuplicates (l : List (Fin n × K)) (i : Fin n) :
    rowSum (mergeDuplicates l) i = rowSum l i := by
  have step : ∀ (l out : List (Fin n × K)),
      rowSum (l.foldl (fun out e => addToSlot e.1 e.2 out) out) i = rowSum out i + rowSum l i := by
    intro l
    induction l with
    | nil => simp
    | cons e l ih =>
      intro out
      rw [List.foldl_cons, ih, rowSum_addToSlot, rowSum_cons, add_assoc]
  rw [mergeDuplicates, step, rowSum_nil, zero_add]

end RowSum

/-! ## The expansion -/

section Expansion

variable {n : ℕ} {K : Type*} [AddCommMonoid K]

theorem rowSum_flatMap {α : Type*} (l : List α) (f : α → List (Fin n × K)) (i : Fin n) :
    rowSum (l.flatMap f) i = (l.map fun a => rowSum (f a) i).sum := by
  induction l with
  | nil => rfl
  | cons a l ih => rw [List.flatMap_cons, rowSum_append, ih, List.map_cons, List.sum_cons]

/-- What entry `e` of column `j` puts into column `c`. -/
def contribution {K : Type*} (c j : Fin n) (e : Fin n × K) : List (Fin n × K) :=
  (if j = c then [e] else []) ++ (if e.1 ≠ j ∧ e.1 = c then [(j, e.2)] else [])

theorem expandedColumn_eq {K : Type*} (L : LowerColumns n K) (c : Fin n) :
    expandedColumn L c
      = (List.finRange n).flatMap fun j => (L.col j).flatMap (contribution c j) := by
  unfold expandedColumn expansion
  rw [List.filter_flatMap, List.map_flatMap]
  refine List.flatMap_congr fun j _ => ?_
  rw [List.filter_flatMap, List.map_flatMap]
  refine List.flatMap_congr fun e _ => ?_
  unfold contribution
  by_cases hc : e.1 = c
  · subst hc
    by_cases hj : j = e.1
    · simp [← hj]
    · simp [hj, Ne.symm hj]
  · by_cases hj : j = c <;> by_cases he : e.1 = j <;> simp [hj, he, hc]

/-- The part of a column's row sums that stored column `j` supplies. -/
theorem rowSum_contributions (l : List (Fin n × K)) (c j i : Fin n) :
    rowSum (l.flatMap (contribution c j)) i
      = (if j = c then rowSum l i else 0) + (if j = i ∧ j ≠ c then rowSum l c else 0) := by
  induction l with
  | nil => simp
  | cons e l ih =>
    rw [List.flatMap_cons, rowSum_append, ih, rowSum_cons, rowSum_cons]
    unfold contribution
    rw [rowSum_append]
    by_cases hj : j = c
    · subst hj
      have hself : ¬(e.1 ≠ j ∧ e.1 = j) := fun h => h.1 h.2
      simp [rowSum_cons, hself]
    · by_cases he : e.1 = c
      · have hne : e.1 ≠ j := fun h => hj (h.symm.trans he)
        by_cases hi : j = i
        · subst hi
          simp [rowSum_cons, hj, he, Ne.symm hj]
        · simp [rowSum_cons, hj, hi, he, Ne.symm hj]
      · simp [hj, he]

/-- Row `i` of the expanded column `j` sums to the (i, j) entry of the matrix. -/
theorem rowSum_expandedColumn (L : LowerColumns n K) (i j : Fin n) :
    rowSum (expandedColumn L j) i = L.entry i j := by
  rw [expandedColumn_eq, rowSum_flatMap]
  simp only [rowSum_contributions]
  rw [← Fin.sum_univ_def, Finset.sum_add_distrib, Finset.sum_ite_eq' Finset.univ j]
  have habove : ∀ {r s : Fin n}, r < s → rowSum (L.col s) r = 0 := by
    intro r s hrs
    refine rowSum_eq_zero fun hmem => ?_
    obtain ⟨e, he, hr⟩ := List.mem_map.mp hmem
    exact absurd (hr ▸ L.lower s e he) (not_le.mpr hrs)
  rw [if_pos (Finset.mem_univ j)]
  by_cases hij : i = j
  · subst hij
    rw [Finset.sum_eq_zero]
    · rw [LowerColumns.entry, min_self, max_self, add_zero]
    · rintro k -
      exact if_neg fun h => h.2 h.1
  · rw [Finset.sum_eq_single i]
    · rw [if_pos ⟨rfl, hij⟩, LowerColumns.entry]
      rcases lt_or_gt_of_ne hij with hlt | hlt
      · rw [habove hlt, min_eq_left hlt.le, max_eq_right hlt.le, zero_add]
      · rw [habove hlt, min_eq_right hlt.le, max_eq_left hlt.le, add_zero]
    · rintro k - hk
      exact if_neg fun h => hk h.1
    · exact fun h => absurd (Finset.mem_univ i) h

/-- The columns with every value 1, so that row sums count. -/
def onesOf {K : Type*} (L : LowerColumns n K) : LowerColumns n ℕ where
  col j := (L.col j).map fun e => (e.1, 1)
  lower := by
    intro j e he
    obtain ⟨e', he', rfl⟩ := List.mem_map.mp he
    exact L.lower j e' he'

theorem rowSum_ones {K : Type*} (l : List (Fin n × K)) (i : Fin n) :
    rowSum (l.map fun e => (e.1, 1)) i = (l.map (·.1)).count i := by
  induction l with
  | nil => rfl
  | cons e l ih =>
    rw [List.map_cons, rowSum_cons, ih, List.map_cons, List.count_cons, add_comm]
    simp only [beq_iff_eq]

theorem expandedColumn_ones {K : Type*} (L : LowerColumns n K) (j : Fin n) :
    expandedColumn (onesOf L) j = (expandedColumn L j).map fun e => (e.1, 1) := by
  rw [expandedColumn_eq, expandedColumn_eq, List.map_flatMap]
  refine List.flatMap_congr fun k _ => ?_
  show ((L.col k).map _).flatMap _ = _
  rw [List.flatMap_map, List.map_flatMap]
  refine List.flatMap_congr fun e _ => ?_
  unfold contribution
  split_ifs <;> rfl

/-- On cleaned input no two entries of an expanded column meet. -/
theorem expandedColumn_nodup {K : Type*} {L : LowerColumns n K} (h : cleaned L) (j : Fin n) :
    ((expandedColumn L j).map (·.1)).Nodup := by
  rw [List.nodup_iff_count_le_one]
  intro i
  rw [← rowSum_ones, ← expandedColumn_ones, rowSum_expandedColumn, LowerColumns.entry]
  show rowSum ((L.col _).map _) _ ≤ 1
  rw [rowSum_ones]
  refine List.nodup_iff_count_le_one.mp ?_ _
  exact List.pairwise_map.mpr ((h _).imp fun hlt => hlt.ne)

end Expansion

/-! ## The graph of a matrix -/

section Spec

variable {n : ℕ} {K : Type*} [Field K] [LinearOrder K] [IsStrictOrderedRing K]

/-- The largest |a_ij| of column `j`. -/
def columnMax (L : LowerColumns n K) (j : Fin n) : K :=
  Finset.univ.sup' (Finset.univ_nonempty_iff.mpr ⟨j⟩) fun i => |L.entry i j|

/-- The cost of matching row `i` with column `j`, `⊤` where the matrix has no entry. -/
def matchingCost (log : K → K) (L : LowerColumns n K) (i j : Fin n) : WithTop K :=
  if L.entry i j = 0 then ⊤
  else (max 0 (log (columnMax L j) - log |L.entry i j|) : K)

/-- `g` lists the entries of a cost matrix, each once. -/
structure CostGraph.Lists (g : CostGraph n K) (cost : Fin n → Fin n → WithTop K) : Prop where
  nodup : ∀ j, ((g.col j).map (·.1)).Nodup
  mem_iff : ∀ i j c, (i, c) ∈ g.col j ↔ cost i j = (c : K)

omit [IsStrictOrderedRing K] in
theorem compactNonzeros_nodup {l : List (Fin n × K)} (h : (l.map (·.1)).Nodup) :
    ((compactNonzeros l).map (·.1)).Nodup := by
  refine h.sublist ?_
  unfold compactNonzeros
  clear h
  induction l with
  | nil => exact List.Sublist.refl _
  | cons e l ih =>
    by_cases he : 0 < |e.2|
    · rw [List.filterMap_cons_some (by rw [if_pos he])]
      exact ih.cons_cons _
    · rw [List.filterMap_cons_none (by rw [if_neg he])]
      exact ih.cons _

theorem mem_compactNonzeros {l : List (Fin n × K)} (h : (l.map (·.1)).Nodup) (i : Fin n) (x : K) :
    (i, x) ∈ compactNonzeros l ↔ rowSum l i ≠ 0 ∧ x = |rowSum l i| := by
  constructor
  · intro hmem
    obtain ⟨e, he, hsome⟩ := List.mem_filterMap.mp hmem
    split_ifs at hsome with hpos
    obtain ⟨rfl, rfl⟩ := Prod.mk.inj (Option.some.inj hsome)
    rw [rowSum_of_mem h he]
    exact ⟨abs_pos.mp hpos, rfl⟩
  · rintro ⟨hne, rfl⟩
    have hrow : i ∈ l.map (·.1) := by
      by_contra hrow
      exact hne (rowSum_eq_zero hrow)
    obtain ⟨e, he, rfl⟩ := List.mem_map.mp hrow
    rw [rowSum_of_mem h he] at hne ⊢
    exact List.mem_filterMap.mpr ⟨e, he, if_pos (abs_pos.mpr hne)⟩

omit [IsStrictOrderedRing K] in
theorem absColumn_nodup (L : LowerColumns n K) (j : Fin n) :
    ((absColumn L j).map (·.1)).Nodup := by
  unfold absColumn
  split_ifs with h
  · exact compactNonzeros_nodup (expandedColumn_nodup h j)
  · exact compactNonzeros_nodup (mergeDuplicates_nodup _)

/-- Both paths arrive at the nonzero entries of the matrix's column. -/
theorem mem_absColumn (L : LowerColumns n K) (i j : Fin n) (x : K) :
    (i, x) ∈ absColumn L j ↔ L.entry i j ≠ 0 ∧ x = |L.entry i j| := by
  unfold absColumn
  split_ifs with h
  · rw [mem_compactNonzeros (expandedColumn_nodup h j), rowSum_expandedColumn]
  · rw [mem_compactNonzeros (mergeDuplicates_nodup _), rowSum_mergeDuplicates,
      rowSum_expandedColumn]

omit [IsStrictOrderedRing K] in
theorem foldl_max_le {l : List (Fin n × K)} {m b : K} :
    l.foldl (fun m e => max m |e.2|) m ≤ b ↔ m ≤ b ∧ ∀ e ∈ l, |e.2| ≤ b := by
  induction l generalizing m with
  | nil => simp
  | cons e l ih =>
    rw [List.foldl_cons, ih, max_le_iff, List.forall_mem_cons, and_assoc]

/-- The largest of a column's listed values is the largest of its entries. -/
theorem largest_absColumn (L : LowerColumns n K) (j : Fin n) :
    largest (absColumn L j) = columnMax L j := by
  have hle : ∀ b, 0 ≤ b → (largest (absColumn L j) ≤ b ↔ columnMax L j ≤ b) := by
    intro b hb
    rw [largest, foldl_max_le, columnMax, Finset.sup'_le_iff]
    constructor
    · rintro ⟨-, h⟩ i -
      by_cases hz : L.entry i j = 0
      · rw [hz, abs_zero]
        exact hb
      · simpa only [abs_abs] using h _ ((mem_absColumn L i j _).mpr ⟨hz, rfl⟩)
    · refine fun h => ⟨hb, fun e he => ?_⟩
      obtain ⟨-, hx⟩ := (mem_absColumn L e.1 j e.2).mp he
      rw [hx, abs_abs]
      exact h _ (Finset.mem_univ _)
  have hpos : 0 ≤ columnMax L j :=
    (abs_nonneg _).trans (Finset.le_sup' (fun i => |L.entry i j|) (Finset.mem_univ j))
  have hpos' : 0 ≤ largest (absColumn L j) := (foldl_max_le.mp le_rfl).1
  exact le_antisymm ((hle _ hpos).mpr le_rfl) ((hle _ hpos').mp le_rfl)

/-- A column's largest value vanishes only with the whole column. -/
theorem columnMax_le_zero {L : LowerColumns n K} {j : Fin n} :
    columnMax L j ≤ 0 ↔ ∀ i, L.entry i j = 0 := by
  rw [columnMax, Finset.sup'_le_iff]
  exact ⟨fun h i => abs_nonpos_iff.mp (h i (Finset.mem_univ i)),
    fun h i _ => abs_nonpos_iff.mpr (h i)⟩

/-- The builder fails exactly on a column without a nonzero, as singular. -/
theorem buildCostGraph_error {log : K → K} {L : LowerColumns n K} {err : ErrorCode} :
    buildCostGraph log L = .error err ↔ (∃ j, ∀ i, L.entry i j = 0) ∧ err = .singularMatrix := by
  unfold buildCostGraph
  simp only [largest_absColumn, columnMax_le_zero]
  split_ifs with h
  · simp only [h, true_and, Except.error.injEq]
    exact eq_comm
  · simp [h]

/-- What the builder returns lists the matrix's entries with their costs. -/
theorem buildCostGraph_ok {log : K → K} {L : LowerColumns n K} {g : CostGraph n K}
    (h : buildCostGraph log L = .ok g) :
    g.Lists (matchingCost log L) ∧ g.colMax = columnMax L := by
  unfold buildCostGraph at h
  split_ifs at h
  obtain rfl := Except.ok.inj h
  refine ⟨⟨fun j => ?_, fun i j c => ?_⟩, funext fun j => largest_absColumn L j⟩
  · have hrows : ∀ m, (costs log m (absColumn L j)).map (·.1) = (absColumn L j).map (·.1) :=
      fun m => List.map_map
    exact hrows _ ▸ absColumn_nodup L j
  · simp only [costs, largest_absColumn, List.mem_map, Prod.mk.injEq]
    unfold matchingCost
    constructor
    · rintro ⟨e, he, rfl, rfl⟩
      obtain ⟨hne, hx⟩ := (mem_absColumn L e.1 j e.2).mp he
      rw [if_neg hne, hx]
    · intro hcost
      split_ifs at hcost with hz
      · exact absurd hcost WithTop.top_ne_coe
      · refine ⟨(i, |L.entry i j|), (mem_absColumn L i j _).mpr ⟨hz, rfl⟩, rfl, ?_⟩
        exact WithTop.coe_inj.mp hcost

omit [IsStrictOrderedRing K] in
theorem matchingCost_nonneg {log : K → K} (L : LowerColumns n K) {i j : Fin n} {c : K}
    (h : matchingCost log L i j = c) : 0 ≤ c := by
  unfold matchingCost at h
  split_ifs at h
  · exact absurd h WithTop.top_ne_coe
  · rw [← WithTop.coe_inj.mp h]
    exact le_max_left _ _

end Spec

end Matching
end SmfSolver
