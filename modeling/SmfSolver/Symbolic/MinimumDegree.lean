/-
  SmfSolver.Symbolic.MinimumDegree

  The ordering used where AMD is not built in (`fallback_minimum_degree_ordering` of
  `ordering_amd.cpp`).  It keeps the sorted list of every remaining vertex and its length,
  and rewrites the lists of the neighbours of each vertex it eliminates.

  * `DegreeInv`: the lists are the neighbours in the elimination graph, the degrees are
    their lengths, and every vertex chosen so far had the least.
  * `DegreeInv.eliminate`: one elimination keeps all of it.
  * `fallback_orders_by_minimum_degree`: the order is a permutation, and every vertex is
    chosen at minimum degree.
-/
import SmfSolver.Lib.EliminationGraph
import SmfSolver.Lib.LowerBound
import SmfSolver.Symbolic.GraphLists

namespace SmfSolver
namespace Symbolic

open Lib

/-! ## The program -/

/-- The working arrays of the ordering, and the order so far. -/
structure DegreeState where
  adj : ℕ → List ℕ
  eliminated : ℕ → Bool
  deg : ℕ → ℕ
  perm : List ℕ

namespace DegreeState

/-- The lists as they come, and nothing eliminated. -/
def initial (xadj adjncy : List ℕ) : DegreeState where
  adj := adjacencyList xadj adjncy
  eliminated _ := false
  deg i := xadj.getD (i + 1) 0 - xadj.getD i 0
  perm := []

/-- The scan for the pivot: the first remaining vertex of smaller degree than all before,
    ended by a degree of zero. -/
def leastDegree (s : DegreeState) : List ℕ → Option ℕ → ℕ → Option ℕ
  | [], pivot, _ => pivot
  | v :: vs, pivot, bestDeg =>
    if s.eliminated v = false ∧ s.deg v < bestDeg then
      if s.deg v = 0 then some v else s.leastDegree vs (some v) (s.deg v)
    else s.leastDegree vs pivot bestDeg

/-- The vertices of a list that remain. -/
def remaining (s : DegreeState) (l : List ℕ) : List ℕ := l.filter fun w => !s.eliminated w

/-- The list and degree of neighbour `a`: eliminated vertices leave, the other neighbours
    enter. -/
def connect (nbrs : List ℕ) (s : DegreeState) (a : ℕ) : DegreeState :=
  let u := nbrs.getD a 0
  let list := (nbrs.eraseIdx a).foldl insertNew (s.remaining (s.adj u))
  { s with adj := Function.update s.adj u list, deg := Function.update s.deg u list.length }

/-- The pivot is eliminated and next in the order. -/
def mark (s : DegreeState) (pivot : ℕ) : DegreeState :=
  { s with eliminated := Function.update s.eliminated pivot true, perm := s.perm ++ [pivot] }

/-- The list of the pivot is not needed any more. -/
def clear (s : DegreeState) (pivot : ℕ) : DegreeState :=
  { s with adj := Function.update s.adj pivot [] }

/-- Eliminate the pivot: its remaining neighbours become a clique. -/
def eliminate (s : DegreeState) (pivot : ℕ) : DegreeState :=
  let s := s.mark pivot
  let nbrs := s.remaining (s.adj pivot)
  (List.range nbrs.length).foldl (connect nbrs) (s.clear pivot)

/-- The main loop, which a step without a pivot would end. -/
def eliminateAll (n : ℕ) : ℕ → DegreeState → DegreeState
  | 0, s => s
  | k + 1, s =>
    match s.leastDegree (List.range n) none (n + 1) with
    | none => s
    | some pivot => eliminateAll n k (s.eliminate pivot)

end DegreeState

/-- `fallback_minimum_degree_ordering`. -/
def fallbackMinimumDegreeOrdering (n : ℕ) (xadj adjncy : List ℕ) : List ℕ :=
  if n = 0 then []
  else if adjncy = [] ∨ xadj.length < n + 1 then List.range n
  else (DegreeState.eliminateAll n n (DegreeState.initial xadj adjncy)).perm

variable {n : ℕ} {xadj adjncy : List ℕ}

/-! ## The scan -/

namespace DegreeState

theorem leastDegree_spec (s : DegreeState) (vs : List ℕ) (pivot : Option ℕ) (bestDeg : ℕ) :
    (s.leastDegree vs pivot bestDeg = pivot ∧
        ∀ v ∈ vs, s.eliminated v = false → bestDeg ≤ s.deg v) ∨
      ∃ p ∈ vs, s.leastDegree vs pivot bestDeg = some p ∧ s.eliminated p = false ∧
        s.deg p < bestDeg ∧ ∀ v ∈ vs, s.eliminated v = false → s.deg p ≤ s.deg v := by
  -- on the vertices still to look at; the search stops at degree zero
  induction vs generalizing pivot bestDeg with
  | nil => exact .inl ⟨rfl, by simp⟩
  | cons v vs ih =>
    rw [leastDegree]
    by_cases hv : s.eliminated v = false ∧ s.deg v < bestDeg
    · rw [if_pos hv]
      right
      by_cases hzero : s.deg v = 0
      · rw [if_pos hzero]
        exact ⟨v, List.mem_cons_self, rfl, hv.1, hv.2, fun _ _ _ => hzero ▸ Nat.zero_le _⟩
      · rw [if_neg hzero]
        rcases ih (some v) (s.deg v) with ⟨heq, hleast⟩ | ⟨p, hp, heq, hrem, hlt, hleast⟩
        · refine ⟨v, List.mem_cons_self, heq, hv.1, hv.2, fun w hw => ?_⟩
          rcases List.mem_cons.mp hw with rfl | hw
          · exact fun _ => le_rfl
          · exact hleast w hw
        · refine ⟨p, List.mem_cons_of_mem v hp, heq, hrem, hlt.trans hv.2, fun w hw => ?_⟩
          rcases List.mem_cons.mp hw with rfl | hw
          · exact fun _ => hlt.le
          · exact hleast w hw
    · rw [if_neg hv]
      have hskip : s.eliminated v = false → bestDeg ≤ s.deg v :=
        fun hrem => not_lt.mp fun hlt => hv ⟨hrem, hlt⟩
      rcases ih pivot bestDeg with ⟨heq, hleast⟩ | ⟨p, hp, heq, hrem, hlt, hleast⟩
      · refine .inl ⟨heq, fun w hw => ?_⟩
        rcases List.mem_cons.mp hw with rfl | hw
        · exact hskip
        · exact hleast w hw
      · refine .inr ⟨p, List.mem_cons_of_mem v hp, heq, hrem, hlt, fun w hw => ?_⟩
        rcases List.mem_cons.mp hw with rfl | hw
        · exact fun hw' => hlt.le.trans (hskip hw')
        · exact hleast w hw

/-! ## The lists of the neighbours -/

/-- Inserting the vertices of a list one after another. -/
theorem foldl_insertNew (ws : List ℕ) {l : List ℕ} (hs : l.Pairwise (· < ·)) :
    (ws.foldl insertNew l).Pairwise (· < ·) ∧ ∀ x, x ∈ ws.foldl insertNew l ↔ x ∈ ws ∨ x ∈ l := by
  induction ws generalizing l with
  | nil => exact ⟨hs, fun x => by simp⟩
  | cons w ws ih =>
    obtain ⟨hsorted, hmem⟩ := ih (insertNew_sorted (w := w) hs)
    refine ⟨hsorted, fun x => ?_⟩
    rw [List.foldl_cons, hmem, mem_insertNew hs, List.mem_cons, or_assoc, or_left_comm]

variable {s : DegreeState} {nbrs : List ℕ}

/-- What the turns of the neighbours in `turns` have done to the lists and degrees of `s`. -/
structure Connected (s : DegreeState) (nbrs turns : List ℕ) (t : DegreeState) : Prop where
  eliminated : t.eliminated = s.eliminated
  perm : t.perm = s.perm
  other : ∀ v ∉ turns, t.adj v = s.adj v ∧ t.deg v = s.deg v
  sorted : ∀ v ∈ turns, (t.adj v).Pairwise (· < ·)
  mem_iff : ∀ v ∈ turns, ∀ w, w ∈ t.adj v ↔
    (w ∈ nbrs ∧ w ≠ v) ∨ w ∈ s.adj v ∧ s.eliminated w = false
  deg : ∀ v ∈ turns, t.deg v = (t.adj v).length

theorem connected_nil : Connected s nbrs [] s where
  eliminated := rfl
  perm := rfl
  other _ _ := ⟨rfl, rfl⟩
  sorted _ h := absurd h List.not_mem_nil
  mem_iff _ h := absurd h List.not_mem_nil
  deg _ h := absurd h List.not_mem_nil

theorem Connected.connect {t : DegreeState} {m : ℕ} (h : Connected s nbrs (nbrs.take m) t)
    (hnodup : nbrs.Nodup) (hsorted : ∀ v ∈ nbrs, (s.adj v).Pairwise (· < ·))
    (hm : m < nbrs.length) : Connected s nbrs (nbrs.take (m + 1)) (connect nbrs t m) := by
  have hget : nbrs.getD m 0 = nbrs[m] := by
    rw [List.getD_eq_getElem?_getD, List.getElem?_eq_getElem hm, Option.getD_some]
  have htake : ∀ v, v ∈ nbrs.take (m + 1) ↔ v ∈ nbrs.take m ∨ v = nbrs[m] := by
    intro v
    rw [List.take_succ_eq_append_getElem hm, List.mem_append, List.mem_singleton]
  have hfresh : nbrs[m] ∉ nbrs.take m := by
    intro hmem
    obtain ⟨i, hi, heq⟩ := List.mem_take_iff_getElem.mp hmem
    have := (hnodup.getElem_inj_iff).mp heq
    omega
  -- the turn of a neighbour reads its own list, which nobody has rewritten before
  have hown := h.other _ hfresh
  have hrem : (t.remaining (t.adj nbrs[m])).Pairwise (· < ·) := by
    rw [hown.1]
    exact (hsorted _ (List.getElem_mem hm)).sublist List.filter_sublist
  obtain ⟨hlist, hmem⟩ := foldl_insertNew (nbrs.eraseIdx m) hrem
  unfold DegreeState.connect
  rw [hget]
  refine ⟨h.eliminated, h.perm, fun v hv => ?_, fun v hv => ?_, fun v hv w => ?_, fun v hv => ?_⟩
  · rw [htake, not_or] at hv
    simp only [Function.update_of_ne hv.2]
    exact h.other v hv.1
  · by_cases hvm : v = nbrs[m]
    · rw [hvm]
      simp only [Function.update_self]
      exact hlist
    · simp only [Function.update_of_ne hvm]
      exact h.sorted v (((htake v).mp hv).resolve_right hvm)
  · by_cases hvm : v = nbrs[m]
    · rw [hvm]
      simp only [Function.update_self]
      rw [hmem]
      refine or_congr ?_ ?_
      · rw [List.mem_eraseIdx_iff_getElem]
        constructor
        · rintro ⟨i, hi, hne, rfl⟩
          exact ⟨List.getElem_mem hi, fun heq => hne (hnodup.getElem_inj_iff.mp heq)⟩
        · rintro ⟨hw, hne⟩
          obtain ⟨i, hi, rfl⟩ := List.getElem_of_mem hw
          exact ⟨i, hi, fun heq => hne (by subst heq; rfl), rfl⟩
      · unfold remaining
        rw [List.mem_filter, hown.1, h.eliminated, Bool.not_eq_true']
    · simp only [Function.update_of_ne hvm]
      exact h.mem_iff v (((htake v).mp hv).resolve_right hvm) w
  · by_cases hvm : v = nbrs[m]
    · rw [hvm]
      simp only [Function.update_self]
    · simp only [Function.update_of_ne hvm]
      exact h.deg v (((htake v).mp hv).resolve_right hvm)

theorem connected_all (hnodup : nbrs.Nodup) (hsorted : ∀ v ∈ nbrs, (s.adj v).Pairwise (· < ·)) :
    Connected s nbrs nbrs ((List.range nbrs.length).foldl (DegreeState.connect nbrs) s) := by
  have hrun : ∀ m ≤ nbrs.length,
      Connected s nbrs (nbrs.take m) ((List.range m).foldl (DegreeState.connect nbrs) s) := by
    intro m hm
    induction m with
    | zero => exact connected_nil
    | succ m ih =>
      rw [List.range_succ, List.foldl_append]
      exact (ih (by omega)).connect hnodup hsorted (by omega)
  have hall := hrun _ le_rfl
  rwa [List.take_length] at hall

end DegreeState

/-! ## The invariant -/

variable {G : ℕ → ℕ → Prop}

/-- The vertices of `perm` are eliminated, each chosen at the least degree of the vertices
    remaining then; lists and degrees of the others are those of the elimination graph. -/
structure DegreeInv (n : ℕ) (G : ℕ → ℕ → Prop) (s : DegreeState) : Prop where
  perm_nodup : s.perm.Nodup
  perm_lt : ∀ v ∈ s.perm, v < n
  eliminated_iff : ∀ v, s.eliminated v = true ↔ v ∈ s.perm
  sorted : ∀ u < n, u ∉ s.perm → (s.adj u).Pairwise (· < ·)
  mem_iff : ∀ u < n, u ∉ s.perm → ∀ w, w ∈ s.adj u ↔ Eliminated G {x | x ∈ s.perm} u w
  deg : ∀ u < n, u ∉ s.perm → s.deg u = (s.adj u).length
  chosen : ∀ i v, s.perm[i]? = some v → ∀ u < n, u ∉ s.perm.take i →
    elimDegree G {x | x ∈ s.perm.take i} v ≤ elimDegree G {x | x ∈ s.perm.take i} u

namespace DegreeInv

variable {s : DegreeState}

theorem initial (g : ListGraph n xadj adjncy)
    (hs : ∀ u < n, (adjacencyList xadj adjncy u).Pairwise (· < ·)) :
    DegreeInv n (ListEdge n xadj adjncy) (.initial xadj adjncy) where
  perm_nodup := List.nodup_nil
  perm_lt v hv := absurd hv List.not_mem_nil
  eliminated_iff v := by simp [DegreeState.initial]
  sorted u hu _ := hs u hu
  mem_iff u hu _ w := by
    have hempty : {x | x ∈ (DegreeState.initial xadj adjncy).perm} = (∅ : Set ℕ) := by
      ext x
      exact iff_of_false List.not_mem_nil (Set.notMem_empty x)
    rw [hempty, eliminated_empty]
    refine ⟨fun h => ⟨?_, hu, h⟩, fun h => h.2.2⟩
    rintro rfl
    exact g.loopless w hu h
  deg u hu _ := (g.length hu).symm
  chosen i v h := by
    have hnone : (DegreeState.initial xadj adjncy).perm[i]? = none := List.getElem?_nil
    rw [hnone] at h
    cases h

theorem remaining_iff (inv : DegreeInv n G s) {v : ℕ} : s.eliminated v = false ↔ v ∉ s.perm := by
  rw [← inv.eliminated_iff, Bool.not_eq_true]

/-- The degree of a remaining vertex is its degree in the elimination graph. -/
theorem deg_eq (inv : DegreeInv n G s) {u : ℕ} (hu : u < n) (hrem : u ∉ s.perm) :
    s.deg u = elimDegree G {x | x ∈ s.perm} u := by
  rw [inv.deg u hu hrem]
  exact (elimDegree_eq_length (inv.sorted u hu hrem).nodup (inv.mem_iff u hu hrem)).symm

/-- A vertex has at most `n` neighbours. -/
theorem deg_le (inv : DegreeInv n G s) (hlt : ∀ u w, G u w → w < n) {u : ℕ} (hu : u < n)
    (hrem : u ∉ s.perm) : s.deg u ≤ n := by
  have hsub : s.adj u ⊆ List.range n := by
    intro w hw
    obtain ⟨x, hx⟩ := ((inv.mem_iff u hu hrem w).mp hw).2.2.2.exists_edge
    exact List.mem_range.mpr (hlt x w hx)
  have hlen := (inv.sorted u hu hrem).nodup.subperm hsub |>.length_le
  rw [List.length_range] at hlen
  exact (inv.deg u hu hrem).le.trans hlen

/-- The scan finds a remaining vertex of least degree as long as one remains. -/
theorem leastDegree (inv : DegreeInv n G s) (hlt : ∀ u w, G u w → w < n) {u : ℕ} (hu : u < n)
    (hrem : u ∉ s.perm) :
    ∃ p, s.leastDegree (List.range n) none (n + 1) = some p ∧ p < n ∧ p ∉ s.perm ∧
      ∀ v < n, v ∉ s.perm → s.deg p ≤ s.deg v := by
  rcases s.leastDegree_spec (List.range n) none (n + 1) with
    ⟨-, hnone⟩ | ⟨p, hp, heq, hrp, -, hleast⟩
  · have := hnone u (List.mem_range.mpr hu) (inv.remaining_iff.mpr hrem)
    have := inv.deg_le hlt hu hrem
    omega
  · exact ⟨p, heq, List.mem_range.mp hp, inv.remaining_iff.mp hrp, fun v hv hv' =>
      hleast v (List.mem_range.mpr hv) (inv.remaining_iff.mpr hv')⟩

/-! ## One elimination -/

/-- The order after one more vertex, chosen at least degree. -/
theorem chosen_append (inv : DegreeInv n G s) {p : ℕ} (hp : p < n) (hrem : p ∉ s.perm)
    (hleast : ∀ v < n, v ∉ s.perm → s.deg p ≤ s.deg v) (i v : ℕ)
    (hi : (s.perm ++ [p])[i]? = some v) (u : ℕ) (hu : u < n) (hut : u ∉ (s.perm ++ [p]).take i) :
    elimDegree G {x | x ∈ (s.perm ++ [p]).take i} v ≤
      elimDegree G {x | x ∈ (s.perm ++ [p]).take i} u := by
  rcases Nat.lt_or_ge i s.perm.length with hlt | hge
  · rw [List.take_append_of_le_length hlt.le] at hut ⊢
    rw [List.getElem?_append_left hlt] at hi
    exact inv.chosen i v hi u hu hut
  · have hlast : i = s.perm.length := by
      have := (List.getElem?_eq_some_iff.mp hi).1
      rw [List.length_append, List.length_singleton] at this
      omega
    subst hlast
    rw [List.take_append_of_le_length le_rfl, List.take_length] at hut ⊢
    rw [List.getElem?_append_right le_rfl, Nat.sub_self, List.getElem?_cons_zero,
      Option.some.injEq] at hi
    subst hi
    rw [← inv.deg_eq hp hrem, ← inv.deg_eq hu hut]
    exact hleast u hu hut

/-- The marks with the pivot's. -/
theorem mark_eliminated (inv : DegreeInv n G s) {p v : ℕ} :
    (s.mark p).eliminated v = false ↔ v ≠ p ∧ v ∉ s.perm := by
  change Function.update s.eliminated p true v = false ↔ _
  by_cases hv : v = p
  · rw [hv, Function.update_self]
    exact iff_of_false Bool.noConfusion fun h => h.1 rfl
  · rw [Function.update_of_ne hv, inv.remaining_iff, and_iff_right hv]

/-- The list of the pivot has remaining vertices only. -/
theorem remaining_pivot (inv : DegreeInv n G s) {p : ℕ} (hp : p < n) (hrem : p ∉ s.perm) :
    (s.mark p).remaining (s.adj p) = s.adj p := by
  refine List.filter_eq_self.mpr fun w hw => ?_
  obtain ⟨-, hw', hne, -⟩ := (inv.mem_iff p hp hrem w).mp hw
  rw [Bool.not_eq_true', inv.mark_eliminated]
  exact ⟨hne, hw'⟩

theorem connected (inv : DegreeInv n G s) (hlt : ∀ u w, G u w → w < n) {p : ℕ} (hp : p < n)
    (hrem : p ∉ s.perm) :
    DegreeState.Connected ((s.mark p).clear p) (s.adj p) (s.adj p) (s.eliminate p) := by
  have hall := DegreeState.connected_all (s := (s.mark p).clear p) (inv.sorted p hp hrem).nodup
    fun v hv => by
      obtain ⟨-, hv', hne, hpath⟩ := (inv.mem_iff p hp hrem v).mp hv
      obtain ⟨x, hx⟩ := hpath.exists_edge
      change (Function.update s.adj p [] v).Pairwise (· < ·)
      rw [Function.update_of_ne hne]
      exact inv.sorted v (hlt x v hx) hv'
  unfold DegreeState.eliminate
  change DegreeState.Connected _ _ _
    ((List.range ((s.mark p).remaining (s.adj p)).length).foldl
      (DegreeState.connect ((s.mark p).remaining (s.adj p))) ((s.mark p).clear p))
  rwa [inv.remaining_pivot hp hrem]

/-- The lists and degrees after an elimination. -/
theorem eliminate_lists (inv : DegreeInv n G s) (hG : ∀ u w, G u w → G w u)
    (hlt : ∀ u w, G u w → w < n) {p : ℕ} (hp : p < n) (hrem : p ∉ s.perm) {u : ℕ} (hu : u < n)
    (hup : u ≠ p) (hur : u ∉ s.perm) :
    ((s.eliminate p).adj u).Pairwise (· < ·) ∧
      (∀ w, w ∈ (s.eliminate p).adj u ↔ Eliminated G (insert p {x | x ∈ s.perm}) u w) ∧
      (s.eliminate p).deg u = ((s.eliminate p).adj u).length := by
  have hcon := inv.connected hlt hp hrem
  have hadj : ((s.mark p).clear p).adj u = s.adj u := Function.update_of_ne hup _ _
  -- a neighbour of the pivot gets the pivot's other neighbours
  by_cases hmem : u ∈ s.adj p
  · refine ⟨hcon.sorted u hmem, fun w => ?_, hcon.deg u hmem⟩
    have hpu := (inv.mem_iff p hp hrem u).mp hmem
    have hmark : ((s.mark p).clear p).eliminated w = false ↔ w ≠ p ∧ w ∉ s.perm :=
      inv.mark_eliminated
    rw [hcon.mem_iff u hmem, hadj, hmark, inv.mem_iff p hp hrem, inv.mem_iff u hu hur,
      eliminated_insert hG hrem]
    constructor
    · rintro (⟨hpw, hne⟩ | ⟨huw, hwp, -⟩)
      · exact ⟨hup, hpw.2.2.1, .inr ⟨hne, hpu, hpw⟩⟩
      · exact ⟨hup, hwp, .inl huw⟩
    · rintro ⟨-, hwp, huw | ⟨hne, -, hpw⟩⟩
      · exact .inr ⟨huw, hwp, huw.2.1⟩
      · exact .inl ⟨hpw, hne⟩
  · -- not a neighbour of the pivot: the lists agree and no path through it is new
    obtain ⟨hsame, hdeg⟩ := hcon.other u hmem
    rw [hsame, hdeg, hadj]
    refine ⟨inv.sorted u hu hur, fun w => ?_, inv.deg u hu hur⟩
    have hpu : ¬Eliminated G {x | x ∈ s.perm} p u := fun h =>
      hmem ((inv.mem_iff p hp hrem u).mpr h)
    rw [inv.mem_iff u hu hur, eliminated_insert hG hrem]
    constructor
    · intro huw
      refine ⟨hup, ?_, .inl huw⟩
      rintro rfl
      exact hpu (huw.symm hG)
    · rintro ⟨-, -, huw | ⟨-, h, -⟩⟩
      · exact huw
      · exact absurd h hpu

/-- One elimination at least degree keeps the invariant. -/
theorem eliminate (inv : DegreeInv n G s) (hG : ∀ u w, G u w → G w u) (hlt : ∀ u w, G u w → w < n)
    {p : ℕ} (hp : p < n) (hrem : p ∉ s.perm)
    (hleast : ∀ v < n, v ∉ s.perm → s.deg p ≤ s.deg v) :
    DegreeInv n G (s.eliminate p) ∧ (s.eliminate p).perm = s.perm ++ [p] := by
  have hcon := inv.connected hlt hp hrem
  have hperm : (s.eliminate p).perm = s.perm ++ [p] := hcon.perm
  have hmem : ∀ v, v ∈ (s.eliminate p).perm ↔ v = p ∨ v ∈ s.perm := by
    intro v
    rw [hperm, List.mem_append, List.mem_singleton, or_comm]
  have hset : {x | x ∈ (s.eliminate p).perm} = insert p {x | x ∈ s.perm} := Set.ext hmem
  have hlists : ∀ u < n, u ∉ (s.eliminate p).perm → _ := fun u hu hur =>
    inv.eliminate_lists hG hlt hp hrem hu (fun h => hur ((hmem u).mpr (.inl h)))
      fun h => hur ((hmem u).mpr (.inr h))
  refine ⟨⟨?_, fun v hv => ?_, fun v => ?_, fun u hu hur => (hlists u hu hur).1,
    fun u hu hur w => ?_, fun u hu hur => (hlists u hu hur).2.2, ?_⟩, hperm⟩
  · rw [hperm]
    exact List.nodup_append.mpr ⟨inv.perm_nodup, List.nodup_singleton p,
      fun a ha b hb => fun h => hrem (List.mem_singleton.mp hb ▸ h ▸ ha)⟩
  · rcases (hmem v).mp hv with rfl | hv
    · exact hp
    · exact inv.perm_lt v hv
  · have hmark : (s.eliminate p).eliminated v = false ↔ v ≠ p ∧ v ∉ s.perm := by
      rw [hcon.eliminated]
      exact inv.mark_eliminated
    rw [hmem, ← Bool.not_eq_false, hmark, not_and_or, not_not, not_not]
  · rw [hset]
    exact (hlists u hu hur).2.1 w
  · rw [hperm]
    exact inv.chosen_append hp hrem hleast

/-! ## The loop -/

/-- As many steps as vertices remain eliminate all of them. -/
theorem eliminateAll (inv : DegreeInv n G s) (hG : ∀ u w, G u w → G w u)
    (hlt : ∀ u w, G u w → w < n) {k : ℕ} (hk : s.perm.length + k = n) :
    DegreeInv n G (DegreeState.eliminateAll n k s) ∧
      (DegreeState.eliminateAll n k s).perm.length = n := by
  induction k generalizing s with
  | zero => exact ⟨inv, hk⟩
  | succ k ih =>
    -- fewer than `n` different vertices are in the order, so one is left
    obtain ⟨u, hu, hur⟩ : ∃ u < n, u ∉ s.perm := by
      by_contra hall
      push Not at hall
      have hsub : List.range n ⊆ s.perm := fun u hu => hall u (List.mem_range.mp hu)
      have hlen := (List.nodup_range.subperm hsub).length_le
      rw [List.length_range] at hlen
      omega
    obtain ⟨p, hscan, hp, hrem, hleast⟩ := inv.leastDegree hlt hu hur
    obtain ⟨hinv, hperm⟩ := inv.eliminate hG hlt hp hrem hleast
    rw [DegreeState.eliminateAll, hscan]
    refine ih hinv ?_
    rw [hperm, List.length_append, List.length_singleton]
    omega

end DegreeInv

/-- The order is a permutation of the vertices, and every vertex has, when it is chosen, the
    least degree of the remaining vertices in the elimination graph. -/
theorem fallback_orders_by_minimum_degree (g : ListGraph n xadj adjncy)
    (hs : ∀ u < n, (adjacencyList xadj adjncy u).Pairwise (· < ·)) :
    (fallbackMinimumDegreeOrdering n xadj adjncy).Perm (List.range n) ∧
      ∀ i v, (fallbackMinimumDegreeOrdering n xadj adjncy)[i]? = some v → ∀ u < n,
        u ∉ (fallbackMinimumDegreeOrdering n xadj adjncy).take i →
          elimDegree (ListEdge n xadj adjncy)
              {x | x ∈ (fallbackMinimumDegreeOrdering n xadj adjncy).take i} v ≤
            elimDegree (ListEdge n xadj adjncy)
              {x | x ∈ (fallbackMinimumDegreeOrdering n xadj adjncy).take i} u := by
  unfold fallbackMinimumDegreeOrdering
  by_cases hn : n = 0
  · rw [if_pos hn]
    subst hn
    exact ⟨.refl _, fun i v _ u hu => absurd hu (Nat.not_lt_zero u)⟩
  · rw [if_neg hn]
    by_cases hempty : adjncy = [] ∨ xadj.length < n + 1
    · -- there are no edges, so every degree is zero
      rw [if_pos hempty]
      have hnil := hempty.resolve_right (by have := g.long; omega)
      refine ⟨.refl _, fun i v _ u hu hrem => ?_⟩
      have hzero : ∀ S v, elimDegree (ListEdge n xadj adjncy) S v = ([] : List ℕ).length := by
        refine fun S v => elimDegree_eq_length List.nodup_nil fun w => ?_
        refine iff_of_false List.not_mem_nil fun h => ?_
        obtain ⟨x, -, hx⟩ := h.2.2.2.exists_edge
        rw [hnil, adjacencyList, List.drop_nil, List.take_nil] at hx
        exact List.not_mem_nil hx
      rw [hzero, hzero]
    · rw [if_neg hempty]
      have hlt : ∀ u w, ListEdge n xadj adjncy u w → w < n := fun u w h => g.lt u h.1 w h.2
      obtain ⟨hinv, hlen⟩ := (DegreeInv.initial g hs).eliminateAll g.edge_symm hlt (k := n)
        (Nat.zero_add n)
      refine ⟨?_, hinv.chosen⟩
      -- `n` different vertices below `n` are all of them
      have hsub : (DegreeState.eliminateAll n n (.initial xadj adjncy)).perm ⊆ List.range n :=
        fun v hv => List.mem_range.mpr (hinv.perm_lt v hv)
      refine (hinv.perm_nodup.subperm hsub).perm_of_length_le ?_
      rw [List.length_range, hlen]

/-- Three edges in a line and a vertex by itself: the ends of the line come before its inside. -/
theorem fallback_orders_by_minimum_degree_line :
    fallbackMinimumDegreeOrdering 5 [0, 2, 3, 5, 6, 6] [1, 2, 0, 0, 3, 2] = [4, 1, 0, 2, 3] ∧
      (fallbackMinimumDegreeOrdering 5 [0, 2, 3, 5, 6, 6] [1, 2, 0, 0, 3, 2]).Perm
        (List.range 5) := by
  refine ⟨by decide +kernel, (fallback_orders_by_minimum_degree ?_ (by decide)).1⟩
  exact ⟨by decide, by decide, by decide, by decide, by decide, by decide⟩

end Symbolic
end SmfSolver
