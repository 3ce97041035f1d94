/-
  SmfSolver.Symbolic.Adjacency

  The symmetric adjacency of a lower pattern (`lower_csc_adjacency` of
  `ordering_amd.cpp`), and inverses of index lists.
-/
import SmfSolver.Symbolic.Etree

namespace SmfSolver
namespace Symbolic

open Lib

/-- The rows of a column without its leading diagonal entry. -/
def dropDiagonal (j : ℕ) : List ℕ → List ℕ
  | [] => []
  | i :: l => if i = j then l else i :: l

/-- `lower_csc_adjacency`: entry `(i, j)` puts `i` in the list of `j` and `j` in that of `i`. -/
def lowerCscAdjacency (n : ℕ) (csc : Csr ℕ) : Csr ℕ :=
  Csr.ofItems n
    ((List.range n).flatMap fun j => (dropDiagonal j (csc.slice j)).flatMap fun i =>
      [(j, i), (i, j)])
    fun _ => 0

/-- Where each element of a list stands. -/
def positions (l : List ℕ) : ℕ → ℕ :=
  l.zipIdx.foldl (fun inv e => Function.update inv e.1 e.2) fun _ => 0

theorem positions_eq {l : List ℕ} (hnodup : l.Nodup) {i x : ℕ} (h : l[i]? = some x) :
    positions l x = i :=
  foldl_zipIdx_update id _ hnodup h

theorem mem_dropDiagonal {i j : ℕ} {l : List ℕ} (hne : i ≠ j) : i ∈ dropDiagonal j l ↔ i ∈ l := by
  cases l with
  | nil => rfl
  | cons a l =>
    rw [dropDiagonal]
    split_ifs with ha
    · rw [List.mem_cons, or_iff_right (ha ▸ hne)]
    · rfl

theorem dropDiagonal_subset {i j : ℕ} {l : List ℕ} (h : i ∈ dropDiagonal j l) : i ∈ l := by
  cases l with
  | nil => exact h
  | cons a l =>
    rw [dropDiagonal] at h
    split_ifs at h
    · exact List.mem_cons_of_mem a h
    · exact h

/-- Neighbours are the ends of the entries off the diagonal. -/
theorem mem_lowerCscAdjacency (A : LowerPattern) {u v : ℕ} (hne : v ≠ u) :
    v ∈ (lowerCscAdjacency A.n A.csc).slice u ↔ A.adj u v ∨ A.adj v u := by
  have hbound : ∀ e ∈ (List.range A.n).flatMap fun j =>
      (dropDiagonal j (A.csc.slice j)).flatMap fun i => [(j, i), (i, j)], e.1 < A.n := by
    intro e he
    obtain ⟨j, hj, he⟩ := List.mem_flatMap.mp he
    obtain ⟨i, hi, he⟩ := List.mem_flatMap.mp he
    have hjn := List.mem_range.mp hj
    have hin := (A.lower j hjn i (dropDiagonal_subset hi)).2
    rcases List.mem_cons.mp he with rfl | he
    · exact hjn
    · obtain rfl := List.mem_singleton.mp he
      exact hin
  unfold lowerCscAdjacency
  rw [Csr.mem_ofItems_slice hbound]
  simp only [List.mem_flatMap, List.mem_range, List.mem_cons, Prod.mk.injEq, List.not_mem_nil,
    or_false]
  constructor
  · rintro ⟨j, hj, i, hi, ⟨rfl, rfl⟩ | ⟨rfl, rfl⟩⟩
    · have hmem := dropDiagonal_subset hi
      exact .inr ⟨lt_of_le_of_ne (A.lower u hj v hmem).1 hne.symm, hj, hmem⟩
    · have hmem := dropDiagonal_subset hi
      exact .inl ⟨lt_of_le_of_ne (A.lower v hj u hmem).1 hne, hj, hmem⟩
  · rintro (⟨_, hv, hmem⟩ | ⟨_, hu, hmem⟩)
    · exact ⟨v, hv, u, (mem_dropDiagonal hne.symm).mpr hmem, .inr ⟨rfl, rfl⟩⟩
    · exact ⟨u, hu, v, (mem_dropDiagonal hne).mpr hmem, .inl ⟨rfl, rfl⟩⟩

/-- Neighbours are vertices. -/
theorem lowerCscAdjacency_lt (A : LowerPattern) {u v : ℕ}
    (h : v ∈ (lowerCscAdjacency A.n A.csc).slice u) (hne : v ≠ u) : v < A.n := by
  rcases (mem_lowerCscAdjacency A hne).mp h with hadj | hadj
  · exact hadj.2.1
  · exact (A.lower u hadj.2.1 v hadj.2.2).2

/-- Without diagonal entries and duplicates there are no loops and no double edges. -/
theorem lowerCscAdjacency_simple (A : LowerPattern)
    (hstrict : ∀ j < A.n, ∀ i ∈ A.csc.slice j, j < i)
    (hnodup : ∀ j < A.n, (A.csc.slice j).Nodup) {u : ℕ} (hu : u < A.n) :
    ((lowerCscAdjacency A.n A.csc).slice u).Nodup ∧ u ∉ (lowerCscAdjacency A.n A.csc).slice u := by
  -- below the diagonal there is nothing to drop
  have hdrop : ∀ j < A.n, dropDiagonal j (A.csc.slice j) = A.csc.slice j := by
    intro j hj
    cases hl : A.csc.slice j with
    | nil => rfl
    | cons i l =>
      have hji := hstrict j hj i (hl ▸ List.mem_cons_self)
      rw [dropDiagonal, if_neg hji.ne']
  have hmem : ∀ {j}, j ∈ List.range A.n → ∀ e, e ∈ (dropDiagonal j (A.csc.slice j)).flatMap
      (fun i => [(j, i), (i, j)]) →
        ∃ i, i ∈ A.csc.slice j ∧ j < i ∧ i < A.n ∧ (e = (j, i) ∨ e = (i, j)) := by
    intro j hj e he
    have hjn := List.mem_range.mp hj
    rw [hdrop j hjn] at he
    obtain ⟨i, hi, he⟩ := List.mem_flatMap.mp he
    refine ⟨i, hi, hstrict j hjn i hi, (A.lower j hjn i hi).2, ?_⟩
    simpa using he
  -- each edge is entered twice, once from either end, and no other edge enters the same
  have hitems : ((List.range A.n).flatMap fun j =>
      (dropDiagonal j (A.csc.slice j)).flatMap fun i => [(j, i), (i, j)]).Nodup := by
    rw [List.nodup_flatMap]
    refine ⟨fun j hj => ?_, ?_⟩
    · have hjn := List.mem_range.mp hj
      rw [hdrop j hjn, List.nodup_flatMap]
      refine ⟨fun i hi => ?_, (hnodup j hjn).imp_of_mem fun {i i'} hi hi' hne => ?_⟩
      · have hji := hstrict j hjn i hi
        simp [hji.ne]
      · have hji := hstrict j hjn i hi
        have hji' := hstrict j hjn i' hi'
        rw [Function.onFun_apply, List.disjoint_left]
        intro e he he'
        simp only [List.mem_cons, List.not_mem_nil, or_false] at he he'
        rcases he with rfl | rfl <;> rcases he' with he' | he' <;>
          · obtain ⟨h₁, h₂⟩ := Prod.mk.inj he'
            omega
    · refine List.nodup_range.imp_of_mem fun {j j'} hj hj' hne => ?_
      rw [Function.onFun_apply, List.disjoint_left]
      intro e he he'
      obtain ⟨i, -, hji, -, hcase⟩ := hmem hj e he
      obtain ⟨i', -, hji', -, hcase'⟩ := hmem hj' e he'
      rcases hcase with rfl | rfl <;> rcases hcase' with he' | he' <;>
        · obtain ⟨h₁, h₂⟩ := Prod.mk.inj he'
          omega
  have hkey : ∀ e ∈ (List.range A.n).flatMap fun j =>
      (dropDiagonal j (A.csc.slice j)).flatMap fun i => [(j, i), (i, j)],
        e.1 < A.n ∧ e.1 ≠ e.2 := by
    intro e he
    obtain ⟨j, hj, he⟩ := List.mem_flatMap.mp he
    have hjn := List.mem_range.mp hj
    obtain ⟨i, -, hji, hin, rfl | rfl⟩ := hmem hj e he
    · exact ⟨hjn, hji.ne⟩
    · exact ⟨hin, hji.ne'⟩
  unfold lowerCscAdjacency
  constructor
  · rw [Csr.ofItems_slice (fun e he => (hkey e he).1) hu]
    unfold Csr.bucket
    refine (hitems.filter _).map_on fun e he e' he' heq => ?_
    have h₁ := of_decide_eq_true (List.mem_filter.mp he).2
    have h₂ := of_decide_eq_true (List.mem_filter.mp he').2
    exact Prod.ext (h₁.trans h₂.symm) heq
  · rw [Csr.mem_ofItems_slice fun e he => (hkey e he).1]
    exact fun hmem => (hkey _ hmem).2 rfl

end Symbolic
end SmfSolver
