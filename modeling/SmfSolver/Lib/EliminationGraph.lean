/-
  SmfSolver.Lib.EliminationGraph

  Elimination graphs.  Two remaining vertices are neighbours after the elimination of a
  set `S` when a path with all its inner vertices in `S` joins them.  `eliminated_insert`
  is the elimination of one more vertex: its neighbours become a clique.
-/
import Mathlib.Data.Set.Card
import Mathlib.Data.Set.Finite.Basic

namespace SmfSolver
namespace Lib

variable {V : Type*}

/-- A path from one vertex to another whose inner vertices lie in `S`. -/
inductive PathThrough (G : V → V → Prop) (S : Set V) : V → V → Prop
  | edge {u w : V} : G u w → PathThrough G S u w
  | step {u s w : V} : G u s → s ∈ S → PathThrough G S s w → PathThrough G S u w

/-- Neighbours in the elimination graph: remaining, different, and joined by a path through
    eliminated vertices. -/
def Eliminated (G : V → V → Prop) (S : Set V) (u w : V) : Prop :=
  u ∉ S ∧ w ∉ S ∧ w ≠ u ∧ PathThrough G S u w

/-- The degree of `u` in the elimination graph. -/
noncomputable def elimDegree (G : V → V → Prop) (S : Set V) (u : V) : ℕ :=
  {w | Eliminated G S u w}.ncard

variable {G : V → V → Prop} {S : Set V} {s u v w : V}

namespace PathThrough

theorem mono {T : Set V} (hST : S ⊆ T) (h : PathThrough G S u w) : PathThrough G T u w := by
  induction h with
  | edge h => exact .edge h
  | step h hs _ ih => exact .step h (hST hs) ih

theorem trans (h₁ : PathThrough G S u s) (hs : s ∈ S) (h₂ : PathThrough G S s w) :
    PathThrough G S u w := by
  induction h₁ with
  | edge h => exact .step h hs h₂
  | step h hs' _ ih => exact .step h hs' (ih hs h₂)

theorem symm (hG : ∀ u w, G u w → G w u) (h : PathThrough G S u w) : PathThrough G S w u := by
  induction h with
  | edge h => exact .edge (hG _ _ h)
  | step h hs _ ih => exact ih.trans hs (.edge (hG _ _ h))

/-- A path ends at a vertex that has an edge. -/
theorem exists_edge (h : PathThrough G S u w) : ∃ s, G s w := by
  induction h with
  | edge h => exact ⟨_, h⟩
  | step _ _ _ ih => exact ih

/-- A path that may also go through `v`: it avoids `v`, or it comes to `v` and goes on from
    there. -/
theorem insert_iff :
    PathThrough G (insert v S) u w ↔
      PathThrough G S u w ∨ PathThrough G S u v ∧ PathThrough G S v w := by
  constructor
  · intro h
    induction h with
    | edge h => exact .inl (.edge h)
    | step h hs _ ih =>
      rcases hs with rfl | hs
      · exact .inr ⟨.edge h, ih.elim id And.right⟩
      · exact ih.imp (.step h hs) (And.imp_left (.step h hs))
  · rintro (h | ⟨h₁, h₂⟩)
    · exact h.mono (Set.subset_insert v S)
    · exact (h₁.mono (Set.subset_insert v S)).trans (Set.mem_insert v S)
        (h₂.mono (Set.subset_insert v S))

end PathThrough

/-- Without eliminated vertices the paths are the edges. -/
theorem eliminated_empty : Eliminated G ∅ u w ↔ w ≠ u ∧ G u w := by
  constructor
  · rintro ⟨-, -, hne, h⟩
    cases h with
    | edge h => exact ⟨hne, h⟩
    | step _ hs _ => exact absurd hs (Set.notMem_empty _)
  · rintro ⟨hne, h⟩
    exact ⟨Set.notMem_empty _, Set.notMem_empty _, hne, .edge h⟩

theorem Eliminated.symm (hG : ∀ u w, G u w → G w u) (h : Eliminated G S u w) :
    Eliminated G S w u :=
  ⟨h.2.1, h.1, h.2.2.1.symm, h.2.2.2.symm hG⟩

/-- Eliminating `v` joins its neighbours and leaves every other pair as it was. -/
theorem eliminated_insert (hG : ∀ u w, G u w → G w u) (hv : v ∉ S) :
    Eliminated G (insert v S) u w ↔ u ≠ v ∧ w ≠ v ∧
      (Eliminated G S u w ∨ w ≠ u ∧ Eliminated G S v u ∧ Eliminated G S v w) := by
  unfold Eliminated
  rw [PathThrough.insert_iff, Set.mem_insert_iff, Set.mem_insert_iff, not_or, not_or]
  constructor
  · rintro ⟨⟨huv, hu⟩, ⟨hwv, hw⟩, hne, hpath | ⟨h₁, h₂⟩⟩
    · exact ⟨huv, hwv, .inl ⟨hu, hw, hne, hpath⟩⟩
    · exact ⟨huv, hwv, .inr ⟨hne, ⟨hv, hu, huv, h₁.symm hG⟩, hv, hw, hwv, h₂⟩⟩
  · rintro ⟨huv, hwv, ⟨hu, hw, hne, hpath⟩ | ⟨hne, ⟨-, hu, -, h₁⟩, -, hw, -, h₂⟩⟩
    · exact ⟨⟨huv, hu⟩, ⟨hwv, hw⟩, hne, .inl hpath⟩
    · exact ⟨⟨huv, hu⟩, ⟨hwv, hw⟩, hne, .inr ⟨h₁.symm hG, h₂⟩⟩

/-- A list without repetition of the neighbours counts the degree. -/
theorem elimDegree_eq_length {l : List V} (hnodup : l.Nodup)
    (hmem : ∀ w, w ∈ l ↔ Eliminated G S u w) :
    elimDegree G S u = l.length := by
  classical
  have hset : {w | Eliminated G S u w} = (l.toFinset : Set V) := by
    ext w
    rw [List.coe_toFinset]
    exact (hmem w).symm
  unfold elimDegree
  rw [hset, Set.ncard_coe_finset, List.toFinset_card_of_nodup hnodup]

end Lib
end SmfSolver
