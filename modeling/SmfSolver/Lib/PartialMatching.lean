/-
  SmfSolver.Lib.PartialMatching

  A matching between two types kept as two partial functions that are inverse to each
  other, the way a program stores it, and the number of matched columns.

  * `Paired.assign`, `Paired.release`: matching a free pair, freeing a matched one.
  * `matchedCount_succ`: one more matched column.
  * `Paired.equiv`: with every column matched, a bijection.
-/
import Mathlib.Data.Finset.Card
import Mathlib.Data.Fintype.Card
import Mathlib.Data.Fintype.EquivFin
import Mathlib.Logic.Function.Basic

namespace SmfSolver
namespace Lib

variable {R C : Type*}

/-- Rows and columns agree on who is matched to whom. -/
def Paired (row : R → Option C) (col : C → Option R) : Prop :=
  ∀ i j, row i = some j ↔ col j = some i

section Update

variable [DecidableEq R] [DecidableEq C] {row : R → Option C} {col : C → Option R}

omit [DecidableEq R] [DecidableEq C] in
theorem paired_none : Paired (fun _ : R => (none : Option C)) (fun _ : C => (none : Option R)) :=
  fun _ _ => ⟨fun hc => (nomatch hc), fun hc => nomatch hc⟩

/-- A free row and a free column are matched. -/
theorem Paired.assign (h : Paired row col) {i : R} {j : C} (hi : row i = none)
    (hj : col j = none) :
    Paired (Function.update row i (some j)) (Function.update col j (some i)) := by
  intro i' j'
  by_cases hii : i' = i
  · by_cases hjj : j' = j
    · subst hii hjj
      rw [Function.update_self, Function.update_self]
      exact ⟨fun _ => rfl, fun _ => rfl⟩
    · subst hii
      rw [Function.update_self, Function.update_of_ne hjj, ← h i' j', hi]
      exact ⟨fun hc => absurd (Option.some.inj hc).symm hjj, fun hc => nomatch hc⟩
  · by_cases hjj : j' = j
    · subst hjj
      rw [Function.update_self, Function.update_of_ne hii, h i' j', hj]
      exact ⟨fun hc => (nomatch hc), fun hc => absurd (Option.some.inj hc).symm hii⟩
    · rw [Function.update_of_ne hii, Function.update_of_ne hjj]
      exact h i' j'

/-- A matched pair is freed. -/
theorem Paired.release (h : Paired row col) {i : R} {j : C} (hij : row i = some j) :
    Paired (Function.update row i none) (Function.update col j none) := by
  intro i' j'
  by_cases hii : i' = i
  · subst hii
    rw [Function.update_self]
    by_cases hjj : j' = j
    · subst hjj
      rw [Function.update_self]
      exact ⟨fun hc => (nomatch hc), fun hc => nomatch hc⟩
    · rw [Function.update_of_ne hjj, ← h i' j', hij]
      exact ⟨fun hc => (nomatch hc), fun hc => absurd (Option.some.inj hc).symm hjj⟩
  · rw [Function.update_of_ne hii]
    by_cases hjj : j' = j
    · subst hjj
      rw [Function.update_self, h i' j', (h i j').mp hij]
      exact ⟨fun hc => absurd (Option.some.inj hc).symm hii, fun hc => nomatch hc⟩
    · rw [Function.update_of_ne hjj]
      exact h i' j'

/-- The row of a free column takes another free column's place: row `i` leaves its
    column `j` for the free column `j'`. -/
theorem Paired.displace (h : Paired row col) {i : R} {j j' : C} (hij : row i = some j)
    (hj' : col j' = none) :
    Paired (Function.update row i (some j'))
      (Function.update (Function.update col j none) j' (some i)) := by
  have hne : j' ≠ j := by
    rintro rfl
    rw [(h i j').mp hij] at hj'
    cases hj'
  have := (h.release hij).assign (Function.update_self i none row)
    ((Function.update_of_ne hne ..).trans hj')
  rwa [Function.update_idem] at this

end Update

theorem Paired.row_injective {row : R → Option C} {col : C → Option R} (h : Paired row col)
    {i i' : R} {j : C} (hi : row i = some j) (hi' : row i' = some j) : i = i' :=
  Option.some.inj (((h i j).mp hi).symm.trans ((h i' j).mp hi'))

/-! ## Counting -/

section Count

variable [Fintype C]

/-- How many columns are matched. -/
def matchedCount (col : C → Option R) : ℕ := (Finset.univ.filter fun j => (col j).isSome).card

theorem matchedCount_none : matchedCount (fun _ : C => (none : Option R)) = 0 :=
  Finset.card_eq_zero.mpr (Finset.filter_eq_empty_iff.mpr fun _ _ => Bool.false_ne_true)

/-- Column `j` has become matched. -/
theorem matchedCount_succ [DecidableEq C] {col col' : C → Option R} {j : C} (hj : col j = none)
    (h : ∀ j', col' j' = none ↔ col j' = none ∧ j' ≠ j) :
    matchedCount col' = matchedCount col + 1 := by
  have hnot : j ∉ Finset.univ.filter fun j => (col j).isSome = true := by
    rw [Finset.mem_filter, hj]
    exact fun hc => Bool.false_ne_true hc.2
  unfold matchedCount
  rw [← Finset.card_insert_of_notMem hnot]
  congr 1
  ext j'
  simp only [Finset.mem_filter, Finset.mem_univ, true_and, Finset.mem_insert,
    Option.isSome_iff_ne_none]
  rw [Ne, h j', not_and, not_not]
  by_cases hjj : j' = j
  · exact ⟨fun _ => .inl hjj, fun _ _ => hjj⟩
  · exact ⟨fun hc => .inr fun hn => hjj (hc hn), fun hc hn => absurd hn (hc.resolve_left hjj)⟩

omit [Fintype C] in
theorem update_some_eq_none [DecidableEq C] {col : C → Option R} {i : R} {j j' : C} :
    Function.update col j (some i) j' = none ↔ col j' = none ∧ j' ≠ j := by
  by_cases hjj : j' = j
  · rw [hjj, Function.update_self]
    exact ⟨fun hc => (nomatch hc), fun hc => absurd rfl hc.2⟩
  · rw [Function.update_of_ne hjj]
    exact ⟨fun hc => ⟨hc, hjj⟩, fun hc => hc.1⟩

/-- The count is full when no column is free. -/
theorem card_le_matchedCount {col : C → Option R} :
    Fintype.card C ≤ matchedCount col ↔ ∀ j, col j ≠ none := by
  unfold matchedCount
  constructor
  · intro h j
    have huniv := Finset.eq_univ_of_card _ (le_antisymm (Finset.card_le_univ _) h)
    have hj := (Finset.mem_filter.mp (huniv ▸ Finset.mem_univ j)).2
    exact Option.isSome_iff_ne_none.mp hj
  · intro h
    rw [Finset.filter_true_of_mem fun j _ => Option.isSome_iff_ne_none.mpr (h j), Finset.card_univ]

end Count

/-! ## Perfect matchings -/

/-- With every column matched, and as many rows as columns, the matching is a
    bijection. -/
theorem Paired.equiv [Fintype R] [Fintype C] {row : R → Option C} {col : C → Option R}
    (h : Paired row col) (hcard : Fintype.card C = Fintype.card R) (hfull : ∀ j, col j ≠ none) :
    ∃ σ : C ≃ R, ∀ j, col j = some (σ j) := by
  have hex : ∀ j, ∃ i, col j = some i := fun j => Option.ne_none_iff_exists'.mp (hfull j)
  choose f hf using hex
  have hinj : Function.Injective f := by
    intro j j' heq
    have hj := (h (f j) j).mpr (hf j)
    have hj' := (h (f j) j').mpr (heq ▸ hf j')
    exact Option.some.inj (hj.symm.trans hj')
  have hbij : Function.Bijective f := (Fintype.bijective_iff_injective_and_card f).mpr ⟨hinj, hcard⟩
  exact ⟨Equiv.ofBijective f hbij, hf⟩

end Lib
end SmfSolver
