/-
  SmfSolver.Solve.LayoutForward

  The forward solve over the layout of a tree-parallel factorization.

  1. `frontAt`: a step leads to its front.
  2. `layout_of_stands`: the layout is one that the parallel solve can rely on.
  3. `layout_forward`: so neither the schedule of the factorization nor that of the solve
     shows in the solution: it is that of the fronts in the order of the supernodes.
-/
import SmfSolver.Parallel.LayoutRows
import SmfSolver.Solve.ParallelForwardSpec

namespace SmfSolver
namespace Solve

open Lib
open Multifrontal (AssemblyTree Below)
open Finset (range sum_congr)

variable {F : Type} [Field F]

/-! ## The factor of a layout -/

/-- The arrays that a solve reads are those of the layout. -/
structure ParallelKeep.OfLayout (fk : ParallelKeep F) (L : Parallel.SolveLayout F) : Prop where
  steps : fk.solveSteps =
    L.solveSteps.map fun step => ⟨step.rowOffset, step.factorOffset, step.p, step.f⟩
  rows : ∀ i r : ℕ, L.solveRowIndices[i]? = some r → fk.solveRowIndices i = r
  values : ∀ (i : ℕ) (v : F), L.factorValues[i]? = some v → fk.factorValues i = v
  subtrees : fk.solveSubtrees = L.solveSubtrees
  topBegin : fk.solveTopBegin = L.solveTopBegin
  topParent : fk.solveTopParent = L.solveTopParent
  topRows : fk.solveTopRows = L.solveTopRows
  topSlot : fk.solveTopSlot = (List.range fk.n).map L.solveTopSlot

/-- No zero on the diagonal of a front that is divided by it, and a cached inverse is the
    inverse. -/
def FactorKeep.Regular (fk : FactorKeep F) : Prop :=
  ∀ k < fk.solveSteps.length, (∀ i < (fk.front k).p, diagOf fk.isPosdef (fk.front k).L i ≠ 0) ∧
    ∀ inv, (fk.front k).inv = some inv → ∀ i < (fk.front k).p, ∀ j < (fk.front k).p,
      (∑ l ∈ range i, (fk.front k).L i l * inv l j) +
        diagOf fk.isPosdef (fk.front k).L i * inv i j = if i = j then 1 else 0

/-- A front as it was stored. -/
def storedFront (runs : ℕ → Option (Parallel.FrontRun F)) (s : ℕ) : Front F :=
  match runs s with
  | some run =>
    { rows := fun i => run.out.rows.getD i 0
      L := fun i j => run.out.panel.getD (j * run.out.rows.length + i) 0
      inv := none
      p := run.out.p
      f := run.out.rows.length }
  | none => ⟨fun _ => 0, fun _ _ => 0, none, 0, 0⟩

/-- Two fronts with the same rows and the same columns of `L`. -/
structure Front.Agrees (F₁ F₂ : Front F) : Prop where
  p_eq : F₁.p = F₂.p
  f_eq : F₁.f = F₂.f
  rows : ∀ i < F₁.f, F₁.rows i = F₂.rows i
  L : ∀ i < F₁.f, ∀ j < F₁.p, F₁.L i j = F₂.L i j

/-- The front has these pivot rows, and its rows, all different, are among these. -/
structure Front.RowsAre (F₁ : Front F) (pivots rows : List ℕ) : Prop where
  p_le : F₁.p ≤ F₁.f
  mem : ∀ i < F₁.f, F₁.rows i ∈ rows
  inj : ∀ i < F₁.f, ∀ j < F₁.f, F₁.rows i = F₁.rows j → i = j
  pivot : ∀ r, r ∈ pivots ↔ ∃ i < F₁.p, F₁.rows i = r

section Agrees

variable {F₁ F₂ : Front F} {posdef : Bool} {y : ℕ → F} {r : ℕ}

theorem Front.Agrees.row_eq (h : F₁.Agrees F₂) (hp : F₁.p ≤ F₁.f) :
    F₁.row posdef y r = F₂.row posdef y r := by
  rw [Front.row, Front.row, ← h.f_eq]
  refine sum_congr rfl fun i hi => ?_
  have hi := Finset.mem_range.mp hi
  rw [← h.rows i hi, ← h.p_eq]
  congr 1
  refine sum_congr rfl fun j hj => ?_
  have hj := Finset.mem_range.mp hj
  have hdiag : diagOf posdef F₁.L j = diagOf posdef F₂.L j := by
    unfold diagOf
    rw [h.L j (hj.trans_le hp) j hj]
  rw [← h.rows j (hj.trans_le hp), Front.coef, Front.coef, h.L i hi j hj]
  split_ifs with hij
  · rw [hij, hdiag]
  · rfl
  · rfl

omit [Field F] in
theorem Front.Agrees.rowsAre (h : F₁.Agrees F₂) {pivots rows : List ℕ}
    (hr : F₂.RowsAre pivots rows) : F₁.RowsAre pivots rows := by
  obtain ⟨hp, hmem, hinj, hpivot⟩ := hr
  rw [← h.p_eq, ← h.f_eq] at hp
  rw [← h.f_eq] at hmem hinj
  refine ⟨hp, fun i hi => ?_, fun i hi j hj he => ?_, fun r => ?_⟩
  · rw [h.rows i hi]
    exact hmem i hi
  · rw [h.rows i hi, h.rows j hj] at he
    exact hinj i hi j hj he
  · rw [hpivot, ← h.p_eq]
    refine exists_congr fun i => and_congr_right fun hi => ?_
    rw [h.rows i (hi.trans_le hp)]

end Agrees

section Fronts

variable {T : AssemblyTree} {P : Parallel.Partition T} {n k s : ℕ}
  {runs : ℕ → Option (Parallel.FrontRun F)} {order : List ℕ} {L : Parallel.SolveLayout F}
  {fk : ParallelKeep F}

/-- The step of a front. -/
theorem frontAt (h : L.Stands P n runs order) (hfk : fk.OfLayout L) (hk : order[k]? = some s) :
    (fk.front k).Agrees (storedFront runs s) := by
  obtain ⟨step, run, hstep, hrun, hp, hf, hrows, hvalues⟩ := h.reads k s hk
  have hget : fk.solveSteps.getD k ⟨0, 0, 0, 0⟩ =
      ⟨step.rowOffset, step.factorOffset, step.p, step.f⟩ := by
    rw [List.getD_eq_getElem?_getD, hfk.steps, List.getElem?_map, hstep]
    rfl
  obtain ⟨-, hle⟩ := h.rows s run hrun
  rw [FactorKeep.front, hget, storedFront, hrun]
  refine ⟨hp, hf, fun i hi => ?_, fun i hi j hj => ?_⟩
  · have hlen : i < run.out.rows.length := hf ▸ hi
    have hrow := hrows i hi
    rw [List.getElem?_eq_getElem hlen] at hrow
    show fk.solveRowIndices (step.rowOffset + i) = run.out.rows.getD i 0
    rw [hfk.rows _ _ hrow, List.getD_eq_getElem?_getD, List.getElem?_eq_getElem hlen,
      Option.getD_some]
  · have hi : i < step.f := hi
    have hj : j < step.p := hj
    have hcell : j * step.f + i < step.f * step.p := by
      -- column-major: column `j` starts at `j * f`
      calc j * step.f + i < j * step.f + step.f := Nat.add_lt_add_left hi _
        _ = (j + 1) * step.f := (Nat.succ_mul j step.f).symm
        _ ≤ step.p * step.f := Nat.mul_le_mul_right _ hj
        _ = step.f * step.p := Nat.mul_comm _ _
    have hlen : j * step.f + i < run.out.panel.length := by
      rw [run.out.panel_length, ← hf, ← hp]
      exact hcell
    have hvalue := hvalues _ hcell
    rw [List.getElem?_eq_getElem hlen] at hvalue
    show fk.factorValues (step.factorOffset + j * step.f + i) =
      run.out.panel.getD (j * run.out.rows.length + i) 0
    rw [Nat.add_assoc, hfk.values _ _ hvalue, List.getD_eq_getElem?_getD, ← hf,
      List.getElem?_eq_getElem hlen, Option.getD_some]

/-- What a stored front has in its rows. -/
theorem storedFront_rows (h : L.Stands P n runs order) (hs : s < T.ns) :
    (storedFront runs s).RowsAre (Parallel.pivotRows runs s)
      (Factor.rowsOf T (Parallel.pivotRows runs) (Parallel.delayedRowsOf runs) s) := by
  obtain ⟨k, hk⟩ := h.valid.exists_index hs
  obtain ⟨step, run, -, hrun, -⟩ := h.reads k s hk
  obtain ⟨hrows, hle⟩ := h.rows s run hrun
  have hnodup := h.flow.nodup hs
  rw [← hrows] at hnodup ⊢
  have hget : ∀ {i : ℕ} (hi : i < run.out.rows.length), run.out.rows.getD i 0 = run.out.rows[i] :=
    fun hi => by rw [List.getD_eq_getElem?_getD, List.getElem?_eq_getElem hi, Option.getD_some]
  simp only [storedFront, Parallel.pivotRows, hrun]
  refine ⟨hle, fun i hi => ?_, fun i hi j hj he => ?_, fun r => ?_⟩
  · dsimp only
    rw [hget hi]
    exact List.getElem_mem hi
  · dsimp only at he
    rw [hget hi, hget hj] at he
    exact (hnodup.getElem_inj_iff).mp he
  · constructor
    · intro hr
      obtain ⟨i, hi, rfl⟩ := List.mem_take_iff_getElem.mp hr
      have hi := Nat.lt_min.mp hi
      exact ⟨i, hi.1, hget hi.2⟩
    · rintro ⟨i, hi, rfl⟩
      dsimp only
      rw [hget (hi.trans_le hle)]
      exact List.mem_take_iff_getElem.mpr ⟨i, Nat.lt_min.mpr ⟨hi, hi.trans_le hle⟩, rfl⟩

omit [Field F] in
theorem length_steps (h : L.Stands P n runs order) (hfk : fk.OfLayout L) :
    fk.solveSteps.length = order.length := by
  have hlen := congrArg List.length h.valid.fronts
  rw [Parallel.FactorKeep.fronts, List.length_map, List.length_map, List.length_map] at hlen
  rw [hfk.steps, List.length_map, hlen]

/-- A step's front has the rows of its supernode. -/
theorem rowsAt (h : L.Stands P n runs order) (hfk : fk.OfLayout L) (hk : order[k]? = some s) :
    (fk.front k).RowsAre (Parallel.pivotRows runs s)
      (Factor.rowsOf T (Parallel.pivotRows runs) (Parallel.delayedRowsOf runs) s) :=
  (frontAt h hfk hk).rowsAre (storedFront_rows h (h.valid.lt_ns hk))

omit [Field F] in
theorem exists_node (h : L.Stands P n runs order) (hfk : fk.OfLayout L)
    (hk : k < fk.solveSteps.length) : ∃ s, order[k]? = some s :=
  ⟨_, List.getElem?_eq_getElem (length_steps h hfk ▸ hk)⟩

omit [Field F] in
theorem lt_steps (h : L.Stands P n runs order) (hfk : fk.OfLayout L) (hk : order[k]? = some s) :
    k < fk.solveSteps.length :=
  length_steps h hfk ▸ (List.getElem?_eq_some_iff.mp hk).1

omit [Field F] in
/-- A front that has a pivot row of another front does not stand behind it. -/
theorem le_of_pivot (h : L.Stands P n runs order) {k' s' r : ℕ} (hk : order[k]? = some s)
    (hk' : order[k']? = some s') (hr : r ∈ Parallel.pivotRows runs s)
    (hr' : r ∈ Factor.rowsOf T (Parallel.pivotRows runs) (Parallel.delayedRowsOf runs) s') :
    k' ≤ k := by
  rcases h.flow.above_of_row (h.valid.lt_ns hk) (h.valid.lt_ns hk') hr' hr with rfl | hbelow
  · exact (h.valid.index_unique hk' hk).le
  · exact (h.valid.lt_of_below hk' hk hbelow).le

/-! ## The layout that a solve relies on -/

theorem steps_wellOrdered (h : L.Stands P n runs order) (hfk : fk.OfLayout L) (hreg : fk.Regular) :
    WellOrdered fk.isPosdef n ((List.range fk.solveSteps.length).map fk.front) where
  good G hG := by
    obtain ⟨k, hk, rfl⟩ := List.mem_map.mp hG
    have hk := List.mem_range.mp hk
    obtain ⟨s, hs⟩ := exists_node h hfk hk
    have hrows := rowsAt h hfk hs
    obtain ⟨hdiag, hinv⟩ := hreg k hk
    exact ⟨hrows.p_le, hrows.inj, hdiag, hinv⟩
  lt_n G hG i hi := by
    obtain ⟨k, hk, rfl⟩ := List.mem_map.mp hG
    obtain ⟨s, hs⟩ := exists_node h hfk (List.mem_range.mp hk)
    obtain ⟨t, ht, -, hpivot⟩ := h.flow.pivot_above (h.valid.lt_ns hs) ((rowsAt h hfk hs).mem i hi)
    exact h.flow.lt_n ht hpivot
  complete r hr := by
    obtain ⟨s, hs, hpivot⟩ := h.flow.exists_pivot hr
    obtain ⟨k, hk⟩ := h.valid.exists_index hs
    exact ⟨fk.front k, List.mem_map_of_mem (List.mem_range.mpr (lt_steps h hfk hk)),
      ((rowsAt h hfk hk).pivot r).mp hpivot⟩
  later := by
    -- a later step cannot own a pivot that an earlier one holds as a row
    refine List.pairwise_map.mpr (List.pairwise_iff_getElem.mpr fun k k' hk hk' hlt => ?_)
    rw [List.length_range] at hk hk'
    simp only [List.getElem_range]
    intro i hi j hj he
    obtain ⟨s, hs⟩ := exists_node h hfk hk
    obtain ⟨s', hs'⟩ := exists_node h hfk hk'
    have hpivot := ((rowsAt h hfk hs).pivot _).mpr ⟨i, hi, rfl⟩
    have hrow := (rowsAt h hfk hs').mem j hj
    rw [he] at hrow
    exact absurd hlt (not_lt.mpr (le_of_pivot h hs hs' hpivot hrow))

omit [Field F] in
/-- A row has a slot exactly when the top part pivots it. -/
theorem topSlot_iff (h : L.Stands P n runs order) (hfk : fk.OfLayout L) (hn : fk.n = n)
    (r i : ℕ) : fk.topSlot r = some i ↔ L.solveTopRows[i]? = some r := by
  rw [ParallelKeep.topSlot, hfk.topSlot, List.getD_eq_getElem?_getD, List.getElem?_map,
    ← h.valid.top_slot r i]
  rcases Nat.lt_or_ge r fk.n with hlt | hge
  · rw [List.getElem?_range hlt]
    rfl
  · rw [List.getElem?_eq_none (by rw [List.length_range]; exact hge)]
    refine iff_of_false (Option.some_ne_none i).symm fun hslot => ?_
    -- no row past the last one is a pivot
    have hmem := List.mem_of_getElem? ((h.valid.top_slot r i).mp hslot)
    rw [h.valid.top_rows] at hmem
    obtain ⟨s, hs, hr⟩ := List.mem_flatMap.mp hmem
    obtain ⟨k, hk⟩ := List.mem_iff_getElem?.mp (List.mem_of_mem_drop hs)
    have hrn := h.flow.lt_n (h.valid.lt_ns hk) hr
    omega

theorem topRows_iff (h : L.Stands P n runs order) (hfk : fk.OfLayout L) (r : ℕ) :
    r ∈ L.solveTopRows ↔ ∃ k, L.solveTopBegin ≤ k ∧ k < fk.solveSteps.length ∧
      ∃ i < (fk.front k).p, (fk.front k).rows i = r := by
  rw [h.valid.top_rows, List.mem_flatMap]
  constructor
  · rintro ⟨s, hs, hr⟩
    obtain ⟨j, hj⟩ := List.mem_iff_getElem?.mp hs
    rw [List.getElem?_drop] at hj
    exact ⟨_, Nat.le_add_right .., lt_steps h hfk hj, ((rowsAt h hfk hj).pivot r).mp hr⟩
  · rintro ⟨k, hlo, hk, hpivot⟩
    obtain ⟨s, hs⟩ := exists_node h hfk hk
    refine ⟨s, List.mem_of_getElem? (i := k - L.solveTopBegin) ?_,
      ((rowsAt h hfk hs).pivot r).mpr hpivot⟩
    rw [List.getElem?_drop, Nat.add_sub_cancel' hlo, hs]

/-- A range has the pivots of its rows, but for those of the top part. -/
theorem range_within (h : L.Stands P n runs order) (hfk : fk.OfLayout L) (hn : fk.n = n)
    {r : ℕ × ℕ} (hr : r ∈ L.solveSubtrees) (hlo : r.1 ≤ k) (hhi : k < r.2)
    (hk : k < fk.solveSteps.length) {i : ℕ} (hi : i < (fk.front k).f)
    (hslot : fk.topSlot ((fk.front k).rows i) = none) : ∃ k', r.1 ≤ k' ∧ k' < r.2 ∧
      ∃ j < (fk.front k').p, (fk.front k').rows j = (fk.front k).rows i := by
  obtain ⟨s, hs⟩ := exists_node h hfk hk
  obtain ⟨t, ht, hup, hpivot⟩ :=
    h.flow.pivot_above (h.valid.lt_ns hs) ((rowsAt h hfk hs).mem i hi)
  obtain ⟨k', hk'⟩ := h.valid.exists_index ht
  have hplace := ((rowsAt h hfk hk').pivot _).mp hpivot
  have hbelow : k' < L.solveTopBegin := by
    by_contra hge
    have htop := (topRows_iff h hfk _).mpr ⟨k', not_lt.mp hge, lt_steps h hfk hk', hplace⟩
    obtain ⟨q, hq⟩ := List.mem_iff_getElem?.mp htop
    rw [(topSlot_iff h hfk hn _ q).mpr hq] at hslot
    exact Option.some_ne_none q hslot
  obtain ⟨r', hr', hlo', hhi'⟩ := h.valid.exists_range hbelow
  -- the range of the pivot's front has the fronts below it
  have hsame : r = r' := by
    rcases hup with rfl | hup
    · obtain rfl := h.valid.index_unique hs hk'
      exact h.valid.range_unique hr hr' hlo hhi hlo' hhi'
    · obtain ⟨q, hq, hqlo, hqhi⟩ := h.valid.range_below hr' hlo' hhi' hk' hup
      obtain rfl := h.valid.index_unique hs hq
      exact h.valid.range_unique hr hr' hlo hhi hqlo (hqhi.trans hhi')
  subst hsame
  exact ⟨k', hlo', hhi', hplace⟩

/-- The layout of a tree-parallel factorization is one that a parallel solve can rely on. -/
theorem layout_of_stands (h : L.Stands P n runs order) (hfk : fk.OfLayout L) (hn : fk.n = n)
    (hreg : fk.Regular) : fk.Layout where
  ordered := hn.symm ▸ steps_wellOrdered h hfk hreg
  top_le := by
    rw [hfk.topBegin, length_steps h hfk]
    exact h.top_le
  covers := by
    rw [hfk.subtrees, hfk.topBegin]
    exact h.valid.covers
  within r hr k hlo hhi i hi hslot := by
    rw [hfk.subtrees] at hr
    have hend := (h.valid.closed r hr).2.1
    have hk : k < fk.solveSteps.length := by
      rw [length_steps h hfk]
      exact (hhi.trans_le hend).trans_le h.top_le
    exact range_within h hfk hn hr hlo hhi hk hi hslot
  slots r i := by
    rw [hfk.topRows]
    exact topSlot_iff h hfk hn r i
  top_rows r := by
    rw [hfk.topRows, hfk.topBegin]
    exact topRows_iff h hfk r
  ancestors := by
    rintro ⟨i, hi⟩ ⟨j, hj⟩ hne ⟨a, ha, b, hb, he⟩
    have hlast : ∀ i < fk.topSteps, L.solveTopBegin + i < fk.solveSteps.length := fun i hi =>
      Nat.add_lt_of_lt_sub' (hfk.topBegin ▸ hi)
    dsimp only at ha hb he
    rw [hfk.topBegin] at ha hb he
    obtain ⟨s, hs⟩ := exists_node h hfk (hlast i hi)
    obtain ⟨t, ht⟩ := exists_node h hfk (hlast j hj)
    have hrow := (rowsAt h hfk hs).mem a ha
    have hpivot := ((rowsAt h hfk ht).pivot _).mpr ⟨b, hb, rfl⟩
    rw [← he] at hpivot
    -- a row of `s` that is a pivot of `t`: the tree has `t` above `s`
    have hbelow : Below T.parent s t := by
      refine (h.flow.above_of_row (h.valid.lt_ns ht) (h.valid.lt_ns hs) hrow hpivot).resolve_left ?_
      rintro rfl
      have hsame := h.valid.index_unique hs ht
      exact hne (Fin.ext (Nat.add_left_cancel hsame))
    obtain ⟨j', hj', hpath⟩ := h.valid.top_above (i := i) (by rwa [List.getElem?_drop]) hbelow
    rw [List.getElem?_drop] at hj'
    obtain rfl := Nat.add_left_cancel (h.valid.index_unique hj' ht)
    clear hne ha hb he hs ht hrow hpivot hbelow hj'
    -- the path of the tree is one of the parent links of the solve
    induction hpath using Relation.TransGen.head_induction_on with
    | single hedge =>
      refine .single ?_
      show fk.solveTopParent[_]? = _
      rw [hfk.topParent]
      exact hedge.1
    | head hedge hpath ih =>
      have hlt := Parallel.SolveLayout.lt_of_path hpath
      refine .head ?_ (ih (hlt.trans hj))
      show fk.solveTopParent[_]? = _
      rw [hfk.topParent]
      exact hedge.1

/-! ## The solution -/

theorem stored_wellOrdered (h : L.Stands P n runs order) (hfk : fk.OfLayout L) (hreg : fk.Regular) :
    WellOrdered fk.isPosdef n ((List.range T.ns).map (storedFront runs)) where
  good G hG := by
    obtain ⟨s, hs, rfl⟩ := List.mem_map.mp hG
    have hs := List.mem_range.mp hs
    have hrows := storedFront_rows h hs
    obtain ⟨k, hk⟩ := h.valid.exists_index hs
    have hsame := frontAt h hfk hk
    refine ⟨hrows.p_le, hrows.inj, fun i hi => ?_, fun inv hinv => ?_⟩
    · have hip : i < (fk.front k).p := hsame.p_eq ▸ hi
      have hif := hip.trans_le (rowsAt h hfk hk).p_le
      have hdiag := (hreg k (lt_steps h hfk hk)).1 i hip
      unfold diagOf at hdiag ⊢
      rwa [hsame.L i hif i hip] at hdiag
    -- a front as the factorization stores it has no inverse
    · have hnone : (storedFront runs s).inv = none := by
        rw [storedFront]
        split <;> rfl
      rw [hnone] at hinv
      cases hinv
  lt_n G hG i hi := by
    obtain ⟨s, hs, rfl⟩ := List.mem_map.mp hG
    have hs := List.mem_range.mp hs
    obtain ⟨t, ht, -, hpivot⟩ := h.flow.pivot_above hs ((storedFront_rows h hs).mem i hi)
    exact h.flow.lt_n ht hpivot
  complete r hr := by
    obtain ⟨s, hs, hpivot⟩ := h.flow.exists_pivot hr
    exact ⟨_, List.mem_map_of_mem (List.mem_range.mpr hs),
      ((storedFront_rows h hs).pivot r).mp hpivot⟩
  later := by
    refine List.pairwise_map.mpr (List.pairwise_lt_range.imp_of_mem fun {s t} hs ht hlt => ?_)
    have hs := List.mem_range.mp hs
    have ht := List.mem_range.mp ht
    intro i hi j hj he
    have hpivot := ((storedFront_rows h hs).pivot _).mpr ⟨i, hi, rfl⟩
    have hrow := (storedFront_rows h ht).mem j hj
    rw [he] at hrow
    -- the row's front is at or below its owner, and postorder puts descendants first
    rcases h.flow.above_of_row hs ht hrow hpivot with rfl | hbelow
    · exact lt_irrefl _ hlt
    · have hpost := AssemblyTree.range_split hs ▸ T.postorder
      exact lt_asymm hlt (List.mem_range.mp (hpost.mem_of_below hbelow))

/-- The steps' fronts and the stored fronts have the same equations. -/
theorem multiplies_iff (h : L.Stands P n runs order) (hfk : fk.OfLayout L) (hreg : fk.Regular)
    {x y : ℕ → F} :
    Multiplies fk.isPosdef ((List.range fk.solveSteps.length).map fk.front) y x ↔
      Multiplies fk.isPosdef ((List.range T.ns).map (storedFront runs)) y x := by
  have hN := length_steps h hfk
  have hsum : ∀ r, rowSum fk.isPosdef ((List.range fk.solveSteps.length).map fk.front) y r =
      rowSum fk.isPosdef ((List.range T.ns).map (storedFront runs)) y r := by
    intro r
    have hlist : ((List.range fk.solveSteps.length).map fk.front).map
        (fun G => G.row fk.isPosdef y r) =
        order.map fun s => (storedFront runs s).row fk.isPosdef y r := by
      apply List.ext_getElem
      · rw [List.length_map, List.length_map, List.length_map, List.length_range, hN]
      · intro k hk hk'
        rw [List.length_map] at hk'
        simp only [List.getElem_map, List.getElem_range]
        have hget : order[k]? = some order[k] := List.getElem?_eq_getElem hk'
        exact (frontAt h hfk hget).row_eq (rowsAt h hfk hget).p_le
    rw [rowSum, hlist, rowSum, List.map_map]
    exact (h.valid.perm.map _).sum_eq
  have hpivots : ∀ r, Pivot ((List.range fk.solveSteps.length).map fk.front) r ↔
      Pivot ((List.range T.ns).map (storedFront runs)) r := fun r =>
    (steps_wellOrdered h hfk hreg).pivot_iff.trans (stored_wellOrdered h hfk hreg).pivot_iff.symm
  unfold Multiplies
  simp only [hsum, hpivots]

end Fronts

/-- Outside deterministic mode, whatever the schedule of a tree-parallel factorization was, a
    parallel solve can rely on the layout that it leaves; and whatever the schedule of the
    solve is, `solve_forward` over it leaves what the fronts of the supernodes leave in the
    supernodes' order. -/
theorem layout_forward {T : AssemblyTree} {n : ℕ} (P : Parallel.Partition T)
    (hT : Factor.Covers T n) (hC : Factor.Contained T) (Ks : Parallel.FrontKernels T F)
    (hK : Ks.KeepsBelow) (C : Parallel.FrontConfig F) (E : Parallel.FrontLimits) (threads : ℕ)
    (J : Type) [DecidableEq J] (runs : ℕ → Option (Parallel.FrontRun F))
    (L : Parallel.SolveLayout F) (h : (Ks.config C).Lays P E threads J runs L)
    (fk : ParallelKeep F) (hfk : fk.OfLayout L) (hn : fk.n = n) (hreg : fk.Regular) :
    fk.Layout ∧ ∀ (ak : AnalysisKeep) (numThreads : ℕ) (permute : Bool) {m : ℕ}
      (B X : Fin m → ℕ → F), SolveForward fk ak numThreads permute B X → ∀ c,
        X c = ((List.range T.ns).map (storedFront runs)).foldl (forwardFront fk.isPosdef)
          (if permute then fk.permuted (B c) else B c) := by
  obtain ⟨order, hst⟩ := Parallel.stands_of_lays hT hC hK h
  have hl := layout_of_stands hst hfk hn hreg
  have hstored := stored_wellOrdered hst hfk hreg
  have hs : fk.solveSteps ≠ [] := by
    intro hnil
    have hlen := length_steps hst hfk
    rw [hnil] at hlen
    exact hst.ne_nil (List.eq_nil_of_length_eq_zero hlen.symm)
  refine ⟨hl, fun ak numThreads permute m B X hrun c => ?_⟩
  have hmul := solveForward_multiplies hl hs hrun c
  rw [multiplies_iff hst hfk hreg] at hmul
  exact ((foldl_eq_iff hstored.good hstored.later).mpr hmul).symm

/-! ## Two leaves and their parent -/

/-- Every column is accepted where it stands. -/
theorem inOrder_perm (l : List ℕ) : ((List.range (l.map ((↑) : ℕ → ℤ)).length).map fun c =>
    ((l.getD c 0 : ℕ) : ℤ)).Perm (l.map (↑)) := by
  refine .of_eq (List.ext_getElem (by rw [List.length_map, List.length_range]) fun c hc hc' => ?_)
  rw [List.length_map] at hc'
  rw [List.getElem_map, List.getElem_map, List.getElem_range, List.getD_eq_getElem?_getD,
    List.getElem?_eq_getElem hc', Option.getD_some]

theorem inOrder_tagged (k : ℕ) : Kernel.Tagged (fun _ => 1) k := fun _ _ => .inl rfl

def inOrder (l : List ℕ) : Factor.KernelPivots (l.map ((↑) : ℕ → ℤ)) where
  rows c := (l.getD c 0 : ℕ)
  tags _ := 1
  numAccepted := l.length
  accepted_le := (List.length_map _).ge
  perm := inOrder_perm l
  tagged := inOrder_tagged _

/-- Unit lower columns, one half below the diagonal. -/
def halves : Parallel.FrontKernels Parallel.forkTree ℚ where
  pivots a := inOrder (Parallel.eligibleOf Parallel.forkTree a.s a.kids)
  below a := Factor.belowRows Parallel.forkTree a.s
  panel _ k := if k = 0 then 1 else 1 / 2
  diag _ := []
  values _ := []

/-- Settings outside deterministic mode, without a delay budget. -/
def plainSettings : Parallel.FrontConfig ℚ where
  det := false
  tilesOn := false
  callBlas := 1
  delayBudget := -1
  fallbackStatic := false
  kernel s _ _ _ _ :=
    { p := 1, rows := [s], panel := [1], diag := [], panel_length := rfl, accepted := 1
      contribution := {} }

/-- The arrays of a layout, without cached inverses. -/
def ofLayout (L : Parallel.SolveLayout F) (n : ℕ)
    (h : ∀ i j : ℕ, L.solveTopParent[i]? = some (some j) → i < j) : ParallelKeep F where
  isPosdef := false
  n := n
  iperm := id
  factorValues off := L.factorValues.getD off 0
  factorColPtr _ := 0
  solveSteps := L.solveSteps.map fun step => ⟨step.rowOffset, step.factorOffset, step.p, step.f⟩
  solveRowIndices i := L.solveRowIndices.getD i 0
  invDiag _ := 0
  solveSubtrees := L.solveSubtrees
  solveTopBegin := L.solveTopBegin
  solveTopParent := L.solveTopParent
  solveTopRows := L.solveTopRows
  solveTopSlot := (List.range n).map L.solveTopSlot
  solveThreads := 2
  parent_lt := h

section OfLayout

variable {L : Parallel.SolveLayout F} {n : ℕ}
  {h : ∀ i j : ℕ, L.solveTopParent[i]? = some (some j) → i < j}

theorem ofLayout_ofLayout : (ofLayout L n h).OfLayout L where
  steps := rfl
  rows i r hi := by
    show L.solveRowIndices.getD i 0 = r
    rw [List.getD_eq_getElem?_getD, hi, Option.getD_some]
  values i v hi := by
    show L.factorValues.getD i 0 = v
    rw [List.getD_eq_getElem?_getD, hi, Option.getD_some]
  subtrees := rfl
  topBegin := rfl
  topParent := rfl
  topRows := rfl
  topSlot := rfl

theorem ofLayout_regular : (ofLayout L n h).Regular := by
  intro k hk
  have hinv : ((ofLayout L n h).front k).inv = none := by
    rw [FactorKeep.front, FactorKeep.stepFront]
    dsimp only
    refine if_neg fun hlen => ?_
    rw [← hlen] at hk
    exact Nat.not_lt_zero k hk
  refine ⟨fun i _ => one_ne_zero, fun inv he => ?_⟩
  rw [hinv] at he
  cases he

end OfLayout

theorem forkTree_contained : Factor.Contained Parallel.forkTree where
  nodup := by decide
  parent s hs r hr := by
    have hcases : ∀ s < 3, ∀ r ∈ Factor.belowRows Parallel.forkTree s, s < 2 ∧ r = 2 := by decide
    obtain ⟨hlt, rfl⟩ := hcases s hs r hr
    refine ⟨2, if_pos hlt, ?_⟩
    exact List.mem_singleton_self 2

theorem layout_forward_fork : ∃ runs L, ∃ fk : ParallelKeep ℚ,
    (halves.config plainSettings).Lays Parallel.forkTasks Parallel.noWork.disarm 2 Unit runs L ∧
      fk.OfLayout L ∧ fk.Layout ∧ ∀ (ak : AnalysisKeep) (numThreads : ℕ) (permute : Bool) {m : ℕ}
        (B X : Fin m → ℕ → ℚ), SolveForward fk ak numThreads permute B X → ∀ c,
          X c = ((List.range 3).map (storedFront runs)).foldl (forwardFront fk.isPosdef)
            (if permute then fk.permuted (B c) else B c) := by
  obtain ⟨tr, s, hrun, hret, htally⟩ := Parallel.forkTasks_subtrees
  obtain ⟨tr', s', hrun', hdone, hok'⟩ := Parallel.forkTasks_top
  have hstores := Parallel.FrontConfig.Stores.top (C := halves.config plainSettings) rfl le_rfl 0
    rfl hrun hret (by rw [htally]; rfl) (by decide) ⟨fun _ => 0, fun _ => 1⟩ (htally.symm ▸ hrun')
    hdone hok'
  obtain ⟨sorted, hsort⟩ := Parallel.exists_sortedByWork _ _
  have hlays := Parallel.FrontConfig.Lays.mk hstores hsort
  obtain ⟨order, hst⟩ := Parallel.stands_of_lays Parallel.forkTree_covers forkTree_contained
    (fun _ => rfl) hlays
  have hparent := hst.valid.parent_lt
  obtain ⟨hlayout, hforward⟩ := layout_forward Parallel.forkTasks Parallel.forkTree_covers
    forkTree_contained halves (fun _ => rfl) plainSettings Parallel.noWork.disarm 2 Unit _ _ hlays
    (ofLayout _ 3 hparent) ofLayout_ofLayout rfl ofLayout_regular
  exact ⟨_, _, _, hlays, ofLayout_ofLayout, hlayout, hforward⟩

end Solve
end SmfSolver
