/-
  SmfSolver.Parallel.SolveLayoutSpec

  The solve layout of a tree-parallel factorization is valid.

  * `MergeInput` is what the two phases leave for phase 3 (`mergeInput_of_stores`).
  * `subtreePart_spec`: the subtree steps lead to the fronts of phase 1, and the ranges cut
    them into whole tasks.
  * `topSlots_spec`: distinct rows have their places as slots.
  * `pivotRows_perm`: the pivot rows of all fronts are distinct.

  `solveLayout_valid` puts them together.
-/
import SmfSolver.Parallel.SolveLayoutRuns

namespace SmfSolver
namespace Parallel

open Lib
open Multifrontal (AssemblyTree Below)
open Multifrontal.AssemblyTree (taskFronts mem_taskFronts)

variable {α : Type} {T : AssemblyTree} {threads : ℕ}

/-! ## The pivot rows -/

/-- The columns that a front handed on. -/
def delayedRowsOf (runs : ℕ → Option (FrontRun α)) (s : ℕ) : List ℕ :=
  match runs s with
  | some run => run.out.contribution.delayedRows
  | none => []

section PivotRows

variable {K : FrontKernels T α} {P : Partition T} {dealt : List (Fin threads × ℕ)}
  {st : Store α threads} {n : ℕ}

/-- The columns of single pivots. -/
theorem columns_ones (rows : List ℕ) :
    (rows.map fun r : ℕ => Factor.Pivot.one (r : ℤ)).flatMap Factor.Pivot.columns =
      rows.map (↑) := by
  rw [List.flatMap_map]
  exact List.map_eq_flatMap.symm

theorem map_toNat (rows : List ℕ) : (rows.map ((↑) : ℕ → ℤ)).map Int.toNat = rows := by
  rw [List.map_map]
  exact (List.map_congr_left fun c _ => Int.toNat_natCast c).trans (List.map_id _)

theorem eligibleOf_kidsOf {runs : ℕ → Option (FrontRun α)} {s : ℕ} :
    eligibleOf T s (FrontConfig.kidsOf T runs s) =
      (T.children s).flatMap (delayedRowsOf runs) ++
        (T.frontRows s).take (T.supernodes s).width := by
  rw [eligibleOf, FrontConfig.kidsOf, List.flatMap_map]
  refine congrArg (· ++ _) (List.flatMap_congr fun c _ => ?_)
  rw [delayedRowsOf]
  cases runs c <;> rfl

/-- Every front stores its eligible columns or hands them on. -/
theorem Store.Kept.flow (h : st.Kept K dealt) (hall : ∀ s < T.ns, s ∈ dealt.map Prod.snd) :
    Factor.FlowOf T (fun s => (pivotRows st.runs s).map fun r : ℕ => Factor.Pivot.one (r : ℤ))
      (fun s => (delayedRowsOf st.runs s).map (↑)) where
  takes s hs _ := by
    obtain ⟨run, hrun⟩ := (h.stored s).mp (hall s hs)
    obtain ⟨a, rfl, hkids, hout⟩ := h.ran s run hrun
    have hperm := (FrontKernels.pivots_append_delayed (K := K) (a := a)).map ((↑) : ℕ → ℤ)
    rw [← hout, hkids, eligibleOf_kidsOf, List.map_append, List.map_append, List.map_flatMap]
      at hperm
    have hpivots : pivotRows st.runs a.s = run.out.rows.take run.out.p := by
      rw [pivotRows, hrun]
    have hdelayed : delayedRowsOf st.runs a.s = run.out.contribution.delayedRows := by
      rw [delayedRowsOf, hrun]
    rw [columns_ones, hpivots, hdelayed]
    exact hperm
  root s hs hroot := by
    obtain ⟨run, hrun⟩ := (h.stored s).mp (hall s hs)
    obtain ⟨a, rfl, -, hout⟩ := h.ran s run hrun
    rw [delayedRowsOf, hrun]
    have hnone := FrontKernels.delayedRows_root (K := K) hroot
    rw [← hout] at hnone
    exact congrArg (List.map _) hnone

/-- The pivot rows of the fronts are the columns, each once. -/
theorem Store.Kept.pivotRows_perm (h : st.Kept K dealt) (hT : Factor.Covers T n)
    (hall : ∀ s < T.ns, s ∈ dealt.map Prod.snd) :
    ((List.range T.ns).flatMap (pivotRows st.runs)).Perm (List.range n) := by
  have hperm := ((h.flow hall).pivots_perm hT).map Int.toNat
  rw [map_toNat, List.flatMap_assoc, List.map_flatMap] at hperm
  refine .trans (.of_eq (List.flatMap_congr fun s _ => ?_)) hperm
  rw [columns_ones, map_toNat]

/-- A stored front has at least as many rows as pivots. -/
theorem Store.Kept.p_le_rows (h : st.Kept K dealt) {s : ℕ} (hs : s ∈ dealt.map Prod.snd) :
    (outOf st.runs s).p ≤ (outOf st.runs s).rows.length := by
  obtain ⟨run, hrun⟩ := (h.stored s).mp hs
  obtain ⟨a, -, -, hout⟩ := h.ran s run hrun
  rw [outOf_some hrun, hout]
  exact FrontKernels.p_le_rows

end PivotRows

/-! ## The slots -/

section Slots

variable {rows done : List ℕ} {a : (ℕ → Option ℕ) × List ℕ} {r i : ℕ}

/-- Rows that are not there yet go behind the others, and get their places as slots. -/
theorem foldl_pushTopRow (hnodup : (a.2 ++ rows).Nodup)
    (ha : ∀ r i, a.1 r = some i ↔ a.2[i]? = some r) :
    (rows.foldl pushTopRow a).2 = a.2 ++ rows ∧
      ∀ r i, (rows.foldl pushTopRow a).1 r = some i ↔ (rows.foldl pushTopRow a).2[i]? = some r := by
  induction rows generalizing a with
  | nil => exact ⟨(List.append_nil _).symm, ha⟩
  | cons x rows ih =>
    have happend : a.2 ++ x :: rows = (a.2 ++ [x]) ++ rows := by
      rw [List.append_assoc, List.singleton_append]
    have hx : x ∉ a.2 := fun hc =>
      (List.nodup_append.mp hnodup).2.2 x hc x (List.mem_cons_self ..) rfl
    -- the new row's slot is its place behind the others
    have hpush : ∀ r i, (pushTopRow a x).1 r = some i ↔ (pushTopRow a x).2[i]? = some r := by
      intro r i
      dsimp only [pushTopRow]
      by_cases hrx : r = x
      · subst hrx
        rw [Function.update_self, Option.some.injEq]
        constructor
        · rintro rfl
          exact List.getElem?_concat_length
        · intro hget
          by_contra hne
          rcases Nat.lt_or_gt_of_ne hne with hlt | hgt
          · have hlen : i < (a.2 ++ [r]).length := (List.getElem?_eq_some_iff.mp hget).1
            rw [List.length_append, List.length_singleton] at hlen
            omega
          · rw [List.getElem?_append_left hgt] at hget
            exact hx (List.mem_of_getElem? hget)
      · rw [Function.update_of_ne hrx, ha r i]
        by_cases hlt : i < a.2.length
        · rw [List.getElem?_append_left hlt]
        · rw [List.getElem?_eq_none (not_lt.mp hlt)]
          refine iff_of_false nofun fun hget => ?_
          rw [List.getElem?_append_right (not_lt.mp hlt)] at hget
          exact hrx (List.mem_singleton.mp (List.mem_of_getElem? hget))
    obtain ⟨hrows, hslots⟩ := ih (a := pushTopRow a x) (happend ▸ hnodup) hpush
    exact ⟨hrows.trans happend.symm, hslots⟩

/-- The loop over the steps goes over their pivot rows. -/
theorem topSlots_spec {rowIndices : List ℕ} {steps : List SolveStep}
    (hrows : (steps.flatMap fun step => slice rowIndices step.rowOffset step.p) = rows)
    (hnodup : rows.Nodup) :
    (topSlots rowIndices steps).2 = rows ∧ ∀ r i,
      (topSlots rowIndices steps).1 r = some i ↔ (topSlots rowIndices steps).2[i]? = some r := by
  rw [topSlots, ← List.foldl_flatMap, hrows]
  exact foldl_pushTopRow hnodup fun _ _ => iff_of_false nofun nofun

/-- A front's place in the completion order. -/
theorem topPos_of_getElem? {s j : ℕ} (hnodup : done.Nodup) (hj : done[j]? = some s) :
    topPos done s = some j := by
  refine assign_of_mem ?_ ?_
  · rw [List.map_map]
    exact (List.zipIdx_map_fst 0 done).symm ▸ hnodup
  · exact List.mem_map.mpr ⟨(s, j), List.mem_zipIdx_iff_getElem?.mpr hj, rfl⟩

end Slots

/-! ## Phase 3 -/

/-- What the two phases leave: the fronts of each, dealt to the passes, and the top fronts in
    completion order. -/
structure MergeInput (K : FrontKernels T α) (P : Partition T)
    (first second : List (Fin threads × ℕ))
    (st₁ st : LayoutStore α threads) (done : List ℕ) : Prop where
  kept : st.toStore.Kept K (first ++ second)
  phase1 : ∀ t, (st₁.passes t).steps.length = (dealtTo first t).length
  cut : ∀ t, Cut (IsTaskList P) (dealtTo first t) (st₁.subtreeSteps t)
  tops : ∀ x ∈ done, ∃ t : Fin threads, st.topPass x = t ∧
    (dealtTo (first ++ second) t)[st.topStep x]? = some x
  done_perm : done.Perm P.topNodes
  topological : ∀ pre v post, done = pre ++ v :: post →
    ∀ c ∈ P.topNodes, T.parent c = some v → c ∈ pre
  all : (first.map Prod.snd ++ done).Perm (List.range T.ns)
  ne_nil : first ≠ []

section Merge

variable {K : FrontKernels T α} {P : Partition T} {first second : List (Fin threads × ℕ)}
  {st₁ st : LayoutStore α threads} {done : List ℕ} {sorted : List (ℕ × ℕ)} {t : Fin threads}
  {x n : ℕ}

/-- The fronts in the order of the solve steps. -/
def stepOrder (first : List (Fin threads × ℕ)) (done : List ℕ) : List ℕ :=
  (List.finRange threads).flatMap (dealtTo first) ++ done

theorem getElem?_passes : (List.ofFn st.passes)[t.1]? = some (st.passes t) := by
  rw [List.getElem?_ofFn, dif_pos t.2]

/-- The steps that a pass made in phase 1, relocated, lead to its fronts. -/
theorem MergeInput.front_phase1 (h : MergeInput K P first second st₁ st done) (t : Fin threads) :
    (((st.passes t).steps.take (st₁.passes t).steps.length).map
      (relocated (List.ofFn st.passes) t)).map (merge (List.ofFn st.passes) T.ns).front =
      (dealtTo first t).map (frontOf (outOf st.runs)) := by
  have hholds := h.kept.holds t
  have hfronts : (st.passes t).steps.map (st.passes t).toKeep.front =
      (dealtTo (first ++ second) t).map (frontOf (outOf st.runs)) := hholds.fronts
  rw [List.map_map]
  calc
    _ = ((st.passes t).steps.take (st₁.passes t).steps.length).map (st.passes t).toKeep.front :=
      List.map_congr_left fun step hstep =>
        front_relocated getElem?_passes (hholds.inBounds step (List.mem_of_mem_take hstep))
    _ = _ := by
      rw [List.map_take, hfronts, h.phase1 t, dealtTo_append, List.map_append]
      exact List.take_left' (List.length_map _)

/-- The loop over the passes, after it has put together the fronts `xs`. -/
theorem MergeInput.foldl_pushPass (h : MergeInput K P first second st₁ st done)
    (ts : List (Fin threads)) {a : List SolveStep × List (ℕ × ℕ)} (xs : List ℕ)
    (hsteps : a.1.map (merge (List.ofFn st.passes) T.ns).front =
      xs.map (frontOf (outOf st.runs)))
    (hcut : Cut (IsTaskList P) xs a.2) :
    (ts.foldl (pushPass st₁ st) a).1.map (merge (List.ofFn st.passes) T.ns).front =
        (xs ++ ts.flatMap (dealtTo first)).map (frontOf (outOf st.runs)) ∧
      Cut (IsTaskList P) (xs ++ ts.flatMap (dealtTo first)) (ts.foldl (pushPass st₁ st) a).2 := by
  induction ts generalizing a xs with
  | nil =>
    rw [List.flatMap_nil, List.append_nil]
    exact ⟨hsteps, hcut⟩
  | cons t ts ih =>
    have hlen : a.1.length = xs.length := by
      have hl := congrArg List.length hsteps
      rwa [List.length_map, List.length_map] at hl
    rw [List.flatMap_cons, ← List.append_assoc, List.foldl_cons]
    refine ih _ ?_ ?_
    · rw [pushPass, List.map_append, List.map_append, hsteps, h.front_phase1 t]
    · rw [pushPass, hlen]
      exact hcut.append (h.cut t)

/-- The subtree steps lead to the fronts of phase 1, and the ranges cut them into whole
    tasks. -/
theorem MergeInput.subtreePart_spec (h : MergeInput K P first second st₁ st done) :
    (subtreePart st₁ st).1.map (merge (List.ofFn st.passes) T.ns).front =
        ((List.finRange threads).flatMap (dealtTo first)).map (frontOf (outOf st.runs)) ∧
      Cut (IsTaskList P) ((List.finRange threads).flatMap (dealtTo first))
        (subtreePart st₁ st).2 :=
  h.foldl_pushPass (List.finRange threads) [] (a := ([], [])) rfl cut_nil

/-- The step of a top front. -/
theorem MergeInput.stepOf_top (h : MergeInput K P first second st₁ st done) (hx : x ∈ done) :
    ∃ step, stepOf (List.ofFn st.passes) ⟨x, st.topPass x, st.topStep x⟩ = some step ∧
      (merge (List.ofFn st.passes) T.ns).front step = frontOf (outOf st.runs) x := by
  obtain ⟨t, hpass, hstep⟩ := h.tops x hx
  have hholds := h.kept.holds t
  have hfronts : ((st.passes t).steps.map (st.passes t).toKeep.front)[st.topStep x]? =
      some (frontOf (outOf st.runs) x) := by
    have heq : (st.passes t).steps.map (st.passes t).toKeep.front =
        (dealtTo (first ++ second) t).map (frontOf (outOf st.runs)) := hholds.fronts
    rw [heq, List.getElem?_map, hstep]
    rfl
  rw [List.getElem?_map, Option.map_eq_some_iff] at hfronts
  obtain ⟨step, hk, hfront⟩ := hfronts
  refine ⟨relocated (List.ofFn st.passes) t step, ?_, ?_⟩
  · rw [stepOf, hpass, getElem?_passes, Option.bind_some, hk]
    rfl
  · rw [front_relocated getElem?_passes (hholds.inBounds step (List.mem_of_getElem? hk)), hfront]

/-- The top steps lead to the top fronts. -/
theorem MergeInput.front_top (h : MergeInput K P first second st₁ st done) {xs : List ℕ}
    (hxs : ∀ x ∈ xs, x ∈ done) :
    (xs.filterMap fun x => stepOf (List.ofFn st.passes) ⟨x, st.topPass x, st.topStep x⟩).map
      (merge (List.ofFn st.passes) T.ns).front = xs.map (frontOf (outOf st.runs)) := by
  induction xs with
  | nil => rfl
  | cons x xs ih =>
    obtain ⟨step, hstep, hfront⟩ := h.stepOf_top (hxs x (List.mem_cons_self ..))
    rw [List.filterMap_cons, hstep, List.map_cons, List.map_cons, hfront,
      ih fun z hz => hxs z (List.mem_cons_of_mem _ hz)]

/-- A step's pivot rows are its front's. -/
theorem slice_of_front {F : FactorKeep α} {step : SolveStep} {out : ℕ → FrontFactor α}
    (h : F.front step = frontOf out x) (hle : (out x).p ≤ (out x).rows.length) :
    slice F.solveRowIndices step.rowOffset step.p = (out x).rows.take (out x).p := by
  have hp : step.p = (out x).p := congrArg Prod.fst h
  have hrows : slice F.solveRowIndices step.rowOffset step.f = (out x).rows :=
    congrArg (fun q => q.2.1) h
  have hf : (out x).p ≤ step.f := by
    have hlen := congrArg List.length hrows
    rw [slice, List.length_take] at hlen
    omega
  rw [← hrows, slice, slice, List.take_take, Nat.min_eq_left hf, hp]

theorem ClosedBelow.of_task {l : List ℕ} (h : IsTaskList P l) : ClosedBelow T.parent l := by
  obtain ⟨r, hr, rfl⟩ := h
  intro pre s post hsplit c hc
  obtain ⟨head, sub, rfl, hsub⟩ := (P.isTask r hr).block hsplit
  exact List.mem_append_right _ ((hsub c).mpr hc)

/-- The parent of a top front is a top front. -/
theorem Partition.parent_mem_topNodes {s p : ℕ} (hs : s ∈ P.topNodes) (hp : T.parent s = some p)
    (hlt : p < T.ns) : p ∈ P.topNodes := by
  refine (P.mem_range_or_top hlt).resolve_left fun ⟨r, hr, hpr⟩ => ?_
  -- a task holds whole subtrees
  have htask := P.isTask r hr
  obtain ⟨hlo, hhi⟩ := mem_taskFronts.mp hpr
  have hslt : s < p := T.lt_parent (Partition.mem_topNodes.mp hs).1 hp
  have hin : s ∈ taskFronts r :=
    mem_taskFronts.mpr ⟨htask.whole p hlo hhi s (.single hp), (hslt.trans_le hhi).le⟩
  exact Partition.notMem_topNodes hr hin hs

/-- A top front's parent is completed after it. -/
theorem MergeInput.lt_of_parent (h : MergeInput K P first second st₁ st done) {i s p : ℕ}
    (hi : done[i]? = some s) (hp : T.parent s = some p) (hmem : p ∈ P.topNodes) :
    ∃ j, i < j ∧ done[j]? = some p := by
  obtain ⟨pre, post, hsplit⟩ := List.append_of_mem (h.done_perm.symm.subset hmem)
  have hs : s ∈ pre := h.topological pre p post hsplit s
    (h.done_perm.subset (List.mem_of_getElem? hi)) hp
  have hnodup : done.Nodup := h.done_perm.nodup_iff.mpr Partition.topNodes_nodup
  refine ⟨pre.length, ?_, ?_⟩
  · obtain ⟨k, hk⟩ := List.mem_iff_getElem?.mp hs
    have hkpre : k < pre.length := (List.getElem?_eq_some_iff.mp hk).1
    have hkdone : done[k]? = some s := by rw [hsplit, List.getElem?_append_left hkpre, hk]
    have hik : i = k := (List.getElem?_inj (List.getElem?_eq_some_iff.mp hi).1 hnodup).mp
      (hi.trans hkdone.symm)
    exact hik ▸ hkpre
  · rw [hsplit, List.getElem?_append_right le_rfl, Nat.sub_self, List.getElem?_cons_zero]

theorem MergeInput.length_subtreePart (h : MergeInput K P first second st₁ st done) :
    (subtreePart st₁ st).1.length = ((List.finRange threads).flatMap (dealtTo first)).length := by
  have hlen := congrArg List.length h.subtreePart_spec.1
  rwa [List.length_map, List.length_map] at hlen

theorem MergeInput.drop_stepOrder (h : MergeInput K P first second st₁ st done) :
    (stepOrder first done).drop (subtreePart st₁ st).1.length = done := by
  rw [h.length_subtreePart, stepOrder, List.drop_left]

theorem MergeInput.stepOrder_perm (h : MergeInput K P first second st₁ st done) :
    (stepOrder first done).Perm (List.range T.ns) :=
  (flatMap_dealtTo.append_right done).trans h.all

/-- Every front has a run. -/
theorem MergeInput.run_of_mem (h : MergeInput K P first second st₁ st done)
    (hx : x ∈ stepOrder first done) :
    x ∈ (first ++ second).map Prod.snd ∧ ∃ run, st.runs x = some run := by
  have hmem : x ∈ (first ++ second).map Prod.snd := by
    rcases List.mem_append.mp hx with hx | hx
    · rw [List.map_append]
      exact List.mem_append_left _ (flatMap_dealtTo.subset hx)
    · obtain ⟨t, -, hstep⟩ := h.tops x hx
      exact mem_of_mem_dealtTo (List.mem_of_getElem? hstep)
  exact ⟨hmem, (h.kept.stored x).mp hmem⟩

/-- The pivot rows of the top part are distinct. -/
theorem MergeInput.nodup_pivotRows (h : MergeInput K P first second st₁ st done)
    (hT : Factor.Covers T n) : (done.flatMap (pivotRows st.runs)).Nodup := by
  have hall := h.kept.pivotRows_perm hT fun s hs =>
    (h.run_of_mem (h.stepOrder_perm.symm.subset (List.mem_range.mpr hs))).1
  have hnodup : ((stepOrder first done).flatMap (pivotRows st.runs)).Nodup :=
    ((h.stepOrder_perm.flatMap_right _).trans hall).nodup_iff.mpr List.nodup_range
  rw [stepOrder, List.flatMap_append] at hnodup
  exact (List.nodup_append.mp hnodup).2.1

/-- The loop over the top steps reads the pivot rows of the top fronts. -/
theorem MergeInput.rows_top (h : MergeInput K P first second st₁ st done) {xs : List ℕ}
    (hxs : ∀ x ∈ xs, x ∈ done) :
    ((xs.filterMap fun x => stepOf (List.ofFn st.passes) ⟨x, st.topPass x, st.topStep x⟩).flatMap
      fun step => slice ((List.ofFn st.passes).map (·.sri)).flatten step.rowOffset step.p) =
      xs.flatMap (pivotRows st.runs) := by
  induction xs with
  | nil => rfl
  | cons x xs ih =>
    have hx := hxs x (List.mem_cons_self ..)
    obtain ⟨step, hstep, hfront⟩ := h.stepOf_top hx
    obtain ⟨hmem, run, hrun⟩ := h.run_of_mem (List.mem_append_right _ hx)
    have hrows : slice ((List.ofFn st.passes).map (·.sri)).flatten step.rowOffset step.p =
        (outOf st.runs x).rows.take (outOf st.runs x).p :=
      slice_of_front (F := merge (List.ofFn st.passes) T.ns) hfront (h.kept.p_le_rows hmem)
    rw [List.filterMap_cons, hstep, List.flatMap_cons, List.flatMap_cons, hrows,
      ih fun z hz => hxs z (List.mem_cons_of_mem _ hz), pivotRows, hrun, outOf_some hrun]

/-- There are ranges. -/
theorem MergeInput.sorted_ne_nil (h : MergeInput K P first second st₁ st done)
    (hsort : SortedByWork (subtreePart st₁ st).1 (subtreePart st₁ st).2 sorted) :
    sorted.isEmpty = false := by
  by_contra hc
  have hnil : sorted = [] := List.isEmpty_iff.mp (Bool.not_eq_false _ ▸ hc)
  have hranges : (subtreePart st₁ st).2 = [] := List.nil_perm.mp (hnil ▸ hsort.perm)
  have hcover := h.subtreePart_spec.2.cover
  rw [hranges, List.flatMap_nil] at hcover
  have hperm : ((List.finRange threads).flatMap (dealtTo first)).Perm (first.map Prod.snd) :=
    flatMap_dealtTo
  have hlen := congrArg List.length hcover
  rw [List.length_range, hperm.length_eq, List.length_map] at hlen
  exact h.ne_nil (List.eq_nil_of_length_eq_zero hlen.symm)

/-- Phase 3 makes a valid layout. -/
theorem MergeInput.valid (h : MergeInput K P first second st₁ st done) (hT : Factor.Covers T n)
    (hsort : SortedByWork (subtreePart st₁ st).1 (subtreePart st₁ st).2 sorted) :
    (solveLayout st₁ st T done sorted).Valid P st.runs (stepOrder first done) := by
  obtain ⟨hsteps, hcut⟩ := h.subtreePart_spec
  obtain ⟨hrows, hslots⟩ := topSlots_spec (h.rows_top fun _ => id) (h.nodup_pivotRows hT)
  have hdrop := h.drop_stepOrder
  have hbegin := h.length_subtreePart
  have hdone : done.Nodup := h.done_perm.nodup_iff.mpr Partition.topNodes_nodup
  -- a phase 1 that ran has left a subtree, so the slots are dealt
  have hslotPair : (if sorted.isEmpty then (fun _ => none, []) else
      topSlots ((List.ofFn st.passes).map (·.sri)).flatten
        (done.filterMap fun x => stepOf (List.ofFn st.passes) ⟨x, st.topPass x, st.topStep x⟩)) =
      topSlots ((List.ofFn st.passes).map (·.sri)).flatten
        (done.filterMap fun x => stepOf (List.ofFn st.passes) ⟨x, st.topPass x, st.topStep x⟩) := by
    rw [h.sorted_ne_nil hsort]
    rfl
  refine
    { perm := h.stepOrder_perm
      fronts := ?_
      closed := fun r hr => ?_
      covers := ?_
      top := hdrop.symm ▸ h.done_perm
      top_parent := fun i s hi => ?_
      parent_length := List.length_map _ |>.trans h.done_perm.length_eq
      top_rows := ?_
      top_slot := ?_ }
  · have hall : (solveLayout st₁ st T done sorted).fronts =
        (stepOrder first done).map (frontOf (outOf st.runs)) := by
      rw [stepOrder, List.map_append, ← hsteps, ← h.front_top fun _ => id]
      exact List.map_append
    rw [hall, List.map_map]
    refine List.map_congr_left fun s hs => ?_
    obtain ⟨-, run, hrun⟩ := h.run_of_mem hs
    rw [Function.comp_apply, frontOf, outOf_some hrun, hrun]
    rfl
  · obtain ⟨hle, hend, htask⟩ := hcut.piece r (hsort.perm.subset hr)
    refine ⟨hle, hend.trans_eq hbegin.symm, ?_⟩
    rw [stepOrder, slice_append_left (by omega)]
    exact .of_task htask
  · refine (hsort.perm.flatMap_right _).trans (.of_eq ?_)
    rw [hcut.cover, ← hbegin]
    rfl
  -- a parent is done after its children, so it stands later in the list
  · have hi' : done[i]? = some s := hdrop ▸ hi
    have hs : s ∈ P.topNodes := h.done_perm.subset (List.mem_of_getElem? hi')
    have hparent : (solveLayout st₁ st T done sorted).solveTopParent[i]? =
        some ((T.parent s).bind (topPos done)) := by
      rw [solveLayout, List.getElem?_map, hi']
      rfl
    cases hp : T.parent s with
    | none => exact .inl ⟨rfl, by rw [hparent, hp]; rfl⟩
    | some p =>
      have hlt := hT.parent_lt s (Partition.mem_topNodes.mp hs).1 p hp
      obtain ⟨j, hij, hj⟩ :=
        h.lt_of_parent hi' hp (Partition.parent_mem_topNodes hs hp hlt)
      refine .inr ⟨j, p, rfl, hij, (congrArg (·[j]?) hdrop).trans hj, ?_⟩
      rw [hparent, hp, Option.bind_some, topPos_of_getElem? hdone hj]
  · refine (congrArg Prod.snd hslotPair).trans (hrows.trans ?_)
    exact congrArg (List.flatMap (pivotRows st.runs)) hdrop.symm
  · intro r i
    have hslot := hslots r i
    rw [← hslotPair] at hslot
    exact hslot

end Merge

/-! ## The runs -/

section Runs

variable {K : FrontKernels T α} {C : FrontConfig α} {P : Partition T} {E : FrontLimits} {J : Type}
  [DecidableEq J] {trs : List (Subtrees.Label threads)} {ss : Subtrees threads}
  {tr₁ : List (TallyEvent threads)} {tr : List (Top.Label P.topNodes.length threads J)}
  {s : Top P.topNodes.length threads J} {st₁ st : LayoutStore α threads} {done : List ℕ}

/-- Phase 1 runs the fronts that are not in the top part. -/
theorem Subtrees.Finished.through_append_top (h : Subtrees.Finished P E trs ss) :
    ((Tally.through (right trs)).map Prod.snd ++ P.topNodes).Perm (List.range T.ns) := by
  have htaken : ∀ x ∈ (Tally.through (right trs)).map Prod.snd, x ∈ Tally.begun (right trs) :=
    fun x hx => h.inv.tally.mem_begun x (h.inv.tally.through_added x hx)
  have hnodup : ((Tally.through (right trs)).map Prod.snd ++ P.topNodes).Nodup := by
    refine List.nodup_append.mpr ⟨h.inv.tally.through_nodup, Partition.topNodes_nodup, ?_⟩
    rintro x hx z hz rfl
    exact h.top_notMem x hz (htaken x hx)
  refine (List.perm_ext_iff_of_nodup hnodup List.nodup_range).mpr fun x => ?_
  rw [List.mem_append]
  constructor
  · rintro (hx | hx)
    · exact h.inv.tally.mem_all x (htaken x hx)
    · exact List.mem_range.mpr (Partition.mem_topNodes.mp hx).1
  · intro hx
    rcases P.mem_range_or_top (List.mem_range.mp hx) with ⟨r, hr, hxr⟩ | htop
    · exact .inl (Tally.mem_through_snd.mpr (h.passed r hr x hxr))
    · exact .inr htop

/-- There are tasks, and phase 1 runs their fronts. -/
theorem Subtrees.Finished.through_ne_nil (h : Subtrees.Finished P E trs ss)
    (htasks : 2 ≤ P.ranges.length) : Tally.through (right trs) ≠ [] := by
  intro hnil
  obtain ⟨t, ht⟩ := h.passed _ (Partition.range_mem (show 0 < P.ranges.length by omega)) _
    (range_last_mem (by omega))
  have hmem : (t, (P.range 0).2) ∈ Tally.through (right trs) := Tally.mem_through.mpr ht
  rw [hnil] at hmem
  cases hmem

/-- The top fronts in completion order. -/
theorem Top.Finished.done_perm {y : Tally threads} (h : Top.Finished P E y tr₁ tr s) :
    (s.sched.completed.map fun c => P.topNodes.get c.1).Perm P.topNodes := by
  have hnodup : (s.sched.completed.map (·.1)).Nodup :=
    (List.nodup_append.mp h.inv.sched.inv.nodup).2.1
  have hperm : (s.sched.completed.map (·.1)).Perm (List.finRange P.topNodes.length) :=
    (List.perm_ext_iff_of_nodup hnodup (List.nodup_finRange _)).mpr fun v =>
      iff_of_true (h.completed v) (List.mem_finRange v)
  have hget := hperm.map P.topNodes.get
  rw [List.map_map, List.map_get_finRange] at hget
  exact hget

/-- A top front is completed after its children in the top part. -/
theorem Top.Finished.topological {y : Tally threads} (h : Top.Finished P E y tr₁ tr s) {pre post v}
    (hsplit : (s.sched.completed.map fun c => P.topNodes.get c.1) = pre ++ v :: post) {c : ℕ}
    (hc : c ∈ P.topNodes) (hparent : T.parent c = some v) : c ∈ pre := by
  have hnodes : (s.sched.completed.map fun c => P.topNodes.get c.1) =
      (s.sched.completed.map (·.1)).map P.topNodes.get := List.map_map.symm
  rw [hnodes] at hsplit
  obtain ⟨a, b, hab, rfl, hb⟩ := List.map_eq_append_iff.mp hsplit
  obtain ⟨u, b', rfl, rfl, rfl⟩ := List.map_eq_cons_iff.mp hb
  obtain ⟨i, rfl, hi⟩ := Partition.topParent_of_child hc hparent
  exact List.mem_map_of_mem (h.inv.sched.inv.topological a u b' hab i hi)

/-- What a factorization leaves for phase 3. -/
theorem mergeInput_of_stores (h : (K.config C).Stores P E threads J st₁ st done) :
    ∃ first second : List (Fin threads × ℕ), MergeInput K P first second st₁ st done := by
  cases h with
  | @subtrees tr s hdet htasks caller hcaller hrun hret hok hnone =>
    have hfirst := Subtrees.finished hcaller hrun hret hok
    have hlaid := laid_run (K := K) (C := C) E.cap_disarm hfirst.run
    refine ⟨Tally.through (right tr), [], ?_⟩
    exact
      { kept := (List.append_nil (Tally.through (right tr))).symm ▸ hlaid.kept
        phase1 := hlaid.kept.length_steps
        cut := fun t => hlaid.outside t fun i way hc => nomatch (hfirst.returned t).symm.trans hc
        tops := nofun
        done_perm := hnone ▸ .refl _
        topological := fun pre v post hc => absurd (congrArg List.length hc) (by
          rw [List.length_append, List.length_cons, List.length_nil]
          omega)
        all := hnone ▸ hfirst.through_append_top
        ne_nil := hfirst.through_ne_nil htasks }
  | @top tr s tr' s' hdet htasks caller hcaller hrun hret hok hne plan hrun' hdone hok' =>
    have hfirst := Subtrees.finished hcaller hrun hret hok
    have hlaid := laid_run (K := K) (C := C) E.cap_disarm hfirst.run
    have htop := Top.finished hfirst caller hrun' hdone hok'
    have htopLaid := topLaid_run
      (C := C) E.cap_disarm hfirst.inv.tally hfirst.idle hfirst.top_notMem
      (fun i hi x hx => hfirst.passed _ (Partition.range_mem hi) x hx) (hlaid.join plan) htop.run
    refine ⟨Tally.through (right tr),
      (Tally.through (right tr')).map fun d => (plan.lane d.2, d.2), ?_⟩
    exact
      { kept := htopLaid.kept
        phase1 := hlaid.kept.length_steps
        cut := fun t => hlaid.outside t fun i way hc => nomatch (hfirst.returned t).symm.trans hc
        tops := fun x hx => by
          have hxtop : x ∈ P.topNodes := htop.done_perm.subset hx
          -- it was not taken in phase 1
          have hlate : ∀ t, TallyEvent.passed t x ∉ right tr := fun t hc =>
            hfirst.top_notMem x hxtop (hfirst.inv.tally.mem_begun x
              (hfirst.inv.tally.through_added x (Tally.mem_through_snd.mpr ⟨t, hc⟩)))
          obtain ⟨t, ht⟩ := htop.passed x hxtop
          have hsecond := (List.mem_append.mp ht).resolve_left (hlate t)
          exact ⟨plan.lane x, htopLaid.tops x (Tally.mem_through_snd.mpr ⟨t, hsecond⟩)⟩
        done_perm := htop.done_perm
        topological := fun pre v post hsplit c hc hparent => htop.topological hsplit hc hparent
        all := (htop.done_perm.append_left _).trans hfirst.through_append_top
        ne_nil := hfirst.through_ne_nil htasks }

end Runs

/-- Outside deterministic mode, whichever threads take the tasks, whatever passes the top
    fronts are stored in and in whatever order they complete, the solve layout of a
    tree-parallel factorization is valid. -/
theorem solveLayout_valid {n : ℕ} (P : Partition T) (hT : Factor.Covers T n)
    (K : FrontKernels T α) (C : FrontConfig α) (E : FrontLimits) (threads : ℕ) (J : Type)
    [DecidableEq J] (runs : ℕ → Option (FrontRun α)) (L : SolveLayout α)
    (h : (K.config C).Lays P E threads J runs L) : ∃ order, L.Valid P runs order := by
  obtain ⟨hstores, hsort⟩ := h
  obtain ⟨first, second, hinput⟩ := mergeInput_of_stores hstores
  exact ⟨_, hinput.valid hT hsort⟩

/-! ## Two leaves and their parent -/

theorem forkTree_children (s c : ℕ) : (c ∈ if s = 2 then [0, 1] else []) ↔
    (⟨c, c + 1, if c < 2 then some 2 else none⟩ : Multifrontal.Supernode).parent = some s := by
  by_cases hs : s = 2 <;> by_cases hc : c < 2 <;> simp [hs, hc] <;> omega

theorem forkTree_nodup (s : ℕ) : (if s = 2 then [0, 1] else [] : List ℕ).Nodup := by
  split_ifs <;> decide

theorem forkTree_postorder : Multifrontal.Postorder
    (fun s => (⟨s, s + 1, if s < 2 then some 2 else none⟩ : Multifrontal.Supernode).parent)
    (List.range 3) := by
  refine Multifrontal.postorder_of_first (fun s => if s = 2 then 0 else s)
    (fun s _ => by split_ifs <;> omega) fun s hs x => ?_
  constructor
  · intro h
    obtain ⟨b, -, hb⟩ := Relation.TransGen.tail'_iff.mp h
    obtain ⟨c, hc, -⟩ := Relation.TransGen.head'_iff.mp h
    change (if b < 2 then some 2 else none) = some s at hb
    change (if x < 2 then some 2 else none) = some c at hc
    split_ifs at hb hc with hb2 hx2
    cases hb
    rw [if_pos rfl]
    omega
  · intro h
    by_cases hs2 : s = 2
    · subst hs2
      exact .single (if_pos h.2)
    · rw [if_neg hs2] at h
      omega

/-- Fronts 0 and 1 are the children of front 2, with a column each. -/
def forkTree : AssemblyTree where
  ns := 3
  supernodes := fun s => ⟨s, s + 1, if s < 2 then some 2 else none⟩
  children := fun s => if s = 2 then [0, 1] else []
  frontRows := fun s => if s = 2 then [2] else [s, 2]
  mem_children := forkTree_children
  children_nodup := forkTree_nodup
  postorder := forkTree_postorder

theorem forkTree_covers : Factor.Covers forkTree 3 where
  parent_lt := by decide
  columns := by decide

/-- Each leaf is a task, and the root is the top part. -/
def forkTasks : Partition forkTree where
  ranges := [(0, 0), (1, 1)]
  isTask := by
    intro r hr
    have hleaf : ∀ {x s}, Below forkTree.parent x s → s = 2 := by
      intro x s h
      obtain ⟨b, -, hb⟩ := Relation.TransGen.tail'_iff.mp h
      change (if b < 2 then some 2 else none) = some s at hb
      split_ifs at hb
      exact (Option.some.inj hb).symm
    have hr' : r = (0, 0) ∨ r = (1, 1) := by simpa using hr
    rcases hr' with rfl | rfl
    · exact ⟨le_rfl, by decide, fun s _ hs x hx => by have := hleaf hx; omega⟩
    · exact ⟨le_rfl, by decide, fun s _ hs x hx => by have := hleaf hx; omega⟩
  disjoint := firstTwo_disjoint
  top := fun s => decide (s = 2)
  top_iff := by decide

/-- Every eligible column is accepted as it stands. -/
def allAccepted : FrontKernels forkTree Unit where
  pivots a :=
    { rows := fun c => ((eligibleOf forkTree a.s a.kids).getD c 0 : ℕ)
      tags := fun _ => 1
      numAccepted := (eligibleOf forkTree a.s a.kids).length
      accepted_le := (List.length_map _).ge
      perm := by
        refine .of_eq (List.ext_getElem (by rw [List.length_map, List.length_range]) ?_)
        intro c hc hc'
        rw [List.length_map] at hc'
        rw [List.getElem_map, List.getElem_map, List.getElem_range, List.getD_eq_getElem _ _ hc']
      tagged := fun _ _ => .inl rfl }
  below a := (forkTree.frontRows a.s).drop 1
  panel _ _ := ()
  diag _ := []
  values _ := []

/-- The settings, outside deterministic mode. -/
def plainConfig : FrontConfig Unit := { oneRowFronts with det := false, delayBudget := -1 }

/-- Two threads take a leaf each, thread 1 first. -/
theorem forkTasks_subtrees : ∃ (tr : List (Subtrees.Label 2)) (s : Subtrees 2),
    (Subtrees.system forkTasks noWork.disarm 2).Run tr s ∧ s.control.pc 0 = .returned ∧
      s.tally = Tally.init 2 := by
  have hload : ∀ {y : Tally 2}, y.count .work = 0 → y.Loads 0 := fun h => ⟨le_rfl, h.ge⟩
  have hcap : ∀ {done : ℤ}, 0 ≤ noWork.disarm.workCap → done ≤ noWork.disarm.workCap :=
    fun h => absurd h (by decide)
  have run := Lts.Run.nil (L := Subtrees.system forkTasks noWork.disarm 2)
  -- thread 1 and its task
  have run := run.snoc (.control (.start (t := 1) rfl))
  have run := run.snoc (.control (.ownPoll (t := 1) (b := true) rfl nofun))
  have run := run.snoc (.control (.ownLoad (t := 1) (b := false) rfl nofun))
  have run := run.snoc (.began (.ownClaim (t := 1) rfl rfl))
  have run := run.snoc (.front (t := 1) (i := 1) rfl rfl le_rfl)
  have run := run.snoc (.inside (.run (t := 1) (s := 1) rfl (hload rfl) hcap) rfl)
  have run := run.snoc
    (.inside (.skip (t := 1) (l := .negatives) (s := 1) rfl (.inl neg_one_lt_zero)) rfl)
  have run := run.snoc
    (.inside (.skip (t := 1) (l := .work) (s := 1) rfl (.inl neg_one_lt_zero)) rfl)
  have run := run.snoc (.pass (t := 1) (x := 1) rfl)
  have run := run.snoc (.ended (t := 1) (i := 1) rfl (.inl (Nat.lt_succ_self 1)) (.ended rfl))
  -- then the caller and its own
  have run := run.snoc (.control (.start (t := 0) rfl))
  have run := run.snoc (.control (.ownPoll (t := 0) (b := true) rfl nofun))
  have run := run.snoc (.control (.ownLoad (t := 0) (b := false) rfl nofun))
  have run := run.snoc (.began (.ownClaim (t := 0) rfl rfl))
  have run := run.snoc (.front (t := 0) (i := 0) rfl rfl le_rfl)
  have run := run.snoc (.inside (.run (t := 0) (s := 0) rfl (hload rfl) hcap) rfl)
  have run := run.snoc
    (.inside (.skip (t := 0) (l := .negatives) (s := 0) rfl (.inl neg_one_lt_zero)) rfl)
  have run := run.snoc
    (.inside (.skip (t := 0) (l := .work) (s := 0) rfl (.inl neg_one_lt_zero)) rfl)
  have run := run.snoc (.pass (t := 0) (x := 0) rfl)
  have run := run.snoc (.ended (t := 0) (i := 0) rfl (.inl (Nat.lt_succ_self 0)) (.ended rfl))
  -- there is no further task, and none to take over
  have run := run.snoc (.control (.loopPoll (t := 1) (b := true) rfl nofun))
  have run := run.snoc (.control (.fetchNone (t := 1) rfl (by decide)))
  have run := run.snoc (.control (.scanPoll (t := 1) (i := 0) rfl (by decide)))
  have run := run.snoc (.control (.scanLoad (t := 1) (i := 0) (b := true) rfl fun _ => rfl))
  have run := run.snoc (.control (.scanPoll (t := 1) (i := 1) rfl (by decide)))
  have run := run.snoc (.control (.scanLoad (t := 1) (i := 1) (b := true) rfl fun _ => rfl))
  have run := run.snoc (.control (.scanStop (t := 1) (i := 2) rfl (.inl (by decide))))
  have run := run.snoc (.control (.finish (t := 1) rfl nofun))
  have run := run.snoc (.control (.loopPoll (t := 0) (b := true) rfl nofun))
  have run := run.snoc (.control (.fetchNone (t := 0) rfl (by decide)))
  have run := run.snoc (.control (.scanPoll (t := 0) (i := 0) rfl (by decide)))
  have run := run.snoc (.control (.scanLoad (t := 0) (i := 0) (b := true) rfl fun _ => rfl))
  have run := run.snoc (.control (.scanPoll (t := 0) (i := 1) rfl (by decide)))
  have run := run.snoc (.control (.scanLoad (t := 0) (i := 1) (b := true) rfl fun _ => rfl))
  have run := run.snoc (.control (.scanStop (t := 0) (i := 2) rfl (.inl (by decide))))
  have run := run.snoc (.control (.finishCaller (t := 0) rfl rfl rfl))
  refine ⟨_, _, run, rfl, congrArg (Tally.mk _ _) (funext fun t => ?_)⟩
  match t with
  | 0 => rfl
  | 1 => rfl

/-- Thread 0 takes the root, and both threads return. -/
theorem forkTasks_top : ∃ (tr : List (Top.Label forkTasks.topNodes.length 2 Unit))
    (s : Top forkTasks.topNodes.length 2 Unit),
    (Top.system forkTasks noWork.disarm 2 Unit (Tally.init 2)).Run tr s ∧
      (∀ w, s.sched.worker w = .done) ∧ s.tally.failed = .success := by
  have hload : ∀ {y : Tally 2}, y.count .work = 0 → y.Loads 0 := fun h => ⟨le_rfl, h.ge⟩
  have hcap : ∀ {done : ℤ}, 0 ≤ noWork.disarm.workCap → done ≤ noWork.disarm.workCap :=
    fun h => absurd h (by decide)
  let root : Fin forkTasks.topNodes.length := ⟨0, by decide⟩
  have run := Lts.Run.nil (L := Top.system forkTasks noWork.disarm 2 Unit (Tally.init 2))
  have run := run.snoc (.control (.acquire (w := 0) (c := none) rfl (by decide) (by decide)) rfl)
  have run := run.snoc (.call (.call (w := 0) (v := root) (k := 2) rfl))
  have run := run.snoc (.front (w := 0) (v := root) (k := 2) rfl rfl)
  have run := run.snoc (.inside (.run (t := 0) (s := 2) rfl (hload rfl) hcap))
  have run := run.snoc
    (.inside (.skip (t := 0) (l := .negatives) (s := 2) rfl (.inl neg_one_lt_zero)))
  have run := run.snoc (.inside (.skip (t := 0) (l := .work) (s := 2) rfl (.inl neg_one_lt_zero)))
  have run := run.snoc (.pass (w := 0) (v := root) (k := 2) (x := 2) rfl rfl rfl)
  have run := run.snoc (.last (w := 0) (v := root) (k := 2) (b := true) rfl rfl nofun)
  have run := run.snoc (.ret (w := 0) (v := root) (b := true) rfl (.ret (k := 2) rfl))
  have run := run.snoc (.control
    (@TopScheduler.Step.finish _ _ _ _ _ _ 0 root 2 true none rfl (by decide)) rfl)
  have run := run.snoc (.control (.acquire (w := 0) (c := none) rfl (by decide) (by decide)) rfl)
  have run := run.snoc (.control (.acquire (w := 1) (c := none) rfl (by decide) (by decide)) rfl)
  refine ⟨_, _, run, fun w => ?_, rfl⟩
  match w with
  | 0 => rfl
  | 1 => rfl

/-- The ranges can be sorted. -/
theorem exists_sortedByWork (steps : List SolveStep) (ranges : List (ℕ × ℕ)) :
    ∃ sorted, SortedByWork steps ranges sorted := by
  have htrans : ∀ a b c : ℕ × ℕ, decide (stepWork steps b ≤ stepWork steps a) = true →
      decide (stepWork steps c ≤ stepWork steps b) = true →
      decide (stepWork steps c ≤ stepWork steps a) = true := fun a b c hab hbc =>
    decide_eq_true ((of_decide_eq_true hbc).trans (of_decide_eq_true hab))
  have htotal : ∀ a b : ℕ × ℕ, (decide (stepWork steps b ≤ stepWork steps a) ||
      decide (stepWork steps a ≤ stepWork steps b)) = true := by
    intro a b
    rcases le_total (stepWork steps a) (stepWork steps b) with h | h <;> simp [h]
  exact ⟨_, List.mergeSort_perm .., (List.pairwise_mergeSort htrans htotal ranges).imp
    fun h => of_decide_eq_true h⟩

theorem solveLayout_valid_fork : ∃ runs L order,
    (allAccepted.config plainConfig).Lays forkTasks noWork.disarm 2 Unit runs L ∧
      L.Valid forkTasks runs order := by
  obtain ⟨tr, s, hrun, hret, htally⟩ := forkTasks_subtrees
  obtain ⟨tr', s', hrun', hdone, hok'⟩ := forkTasks_top
  have hstores := FrontConfig.Stores.top (C := allAccepted.config plainConfig) rfl le_rfl 0 rfl
    hrun hret (by rw [htally]; rfl) (by decide) ⟨fun _ => 0, fun _ => 1⟩ (htally.symm ▸ hrun') hdone
    hok'
  obtain ⟨sorted, hsort⟩ := exists_sortedByWork _ _
  have hlays := FrontConfig.Lays.mk hstores hsort
  obtain ⟨order, hvalid⟩ := solveLayout_valid forkTasks forkTree_covers allAccepted plainConfig
    noWork.disarm 2 Unit _ _ hlays
  exact ⟨_, _, order, hlays, hvalid⟩

end Parallel
end SmfSolver
