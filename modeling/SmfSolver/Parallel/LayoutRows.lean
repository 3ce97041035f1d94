/-
  SmfSolver.Parallel.LayoutRows

  What a solve reads through the layout of a tree-parallel factorization: which rows and
  which L panel a step leads to, whose pivot rows a front's rows are, and in which order the
  steps of a front and of the fronts below it stand.

  * `Store.Kept.rowFlow`: the rows of the stored fronts.
  * `MergeInput.reads`: the steps lead to the fronts' rows and panels, and end with them.
  * `SolveLayout.Valid.lt_of_below`: a front's step stands behind those of the fronts below.
-/
import SmfSolver.Factor.RowFlow
import SmfSolver.Parallel.SolveLayoutSpec

namespace SmfSolver
namespace Parallel

open Lib
open Multifrontal (AssemblyTree Below)
open Factor (RowFlow Contained belowRows rowsOf)

variable {α : Type} {T : AssemblyTree} {threads : ℕ}

/-! ## The rows -/

/-- The kernels leave the rows below the eligible ones as the analysis lists them. -/
def FrontKernels.KeepsBelow (K : FrontKernels T α) : Prop := ∀ a, K.below a = belowRows T a.s

section Rows

variable {K : FrontKernels T α} {a : KernelCall α} {P : Partition T} {n s : ℕ}
  {dealt : List (Fin threads × ℕ)} {st : Store α threads} {run : FrontRun α}

/-- A front's rows: its pivot rows, the columns it delays, and the rows below. -/
theorem FrontKernels.rows_split : (K.result a).rows = (K.result a).rows.take (K.result a).p ++
    (K.result a).contribution.delayedRows ++ K.below a := by
  have hadd := Nat.add_sub_cancel' (FrontKernels.storedCount_le (K := K) (a := a))
  have htake := List.take_add (l := K.rows a) (i := K.storedCount a)
    (j := (eligibleOf T a.s a.kids).length - K.storedCount a)
  rw [hadd] at htake
  have hbelow : (K.rows a).drop (eligibleOf T a.s a.kids).length = K.below a := by
    apply List.drop_left'
    rw [List.length_map, List.length_range]
  show K.rows a = (K.rows a).take (K.storedCount a) ++ ((K.rows a).drop (K.storedCount a)).take
    ((eligibleOf T a.s a.kids).length - K.storedCount a) ++ K.below a
  rw [← htake, ← hbelow, List.take_append_drop]

theorem Store.Kept.rows_eq (h : st.Kept K dealt) (hK : K.KeepsBelow) (hrun : st.runs s = some run) :
    run.out.rows = rowsOf T (pivotRows st.runs) (delayedRowsOf st.runs) s := by
  obtain ⟨a, rfl, -, hout⟩ := h.ran s run hrun
  rw [rowsOf, pivotRows, delayedRowsOf, hrun]
  dsimp only
  rw [hout, ← hK a]
  exact FrontKernels.rows_split

/-- The rows of the stored fronts flow up the tree. -/
theorem Store.Kept.rowFlow (h : st.Kept K dealt) (hT : Factor.Covers T n) (hC : Contained T)
    (hall : ∀ s < T.ns, s ∈ dealt.map Prod.snd) :
    RowFlow T n (pivotRows st.runs) (delayedRowsOf st.runs) where
  covers := hT
  contained := hC
  takes s hs := by
    obtain ⟨run, hrun⟩ := (h.stored s).mp (hall s hs)
    obtain ⟨a, rfl, hkids, hout⟩ := h.ran s run hrun
    have hperm := FrontKernels.pivots_append_delayed (K := K) (a := a)
    rw [← hout, hkids, eligibleOf_kidsOf] at hperm
    have hpivots : pivotRows st.runs a.s = run.out.rows.take run.out.p := by
      rw [pivotRows, hrun]
    have hdelayed : delayedRowsOf st.runs a.s = run.out.contribution.delayedRows := by
      rw [delayedRowsOf, hrun]
    rw [hpivots, hdelayed]
    exact hperm
  root s hs hroot := by
    obtain ⟨run, hrun⟩ := (h.stored s).mp (hall s hs)
    obtain ⟨a, rfl, -, hout⟩ := h.ran s run hrun
    rw [delayedRowsOf, hrun]
    dsimp only
    rw [hout]
    exact FrontKernels.delayedRows_root hroot

end Rows

/-! ## The steps -/

section Steps

variable {K : FrontKernels T α} {P : Partition T} {first second : List (Fin threads × ℕ)}
  {st₁ st : LayoutStore α threads} {done : List ℕ} {sorted : List (ℕ × ℕ)} {t : Fin threads}
  {x n : ℕ}

/-- Every step of the layout is one of a pass, relocated. -/
theorem mem_steps {step : SolveStep} (h : step ∈ (solveLayout st₁ st T done sorted).solveSteps) :
    ∃ (t : Fin threads) (old : SolveStep), old ∈ (st.passes t).steps ∧
      step = relocated (List.ofFn st.passes) t old := by
  rcases List.mem_append.mp h with h | h
  · -- the loop over the passes adds only such steps
    have hfold : ∀ (ts : List (Fin threads)) (a : List SolveStep × List (ℕ × ℕ)),
        step ∈ (ts.foldl (pushPass st₁ st) a).1 → step ∈ a.1 ∨
          ∃ (t : Fin threads) (old : SolveStep),
          old ∈ (st.passes t).steps ∧ step = relocated (List.ofFn st.passes) t old := by
      intro ts
      induction ts with
      | nil => exact fun a ha => .inl ha
      | cons t ts ih =>
        intro a ha
        rcases ih _ ha with ha | ha
        · rcases List.mem_append.mp ha with ha | ha
          · exact .inl ha
          · obtain ⟨old, hold, rfl⟩ := List.mem_map.mp ha
            exact .inr ⟨t, old, List.mem_of_mem_take hold, rfl⟩
        · exact .inr ha
    exact (hfold _ _ h).resolve_left List.not_mem_nil
  · obtain ⟨y, -, hy⟩ := List.mem_filterMap.mp h
    rw [stepOf, Option.map_eq_some_iff] at hy
    obtain ⟨old, hold, rfl⟩ := hy
    obtain ⟨pass, hpass, hold⟩ := Option.bind_eq_some_iff.mp hold
    rw [List.getElem?_ofFn] at hpass
    split_ifs at hpass with hlt
    · obtain rfl := Option.some.inj hpass
      exact ⟨⟨st.topPass y, hlt⟩, old, List.mem_of_getElem? hold, rfl⟩

/-- The steps stay inside the merged arrays. -/
theorem MergeInput.inBounds (h : MergeInput K P first second st₁ st done) {step : SolveStep}
    (hstep : step ∈ (solveLayout st₁ st T done sorted).solveSteps) :
    step.rowOffset + step.f ≤ (solveLayout st₁ st T done sorted).solveRowIndices.length ∧
      step.factorOffset + step.f * step.p ≤
        (solveLayout st₁ st T done sorted).factorValues.length := by
  obtain ⟨t, old, hold, rfl⟩ := mem_steps hstep
  obtain ⟨hrow, hfactor⟩ := (h.kept.holds t).inBounds old hold
  have hsri : ((List.ofFn st.passes).map (·.sri))[t.1]? = some (st.passes t).sri := by
    rw [List.getElem?_map, getElem?_passes]
    rfl
  have hfv : ((List.ofFn st.passes).map (·.fv))[t.1]? = some (st.passes t).fv := by
    rw [List.getElem?_map, getElem?_passes]
    rfl
  constructor
  · have hle := offset_add_le hsri hrow
    rwa [← Nat.add_assoc] at hle
  · have hle := offset_add_le hfv hfactor
    rwa [← Nat.add_assoc] at hle

end Steps

/-- The steps, in this order of the fronts, lead to the fronts' rows and L panels. -/
def SolveLayout.Reads (runs : ℕ → Option (FrontRun α)) (order : List ℕ)
    (L : SolveLayout α) : Prop :=
  ∀ k s : ℕ, order[k]? = some s → ∃ (step : SolveStep) (run : FrontRun α),
    L.solveSteps[k]? = some step ∧ runs s = some run ∧ step.p = run.out.p ∧
      step.f = run.out.rows.length ∧
    (∀ i < step.f, L.solveRowIndices[step.rowOffset + i]? = run.out.rows[i]?) ∧
    ∀ i < step.f * step.p, L.factorValues[step.factorOffset + i]? = run.out.panel[i]?

section Reads

variable {K : FrontKernels T α} {P : Partition T} {first second : List (Fin threads × ℕ)}
  {st₁ st : LayoutStore α threads} {done : List ℕ} {sorted : List (ℕ × ℕ)} {n : ℕ}
  {runs : ℕ → Option (FrontRun α)} {L : SolveLayout α} {order : List ℕ}

theorem MergeInput.reads (h : MergeInput K P first second st₁ st done)
    (hvalid : (solveLayout st₁ st T done sorted).Valid P st.runs order) :
    (solveLayout st₁ st T done sorted).Reads st.runs order := by
  intro k s hk
  have hfronts := congrArg (·[k]?) hvalid.fronts
  simp only [List.getElem?_map, hk, Option.map_some, FactorKeep.fronts] at hfronts
  obtain ⟨front, hfront, hrun⟩ := Option.map_eq_some_iff.mp hfronts
  obtain ⟨step, hstep, rfl⟩ := Option.map_eq_some_iff.mp hfront
  obtain ⟨run, hrun, hout⟩ := Option.map_eq_some_iff.mp hrun.symm
  obtain ⟨hp, hout⟩ := Prod.ext_iff.mp hout
  obtain ⟨hrows, hpanel⟩ := Prod.ext_iff.mp hout
  obtain ⟨hrowle, hfvle⟩ := h.inBounds (List.mem_of_getElem? hstep)
  dsimp only [FactorKeep.front] at hp hrows hpanel
  refine ⟨step, run, hstep, hrun, hp.symm, ?_, fun i hi => ?_, fun i hi => ?_⟩
  · rw [hrows, length_slice hrowle]
  · rw [hrows, getElem?_slice hi]
  · rw [hpanel, getElem?_slice hi]

end Reads

/-- A layout, the fronts it leads to, and whose rows these have. -/
structure SolveLayout.Stands (P : Partition T) (n : ℕ) (runs : ℕ → Option (FrontRun α))
    (order : List ℕ) (L : SolveLayout α) : Prop where
  valid : L.Valid P runs order
  ne_nil : order ≠ []
  top_le : L.solveTopBegin ≤ order.length
  reads : L.Reads runs order
  flow : RowFlow T n (pivotRows runs) (delayedRowsOf runs)
  rows : ∀ s run, runs s = some run →
    run.out.rows = rowsOf T (pivotRows runs) (delayedRowsOf runs) s ∧
      run.out.p ≤ run.out.rows.length

/-- The layout of a tree-parallel factorization, whatever its schedule was. -/
theorem stands_of_lays {K : FrontKernels T α} {C : FrontConfig α} {P : Partition T}
    {E : FrontLimits}
    {J : Type} [DecidableEq J] {n : ℕ} {runs : ℕ → Option (FrontRun α)} {L : SolveLayout α}
    (hT : Factor.Covers T n) (hC : Contained T) (hK : K.KeepsBelow)
    (h : (K.config C).Lays P E threads J runs L) : ∃ order, L.Stands P n runs order := by
  obtain ⟨hstores, hsort⟩ := h
  obtain ⟨first, second, hinput⟩ := mergeInput_of_stores hstores
  have hvalid := hinput.valid hT hsort
  refine ⟨_, hvalid, fun hnil => ?_, ?_, hinput.reads hvalid,
    hinput.kept.rowFlow hT hC fun s hs => ?_,
    fun s run hrun => ⟨hinput.kept.rows_eq hK hrun, ?_⟩⟩
  · have hlen := (hvalid.perm.trans hinput.all.symm).length_eq
    rw [hnil, List.length_append, List.length_map, List.length_nil] at hlen
    exact hinput.ne_nil (List.eq_nil_of_length_eq_zero (by omega))
  · rw [stepOrder, List.length_append]
    exact hinput.length_subtreePart.le.trans (Nat.le_add_right _ _)
  · exact (hinput.run_of_mem (hvalid.perm.symm.subset (List.mem_range.mpr hs))).1
  · obtain ⟨a, -, -, hout⟩ := hinput.kept.ran s run hrun
    rw [hout]
    exact FrontKernels.p_le_rows

/-! ## The order of the steps -/

section Order

variable {P : Partition T} {runs : ℕ → Option (FrontRun α)} {order : List ℕ} {L : SolveLayout α}
  {i j k s t : ℕ}

theorem SolveLayout.Valid.nodup (h : L.Valid P runs order) : order.Nodup :=
  h.perm.nodup_iff.mpr List.nodup_range

theorem SolveLayout.Valid.index_unique (h : L.Valid P runs order) (hi : order[i]? = some s)
    (hj : order[j]? = some s) : i = j :=
  (List.getElem?_inj (List.getElem?_eq_some_iff.mp hi).1 h.nodup).mp (hi.trans hj.symm)

theorem SolveLayout.Valid.exists_index (h : L.Valid P runs order) (hs : s < T.ns) :
    ∃ k : ℕ, order[k]? = some s :=
  List.mem_iff_getElem?.mp (h.perm.symm.subset (List.mem_range.mpr hs))

theorem SolveLayout.Valid.lt_ns (h : L.Valid P runs order) (hk : order[k]? = some s) : s < T.ns :=
  List.mem_range.mp (h.perm.subset (List.mem_of_getElem? hk))

/-- The range of a step before the top part. -/
theorem SolveLayout.Valid.exists_range (h : L.Valid P runs order) (hk : k < L.solveTopBegin) :
    ∃ r ∈ L.solveSubtrees, r.1 ≤ k ∧ k < r.2 := by
  obtain ⟨r, hr, hkr⟩ := List.mem_flatMap.mp (h.covers.mem_iff.mpr (List.mem_range.mpr hk))
  obtain ⟨hlo, hhi⟩ := List.mem_range'_1.mp hkr
  exact ⟨r, hr, hlo, by omega⟩

/-- A range has the steps of all fronts below those of its own. -/
theorem SolveLayout.Valid.range_below (h : L.Valid P runs order) {r : ℕ × ℕ}
    (hr : r ∈ L.solveSubtrees) (hlo : r.1 ≤ k) (hhi : k < r.2) (hk : order[k]? = some s)
    (hbelow : Below T.parent t s) : ∃ i, order[i]? = some t ∧ r.1 ≤ i ∧ i < k := by
  obtain ⟨-, -, hclosed⟩ := h.closed r hr
  have hget : (slice order r.1 (r.2 - r.1))[k - r.1]? = some s := by
    rw [getElem?_slice (by omega), Nat.add_sub_cancel' hlo, hk]
  obtain ⟨hlen, hs⟩ := List.getElem?_eq_some_iff.mp hget
  have hsplit := (List.take_append_drop (k - r.1) (slice order r.1 (r.2 - r.1))).symm
  rw [List.drop_eq_getElem_cons hlen, hs] at hsplit
  obtain ⟨j, hj⟩ := List.mem_iff_getElem?.mp (hclosed _ s _ hsplit t hbelow)
  rw [List.getElem?_take] at hj
  split_ifs at hj with hlt
  rw [getElem?_slice (by omega)] at hj
  exact ⟨r.1 + j, hj, Nat.le_add_right _ _, by omega⟩

/-- A step is in one range. -/
theorem SolveLayout.Valid.range_unique (h : L.Valid P runs order) {r r' : ℕ × ℕ}
    (hr : r ∈ L.solveSubtrees) (hr' : r' ∈ L.solveSubtrees) (hlo : r.1 ≤ k) (hhi : k < r.2)
    (hlo' : r'.1 ≤ k) (hhi' : k < r'.2) : r = r' := by
  have hnodup : (L.solveSubtrees.flatMap rangeIndices).Nodup :=
    h.covers.nodup_iff.mpr List.nodup_range
  have hpair := (List.nodup_flatMap.mp hnodup).2
  have hmem : ∀ {q : ℕ × ℕ}, q.1 ≤ k → k < q.2 → k ∈ rangeIndices q := fun hlo hhi =>
    List.mem_range'_1.mpr ⟨hlo, by omega⟩
  obtain ⟨i, hi, rfl⟩ := List.getElem_of_mem hr
  obtain ⟨j, hj, rfl⟩ := List.getElem_of_mem hr'
  rcases Nat.lt_trichotomy i j with hlt | rfl | hlt
  · have hdisj := List.pairwise_iff_getElem.mp hpair i j hi hj hlt
    exact absurd (hmem hlo' hhi') (List.disjoint_left.mp hdisj (hmem hlo hhi))
  · rfl
  · have hdisj := List.pairwise_iff_getElem.mp hpair j i hj hi hlt
    exact absurd (hmem hlo hhi) (List.disjoint_left.mp hdisj (hmem hlo' hhi'))

/-- The parent of a step of the top part is a later one. -/
def SolveLayout.TopEdge (L : SolveLayout α) (i j : ℕ) : Prop :=
  L.solveTopParent[i]? = some (some j) ∧ i < j

/-- A parent in the top part comes after its children. -/
theorem SolveLayout.Valid.parent_lt (h : L.Valid P runs order) (i j : ℕ)
    (hi : L.solveTopParent[i]? = some (some j)) : i < j := by
  have hlen : i < (order.drop L.solveTopBegin).length := by
    rw [h.top.length_eq, ← h.parent_length]
    exact (List.getElem?_eq_some_iff.mp hi).1
  rcases h.top_parent i _ (List.getElem?_eq_getElem hlen) with ⟨-, hnone⟩ | ⟨j', t, -, hlt, -, hj'⟩
  · cases hi.symm.trans hnone
  · cases hi.symm.trans hj'
    exact hlt

theorem SolveLayout.lt_of_path (h : Relation.TransGen L.TopEdge i j) : i < j := by
  induction h with
  | single he => exact he.2
  | tail _ he ih => exact ih.trans he.2

/-- From a step of the top part, its front's parents lead on through the top part. -/
theorem SolveLayout.Valid.top_above (h : L.Valid P runs order)
    (hi : (order.drop L.solveTopBegin)[i]? = some t) (hbelow : Below T.parent t s) :
    ∃ j, (order.drop L.solveTopBegin)[j]? = some s ∧
      Relation.TransGen L.TopEdge i j := by
  induction hbelow using Relation.TransGen.head_induction_on generalizing i with
  | single hp =>
    rcases h.top_parent i _ hi with ⟨hnone, -⟩ | ⟨j, u, hu, hij, hj, hedge⟩
    · exact absurd (hp.symm.trans hnone) (Option.some_ne_none _)
    · obtain rfl := Option.some.inj (hp.symm.trans hu)
      exact ⟨j, hj, .single ⟨hedge, hij⟩⟩
  | head hp _ ih =>
    rcases h.top_parent i _ hi with ⟨hnone, -⟩ | ⟨j, u, hu, hij, hj, hedge⟩
    · exact absurd (hp.symm.trans hnone) (Option.some_ne_none _)
    · obtain rfl := Option.some.inj (hp.symm.trans hu)
      obtain ⟨k, hk, hpath⟩ := ih hj
      exact ⟨k, hk, .head ⟨hedge, hij⟩ hpath⟩

/-- A front's step stands behind those of the fronts below it. -/
theorem SolveLayout.Valid.lt_of_below (h : L.Valid P runs order) (hi : order[i]? = some t)
    (hk : order[k]? = some s) (hbelow : Below T.parent t s) : i < k := by
  rcases Nat.lt_or_ge k L.solveTopBegin with hlt | hge
  · obtain ⟨r, hr, hlo, hhi⟩ := h.exists_range hlt
    obtain ⟨i', hi', -, hik⟩ := h.range_below hr hlo hhi hk hbelow
    exact h.index_unique hi hi' ▸ hik
  · rcases Nat.lt_or_ge i L.solveTopBegin with hlt | hgei
    · exact hlt.trans_le hge
    · have hdrop : (order.drop L.solveTopBegin)[i - L.solveTopBegin]? = some t := by
        rw [List.getElem?_drop, Nat.add_sub_cancel' hgei, hi]
      obtain ⟨j, hj, hpath⟩ := h.top_above hdrop hbelow
      rw [List.getElem?_drop] at hj
      have hk := h.index_unique hj hk
      have hlt := lt_of_path hpath
      omega

end Order

end Parallel
end SmfSolver
