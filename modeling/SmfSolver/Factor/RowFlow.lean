/-
  SmfSolver.Factor.RowFlow

  The rows of the fronts of a factorization.  A front's rows are its pivot rows, the columns
  that it delays, and the rows below its own columns, which the analysis put into the fronts
  of its ancestors.

  * `RowFlow.pivot_above`: every row of a front is a pivot row of the front or of an
    ancestor.
  * `RowFlow.above_of_row`: so a front that has a pivot row of another one is below it.
  * `RowFlow.nodup`: the rows of a front are distinct.
-/
import SmfSolver.Factor.ColumnFlow

namespace SmfSolver
namespace Factor

open Multifrontal

/-! ## The rows of the analysis -/

/-- The rows of a supernode's front past its own columns. -/
def belowRows (T : AssemblyTree) (s : ℕ) : List ℕ := (T.frontRows s).drop (T.supernodes s).width

/-- What the analysis promises of the fronts' rows: they are distinct, and the parent's front
    has the rows past the own columns. -/
structure Contained (T : AssemblyTree) : Prop where
  nodup : ∀ s < T.ns, (T.frontRows s).Nodup
  parent : ∀ s < T.ns, ∀ r ∈ belowRows T s, ∃ t, T.parent s = some t ∧ r ∈ T.frontRows t

/-- The pivot rows of the fronts and the columns that they delay. -/
structure RowFlow (T : AssemblyTree) (n : ℕ) (pivots delayed : ℕ → List ℕ) : Prop where
  covers : Covers T n
  contained : Contained T
  takes : ∀ s < T.ns, (pivots s ++ delayed s).Perm
    ((T.children s).flatMap delayed ++ (T.frontRows s).take (T.supernodes s).width)
  root : ∀ s < T.ns, T.parent s = none → delayed s = []

/-- A front's rows. -/
def rowsOf (T : AssemblyTree) (pivots delayed : ℕ → List ℕ) (s : ℕ) : List ℕ :=
  pivots s ++ delayed s ++ belowRows T s

/-- In a list without repetitions put together from pieces, a member is in one piece. -/
theorem piece_unique {α : Type*} {f : ℕ → List α} {m i j : ℕ} {x : α}
    (h : ((List.range m).flatMap f).Nodup) (hi : i < m) (hj : j < m) (hxi : x ∈ f i)
    (hxj : x ∈ f j) : i = j := by
  have hpair := (List.nodup_flatMap.mp h).2
  have hapart : ∀ {a b : ℕ}, a < b → b < m → x ∈ f a → x ∉ f b := by
    intro a b hab hb hxa hxb
    have hdisj := List.pairwise_iff_getElem.mp hpair a b (by simpa using hab.trans hb)
      (by simpa using hb) hab
    simp only [List.getElem_range] at hdisj
    exact hdisj hxa hxb
  rcases Nat.lt_trichotomy i j with hlt | heq | hlt
  · exact absurd hxj (hapart hlt hj hxi)
  · exact heq
  · exact absurd hxi (hapart hlt hi hxj)

namespace RowFlow

variable {T : AssemblyTree} {n : ℕ} {pivots delayed : ℕ → List ℕ} {s t r : ℕ}

/-! ## Up the tree -/

/-- A column that a front is eligible to take is a pivot of the front or of an ancestor. -/
theorem eligible_above (h : RowFlow T n pivots delayed) (hs : s < T.ns)
    (hr : r ∈ pivots s ++ delayed s) :
    ∃ t < T.ns, (s = t ∨ Below T.parent s t) ∧ r ∈ pivots t := by
  -- up the tree: a parent has a larger number
  induction hd : T.ns - s using Nat.strong_induction_on generalizing s with
  | _ d ih =>
    rcases List.mem_append.mp hr with hr | hr
    · exact ⟨s, hs, .inl rfl, hr⟩
    cases hp : T.parent s with
    | none =>
      rw [h.root s hs hp] at hr
      exact absurd hr List.not_mem_nil
    | some p =>
      have hlt := T.lt_parent hs hp
      have hpn := h.covers.parent_lt s hs p hp
      have hmem : r ∈ pivots p ++ delayed p := by
        apply (h.takes p hpn).symm.subset
        apply List.mem_append_left
        exact List.mem_flatMap.mpr ⟨s, (T.mem_children p s).mpr hp, hr⟩
      obtain ⟨t, ht, hup, hrt⟩ := ih (T.ns - p) (by omega) hpn hmem rfl
      refine ⟨t, ht, .inr ?_, hrt⟩
      rcases hup with rfl | hup
      · exact .single hp
      · exact .head hp hup

/-- Every row of a front of the analysis is a pivot of the supernode or of an ancestor. -/
theorem frontRow_above (h : RowFlow T n pivots delayed) (hs : s < T.ns) (hr : r ∈ T.frontRows s) :
    ∃ t < T.ns, (s = t ∨ Below T.parent s t) ∧ r ∈ pivots t := by
  induction hd : T.ns - s using Nat.strong_induction_on generalizing s with
  | _ d ih =>
    rw [← List.take_append_drop (T.supernodes s).width (T.frontRows s)] at hr
    rcases List.mem_append.mp hr with hr | hr
    · exact h.eligible_above hs ((h.takes s hs).symm.subset (List.mem_append_right _ hr))
    · obtain ⟨p, hp, hrp⟩ := h.contained.parent s hs r hr
      have hlt := T.lt_parent hs hp
      have hpn := h.covers.parent_lt s hs p hp
      obtain ⟨t, ht, hup, hrt⟩ := ih (T.ns - p) (by omega) hpn hrp rfl
      refine ⟨t, ht, .inr ?_, hrt⟩
      rcases hup with rfl | hup
      · exact .single hp
      · exact .head hp hup

theorem pivot_above (h : RowFlow T n pivots delayed) (hs : s < T.ns)
    (hr : r ∈ rowsOf T pivots delayed s) :
    ∃ t < T.ns, (s = t ∨ Below T.parent s t) ∧ r ∈ pivots t := by
  rcases List.mem_append.mp hr with hr | hr
  · exact h.eligible_above hs hr
  · exact h.frontRow_above hs (List.mem_of_mem_drop hr)

/-! ## Once each -/

theorem columns_ones (l : List ℕ) :
    (l.map fun r : ℕ => Pivot.one (r : ℤ)).flatMap Pivot.columns = l.map (↑) := by
  rw [List.flatMap_map]
  exact List.map_eq_flatMap.symm

/-- The flow as one of pivots of the analysis. -/
theorem flow (h : RowFlow T n pivots delayed) :
    FlowOf T (fun s => (pivots s).map fun r : ℕ => Pivot.one (r : ℤ))
      (fun s => (delayed s).map (↑)) where
  takes s hs _ := by
    have hperm := (h.takes s hs).map ((↑) : ℕ → ℤ)
    rw [List.map_append, List.map_append, List.map_flatMap] at hperm
    rw [columns_ones]
    exact hperm
  root s hs hp := by rw [h.root s hs hp, List.map_nil]

theorem nodup_own (h : RowFlow T n pivots delayed) : ((List.range T.ns).flatMap fun s =>
    (T.frontRows s).take (T.supernodes s).width).Nodup := by
  have hcols : ((List.range T.ns).flatMap (ownColumns T)).Nodup :=
    h.covers.columns.nodup_iff.mpr (List.nodup_range.map Nat.cast_injective)
  have hmap : (List.range T.ns).flatMap (ownColumns T) = ((List.range T.ns).flatMap fun s =>
      (T.frontRows s).take (T.supernodes s).width).map (↑) := List.map_flatMap.symm
  rw [hmap] at hcols
  exact hcols.of_map

/-- What the fronts before `m` take or hold back. -/
theorem flows (h : RowFlow T n pivots delayed) {m : ℕ} (hm : m ≤ T.ns) :
    ((List.range m).flatMap pivots ++ (openNodes T.parent (List.range m)).flatMap delayed).Perm
      ((List.range m).flatMap fun s => (T.frontRows s).take (T.supernodes s).width) := by
  have hperm := h.flow.flows h.covers hm
  have hown : (List.range m).flatMap (ownColumns T) = ((List.range m).flatMap fun s =>
      (T.frontRows s).take (T.supernodes s).width).map (↑) := List.map_flatMap.symm
  have hpivots : ((List.range m).flatMap fun s =>
      ((pivots s).map fun r : ℕ => Pivot.one (r : ℤ)).flatMap Pivot.columns) =
      ((List.range m).flatMap pivots).map (↑) := by
    rw [List.map_flatMap]
    exact List.flatMap_congr fun s _ => columns_ones (pivots s)
  rw [hown, hpivots, ← List.map_flatMap, ← List.map_append] at hperm
  exact (List.map_perm_map_iff Nat.cast_injective).mp hperm

/-- The columns, each a pivot row once. -/
theorem pivots_perm (h : RowFlow T n pivots delayed) :
    ((List.range T.ns).flatMap pivots).Perm (List.range n) := by
  have hperm := h.flow.pivots_perm h.covers
  have hpivots : ((List.range T.ns).flatMap fun s =>
      (pivots s).map fun r : ℕ => Pivot.one (r : ℤ)).flatMap Pivot.columns =
      ((List.range T.ns).flatMap pivots).map (↑) := by
    rw [List.flatMap_assoc, List.map_flatMap]
    exact List.flatMap_congr fun s _ => columns_ones (pivots s)
  rw [hpivots] at hperm
  exact (List.map_perm_map_iff Nat.cast_injective).mp hperm

theorem lt_n (h : RowFlow T n pivots delayed) (hs : s < T.ns) (hr : r ∈ pivots s) : r < n :=
  List.mem_range.mp (h.pivots_perm.subset (List.mem_flatMap.mpr ⟨s, List.mem_range.mpr hs, hr⟩))

theorem exists_pivot (h : RowFlow T n pivots delayed) (hr : r < n) : ∃ s < T.ns, r ∈ pivots s := by
  obtain ⟨s, hs, hrs⟩ := List.mem_flatMap.mp (h.pivots_perm.symm.subset (List.mem_range.mpr hr))
  exact ⟨s, List.mem_range.mp hs, hrs⟩

/-- A row is a pivot row of one front. -/
theorem pivot_unique (h : RowFlow T n pivots delayed) (hs : s < T.ns) (ht : t < T.ns)
    (hrs : r ∈ pivots s) (hrt : r ∈ pivots t) : s = t :=
  piece_unique (h.pivots_perm.nodup_iff.mpr List.nodup_range) hs ht hrs hrt

/-- A front with a pivot row of another one is below that one. -/
theorem above_of_row (h : RowFlow T n pivots delayed) (hs : s < T.ns) (ht : t < T.ns)
    (hr : r ∈ rowsOf T pivots delayed t) (hrs : r ∈ pivots s) : t = s ∨ Below T.parent t s := by
  obtain ⟨u, hu, hup, hru⟩ := h.pivot_above ht hr
  obtain rfl := h.pivot_unique hs hu hrs hru
  exact hup

/-! ## The rows of one front -/

/-- The columns that a front takes or delays are columns of the supernodes up to it. -/
theorem own_le (h : RowFlow T n pivots delayed) (hs : s < T.ns) (hr : r ∈ pivots s ++ delayed s) :
    ∃ d ≤ s, r ∈ (T.frontRows d).take (T.supernodes d).width := by
  induction s using Nat.strong_induction_on with
  | _ s ih =>
    rcases List.mem_append.mp ((h.takes s hs).subset hr) with hr | hr
    · obtain ⟨c, hc, hrc⟩ := List.mem_flatMap.mp hr
      have hlt := T.child_lt hs hc
      obtain ⟨d, hd, hrd⟩ := ih c hlt (hlt.trans hs) (List.mem_append_right _ hrc)
      exact ⟨d, hd.trans hlt.le, hrd⟩
    · exact ⟨s, le_rfl, hr⟩

/-- The rows below are columns of larger supernodes. -/
theorem own_gt (h : RowFlow T n pivots delayed) (hs : s < T.ns) (hr : r ∈ belowRows T s) :
    ∃ d, s < d ∧ d < T.ns ∧ r ∈ (T.frontRows d).take (T.supernodes d).width := by
  induction hd : T.ns - s using Nat.strong_induction_on generalizing s with
  | _ d ih =>
    obtain ⟨p, hp, hrp⟩ := h.contained.parent s hs r hr
    have hlt := T.lt_parent hs hp
    have hpn := h.covers.parent_lt s hs p hp
    rw [← List.take_append_drop (T.supernodes p).width (T.frontRows p)] at hrp
    rcases List.mem_append.mp hrp with hrp | hrp
    · exact ⟨p, hlt, hpn, hrp⟩
    · obtain ⟨d, hpd, hdn, hrd⟩ := ih (T.ns - p) (by omega) hpn hrp rfl
      exact ⟨d, hlt.trans hpd, hdn, hrd⟩

/-- The columns that a front takes or delays are distinct. -/
theorem nodup_eligible (h : RowFlow T n pivots delayed) (hs : s < T.ns) :
    (pivots s ++ delayed s).Nodup := by
  have hown := h.nodup_own
  have hsub : ((List.range (s + 1)).flatMap fun s =>
      (T.frontRows s).take (T.supernodes s).width).Sublist
      ((List.range T.ns).flatMap fun s => (T.frontRows s).take (T.supernodes s).width) :=
    (List.range_sublist.mpr (Nat.succ_le_of_lt hs)).flatMap _
  have hnodup := (h.flows (Nat.succ_le_of_lt hs)).nodup_iff.mpr (hsub.nodup hown)
  -- the front itself is open behind its number
  have hopen : s ∈ openNodes T.parent (List.range (s + 1)) := by
    refine mem_openNodes.mpr ⟨List.mem_range.mpr (Nat.lt_succ_self s), fun p hp hmem => ?_⟩
    have hlt := T.lt_parent hs hp
    have hle := List.mem_range.mp hmem
    omega
  have hpivots : (pivots s).Sublist ((List.range (s + 1)).flatMap pivots) :=
    List.sublist_flatten_of_mem
      (List.mem_map_of_mem (List.mem_range.mpr (Nat.lt_succ_self s)))
  have hdelayed : (delayed s).Sublist ((openNodes T.parent (List.range (s + 1))).flatMap delayed) :=
    List.sublist_flatten_of_mem (List.mem_map_of_mem hopen)
  exact (hpivots.append hdelayed).nodup hnodup

/-- The rows of a front are distinct. -/
theorem nodup (h : RowFlow T n pivots delayed) (hs : s < T.ns) :
    (rowsOf T pivots delayed s).Nodup := by
  refine List.nodup_append.mpr ⟨h.nodup_eligible hs,
    (List.drop_sublist _ _).nodup (h.contained.nodup s hs), ?_⟩
  rintro r hr _ hr' rfl
  obtain ⟨d, hd, hrd⟩ := h.own_le hs hr
  obtain ⟨d', hd', hdn, hrd'⟩ := h.own_gt hs hr'
  have hsame := piece_unique h.nodup_own (hd.trans_lt (hd'.trans hdn)) hdn hrd hrd'
  omega

end RowFlow

end Factor
end SmfSolver
