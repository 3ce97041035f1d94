/-
  SmfSolver.Factor.PivotOrderSpec

  When `realized_pivot_order` gives the elimination order.

  * `OrderLoop.run_spec`: the loop over D entries that stand for these pivots.
  * `leanFlow`, `legacyFlow`: the fronts of both engines take each column once.
  * `numIperm_spec`: the legacy engine's numerical order and its inverse.
  * `realizedPivotOrder_realizes`: the order is right of every lean factor, and of the
    legacy ones without a zero pivot.  The legacy D entries carry no mark: their zero pivots
    stay in line, and none is counted.
-/
import SmfSolver.Factor.FrontPivots

namespace SmfSolver
namespace Factor

open Multifrontal Kernel

/-! ## The loop -/

section Loop

variable {n : ℕ} {fk : FactorOrder} {orig : ℤ → ℕ} {marked : Bool}

/-- The D entry stands for the pivot, of which the columns are named by `orig`. -/
def PivotEntry.StandsFor (n : ℕ) (fk : FactorOrder) (orig : ℤ → ℕ) (marked : Bool)
    (e : PivotEntry) : Pivot → Prop
  | .one c => e.wasZero = false ∧ e.tag ≠ 2 ∧ fk.orig n e.row0 = some (orig c)
  | .two a b => e.wasZero = false ∧ e.tag = 2 ∧ fk.orig n e.row0 = some (orig a) ∧
      fk.orig n e.row1 = some (orig b)
  | .zero c => e.wasZero = marked ∧ e.tag ≠ 2 ∧ fk.orig n e.row0 = some (orig c)

/-- The columns the loop lists in line, and those it keeps for the end. -/
def Pivot.inLine (marked : Bool) (p : Pivot) : List ℤ :=
  if marked && p.isZero then [] else p.columns

def Pivot.atEnd (marked : Bool) (p : Pivot) : List ℤ :=
  if marked && p.isZero then p.columns else []

/-- The loop over the entries of these pivots. -/
theorem OrderLoop.run_spec {es : List PivotEntry} {ps : List Pivot}
    (h : List.Forall₂ (PivotEntry.StandsFor n fk orig marked) es ps) (st : OrderLoop)
    (hst : st.bad = false) :
    OrderLoop.run n fk es st =
      { perm := st.perm ++ (ps.flatMap (Pivot.inLine marked)).map orig
        pairs := st.pairs ++ (ps.flatMap Pivot.pairColumns).map orig
        zeros := st.zeros ++ (ps.flatMap (Pivot.atEnd marked)).map orig
        bad := false } := by
  induction h generalizing st with
  | nil =>
    cases st
    simp_all [OrderLoop.run]
  | @cons e p es ps he _ ih =>
    -- one entry
    have hstep : st.step n fk e =
        { perm := st.perm ++ (p.inLine marked).map orig
          pairs := st.pairs ++ p.pairColumns.map orig
          zeros := st.zeros ++ (p.atEnd marked).map orig
          bad := false } := by
      cases p with
      | one c =>
        obtain ⟨hz, htag, ha⟩ := he
        simp [OrderLoop.step, hz, htag, ha, hst, Pivot.inLine, Pivot.atEnd, Pivot.isZero,
          Pivot.columns, Pivot.pairColumns]
      | two a b =>
        obtain ⟨hz, htag, ha, hb⟩ := he
        simp [OrderLoop.step, hz, htag, ha, hb, hst, Pivot.inLine, Pivot.atEnd, Pivot.isZero,
          Pivot.columns, Pivot.pairColumns]
      | zero c =>
        obtain ⟨hz, htag, ha⟩ := he
        cases marked <;>
          simp [OrderLoop.step, hz, htag, ha, hst, Pivot.inLine, Pivot.atEnd, Pivot.isZero,
            Pivot.columns, Pivot.pairColumns]
    rw [OrderLoop.run, hstep, if_neg Bool.false_ne_true, ih _ rfl]
    simp only [List.flatMap_cons, List.map_append, List.append_assoc]

end Loop

/-! ## The fronts' columns -/

section Flow

variable {T : AssemblyTree} {K : Type*} [Zero K]

/-- What a lean front delays, computed from its children. -/
theorem leanDelayed_eq (kernels : LeanKernels) {s : ℕ} (hs : s < T.ns) :
    leanDelayed T kernels s = (leanFront T kernels s).delayed (isRoot T s) := by
  refine inPostorder_eq (fun g g' s _ h => ?_) hs
  have helig : eligibleColumns T g s = eligibleColumns T g' s := by
    rw [eligibleColumns, eligibleColumns, List.flatMap_congr h]
  rw [helig]

theorem leanFlow (kernels : LeanKernels) :
    FlowOf T ((Factored.lean kernels : Factored K).frontPivots T) (leanDelayed T kernels) where
  takes s hs _ := by
    rw [leanDelayed_eq kernels hs]
    exact (leanFront T kernels s).takes (isRoot T s)
  root s hs hp := by
    rw [leanDelayed_eq kernels hs, KernelPivots.delayed, isRoot, hp]
    rfl

/-- Distinct rows go in as they are. -/
theorem foldl_pushNew {rows : List ℤ} (acc : List ℤ) (h : (acc ++ rows).Nodup) :
    rows.foldl pushNew acc = acc ++ rows := by
  induction rows generalizing acc with
  | nil => exact (List.append_nil acc).symm
  | cons r rows ih =>
    have hr : r ∉ acc := fun hr =>
      (List.nodup_append.mp h).2.2 r hr r (List.mem_cons_self ..) rfl
    have happend : acc ++ r :: rows = (acc ++ [r]) ++ rows := by
      rw [List.append_assoc, List.singleton_append]
    rw [List.foldl_cons, pushNew, if_neg hr, ih _ (happend ▸ h), happend]

theorem legacyResults_eq (kernels : LegacyKernels K) {s : ℕ} (hs : s < T.ns) :
    legacyResults T kernels s =
      (kernels s (eligibleRows T (legacyResults T kernels) s) (isRoot T s)).result := by
  refine inPostorder_eq (fun g g' s _ h => ?_) hs
  have helig : eligibleRows T g s = eligibleRows T g' s := by
    rw [eligibleRows, eligibleRows, List.flatMap_congr fun c hc => by rw [h c hc]]
  rw [helig]

theorem legacyFlow (kernels : LegacyKernels K) :
    FlowOf T ((Factored.legacy kernels).frontPivots T)
      (fun s => (legacyResults T kernels s).delayedColIds) where
  takes s hs hnodup := by
    have helig : eligibleRows T (legacyResults T kernels) s = _ :=
      foldl_pushNew [] hnodup
    rw [List.nil_append] at helig
    obtain ⟨lp, hlp⟩ : ∃ lp, lp = kernels s (eligibleRows T (legacyResults T kernels) s)
      (isRoot T s) := ⟨_, rfl⟩
    have hres : legacyResults T kernels s = lp.result := hlp ▸ legacyResults_eq kernels hs
    rw [← helig]
    change ((resultPivots (legacyResults T kernels s)).flatMap Pivot.columns ++
      (legacyResults T kernels s).delayedColIds).Perm _
    rw [hres, lp.sorts.columns]
    exact lp.sorts.perm
  root s hs hp := by
    rw [legacyResults_eq kernels hs]
    refine (kernels s _ (isRoot T s)).sorts.root ?_
    rw [isRoot, hp]
    rfl

/-- Every column is in one pivot. -/
theorem Factored.columns_perm {n : ℕ} (E : Factored K) (hT : Covers T n) :
    ((E.pivots T).flatMap Pivot.columns).Perm ((List.range n).map (↑)) := by
  cases E with
  | lean kernels => exact (leanFlow kernels).pivots_perm hT
  | legacy kernels => exact (legacyFlow kernels).pivots_perm hT

end Flow

/-! ## The legacy engine's order -/

section Finalize

variable {K : Type*} {n ns : ℕ} {results : ℕ → FrontResult K} {akPerm : List ℕ}

/-- Rows in range that are not there yet go in as they are. -/
theorem foldl_pushUnseen {rows : List ℕ} (acc : List ℕ) (h : (acc ++ rows).Nodup)
    (hn : ∀ r ∈ rows, r < n) : (rows.map (↑)).foldl (pushUnseen n) acc = acc ++ rows := by
  induction rows generalizing acc with
  | nil => exact (List.append_nil acc).symm
  | cons r rows ih =>
    have hr : r ∉ acc := fun hr =>
      (List.nodup_append.mp h).2.2 r hr r (List.mem_cons_self ..) rfl
    have hrn : r < n := hn r (List.mem_cons_self ..)
    have happend : acc ++ r :: rows = (acc ++ [r]) ++ rows := by
      rw [List.append_assoc, List.singleton_append]
    have hpush : pushUnseen n acc (r : ℤ) = acc ++ [r] :=
      if_pos ⟨Int.natCast_nonneg r, by exact_mod_cast hrn, hr⟩
    rw [List.map_cons, List.foldl_cons, hpush,
      ih _ (happend ▸ h) fun r hr => hn r (List.mem_cons_of_mem _ hr), happend]

/-- Rows that are there stay out. -/
theorem foldl_pushUnseen_of_mem {rows acc : List ℕ} (h : ∀ r ∈ rows, r ∈ acc) :
    (rows.map (↑)).foldl (pushUnseen n) acc = acc := by
  induction rows with
  | nil => rfl
  | cons r rows ih =>
    have hpush : pushUnseen n acc (r : ℤ) = acc :=
      if_neg fun hr => hr.2.2 (h r (List.mem_cons_self ..))
    rw [List.map_cons, List.foldl_cons, hpush]
    exact ih fun r hr => h r (List.mem_cons_of_mem _ hr)

/-- When the fronts accepted every row once, their rows are the numerical order. -/
theorem numPerm_spec {order : List ℕ} (hperm : order.Perm (List.range n))
    (horder : ((List.range ns).flatMap fun s => (results s).acceptedRowIds) = order.map (↑)) :
    numPerm n ns results = order := by
  have hnodup : order.Nodup := hperm.nodup_iff.mpr List.nodup_range
  have hmem : ∀ r, r ∈ order ↔ r < n := fun r => by rw [hperm.mem_iff, List.mem_range]
  rw [numPerm, horder,
    foldl_pushUnseen [] (by rwa [List.nil_append]) fun r hr => (hmem r).mp hr,
    List.nil_append]
  exact foldl_pushUnseen_of_mem fun r hr => (hmem r).mpr (List.mem_range.mp hr)

/-- `num_iperm` is the inverse. -/
theorem numIperm_spec {order : List ℕ} (hperm : order.Perm (List.range n))
    (horder : numPerm n ns results = order) {r : ℕ} (hr : r < n) :
    numIperm n ns results r < n ∧ order.getD (numIperm n ns results r) 0 = r := by
  have hlen : order.length = n := by rw [hperm.length_eq, List.length_range]
  have hnodup : order.Nodup := hperm.nodup_iff.mpr List.nodup_range
  have hfold : ∀ m ≤ n, ∀ i < m,
      ((List.range m).foldl (fun iperm newPiv => Function.update iperm (order.getD newPiv 0) newPiv)
        fun _ => 0) (order.getD i 0) = i := by
    intro m hm
    induction m with
    | zero => exact fun i hi => absurd hi (Nat.not_lt_zero i)
    | succ m ih =>
      intro i hi
      rw [List.range_succ, List.foldl_append, List.foldl_cons, List.foldl_nil]
      by_cases him : i = m
      · rw [him, Function.update_self]
      · have hne : order.getD i 0 ≠ order.getD m 0 := by
          rw [List.getD_eq_getElem _ _ (by omega), List.getD_eq_getElem _ _ (by omega)]
          exact fun h => him ((hnodup.getElem_inj_iff).mp h)
        rw [Function.update_of_ne hne]
        exact ih (by omega) i (by omega)
  have hmem : r ∈ order := hperm.mem_iff.mpr (List.mem_range.mpr hr)
  obtain ⟨i, hi, hir⟩ := List.getElem_of_mem hmem
  have hget : order.getD i 0 = r := by rw [List.getD_eq_getElem _ _ hi, hir]
  have heq : numIperm n ns results r = i := by
    rw [numIperm, horder, ← hget]
    exact hfold n le_rfl i (hlen ▸ hi)
  rw [heq]
  exact ⟨hlen ▸ hi, hget⟩

end Finalize

/-! ## The D entries -/

section Entries

variable {T : AssemblyTree} {n : ℕ} {akPerm : List ℕ}

/-- The D entry of a pivot in the analysis order, marked. -/
def Pivot.entry : Pivot → PivotEntry
  | .one c => ⟨1, false, c, 0⟩
  | .two a b => ⟨2, false, a, b⟩
  | .zero c => ⟨1, true, c, 0⟩

/-- A front stores one D entry for each pivot. -/
theorem storedEntries_eq (rows tags : ℕ → ℤ) (count : ℕ) :
    storedEntries rows tags count = (pivotsOf rows tags count).map Pivot.entry := by
  have hone : ∀ c, storedEntry rows tags c = ((pivotAt rows tags c).map Pivot.entry).toList := by
    intro c
    unfold storedEntry pivotAt
    split_ifs <;> rfl
  rw [storedEntries, pivotsOf, List.map_filterMap, List.filterMap_eq_flatMap_toList]
  exact List.flatMap_congr fun c _ => hone c

theorem FactorOrder.orig_of_lt {fk : FactorOrder} (hlen : fk.perm.length = n) {c : ℤ}
    (h0 : 0 ≤ c) (hn : c < n) : fk.orig n c = some (fk.perm.getD c.toNat 0) :=
  if_neg (by omega)

/-- The columns of pivots that take each column once are in range. -/
theorem mem_columns {ps : List Pivot}
    (h : (ps.flatMap Pivot.columns).Perm ((List.range n).map (↑))) {p : Pivot} (hp : p ∈ ps) {c : ℤ}
    (hc : c ∈ p.columns) : 0 ≤ c ∧ c < n := by
  have hmem := h.mem_iff.mp (List.mem_flatMap.mpr ⟨p, hp, hc⟩)
  obtain ⟨m, hm, rfl⟩ := List.mem_map.mp hmem
  exact ⟨Int.natCast_nonneg m, by exact_mod_cast List.mem_range.mp hm⟩

/-- The entries of a lean factor stand for its pivots. -/
theorem lean_entries {K : Type*} [Zero K] (hT : Covers T n) (hak : akPerm.length = n)
    (kernels : LeanKernels) :
    List.Forall₂ (PivotEntry.StandsFor n (leanFactor T kernels akPerm)
        (fun c => akPerm.getD c.toNat 0) true)
      (leanFactor T kernels akPerm).diagEntries
        ((Factored.lean kernels : Factored K).pivots T) := by
  have hcols := (Factored.lean kernels : Factored K).columns_perm hT
  have heq : (leanFactor T kernels akPerm).diagEntries =
      ((Factored.lean kernels : Factored K).pivots T).map Pivot.entry := by
    rw [Factored.pivots, List.map_flatMap]
    exact List.flatMap_congr fun s _ => storedEntries_eq ..
  rw [heq, List.forall₂_map_left_iff]
  refine List.forall₂_same.mpr fun p hp => ?_
  have horig : ∀ c ∈ p.columns, (leanFactor T kernels akPerm).orig n c =
      some (akPerm.getD c.toNat 0) := fun c hc =>
    FactorOrder.orig_of_lt hak (mem_columns hcols hp hc).1 (mem_columns hcols hp hc).2
  cases p with
  | one c => exact ⟨rfl, (by decide : (1 : ℤ) ≠ 2), horig c (List.mem_singleton_self c)⟩
  | two a b =>
    exact ⟨rfl, rfl, horig a (List.mem_cons_self ..),
      horig b (List.mem_cons_of_mem _ (List.mem_singleton_self b))⟩
  | zero c => exact ⟨rfl, (by decide : (1 : ℤ) ≠ 2), horig c (List.mem_singleton_self c)⟩

theorem blockPivot_one {K : Type*} {b : FrontDiagBlock K} {c : ℤ} (h : blockPivot b = .one c) :
    b.tag ≠ 2 ∧ b.row0 = c := by
  unfold blockPivot at h
  split_ifs at h with htag
  exact ⟨htag, Pivot.one.inj h⟩

theorem blockPivot_two {K : Type*} {b : FrontDiagBlock K} {a c : ℤ} (h : blockPivot b = .two a c) :
    b.tag = 2 ∧ b.row0 = a ∧ b.row1 = c := by
  unfold blockPivot at h
  split_ifs at h with htag
  exact ⟨htag, Pivot.two.inj h⟩

variable {K : Type*} [Zero K]

/-- The legacy fronts accept their pivots' columns. -/
theorem legacy_accepted (kernels : LegacyKernels K) {s : ℕ} (hs : s < T.ns) :
    (resultPivots (legacyResults T kernels s)).flatMap Pivot.columns =
        (legacyResults T kernels s).acceptedRowIds ∧
      (legacyResults T kernels s).dBlocks.map blockPivot =
        (resultPivots (legacyResults T kernels s)).map Pivot.unmarked := by
  rw [legacyResults_eq kernels hs]
  exact ⟨(kernels s _ _).sorts.columns, (kernels s _ _).sorts.blocks⟩

/-- Through its numerical order and back, a legacy factor names the analysis' columns. -/
theorem legacy_orig (hT : Covers T n) (hak : akPerm.length = n) (kernels : LegacyKernels K) {c : ℤ}
    (h0 : 0 ≤ c) (hn : c < n) :
    (finalizeFactor n T.ns (legacyResults T kernels) akPerm).orig n
      (numIperm n T.ns (legacyResults T kernels) c.toNat) = some (akPerm.getD c.toNat 0) := by
  have hcols := (Factored.legacy kernels).columns_perm hT
  obtain ⟨order, hdef⟩ : ∃ order, order =
      (((Factored.legacy kernels).pivots T).flatMap Pivot.columns).map Int.toNat := ⟨_, rfl⟩
  have hperm : order.Perm (List.range n) := by
    have h := hcols.map Int.toNat
    rw [List.map_map] at h
    refine hdef ▸ h.trans (.of_eq ?_)
    exact (List.map_congr_left fun m _ => Int.toNat_natCast m).trans (List.map_id _)
  have hback : order.map (↑) = ((Factored.legacy kernels).pivots T).flatMap Pivot.columns := by
    rw [hdef, List.map_map]
    refine (List.map_congr_left fun c hc => ?_).trans (List.map_id _)
    obtain ⟨p, hp, hcp⟩ := List.mem_flatMap.mp hc
    exact Int.toNat_of_nonneg (mem_columns hcols hp hcp).1
  -- a legacy front lists its pivots in the order of its columns
  have hnum : numPerm n T.ns (legacyResults T kernels) = order := by
    refine numPerm_spec hperm ?_
    rw [hback, Factored.pivots, List.flatMap_assoc]
    exact List.flatMap_congr fun s hs => (legacy_accepted kernels (List.mem_range.mp hs)).1.symm
  obtain ⟨hlt, hget⟩ := numIperm_spec hperm hnum (show c.toNat < n by omega)
  obtain ⟨i, hi⟩ : ∃ i, i = numIperm n T.ns (legacyResults T kernels) c.toNat := ⟨_, rfl⟩
  rw [← hi] at hlt hget ⊢
  have hlen : (finalizeFactor n T.ns (legacyResults T kernels) akPerm).perm.length = n := by
    rw [finalizeFactor, List.length_map, List.length_range]
  rw [FactorOrder.orig_of_lt hlen (Int.natCast_nonneg i) (by exact_mod_cast hlt),
    Int.toNat_natCast]
  have hval : (finalizeFactor n T.ns (legacyResults T kernels) akPerm).perm.getD i 0 =
      if (numPerm n T.ns (legacyResults T kernels)).getD i 0 < akPerm.length then
        akPerm.getD ((numPerm n T.ns (legacyResults T kernels)).getD i 0) 0 else i := by
    rw [List.getD_eq_getElem _ _ (by omega)]
    simp [finalizeFactor]
  rw [hval, hnum, hget, if_pos (by omega)]

/-- The entries of a legacy factor stand for its pivots, none marked. -/
theorem legacy_entries (hT : Covers T n) (hak : akPerm.length = n) (kernels : LegacyKernels K) :
    List.Forall₂ (PivotEntry.StandsFor n
        (finalizeFactor n T.ns (legacyResults T kernels) akPerm)
        (fun c => akPerm.getD c.toNat 0) false)
      (finalizeFactor n T.ns (legacyResults T kernels) akPerm).diagEntries
      ((Factored.legacy kernels).pivots T) := by
  have hcols := (Factored.legacy kernels).columns_perm hT
  have hsame : List.Forall₂ (fun s t => s = t ∧ s < T.ns) (List.range T.ns) (List.range T.ns) :=
    List.forall₂_same.mpr fun s hs => ⟨rfl, List.mem_range.mp hs⟩
  refine List.rel_flatMap hsame ?_
  rintro s t ⟨rfl, hs⟩
  rw [List.forall₂_map_left_iff]
  -- block by block
  have hblocks : List.Forall₂ (fun b p => blockPivot b = p.unmarked)
      (legacyResults T kernels s).dBlocks (resultPivots (legacyResults T kernels s)) := by
    have h := (legacy_accepted (T := T) kernels hs).2
    rw [← List.forall₂_eq_eq_eq, List.forall₂_map_left_iff, List.forall₂_map_right_iff] at h
    exact h
  have hmem : ∀ p ∈ resultPivots (legacyResults T kernels s), ∀ c ∈ p.columns,
      (finalizeFactor n T.ns (legacyResults T kernels) akPerm).orig n
        (numIperm n T.ns (legacyResults T kernels) c.toNat) = some (akPerm.getD c.toNat 0) := by
    intro p hp c hc
    have hp' : p ∈ (Factored.legacy kernels).pivots T :=
      List.mem_flatMap.mpr ⟨s, List.mem_range.mpr hs, hp⟩
    exact legacy_orig hT hak kernels (mem_columns hcols hp' hc).1 (mem_columns hcols hp' hc).2
  refine List.Forall₂.flip (((List.forall₂_and_left _ _).mpr ⟨hmem, hblocks.flip⟩).imp ?_)
  rintro p b ⟨horig, hb⟩
  cases p with
  | one c =>
    obtain ⟨htag, hrow⟩ := blockPivot_one hb
    exact ⟨rfl, htag, hrow ▸ horig c (List.mem_singleton_self c)⟩
  | two a b' =>
    obtain ⟨htag, hrow0, hrow1⟩ := blockPivot_two hb
    refine ⟨rfl, htag, hrow0 ▸ horig a (List.mem_cons_self ..), ?_⟩
    dsimp only
    rw [if_pos htag, hrow1]
    exact horig b' (List.mem_cons_of_mem _ (List.mem_singleton_self b'))
  | zero c =>
    obtain ⟨htag, hrow⟩ := blockPivot_one hb
    exact ⟨rfl, htag, hrow ▸ horig c (List.mem_singleton_self c)⟩

end Entries

/-! ## The order -/

section Order

variable {ps : List Pivot} {p : Pivot}

theorem inLine_marked (ps : List Pivot) :
    ps.flatMap (Pivot.inLine true) = (ps.filter (!·.isZero)).flatMap Pivot.columns ∧
      ps.flatMap (Pivot.atEnd true) = (ps.filter (·.isZero)).flatMap Pivot.columns := by
  induction ps with
  | nil => exact ⟨rfl, rfl⟩
  | cons p ps ih =>
    obtain ⟨ihLine, ihEnd⟩ := ih
    rw [List.flatMap_cons, List.flatMap_cons, ihLine, ihEnd, List.filter_cons, List.filter_cons]
    cases p <;> exact ⟨rfl, rfl⟩

/-- Without a mark every column is in line. -/
theorem inLine_unmarked (ps : List Pivot) :
    ps.flatMap (Pivot.inLine false) = ps.flatMap Pivot.columns ∧
      ps.flatMap (Pivot.atEnd false) = [] :=
  ⟨rfl, List.flatMap_eq_nil_iff.mpr fun _ _ => rfl⟩

theorem inLine_append_atEnd (marked : Bool) (ps : List Pivot) :
    (ps.flatMap (Pivot.inLine marked) ++ ps.flatMap (Pivot.atEnd marked)).Perm
      (ps.flatMap Pivot.columns) := by
  refine (List.flatMap_append_perm ps _ _).trans (.of_eq (List.flatMap_congr fun p _ => ?_))
  unfold Pivot.inLine Pivot.atEnd
  split_ifs
  · exact List.nil_append _
  · exact List.append_nil _

/-- A pivot's columns stand together. -/
theorem columns_within (hp : p ∈ ps) : p.columns <:+: ps.flatMap Pivot.columns := by
  obtain ⟨l, r, rfl⟩ := List.append_of_mem hp
  exact ⟨l.flatMap Pivot.columns, r.flatMap Pivot.columns, by
    rw [List.flatMap_append, List.flatMap_cons, List.append_assoc]⟩

theorem length_zeroColumns (ps : List Pivot) :
    ((ps.filter (·.isZero)).flatMap Pivot.columns).length = (ps.filter (·.isZero)).length := by
  induction ps with
  | nil => rfl
  | cons p ps ih =>
    rw [List.filter_cons]
    cases p with
    | zero c =>
      change (([c] : List ℤ) ++ (ps.filter (·.isZero)).flatMap Pivot.columns).length = _
      rw [List.length_append, ih, Nat.add_comm]
      rfl
    | one c => exact ih
    | two a b => exact ih

variable {T : AssemblyTree} {n : ℕ} {akPerm : List ℕ} {K : Type*} [Zero K]

/-- The columns by their original names are a permutation. -/
theorem map_orig_perm (hak : akPerm.Perm (List.range n)) {cols : List ℤ}
    (h : cols.Perm ((List.range n).map (↑))) :
    (cols.map fun c => akPerm.getD c.toNat 0).Perm (List.range n) := by
  have hlen : akPerm.length = n := by rw [hak.length_eq, List.length_range]
  refine (h.map _).trans (.trans (.of_eq ?_) hak)
  rw [List.map_map]
  refine List.ext_getElem (by simp [hlen]) fun i hi hi' => ?_
  simp [hi']

/-- The order read off a factor. -/
theorem realizedPivotOrder_eq (hT : Covers T n) (hak : akPerm.Perm (List.range n))
    (E : Factored K) :
    realizedPivotOrder n akPerm (E.factorKeep T n akPerm) =
      { perm := ((E.pivots T).flatMap (Pivot.inLine E.ofLeanFronts) ++
          (E.pivots T).flatMap (Pivot.atEnd E.ofLeanFronts)).map fun c => akPerm.getD c.toNat 0
        pairs := ((E.pivots T).flatMap Pivot.pairColumns).map fun c => akPerm.getD c.toNat 0
        zeroPivots := ((E.pivots T).flatMap (Pivot.atEnd E.ofLeanFronts)).length } := by
  have hlen : akPerm.length = n := by rw [hak.length_eq, List.length_range]
  have hentries : List.Forall₂ (PivotEntry.StandsFor n (E.factorKeep T n akPerm)
      (fun c => akPerm.getD c.toNat 0) E.ofLeanFronts) (E.factorKeep T n akPerm).diagEntries
      (E.pivots T) := by
    cases E with
    | lean kernels => exact lean_entries hT hlen kernels
    | legacy kernels => exact legacy_entries hT hlen kernels
  have hposdef : (E.factorKeep T n akPerm).isPosdef = false := by cases E <;> rfl
  have hrun := OrderLoop.run_spec hentries {} rfl
  have hcols := ((inLine_append_atEnd E.ofLeanFronts (E.pivots T)).trans
    (E.columns_perm hT)).length_eq
  rw [List.length_append, List.length_map, List.length_range] at hcols
  unfold realizedPivotOrder
  rw [hposdef, if_neg Bool.false_ne_true, hrun]
  simp only [List.nil_append]
  rw [if_neg, List.map_append, List.length_map]
  rw [List.length_append, List.length_map, List.length_map, hcols]
  exact fun hbad => hbad.elim Bool.false_ne_true (absurd rfl)

/-- `realized_pivot_order` returns the original columns as the factorization eliminated them,
    the pairs of the 2x2 pivots, and the zero pivots last and counted: for every
    factorization of a lean engine, and for those of the legacy engine without a zero
    pivot. -/
theorem realizedPivotOrder_realizes (hT : Covers T n) (hak : akPerm.Perm (List.range n))
    (E : Factored K) :
    (realizedPivotOrder n akPerm (E.factorKeep T n akPerm)).Realizes n akPerm (E.pivots T) ↔
      (E.ofLeanFronts = true ∨ ∀ p ∈ E.pivots T, p.isZero = false) := by
  rw [realizedPivotOrder_eq hT hak]
  constructor
  · intro h
    refine or_iff_not_imp_left.mpr fun hlegacy p hp => ?_
    have hzero := h.zeroPivots
    dsimp only at hzero
    rw [Bool.not_eq_true] at hlegacy
    rw [hlegacy, (inLine_unmarked _).2] at hzero
    have hnil := List.filter_eq_nil_iff.mp (List.eq_nil_of_length_eq_zero hzero.symm) p hp
    exact Bool.eq_false_iff.mpr hnil
  · intro h
    -- the columns in line are those of the nonzero pivots
    have hsplit : (E.pivots T).flatMap (Pivot.inLine E.ofLeanFronts) =
          ((E.pivots T).filter (!·.isZero)).flatMap Pivot.columns ∧
        (E.pivots T).flatMap (Pivot.atEnd E.ofLeanFronts) =
          ((E.pivots T).filter (·.isZero)).flatMap Pivot.columns := by
      cases hlean : E.ofLeanFronts with
      | true => exact inLine_marked _
      | false =>
        have hno : ∀ p ∈ E.pivots T, p.isZero = false :=
          h.resolve_left (by rw [hlean]; exact Bool.false_ne_true)
        have hall : (E.pivots T).filter (!·.isZero) = E.pivots T :=
          List.filter_eq_self.mpr fun p hp => by rw [hno p hp]; rfl
        have hnone : (E.pivots T).filter (·.isZero) = [] :=
          List.filter_eq_nil_iff.mpr fun p hp => by rw [hno p hp]; exact Bool.false_ne_true
        rw [hall, hnone]
        exact inLine_unmarked _
    have hperm := (inLine_append_atEnd E.ofLeanFronts (E.pivots T)).trans (E.columns_perm hT)
    refine ⟨map_orig_perm hak hperm, ?_, rfl, fun a b hab => ?_, ?_⟩
    · dsimp only
      rw [hsplit.1, hsplit.2]
    · dsimp only
      rw [hsplit.1]
      have hmem : Pivot.two a b ∈ (E.pivots T).filter (!·.isZero) :=
        List.mem_filter.mpr ⟨hab, rfl⟩
      have hin : [a, b] <:+: ((E.pivots T).filter (!·.isZero)).flatMap Pivot.columns ++
          (E.pivots T).flatMap (Pivot.atEnd E.ofLeanFronts) :=
        (columns_within hmem).trans (List.prefix_append _ _).isInfix
      exact hin.map fun c => akPerm.getD c.toNat 0
    · dsimp only
      rw [hsplit.2, length_zeroColumns]

end Order

theorem threeRoots_children (s c : ℕ) :
    c ∈ ([] : List ℕ) ↔ (⟨c, c + 1, none⟩ : Supernode).parent = some s :=
  iff_of_false List.not_mem_nil nofun

/-- Three supernodes of one column, all roots. -/
def threeRoots : AssemblyTree where
  ns := 3
  supernodes := fun s => ⟨s, s + 1, none⟩
  children := fun _ => []
  frontRows := fun s => [s]
  mem_children := threeRoots_children
  children_nodup := fun _ => List.nodup_nil
  postorder :=
    postorder_of_first id (fun _ _ => le_rfl) fun s _ x => by
      constructor
      · intro h
        induction h with
        | single h => cases h
        | tail _ h _ => cases h
      · intro h
        exact absurd h.2 (not_lt.mpr h.1)

theorem threeRoots_covers : Covers threeRoots 3 where
  parent_lt := nofun
  columns := by decide

/-- The fronts of the diagonal matrix `diag(0, 1, 2)`, with the reference kernel. -/
def diagKernels : LegacyKernels ℚ := fun s eligible isRoot =>
  let front : NumericFront ℚ :=
    { rowIds := eligible
      numEligible := eligible.length
      data := fun i j => if i = j then s else 0
      eligible_le := le_rfl }
  { result := (factorFrontReference defaultFrontControl (1 / 10 ^ 20) isRoot (fun _ _ => 0) front).2
    sorts := factorFrontReference_sorts
      ⟨by norm_num [defaultFrontControl], .inl (by norm_num)⟩ isRoot _ front List.take_length }

theorem realizedPivotOrder_realizes_diag :
    (realizedPivotOrder 3 [0, 1, 2] ((Factored.legacy diagKernels).factorKeep threeRoots 3
        [0, 1, 2])).Realizes 3 [0, 1, 2] ((Factored.legacy diagKernels).pivots threeRoots) ↔
      ((Factored.legacy diagKernels).ofLeanFronts = true ∨
        ∀ p ∈ (Factored.legacy diagKernels).pivots threeRoots, p.isZero = false) :=
  realizedPivotOrder_realizes threeRoots_covers (.refl _) _

/-- The zero pivot of `diag(0, 1, 2)` stays first, and is not counted. -/
theorem realizedPivotOrder_zero_first :
    realizedPivotOrder 3 [0, 1, 2] ((Factored.legacy diagKernels).factorKeep threeRoots 3
        [0, 1, 2]) = { perm := [0, 1, 2] } ∧
      (Factored.legacy diagKernels).pivots threeRoots = [.zero 0, .one 1, .one 2] ∧
      ¬ (realizedPivotOrder 3 [0, 1, 2] ((Factored.legacy diagKernels).factorKeep threeRoots 3
        [0, 1, 2])).Realizes 3 [0, 1, 2] ((Factored.legacy diagKernels).pivots threeRoots) := by
  have horder : realizedPivotOrder 3 [0, 1, 2]
      ((Factored.legacy diagKernels).factorKeep threeRoots 3 [0, 1, 2]) =
        { perm := [0, 1, 2] } := by decide +kernel
  have hpivots : (Factored.legacy diagKernels).pivots threeRoots =
      [.zero 0, .one 1, .one 2] := by decide +kernel
  refine ⟨horder, hpivots, fun h => ?_⟩
  have hzero := h.zeroPivots
  rw [horder, hpivots] at hzero
  exact absurd hzero (by decide)

end Factor
end SmfSolver
