/-
  SmfSolver.Symbolic.AmalgamateSpec

  `amalgamate_relaxed` and the detect / `amalgamate_supernodes` path both return a
  `SupernodeTree`.

  The relaxed pass walks the survivors in a postorder of their tree (`survivors_visits`)
  and emits the columns of each (`Numbering`).  The pass over neighbours only ever merges
  a supernode into the next one (`Neighbours`), so its survivors stay in order.
-/
import SmfSolver.Symbolic.CountsSpec
import SmfSolver.Symbolic.SupernodesSpec

namespace SmfSolver
namespace Symbolic

open Lib
open Multifrontal (Supernode)

/-! ## The postorder of the survivors -/

section Post

variable {nsn : ℕ} {sparent : ℕ → Option ℕ} {lead : ℕ → ℕ}

/-- The survivors without a parent. -/
def leadRoots (nsn : ℕ) (sparent : ℕ → Option ℕ) (lead : ℕ → ℕ) : List ℕ :=
  (List.range nsn).filter fun g => decide (lead g = g) && (leadParent sparent lead g).isNone

theorem mem_leadRoots {g : ℕ} : g ∈ leadRoots nsn sparent lead ↔
    g < nsn ∧ lead g = g ∧ leadParent sparent lead g = none := by
  unfold leadRoots
  rw [List.mem_filter, List.mem_range, Bool.and_eq_true, decide_eq_true_eq,
    Option.isNone_iff_eq_none]

/-- Above a survivor there are only survivors. -/
theorem Joins.up_lead (h : Joins nsn sparent lead) (hup : Upward nsn sparent) {g r : ℕ}
    (hg : g < nsn) (hlead : lead g = g)
    (hgr : (forestOf nsn (leadParent sparent lead) (h.leadParent_upward hup)).Up g r) :
    r < nsn ∧ lead r = r := by
  induction hgr with
  | refl => exact ⟨hg, hlead⟩
  | @tail y z _ hstep ih =>
    obtain ⟨-, p, hp, rfl⟩ := leadParent_eq_some.mp hstep
    obtain ⟨-, hlt, hidem⟩ := h.lead_spec hup (hup y ih.1 p hp).2
    exact ⟨hlt, hidem⟩

/-- The search over the groups emits every survivor once, before its parent. -/
theorem Joins.survivors_visits (h : Joins nsn sparent lead) (hup : Upward nsn sparent) :
    ∃ post, dfs (childrenCsr nsn (leadParent sparent lead)).get? (2 * nsn + 1)
        (rootStack nsn fun g => decide (lead g = g) && (leadParent sparent lead g).isNone) []
        = some post ∧
      post.Nodup ∧ (∀ g, g ∈ post ↔ g < nsn ∧ lead g = g) ∧
      ∀ (i g q : ℕ), post[i]? = some g → leadParent sparent lead g = some q →
        ∃ i', i < i' ∧ post[i']? = some q := by
  have hlup := h.leadParent_upward hup
  set T := forestOf nsn (leadParent sparent lead) hlup with hT
  have hvertex : ∀ v ∈ leadRoots nsn sparent lead, T.isVertex v :=
    fun v hv => (mem_leadRoots.mp hv).1
  -- a root has no parent, so no root is above another
  have hapart : T.Apart (leadRoots nsn sparent lead) := by
    refine ⟨List.nodup_range.filter _, fun r hr r' _ hrr => ?_⟩
    rcases hrr.cases_head with heq | ⟨y, hy, -⟩
    · exact heq
    · exact absurd ((mem_leadRoots.mp hr).2.2.symm.trans hy) (by simp)
  obtain ⟨post, hpost⟩ := T.exists_visits (leadRoots nsn sparent lead)
  have hnodup := RootedForest.visits_nodup hpost hvertex hapart
  have hmem : ∀ g, g ∈ post ↔ g < nsn ∧ lead g = g := by
    intro g
    refine (RootedForest.mem_visits hpost hvertex).trans ⟨?_, ?_⟩
    · rintro ⟨hg, r, hr, hgr⟩
      refine ⟨hg, ?_⟩
      rcases hgr.cases_head with rfl | ⟨y, hy, -⟩
      · exact (mem_leadRoots.mp hr).2.1
      · exact (leadParent_eq_some.mp hy).1
    · rintro ⟨hg, hlead⟩
      obtain ⟨r, hr, hgr⟩ := exists_root hlup hg
      obtain ⟨hrn, hrlead⟩ := h.up_lead hup hg hlead hgr
      exact ⟨hg, r, mem_leadRoots.mpr ⟨hrn, hrlead,
        Option.isNone_iff_eq_none.mp (List.mem_filter.mp hr).2⟩, hgr⟩
  -- the fuel covers a push and a pop of each survivor
  have hlen : post.length ≤ nsn := by
    have hsub : post ⊆ List.range nsn := fun g hg => List.mem_range.mpr ((hmem g).mp hg).1
    have := (List.subperm_of_subset hnodup hsub).length_le
    rwa [List.length_range] at this
  refine ⟨post, ?_, hnodup, hmem, fun i g q hg hq => ?_⟩
  · rw [rootStack_eq]
    exact hpost.dfs_eq (fun v i => Csr.get?_eq _ v i) (by omega)
  · -- the parent stands behind its subtrees
    have hgn : g < nsn := ((hmem g).mp (List.mem_of_getElem? hg)).1
    have hgkid : g ∈ T.kids q := (T.mem_kids g q).mpr ⟨hgn, hq⟩
    have hqpost : q ∈ post := by
      obtain ⟨hg', r, hr, hgr⟩ :=
        (RootedForest.mem_visits hpost hvertex).mp (List.mem_of_getElem? hg)
      refine (RootedForest.mem_visits hpost hvertex).mpr ⟨(hlup g hgn q hq).2, ?_⟩
      rcases hgr.cases_head with rfl | ⟨y, hy, hup'⟩
      · rw [(mem_leadRoots.mp hr).2.2] at hq
        cases hq
      · rw [show T.parent g = some q from hq] at hy
        obtain rfl := Option.some.inj hy
        exact ⟨r, hr, hup'⟩
    obtain ⟨pre, sub, rest, heq, hsub⟩ := hpost.split hqpost
    obtain ⟨k, hk⟩ := List.mem_iff_getElem?.mp (hsub.mem_of_mem hgkid)
    have hksub : k < sub.length := (List.getElem?_eq_some_iff.mp hk).1
    have hpos : post[pre.length + k]? = some g := by
      rw [heq, List.append_assoc, List.getElem?_append_right (Nat.le_add_right _ _),
        Nat.add_sub_cancel_left, List.getElem?_append_left hksub, hk]
    have hi : i = pre.length + k :=
      (List.getElem?_inj (List.getElem?_eq_some_iff.mp hg).1 hnodup).mp (hg.trans hpos.symm)
    refine ⟨(pre ++ sub).length, by rw [List.length_append]; omega, ?_⟩
    rw [heq, List.getElem?_append_right le_rfl, Nat.sub_self]
    rfl

end Post

/-! ## The columns of the groups -/

section Columns

variable {n : ℕ} {starts : ℕ → Bool} {F : Fundamental} {lead : ℕ → ℕ}

/-- The groups' widths count their columns. -/
theorem groupWidths_eq (hF : Ranges starts n F) :
    groupWidths F lead
      = Csr.countKeys ((List.range n).map fun j => (lead (F.snodeOf j), j)) := by
  -- after `m` supernodes the columns before the next one are counted
  have hfold : ∀ m ≤ F.nsn, ∀ k, (List.range m).foldl
      (fun c s => Function.update c (lead s + 1) (c (lead s + 1) + F.width s)) (fun _ => 0) k
        = Csr.countKeys ((List.range (F.first m)).map fun j => (lead (F.snodeOf j), j)) k := by
    intro m
    induction m with
    | zero =>
      intro _ k
      rw [hF.zero]
      rfl
    | succ m ih =>
      intro hm k
      have hlt := hF.lt m hm
      have hnew : (List.range (F.first (m + 1))).map (fun j => (lead (F.snodeOf j), j))
          = (List.range (F.first m)).map (fun j => (lead (F.snodeOf j), j))
            ++ (List.range (F.width m)).map fun i => (lead m, F.first m + i) := by
        rw [show F.first (m + 1) = F.first m + F.width m by unfold Fundamental.width; omega,
          List.range_add, List.map_append, List.map_map]
        congr 1
        refine List.map_congr_left fun i hi => ?_
        rw [List.mem_range] at hi
        unfold Fundamental.width at hi
        simp only [Function.comp_apply]
        rw [hF.snodeOf_eq hm (Nat.le_add_right _ _) (by omega)]
      rw [List.range_succ, List.foldl_append, List.foldl_cons, List.foldl_nil, hnew]
      cases k with
      | zero => rw [Function.update_of_ne (Nat.succ_ne_zero _).symm, ih (by omega),
          Csr.countKeys_zero, Csr.countKeys_zero]
      | succ k =>
        rw [Csr.countKeys_succ, List.countP_append, ← Csr.countKeys_succ, ← ih (by omega)]
        by_cases hk : lead m = k
        · subst hk
          rw [Function.update_self, List.countP_map]
          congr 1
          rw [List.countP_eq_length.mpr (by simp), List.length_range]
        · rw [Function.update_of_ne (by omega), List.countP_map]
          simp [hk, Function.comp_def]
  funext k
  unfold groupWidths
  rw [hfold F.nsn le_rfl, hF.last]

theorem groupColumns_slice (hF : Ranges starts n F) (hlead : ∀ s < F.nsn, lead s < F.nsn) {g : ℕ}
    (hg : g < F.nsn) : (groupColumns n F lead).slice g = groupCols n F lead g := by
  have hcsr : groupColumns n F lead
      = Csr.ofItems F.nsn ((List.range n).map fun j => (lead (F.snodeOf j), j)) fun _ => 0 := by
    unfold groupColumns Csr.ofItems
    rw [groupWidths_eq hF]
  rw [hcsr, Csr.ofItems_slice ?_ hg]
  · unfold Csr.bucket groupCols
    rw [List.filter_map, List.map_map]
    simp only [Function.comp_def]
    rw [List.map_id']
  · intro e he
    obtain ⟨j, hj, rfl⟩ := List.mem_map.mp he
    exact hlead _ (hF.mem j (List.mem_range.mp hj)).1

end Columns

/-! ## Numbering -/

section Numbering

variable {columns : Csr ℕ} {gparent : ℕ → Option ℕ} {ids : ℕ → Option ℕ} {post : List ℕ}

theorem newIds_eq (hnodup : post.Nodup) {i g : ℕ} (h : post[i]? = some g) :
    newIds post g = some i :=
  foldl_zipIdx_update some _ hnodup h

/-- The columns of the groups of `post` one behind the other, a supernode for each. -/
structure Numbering (columns : Csr ℕ) (gparent ids : ℕ → Option ℕ) (post : List ℕ)
    (out : Numbered) : Prop where
  order : out.order = post.flatMap columns.slice
  tiles : Tiles 0 out.snodes out.order.length
  length : out.snodes.length = post.length
  group : ∀ (i : ℕ) (sn : Supernode), out.snodes[i]? = some sn → ∃ g, post[i]? = some g ∧
    sn.colEnd ≤ out.order.length ∧ columnsOf out.order sn = columns.slice g ∧
    sn.parent = (gparent g).bind ids

theorem Numbering.next {out : Numbered} {g : ℕ} (h : Numbering columns gparent ids post out)
    (hg : columns.slice g ≠ []) :
    Numbering columns gparent ids (post ++ [g]) (numberGroup columns gparent ids out g) := by
  obtain ⟨horder, htiles, hlen, hgroup⟩ := h
  have hpos : 0 < (columns.slice g).length := List.length_pos_of_ne_nil hg
  refine ⟨?_, ?_, ?_, fun i sn hsn => ?_⟩ <;> dsimp only [numberGroup] at *
  · rw [List.flatMap_append, horder, List.flatMap_singleton]
  · rw [List.length_append]
    exact htiles.append ⟨rfl, by dsimp only; omega, rfl⟩
  · rw [List.length_append, List.length_append, hlen]
    rfl
  · rcases Nat.lt_or_ge i out.snodes.length with hlt | hge
    · -- an earlier supernode keeps its columns
      rw [List.getElem?_append_left hlt] at hsn
      obtain ⟨g', hg', hend, hcol, hpar⟩ := hgroup i sn hsn
      refine ⟨g', by rw [List.getElem?_append_left (by omega)]; exact hg', ?_, ?_, hpar⟩
      · rw [List.length_append]
        omega
      · rw [← hcol, columnsOf, columnsOf]
        rcases Nat.lt_or_ge sn.colStart sn.colEnd with hse | hse
        · rw [List.drop_append_of_le_length (by omega),
            List.take_append_of_le_length (by rw [List.length_drop]; omega)]
        · rw [Nat.sub_eq_zero_of_le hse, List.take_zero, List.take_zero]
    · rw [List.getElem?_append_right hge] at hsn
      obtain ⟨hi, hval⟩ := List.getElem?_eq_some_iff.mp hsn
      rw [List.length_singleton] at hi
      -- the new supernode has the columns just appended
      obtain rfl : i = out.snodes.length := by omega
      have hsn' : sn = ⟨out.order.length, out.order.length + (columns.slice g).length,
          (gparent g).bind ids⟩ := by simpa using hsn.symm
      subst hsn'
      refine ⟨g, ?_, ?_, ?_, rfl⟩
      · rw [hlen, List.getElem?_append_right le_rfl, Nat.sub_self]
        rfl
      · rw [List.length_append]
      · rw [columnsOf]
        dsimp only
        rw [List.drop_left, Nat.add_sub_cancel_left, List.take_length]

theorem numberGroups_spec (hcols : ∀ g ∈ post, columns.slice g ≠ []) :
    Numbering columns gparent ids post
      (post.foldl (numberGroup columns gparent ids) ⟨[], []⟩) := by
  induction post using List.reverseRecOn with
  | nil => exact ⟨rfl, rfl, rfl, fun i sn hsn => by cases hsn⟩
  | append_singleton l g ih =>
    rw [List.foldl_append]
    exact (ih fun g' hg' => hcols g' (List.mem_append_left _ hg')).next
      (hcols g (List.mem_append_right _ (List.mem_singleton_self g)))

end Numbering

/-! ## Relaxed amalgamation -/

section Relaxed

variable {n : ℕ} {parent : ℕ → Option ℕ} {starts : ℕ → Bool} {F : Fundamental} {lead : ℕ → ℕ}

/-- The columns of all groups are all columns. -/
theorem flatMap_groupCols_perm {post : List ℕ} (hF : Ranges starts n F) (hnodup : post.Nodup)
    (hmem : ∀ s < F.nsn, lead s ∈ post) :
    (post.flatMap (groupCols n F lead)).Perm (List.range n) := by
  refine (List.perm_ext_iff_of_nodup ?_ List.nodup_range).mpr fun j => ?_
  · rw [List.nodup_flatMap]
    refine ⟨fun g _ => List.nodup_range.filter _, hnodup.imp fun {g g'} hne => ?_⟩
    rw [Function.onFun_apply, List.disjoint_left]
    intro j hj hj'
    exact hne ((mem_groupCols.mp hj).2.symm.trans (mem_groupCols.mp hj').2)
  · rw [List.mem_flatMap, List.mem_range]
    constructor
    · rintro ⟨g, -, hj⟩
      exact (mem_groupCols.mp hj).1
    · exact fun hj => ⟨_, hmem _ (hF.mem j hj).1, mem_groupCols.mpr ⟨hj, rfl⟩⟩

theorem amalgamateRelaxed_tree (hup : Upward n parent) (colcount : ℕ → ℤ) (nemin : ℤ)
    (keep : Option (ℕ → Bool)) (rule : Amalgamation) :
    ∃ out, amalgamateRelaxed n parent colcount nemin keep rule = some out ∧
      SupernodeTree n parent (fundamental n parent colcount) out.order out.snodes ∧
      ∀ sn ∈ out.snodes, ∃ g, columnsOf out.order sn
        = groupCols n (fundamental n parent colcount)
          (leadOf n parent colcount nemin rule keep) g := by
  have hF := fundamental_ranges n parent colcount
  have hjoins := @leadOf_joins n parent colcount nemin rule keep hup
  set F := fundamental n parent colcount with hFdef
  set lead := leadOf n parent colcount nemin rule keep with hlead
  have hsup := hF.sparent_upward hup
  obtain ⟨post, hdfs, hnodup, hmem, hlater⟩ := hjoins.survivors_visits hsup
  have hslice : ∀ g ∈ post, (groupColumns n F lead).slice g = groupCols n F lead g :=
    fun g hg => groupColumns_slice hF (fun s hs => (hjoins.lead_spec hsup hs).2.1)
      ((hmem g).mp hg).1
  -- a survivor has its own last column at least
  have hcols : ∀ g ∈ post, (groupColumns n F lead).slice g ≠ [] := by
    intro g hg
    obtain ⟨hgn, hgg⟩ := (hmem g).mp hg
    obtain ⟨hlast, hsn⟩ := hF.lastCol_mem hgn
    rw [hslice g hg]
    exact List.ne_nil_of_mem (mem_groupCols.mpr ⟨hlast, by rw [hsn, hgg]⟩)
  have hnum := @numberGroups_spec (groupColumns n F lead)
    (leadParent (F.sparent parent) lead) (newIds post) post hcols
  set out := post.foldl (numberGroup (groupColumns n F lead) (leadParent (F.sparent parent) lead)
    (newIds post)) ⟨[], []⟩ with hout
  have hrun : amalgamateRelaxed n parent colcount nemin keep rule = some out := by
    unfold amalgamateRelaxed
    dsimp only
    exact (congrArg _ hdfs).trans rfl
  have hperm : out.order.Perm (List.range n) := by
    have hflat : post.flatMap (groupColumns n F lead).slice = post.flatMap (groupCols n F lead) :=
      List.flatMap_congr hslice
    rw [hnum.order, hflat]
    refine flatMap_groupCols_perm hF hnodup fun s hs => (hmem _).mpr ?_
    exact (hjoins.lead_spec hsup hs).2
  have htiles : Tiles 0 out.snodes n := by
    have := hnum.tiles
    rwa [hperm.length_eq, List.length_range] at this
  -- the supernodes come out in the order of the search, one for each survivor
  have hgroup : ∀ (i : ℕ) (sn : Supernode), out.snodes[i]? = some sn → ∃ g, post[i]? = some g ∧
      columnsOf out.order sn = groupCols n F lead g ∧
      sn.parent = (leadParent (F.sparent parent) lead g).bind (newIds post) := by
    intro i sn hsn
    obtain ⟨g, hg, -, hcol, hpar⟩ := hnum.group i sn hsn
    exact ⟨g, hg, hcol.trans (hslice g (List.mem_of_getElem? hg)), hpar⟩
  refine ⟨out, hrun, ?_, fun sn hsn => ?_⟩
  · refine .of_groups hF hup hjoins (fun g hg => (hmem g).mp hg) hperm htiles fun i sn hsn => ?_
    obtain ⟨g, hg, hcol, hpar⟩ := hgroup i sn hsn
    refine ⟨g, hg, hcol, fun hnone => by rw [hpar, hnone]; rfl, fun q hq => ?_⟩
    obtain ⟨i', hlt, hi'⟩ := hlater i g q hg hq
    have hi'len : i' < out.snodes.length := by
      rw [hnum.length]
      exact (List.getElem?_eq_some_iff.mp hi').1
    refine ⟨i', out.snodes[i'], hlt, hi', List.getElem?_eq_getElem hi'len, ?_⟩
    rw [hpar, hq, Option.bind_some, newIds_eq hnodup hi']
  · obtain ⟨i, hi⟩ := List.mem_iff_getElem?.mp hsn
    obtain ⟨g, -, hcol, -⟩ := hgroup i sn hi
    exact ⟨g, hcol⟩

end Relaxed

/-! ## Neighbours -/

section Neighbours

variable {n : ℕ} {parent : ℕ → Option ℕ} {starts : ℕ → Bool} {F : Fundamental} {st : Merging}
  {sparent : ℕ → Option ℕ} {m s g j : ℕ}

theorem Ranges.lt_first_iff (hF : Ranges starts n F) (hj : j < n) (hs : s ≤ F.nsn) :
    j < F.first s ↔ F.snodeOf j < s := by
  obtain ⟨hk, hle, hlt⟩ := hF.mem j hj
  constructor
  · intro h
    by_contra hge
    have := hF.mono (not_lt.mp hge) hk.le
    omega
  · intro h
    have hmono : F.first (F.snodeOf j + 1) ≤ F.first s := hF.mono h hs
    omega

/-- After the supernodes below `m`: those that are dead were merged into the next one, which
    starts where they start. -/
structure Neighbours (F : Fundamental) (sparent : ℕ → Option ℕ) (m : ℕ) (st : Merging) : Prop where
  merged : ∀ t, st.dead t = true → t < m ∧ t + 1 < F.nsn ∧ sparent t = some (t + 1)
  start : ∀ t < F.nsn, (∀ u, u + 1 = t → st.dead u = false) → st.colStart t = F.first t
  next : ∀ t, st.dead t = true → st.colStart (t + 1) = st.colStart t

theorem Neighbours.start_zero (h : Neighbours F sparent m st) (hs : 0 < F.nsn) :
    st.colStart 0 = F.first 0 :=
  h.start 0 hs fun u hu => absurd hu (Nat.succ_ne_zero u)

theorem Neighbours.start_succ (h : Neighbours F sparent m st) (hs : s + 1 < F.nsn)
    (hdead : st.dead s = false) : st.colStart (s + 1) = F.first (s + 1) :=
  h.start _ hs fun u hu => by
    obtain rfl : u = s := by omega
    exact hdead

theorem Neighbours.start_le (hF : Ranges starts n F) (h : Neighbours F sparent m st)
    (hs : s < F.nsn) : st.colStart s ≤ F.first s := by
  induction s with
  | zero => exact (h.start_zero hs).le
  | succ s ih =>
    cases hdead : st.dead s
    · exact (h.start_succ hs hdead).le
    · rw [h.next s hdead]
      exact (ih (by omega)).trans (hF.lt s (by omega)).le

theorem mergeNeighbour_next (hF : Ranges starts n F) (hup : Upward F.nsn sparent)
    {snodes : ℕ → Supernode}
    (hsn : ∀ s < F.nsn, snodes s = ⟨F.first s, F.first (s + 1), sparent s⟩) (nemin : ℤ)
    (h : Neighbours F sparent m st) (hm : m < F.nsn) :
    Neighbours F sparent (m + 1) (mergeNeighbour snodes nemin st m) := by
  have hkeep : Neighbours F sparent (m + 1) st :=
    ⟨fun t ht => ⟨Nat.lt_succ_of_lt (h.merged t ht).1, (h.merged t ht).2⟩, h.start, h.next⟩
  -- only supernodes before `m` have been merged away
  have halive : ∀ t, m ≤ t → st.dead t ≠ true := fun t ht hd => by
    have := (h.merged t hd).1
    omega
  unfold mergeNeighbour
  rw [if_neg (halive m le_rfl), hsn m hm]
  dsimp only
  split
  · exact hkeep
  · next p hp =>
    obtain ⟨hmp, hpn⟩ := hup m hm p hp
    rw [if_neg (halive p hmp.le), hsn p hpn]
    split_ifs with hcond
    · -- the parent has not been merged into yet, so it is the next supernode
      have hstart : st.colStart p = F.first p :=
        h.start p hpn fun u hu => Bool.eq_false_iff.mpr (halive u (by omega))
      have hend : F.first (m + 1) = F.first p := hcond.2.2.trans hstart
      obtain rfl : p = m + 1 := by
        by_contra hne
        have h₁ : F.first (m + 1) < F.first (m + 1 + 1) := hF.lt _ (by omega)
        have h₂ : F.first (m + 1 + 1) ≤ F.first p := hF.mono (by omega) hpn.le
        omega
      refine ⟨fun t ht => ?_, fun t ht hbefore => ?_, fun t ht => ?_⟩ <;> dsimp only at *
      · by_cases htm : t = m
        · subst htm
          exact ⟨Nat.lt_succ_self t, hpn, hp⟩
        · rw [Function.update_of_ne htm] at ht
          exact hkeep.merged t ht
      · have htm : t ≠ m + 1 := by
          rintro rfl
          have := hbefore m rfl
          rw [Function.update_self] at this
          cases this
        rw [Function.update_of_ne htm]
        refine h.start t ht fun u hu => ?_
        have := hbefore u hu
        rwa [Function.update_of_ne (by omega)] at this
      · by_cases htm : t = m
        · subst htm
          rw [Function.update_self, Function.update_of_ne (Nat.succ_ne_self t).symm]
        · -- a supernode behind the merged one was not merged
          rw [Function.update_of_ne htm] at ht
          have := (h.merged t ht).1
          rw [Function.update_of_ne (by omega), Function.update_of_ne (by omega)]
          exact h.next t ht
    · exact hkeep

theorem mergeNeighbours_spec (hF : Ranges starts n F) (hup : Upward F.nsn sparent)
    {snodes : ℕ → Supernode}
    (hsn : ∀ s < F.nsn, snodes s = ⟨F.first s, F.first (s + 1), sparent s⟩) (nemin : ℤ) :
    ∀ m ≤ F.nsn, Neighbours F sparent m ((List.range m).foldl (mergeNeighbour snodes nemin)
      ⟨fun s => (snodes s).colStart, fun _ => false⟩) := by
  intro m
  induction m with
  | zero =>
    refine fun _ => ⟨fun t ht => (nomatch ht), fun t ht _ => ?_, fun t ht => (nomatch ht)⟩
    exact congrArg Supernode.colStart (hsn t ht)
  | succ m ih =>
    intro hm
    rw [List.range_succ, List.foldl_append]
    exact mergeNeighbour_next hF hup hsn nemin (ih (by omega)) hm

/-- Where the merges into the next supernode lead. -/
def neighbourLead (nsn : ℕ) (dead : ℕ → Bool) : ℕ → ℕ :=
  resolveGroups nsn fun s => if dead s then s + 1 else s

theorem Neighbours.joins (hup : Upward F.nsn sparent) (h : Neighbours F sparent m st) :
    Joins F.nsn sparent (neighbourLead F.nsn st.dead) ∧
      ∀ s < F.nsn, neighbourLead F.nsn st.dead s
        = if st.dead s then neighbourLead F.nsn st.dead (s + 1) else s := by
  have hlinks : ∀ s < F.nsn, (if st.dead s then s + 1 else s) = s ∨
      sparent s = some (if st.dead s then s + 1 else s) := by
    intro s hs
    cases hd : st.dead s
    · exact .inl rfl
    · exact .inr (h.merged s hd).2.2
  refine ⟨(resolveGroups_joins hup hlinks).1, fun s hs => ?_⟩
  have hle : ∀ t < F.nsn, t ≤ if st.dead t then t + 1 else t := fun t _ => by split_ifs <;> omega
  have heq := (resolveGroups_eq hle).2 s hs
  cases hd : st.dead s
  · exact heq.1 (by simp [hd])
  · have := heq.2 (by simp [hd])
    simpa [neighbourLead, hd] using this

/-- A supernode leads to the first one behind it that is alive. -/
theorem Neighbours.lead_iff (hup : Upward F.nsn sparent) (h : Neighbours F sparent m st)
    (hs : s < F.nsn) : neighbourLead F.nsn st.dead s = g ↔
      s ≤ g ∧ (∀ u, s ≤ u → u < g → st.dead u = true) ∧ st.dead g = false := by
  -- on the number of supernodes from `s` to the end
  generalize hd : F.nsn - s = d
  induction d using Nat.strongRecOn generalizing s with
  | _ d ih =>
    rw [(h.joins hup).2 s hs]
    cases hdead : st.dead s
    · constructor
      · rintro rfl
        rw [if_neg Bool.false_ne_true]
        exact ⟨le_rfl, fun u hu hu' => by omega, hdead⟩
      · rintro ⟨hle, hall, -⟩
        rw [if_neg Bool.false_ne_true]
        by_contra hne
        have hlt : s < g := lt_of_le_of_ne hle hne
        have := hall s le_rfl hlt
        rw [hdead] at this
        cases this
    · have hnext := (h.merged s hdead).2.1
      rw [if_pos rfl, ih (F.nsn - (s + 1)) (by omega) hnext rfl]
      constructor
      · rintro ⟨hle, hall, hg⟩
        refine ⟨by omega, fun u hu hu' => ?_, hg⟩
        rcases hu.lt_or_eq with hlt | rfl
        · exact hall u hlt hu'
        · exact hdead
      · rintro ⟨hle, hall, hg⟩
        refine ⟨?_, fun u hu hu' => hall u (by omega) hu', hg⟩
        by_contra hlt
        obtain rfl : s = g := by omega
        rw [hdead] at hg
        cases hg

/-- The columns from a supernode's start to its end are those of the dead run before it. -/
theorem Neighbours.mem_cols (hF : Ranges starts n F) (h : Neighbours F sparent m st)
    (hs : s < F.nsn) (hj : j < n) : st.colStart s ≤ j ∧ j < F.first (s + 1) ↔
      F.snodeOf j ≤ s ∧ ∀ u, F.snodeOf j ≤ u → u < s → st.dead u = true := by
  induction s with
  | zero =>
    rw [h.start_zero hs, hF.zero, hF.lt_first_iff hj hs]
    constructor
    · exact fun hc => ⟨by omega, fun u _ hu => absurd hu (Nat.not_lt_zero u)⟩
    · exact fun hc => ⟨Nat.zero_le j, by omega⟩
  | succ s ih =>
    have hle := h.start_le hF (s := s) (by omega)
    have hlow := hF.lt_first_iff (s := s + 1) hj hs.le
    rw [hF.lt_first_iff hj hs]
    -- behind a dead supernode the next one starts where it did, else at its own first column
    cases hdead : st.dead s
    · rw [h.start_succ hs hdead]
      constructor
      · rintro ⟨hfirst, hlt⟩
        have hge : ¬F.snodeOf j < s + 1 := fun hc => absurd (hlow.mpr hc) (not_lt.mpr hfirst)
        exact ⟨by omega, fun u hu hu' => by omega⟩
      · rintro ⟨hle', hall⟩
        refine ⟨not_lt.mp fun hc => ?_, by omega⟩
        have := hall s (by have := hlow.mp hc; omega) (Nat.lt_succ_self s)
        rw [hdead] at this
        cases this
    · rw [h.next s hdead]
      have ih' := ih (by omega)
      constructor
      · rintro ⟨hstart, hlt⟩
        refine ⟨by omega, fun u hu hu' => ?_⟩
        rcases (Nat.lt_succ_iff.mp hu').lt_or_eq with hus | rfl
        · exact (ih'.mp ⟨hstart, hlow.mpr (by omega)⟩).2 u hu hus
        · exact hdead
      · rintro ⟨hle', hall⟩
        refine ⟨?_, by omega⟩
        rcases Nat.lt_or_ge s (F.snodeOf j) with hgt | hge
        · have hmono := hF.lt s (by omega)
          have : ¬j < F.first (s + 1) := fun hc => by
            have := hlow.mp hc
            omega
          omega
        · exact (ih'.mpr ⟨hge, fun u hu hu' => hall u hu (by omega)⟩).1

/-- The supernodes that are alive. -/
def alive (nsn : ℕ) (dead : ℕ → Bool) : List ℕ := (List.range nsn).filter fun s => !dead s

/-- A supernode left by the merges. -/
def mergedNode (F : Fundamental) (sparent : ℕ → Option ℕ) (st : Merging) (s : ℕ) : Supernode :=
  ⟨st.colStart s, F.first (s + 1),
    ((sparent s).map (neighbourLead F.nsn st.dead)).map (alive F.nsn st.dead).idxOf⟩

theorem alive_succ (k : ℕ) (dead : ℕ → Bool) :
    alive (k + 1) dead = alive k dead ++ if dead k then [] else [k] := by
  unfold alive
  rw [List.range_succ, List.filter_append]
  cases hdead : dead k <;> simp [hdead]

theorem Neighbours.tiles (hF : Ranges starts n F) (h : Neighbours F sparent m st) :
    Tiles 0 ((alive F.nsn st.dead).map (mergedNode F sparent st)) n := by
  have hone : ∀ k < F.nsn, Tiles (st.colStart k) [mergedNode F sparent st k] (F.first (k + 1)) :=
    fun k hk => ⟨rfl, (h.start_le hF hk).trans_lt (hF.lt k hk), rfl⟩
  -- what is alive below a supernode ends where that one starts
  have hpre : ∀ k < F.nsn,
      Tiles 0 ((alive k st.dead).map (mergedNode F sparent st)) (st.colStart k) := by
    intro k
    induction k with
    | zero =>
      intro hk
      rw [h.start_zero hk, hF.zero]
      rfl
    | succ k ih =>
      intro hk
      rw [alive_succ, List.map_append]
      cases hdead : st.dead k
      · rw [h.start_succ hk hdead]
        exact (ih (by omega)).append (hone k (by omega))
      · rw [h.next k hdead, if_pos rfl, List.map_nil, List.append_nil]
        exact ih (by omega)
  cases hnsn : F.nsn with
  | zero =>
    have hlast := hF.last
    rw [hnsn, hF.zero] at hlast
    exact hlast
  | succ k =>
    -- the last supernode has no next one
    have hdead : st.dead k = false := Bool.eq_false_iff.mpr fun hd => by
      have := (h.merged k hd).2.1
      omega
    rw [alive_succ, List.map_append, hdead, ← hF.last, hnsn]
    exact (hpre k (by omega)).append (hone k (by omega))

theorem columnsOf_range {a b : ℕ} {par : Option ℕ} (hb : b ≤ n) :
    columnsOf (List.range n) ⟨a, b, par⟩ = (List.range n).filter fun j => a ≤ j ∧ j < b := by
  have hslice : columnsOf (List.range n) ⟨a, b, par⟩ = List.range' a (b - a) := by
    rw [columnsOf, List.range_eq_range', List.drop_range']
    dsimp only
    rw [List.take_range'_of_length_ge (by omega), Nat.mul_one, Nat.zero_add]
  rw [hslice]
  refine @List.Perm.eq_of_pairwise ℕ (· < ·) _ _ (fun x y _ _ hxy hyx => absurd hxy hyx.asymm)
    List.pairwise_lt_range' (List.pairwise_lt_range.filter _) ?_
  refine (List.perm_ext_iff_of_nodup List.nodup_range' (List.nodup_range.filter _)).mpr fun j => ?_
  simp only [List.mem_range'_1, List.mem_filter, List.mem_range, decide_eq_true_eq]
  omega

theorem Neighbours.tree {colcount : ℕ → ℤ}
    (hF : Ranges (startsSnode parent (countChildren n parent) colcount) n F) (hup : Upward n parent)
    (h : Neighbours F (F.sparent parent) m st) :
    SupernodeTree n parent F (List.range n)
      ((alive F.nsn st.dead).map (mergedNode F (F.sparent parent) st)) := by
  have hsup := hF.sparent_upward hup
  obtain ⟨hjoins, -⟩ := h.joins hsup
  have hmem : ∀ g, g ∈ alive F.nsn st.dead ↔ g < F.nsn ∧ neighbourLead F.nsn st.dead g = g := by
    intro g
    unfold alive
    rw [List.mem_filter, List.mem_range, Bool.not_eq_true']
    refine and_congr_right fun hg => ?_
    rw [h.lead_iff hsup hg]
    exact ⟨fun hd => ⟨le_rfl, fun u hu hu' => by omega, hd⟩, fun hc => hc.2.2⟩
  refine .of_groups hF hup hjoins (fun g hg => (hmem g).mp hg) (.refl _) (h.tiles hF)
    fun i sn hsn => ?_
  rw [List.getElem?_map, Option.map_eq_some_iff] at hsn
  obtain ⟨g, hg, rfl⟩ := hsn
  obtain ⟨hgn, hgg⟩ := (hmem g).mp (List.mem_of_getElem? hg)
  have hdead : st.dead g = false := ((h.lead_iff hsup hgn).mp hgg).2.2
  refine ⟨g, hg, ?_, fun hnone => ?_, fun q hq => ?_⟩
  · rw [mergedNode, columnsOf_range (hF.last ▸ hF.mono hgn le_rfl)]
    refine List.filter_congr fun j hj => decide_eq_decide.mpr ?_
    have hjn := List.mem_range.mp hj
    rw [h.mem_cols hF hgn hjn, h.lead_iff hsup (hF.mem j hjn).1]
    exact ⟨fun hc => ⟨hc.1, hc.2, hdead⟩, fun hc => ⟨hc.1, hc.2.1⟩⟩
  · rw [leadParent, if_pos hgg] at hnone
    rw [mergedNode, hnone]
    rfl
  · have hqn := hjoins.leadParent_upward hsup g hgn q hq
    obtain ⟨-, p, hp, hpq⟩ := leadParent_eq_some.mp hq
    have hqmem : q ∈ alive F.nsn st.dead := by
      refine (hmem q).mpr ⟨hqn.2, ?_⟩
      rw [← hpq]
      exact (hjoins.lead_spec hsup (hsup g hgn p hp).2).2.2
    have hidx := List.getElem?_idxOf hqmem
    have hlt : i < (alive F.nsn st.dead).idxOf q := by
      -- the survivors are in ascending order
      have hsorted : (alive F.nsn st.dead).Pairwise (· < ·) := List.pairwise_lt_range.filter _
      by_contra hge
      obtain ⟨hi, hgi⟩ := List.getElem?_eq_some_iff.mp hg
      obtain ⟨hi', hqi⟩ := List.getElem?_eq_some_iff.mp hidx
      rcases (not_lt.mp hge).lt_or_eq with hlt' | heq
      · have := List.pairwise_iff_getElem.mp hsorted _ _ hi' hi hlt'
        omega
      · rw [heq, hg] at hidx
        have := Option.some.inj hidx
        omega
    refine ⟨_, _, hlt, hidx, by rw [List.getElem?_map, hidx]; rfl, ?_⟩
    rw [mergedNode, hp]
    dsimp only [Option.map_some]
    rw [hpq]

/-- Without a merge the supernodes are the fundamental ones. -/
theorem detectSupernodes_tree (hup : Upward n parent) (colcount : ℕ → ℤ) :
    SupernodeTree n parent (fundamental n parent colcount) (List.range n)
      (detectSupernodes n parent colcount) := by
  have hF := fundamental_ranges n parent colcount
  set F := fundamental n parent colcount with hFdef
  have hsup := hF.sparent_upward hup
  have hnone : Neighbours F (F.sparent parent) 0 ⟨F.first, fun _ => false⟩ :=
    ⟨fun t ht => (nomatch ht), fun t _ _ => rfl, fun t ht => (nomatch ht)⟩
  have halive : alive F.nsn (fun _ => false) = List.range F.nsn :=
    List.filter_eq_self.mpr fun _ _ => rfl
  have htree := hnone.tree hF hup
  rw [halive] at htree
  refine cast (congrArg _ (List.map_congr_left fun s hs => ?_)) htree
  have hsn := List.mem_range.mp hs
  unfold mergedNode
  rw [halive]
  cases hp : F.sparent parent s with
  | none => rfl
  | some p =>
    have hpn := (hsup s hsn p hp).2
    have hlead : neighbourLead F.nsn (fun _ => false) p = p :=
      ((hnone.joins hsup).2 p hpn).trans rfl
    have hidx : (List.range F.nsn).idxOf p = p := by
      have hget := List.nodup_range.idxOf_getElem p (by rw [List.length_range]; exact hpn)
      rwa [List.getElem_range] at hget
    rw [Option.map_some, Option.map_some, hlead, hidx]

theorem liveParent_eq {snodes : ℕ → Supernode} (hup : Upward F.nsn sparent)
    (h : Neighbours F sparent m st) (hsn : ∀ s < F.nsn, (snodes s).parent = sparent s) {p fuel : ℕ}
    (hp : p < F.nsn) (hfuel : F.nsn - p < fuel) :
    liveParent snodes st.dead fuel (some p) = some (some (neighbourLead F.nsn st.dead p)) := by
  induction fuel generalizing p with
  | zero => exact absurd hfuel (Nat.not_lt_zero _)
  | succ fuel ih =>
    rw [liveParent, (h.joins hup).2 p hp]
    cases hdead : st.dead p
    · rfl
    · obtain ⟨-, hnext, hpar⟩ := h.merged p hdead
      rw [if_pos rfl, if_pos rfl, hsn p hp, hpar]
      exact ih hnext (by omega)

theorem mapM_some {α β : Type} {l : List α} {f : α → Option β} {g : α → β}
    (h : ∀ a ∈ l, f a = some (g a)) : l.mapM f = some (l.map g) := by
  induction l with
  | nil => rfl
  | cons a l ih =>
    rw [List.mapM_cons, h a List.mem_cons_self, ih fun b hb => h b (List.mem_cons_of_mem a hb)]
    rfl

theorem amalgamateSupernodes_tree (hup : Upward n parent) (colcount : ℕ → ℤ) (nemin : ℤ) :
    ∃ l, amalgamateSupernodes (detectSupernodes n parent colcount) nemin = some l ∧
      SupernodeTree n parent (fundamental n parent colcount) (List.range n) l := by
  have hF := fundamental_ranges n parent colcount
  have hdetect := detectSupernodes_tree hup colcount
  by_cases hnemin : nemin ≤ 1
  · refine ⟨_, ?_, hdetect⟩
    unfold amalgamateSupernodes
    rw [if_pos hnemin]
  · have hlist : detectSupernodes n parent colcount
        = (List.range (fundamental n parent colcount).nsn).map fun s =>
          ⟨(fundamental n parent colcount).first s, (fundamental n parent colcount).first (s + 1),
            (fundamental n parent colcount).sparent parent s⟩ := rfl
    set F := fundamental n parent colcount with hFdef
    set l := detectSupernodes n parent colcount with hl
    have hsup := hF.sparent_upward hup
    have hlen : l.length = F.nsn := by rw [hlist, List.length_map, List.length_range]
    have hsn : ∀ s < F.nsn, l.getD s ⟨0, 0, none⟩
        = ⟨F.first s, F.first (s + 1), F.sparent parent s⟩ := by
      intro s hs
      rw [List.getD_eq_getElem?_getD, hlist, List.getElem?_map, List.getElem?_range hs]
      rfl
    -- the supernodes left alive, with the columns of the dead ones before them
    have hspec := mergeNeighbours_spec hF hsup hsn nemin F.nsn le_rfl
    set st := (List.range F.nsn).foldl (mergeNeighbour (fun s => l.getD s ⟨0, 0, none⟩) nemin)
      ⟨fun s => (l.getD s ⟨0, 0, none⟩).colStart, fun _ => false⟩ with hst
    refine ⟨_, ?_, hspec.tree hF hup⟩
    unfold amalgamateSupernodes
    rw [if_neg hnemin, hlen]
    refine mapM_some fun s hs => ?_
    have hs' : s < F.nsn := List.mem_range.mp (List.mem_filter.mp hs).1
    change (liveParent (fun s => l.getD s ⟨0, 0, none⟩) st.dead (F.nsn + 1)
      (l.getD s ⟨0, 0, none⟩).parent).map
        (fun par => (⟨st.colStart s, (l.getD s ⟨0, 0, none⟩).colEnd,
        par.map (alive F.nsn st.dead).idxOf⟩ : Supernode)) = _
    rw [hsn s hs']
    unfold mergedNode
    cases hp : F.sparent parent s with
    | none => rfl
    | some p =>
      rw [liveParent_eq hsup hspec (fun t ht => by rw [hsn t ht]) (hsup s hs' p hp).2 (by omega)]
      rfl

end Neighbours

/-- Both passes return a partition of the columns into the supernodes of a tree, whatever is
    merged. -/
theorem supernode_trees (n : ℕ) (parent : ℕ → Option ℕ) (hup : Upward n parent)
    (colcount : ℕ → ℤ) :
    (∀ (nemin : ℤ) (keep : Option (ℕ → Bool)) (rule : Amalgamation), ∃ out,
      amalgamateRelaxed n parent colcount nemin keep rule = some out ∧
        SupernodeTree n parent (fundamental n parent colcount) out.order out.snodes) ∧
    SupernodeTree n parent (fundamental n parent colcount) (List.range n)
      (detectSupernodes n parent colcount) ∧
    (∀ nemin : ℤ, ∃ l, amalgamateSupernodes (detectSupernodes n parent colcount) nemin = some l ∧
      SupernodeTree n parent (fundamental n parent colcount) (List.range n) l) ∧
    ∀ (A : LowerPattern) (et : EliminationTree), TreeOf A et →
      ∃ c l, filledColCounts A et = some c ∧
      detectFundamentalSupernodes A et = some l ∧
        SupernodeTree A.n et.parent (fundamental A.n et.parent c) (List.range A.n) l ∧
        ∀ nemin : ℤ, ∃ l', amalgamateSupernodes l nemin = some l' ∧
          SupernodeTree A.n et.parent (fundamental A.n et.parent c) (List.range A.n) l' := by
  refine ⟨fun nemin keep rule => ?_, detectSupernodes_tree hup colcount, fun nemin =>
    amalgamateSupernodes_tree hup colcount nemin, fun A et htree => ?_⟩
  · obtain ⟨out, hout, htree, -⟩ := amalgamateRelaxed_tree hup colcount nemin keep rule
    exact ⟨out, hout, htree⟩
  · obtain ⟨c, hc, -⟩ := filledColCounts_eq htree
    have hupA : Upward A.n et.parent := htree.parent ▸ etree_upward A
    refine ⟨c, detectSupernodes A.n et.parent c, hc, ?_, detectSupernodes_tree hupA c,
      amalgamateSupernodes_tree hupA c⟩
    rw [detectFundamentalSupernodes, hc, Option.map_some]

/-- Columns 0 and 1 under 2, which is under 3. -/
def forkParent (j : ℕ) : Option ℕ := [some 2, some 2, some 3, none].getD j none

theorem forkParent_upward : Upward 4 forkParent := by
  have hall : ∀ j < 4, ∀ p ∈ forkParent j, j < p ∧ p < 4 := by decide
  exact fun j hj p hp => hall j hj p hp

theorem supernode_trees_fork : ∃ out,
    amalgamateRelaxed 4 forkParent (fun j => [3, 3, 2, 1].getD j 0) 2 none .smf = some out ∧
      SupernodeTree 4 forkParent (fundamental 4 forkParent fun j => [3, 3, 2, 1].getD j 0) out.order
        out.snodes :=
  (supernode_trees 4 forkParent forkParent_upward fun j => [3, 3, 2, 1].getD j 0).1 2 none .smf

end Symbolic
end SmfSolver
