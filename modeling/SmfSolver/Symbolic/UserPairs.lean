/-
  SmfSolver.Symbolic.UserPairs

  The pairs of a given order after the analysis: a pair whose entry is structurally
  nonzero in the factor ends up inside one supernode, and the others are counted.

  The flag of a pair is set on the earlier column under its number in the postorder
  (`flagPairs_spec`); `leadOf_keep` keeps that column with its parent, and the last
  renumbering takes both to the range of their supernode.
-/
import SmfSolver.Symbolic.AmalgamateSpec
import SmfSolver.Symbolic.UserOrder

namespace SmfSolver
namespace Symbolic

open Lib
open Multifrontal (Supernode)

/-! ## The order -/

section Order

variable {n m : ℕ} {perm : ℕ → ℤ} {iperm : ℕ → ℤ} {u : UserOrder}

/-- The first `m` columns of the order are columns, each at one position. -/
structure Placed (n m : ℕ) (perm iperm : ℕ → ℤ) : Prop where
  column : ∀ k < m, 0 ≤ perm k ∧ perm k < n ∧ iperm (perm k).toNat = k
  free : ∀ x, iperm x < 0 ∨ ∃ k < m, (perm k).toNat = x

theorem placeColumn_placed {iperm' : ℕ → ℤ} (hp : Placed n m perm iperm)
    (h : placeColumn n perm iperm m = some iperm') : Placed n (m + 1) perm iperm' := by
  unfold placeColumn at h
  dsimp only at h
  split_ifs at h with hok
  obtain rfl := Option.some.inj h
  obtain ⟨h0, hn, hneg⟩ := hok
  refine ⟨fun k hk => ?_, fun x => ?_⟩
  · rcases Nat.lt_succ_iff_lt_or_eq.mp hk with hlt | rfl
    · obtain ⟨hk0, hkn, hval⟩ := hp.column k hlt
      refine ⟨hk0, hkn, ?_⟩
      -- the new column had no position yet
      rw [Function.update_of_ne fun heq => by rw [heq] at hval; omega]
      exact hval
    · exact ⟨h0, hn, Function.update_self ..⟩
  · by_cases hx : x = (perm m).toNat
    · exact .inr ⟨m, Nat.lt_succ_self m, hx.symm⟩
    · rw [Function.update_of_ne hx]
      exact (hp.free x).imp_right fun ⟨k, hk, hkx⟩ => ⟨k, Nat.lt_succ_of_lt hk, hkx⟩

theorem userIperm_placed (h : userIperm n perm = some iperm) : Placed n n perm iperm := by
  have hfold : ∀ m iperm, (List.range m).foldlM (placeColumn n perm) (fun _ => -1) = some iperm →
      Placed n m perm iperm := by
    intro m
    induction m with
    | zero =>
      intro iperm h
      obtain rfl := Option.some.inj h
      exact ⟨fun k hk => absurd hk (Nat.not_lt_zero k), fun x => .inl (by omega)⟩
    | succ m ih =>
      intro iperm h
      rw [List.range_succ, List.foldlM_append, Option.bind_eq_bind, Option.bind_eq_some_iff] at h
      obtain ⟨ip, hip, hlast⟩ := h
      rw [List.foldlM_cons, Option.bind_eq_bind, Option.bind_eq_some_iff] at hlast
      obtain ⟨ip', hip', hend⟩ := hlast
      obtain rfl := Option.some.inj hend
      exact placeColumn_placed (ih ip hip) hip'
  exact hfold n iperm h

/-- A legal order is a permutation of the columns. -/
theorem Placed.order_perm (h : Placed n n perm iperm) :
    ((List.range n).map fun k => (perm k).toNat).Perm (List.range n) := by
  have hnodup : ((List.range n).map fun k => (perm k).toNat).Nodup := by
    refine List.Nodup.map_on (fun a ha b hb heq => ?_) List.nodup_range
    have hva := (h.column a (List.mem_range.mp ha)).2.2
    have hvb := (h.column b (List.mem_range.mp hb)).2.2
    rw [heq] at hva
    omega
  have hsub : ((List.range n).map fun k => (perm k).toNat) ⊆ List.range n := by
    intro x hx
    obtain ⟨k, hk, rfl⟩ := List.mem_map.mp hx
    have := h.column k (List.mem_range.mp hk)
    exact List.mem_range.mpr (by omega)
  exact (List.subperm_of_subset hnodup hsub).perm_of_length_le (by simp)

/-- What the check of an order and its pairs says. -/
theorem checkUserOrder_spec (h : checkUserOrder n u = some (perm, iperm)) :
    Placed n n perm iperm ∧ ∀ pair ∈ u.pairs, pairAdjacent n iperm pair = true := by
  unfold checkUserOrder at h
  split at h
  · cases h
  · split_ifs at h
    obtain ⟨ip, hip, h⟩ := Option.bind_eq_some_iff.mp h
    split_ifs at h with hall
    obtain ⟨rfl, rfl⟩ := Prod.mk.inj (Option.some.inj h)
    exact ⟨userIperm_placed hip, List.all_eq_true.mp hall⟩

end Order

/-! ## The permuted pattern -/

section Permuted

variable {A : LowerPattern} {perm : List ℕ}

/-- Entry `(i, j)` of the permuted pattern. -/
def permAdj (A : LowerPattern) (perm : ℕ → ℕ) (i j : ℕ) : Prop :=
  j < i ∧ i < A.n ∧ (A.adj (perm i) (perm j) ∨ A.adj (perm j) (perm i))

theorem getD_positions (hperm : perm.Perm (List.range A.n)) {v : ℕ} (hv : v < A.n) :
    perm.getD (positions perm v) 0 = v ∧ positions perm v < A.n := by
  obtain ⟨i, hi⟩ := List.mem_iff_getElem?.mp (hperm.mem_iff.mpr (List.mem_range.mpr hv))
  have hlen : perm.length = A.n := by rw [hperm.length_eq, List.length_range]
  rw [positions_eq (hperm.nodup_iff.mpr List.nodup_range) hi, List.getD_eq_getElem?_getD, hi]
  exact ⟨rfl, hlen ▸ (List.getElem?_eq_some_iff.mp hi).1⟩

/-- The neighbours of a column in the new numbering. -/
theorem mem_neighbours (hperm : perm.Perm (List.range A.n)) {i j : ℕ} (hi : i < A.n) (hj : j < A.n)
    (hne : i ≠ j) :
    i ∈ ((lowerCscAdjacency A.n A.csc).slice (perm.getD j 0)).map (positions perm) ↔
      A.adj (perm.getD j 0) (perm.getD i 0) ∨ A.adj (perm.getD i 0) (perm.getD j 0) := by
  have hlen : perm.length = A.n := by rw [hperm.length_eq, List.length_range]
  have hnodup : perm.Nodup := hperm.nodup_iff.mpr List.nodup_range
  have hget : ∀ {k}, k < A.n → perm[k]? = some (perm.getD k 0) := by
    intro k hk
    rw [List.getD_eq_getElem?_getD, List.getElem?_eq_getElem (hlen ▸ hk)]
    rfl
  have hinj : perm.getD i 0 ≠ perm.getD j 0 := fun heq => hne <| by
    rw [← positions_eq hnodup (hget hi), ← positions_eq hnodup (hget hj), heq]
  rw [← mem_lowerCscAdjacency A hinj, List.mem_map]
  constructor
  · rintro ⟨v, hv, rfl⟩
    have hvj : v ≠ perm.getD j 0 := fun heq => hne (by rw [heq, positions_eq hnodup (hget hj)])
    rwa [(getD_positions hperm (lowerCscAdjacency_lt A hv hvj)).1]
  · exact fun hmem => ⟨_, hmem, positions_eq hnodup (hget hi)⟩

theorem permAdj_lt {p : ℕ → ℕ} (i j : ℕ) (h : permAdj A p i j) : i < A.n := h.2.1

theorem permAdj_upward {p : ℕ → ℕ} : Upward A.n (etree (permAdj A p)) := by
  intro j _ q hq
  exact ⟨lt_of_etree hq, (etree_eq_some.mp hq).1.row_lt permAdj_lt⟩

/-- Tree, postorder and counts of the permuted pattern. -/
theorem symbolicCounts_spec (hperm : perm.Perm (List.range A.n)) :
    ∃ sym, symbolicCounts A.n (lowerCscAdjacency A.n A.csc) perm = some sym ∧
      sym.parent = etree (permAdj A (perm.getD · 0)) ∧ sym.post.Perm (List.range A.n) ∧
      Multifrontal.Postorder (vertexParent A.n sym.parent) sym.post ∧
      ∀ j < A.n, sym.colcount j = ((factorColumn (permAdj A (perm.getD · 0)) j).ncard : ℤ) := by
  obtain ⟨s, hs, hparent⟩ :=
    (@linkRows_eq (permAdj A (perm.getD · 0)) A.n
      (fun k => (((lowerCscAdjacency A.n A.csc).slice (perm.getD k 0)).map (positions perm)).filter
        (· < k)))
    (fun k hk r => by
      rw [List.mem_filter, decide_eq_true_eq, and_comm]
      refine and_congr_right fun hr => (mem_neighbours hperm (hr.trans hk) hk hr.ne).trans ?_
      exact ⟨fun hadj => ⟨hr, hk, hadj⟩, fun hadj => hadj.2.2⟩) permAdj_lt
  obtain ⟨post, depth, hpost, hpostperm, hblock⟩ :=
    etreePostorder_spec (permAdj_upward (A := A) (p := (perm.getD · 0)))
  obtain ⟨c, hc, hcount⟩ :=
    (@gnpColumnCounts_eq _ post _
      (fun j => (((lowerCscAdjacency A.n A.csc).slice (perm.getD j 0)).map (positions perm)).filter
        (j < ·)))
    permAdj_lt (permAdj_upward (A := A) (p := (perm.getD · 0))) hpostperm hblock fun j hj i => by
      rw [List.mem_filter, decide_eq_true_eq, and_comm]
      -- the neighbours after `j` are the entries of its column in the permuted pattern
      refine and_congr_right fun hji => ?_
      constructor
      · intro hmem
        have hi : i < A.n := by
          obtain ⟨v, hv, rfl⟩ := List.mem_map.mp hmem
          by_cases hvj : v = perm.getD j 0
          · have hlen : perm.length = A.n := by rw [hperm.length_eq, List.length_range]
            have hjn : perm.getD j 0 < A.n := by
              rw [List.getD_eq_getElem?_getD, List.getElem?_eq_getElem (hlen ▸ hj)]
              exact List.mem_range.mp (hperm.mem_iff.mp (List.getElem_mem _))
            rw [hvj]
            exact (getD_positions hperm hjn).2
          · exact (getD_positions hperm (lowerCscAdjacency_lt A hv hvj)).2
        exact ⟨hji, hi, ((mem_neighbours hperm hi hj hji.ne').mp hmem).symm⟩
      · rintro ⟨-, hi, hadj⟩
        exact (mem_neighbours hperm hi hj hji.ne').mpr hadj.symm
  refine ⟨⟨etree (permAdj A (perm.getD · 0)), post, depth, c⟩, ?_, rfl, hpostperm, hblock, hcount⟩
  unfold symbolicCounts etreeFromAdjacency filledColumnCountsFromAdjacency
  dsimp only
  rw [hs, Option.map_some, Option.bind_eq_bind, Option.bind_some, hparent, hpost,
    Option.bind_eq_bind, Option.bind_some]
  dsimp only
  rw [hc]
  rfl

end Permuted

/-! ## Flags -/

section Flags

variable {iperm : ℕ → ℤ} {parent : ℕ → Option ℕ} {invPo : ℕ → ℕ} {pair : ℤ × ℤ}

/-- The earlier position of a pair. -/
def pairLow (iperm : ℕ → ℤ) (pair : ℤ × ℤ) : ℕ :=
  min (iperm pair.1.toNat).toNat (iperm pair.2.toNat).toNat

/-- The later position of a pair. -/
def pairHigh (iperm : ℕ → ℤ) (pair : ℤ × ℤ) : ℕ :=
  max (iperm pair.1.toNat).toNat (iperm pair.2.toNat).toNat

theorem flagPair_eq (s : PairFlags) : flagPair iperm parent invPo s pair
    = if parent (pairLow iperm pair) = some (pairHigh iperm pair) then
        { s with keep := Function.update s.keep (invPo (pairLow iperm pair)) true }
      else { s with pairsSplit := s.pairsSplit + 1 } := by
  unfold flagPair pairLow pairHigh
  rcases Nat.lt_or_ge (iperm pair.2.toNat).toNat (iperm pair.1.toNat).toNat with hgt | hle
  · dsimp only
    rw [if_pos hgt, min_eq_right hgt.le, max_eq_left hgt.le]
  · dsimp only
    rw [if_neg (not_lt.mpr hle), min_eq_left hle, max_eq_right hle]

/-- Every pair is flagged or counted. -/
theorem flagPairs_spec (pairs : List (ℤ × ℤ)) (s : PairFlags) :
    (∀ x, s.keep x = true → (pairs.foldl (flagPair iperm parent invPo) s).keep x = true) ∧
    (∀ pair ∈ pairs, parent (pairLow iperm pair) = some (pairHigh iperm pair) →
      (pairs.foldl (flagPair iperm parent invPo) s).keep (invPo (pairLow iperm pair)) = true) ∧
    (pairs.foldl (flagPair iperm parent invPo) s).pairsSplit = s.pairsSplit
      + pairs.countP fun pair => parent (pairLow iperm pair) ≠ some (pairHigh iperm pair) := by
  -- on the pairs: flags are never taken back
  induction pairs generalizing s with
  | nil => exact ⟨fun _ h => h, fun _ h => (nomatch h), rfl⟩
  | cons p l ih =>
    obtain ⟨hold, hflag, hcount⟩ := ih (flagPair iperm parent invPo s p)
    rw [List.foldl_cons]
    by_cases hp : parent (pairLow iperm p) = some (pairHigh iperm p)
    · have hstep := ((@flagPair_eq iperm parent invPo p) s).trans
        (if_pos hp)
      refine ⟨fun x hx => hold x ?_, fun pair hpair hkept => ?_, ?_⟩
      · rw [hstep]
        dsimp only
        rw [Function.update_apply, hx, ite_self]
      · rcases List.mem_cons.mp hpair with rfl | hpair
        · refine hold _ ?_
          rw [hstep]
          exact Function.update_self ..
        · exact hflag pair hpair hkept
      · rw [hcount, hstep, List.countP_cons_of_neg (by simpa using hp)]
    · have hstep := ((@flagPair_eq iperm parent invPo p) s).trans
        (if_neg hp)
      refine ⟨fun x hx => hold x ?_, fun pair hpair hkept => ?_, ?_⟩
      · rw [hstep]
        exact hx
      · rcases List.mem_cons.mp hpair with rfl | hpair
        · exact absurd hkept hp
        · exact hflag pair hpair hkept
      · rw [hcount, hstep, List.countP_cons_of_pos (by simpa using hp)]
        dsimp only
        omega

end Flags

/-! ## Columns and supernodes -/

section Snodes

variable {n j : ℕ} {parent : ℕ → Option ℕ} {F : Fundamental} {order : List ℕ}
  {snodes : List Supernode}

theorem Tiles.exists_snode {a b t : ℕ} {l : List Supernode} (h : Tiles a l b) (ha : a ≤ t)
    (hb : t < b) : ∃ sn ∈ l, sn.colStart ≤ t ∧ t < sn.colEnd := by
  induction l generalizing a with
  | nil =>
    obtain rfl : a = b := h
    omega
  | cons sn l ih =>
    obtain ⟨hstart, -, htail⟩ := h
    rcases Nat.lt_or_ge t sn.colEnd with hlt | hge
    · exact ⟨sn, List.mem_cons_self, by omega, hlt⟩
    · obtain ⟨sn', hsn', hin⟩ := ih htail hge
      exact ⟨sn', List.mem_cons_of_mem sn hsn', hin⟩

/-- A column of a supernode stands in its range. -/
theorem mem_columnsOf {sn : Supernode} (hnodup : order.Nodup) (hj : j ∈ order) :
    j ∈ columnsOf order sn ↔ sn.colStart ≤ positions order j ∧ positions order j < sn.colEnd := by
  obtain ⟨i, hi⟩ := List.mem_iff_getElem?.mp hj
  rw [positions_eq hnodup hi]
  unfold columnsOf
  constructor
  · intro hmem
    obtain ⟨t, ht⟩ := List.mem_iff_getElem?.mp hmem
    have hlt : t < sn.colEnd - sn.colStart := by
      have := (List.getElem?_eq_some_iff.mp ht).1
      rw [List.length_take] at this
      omega
    rw [List.getElem?_take_of_lt hlt, List.getElem?_drop] at ht
    have hpos := (positions_eq hnodup hi).symm.trans (positions_eq hnodup ht)
    omega
  · rintro ⟨hstart, hend⟩
    refine List.mem_iff_getElem?.mpr ⟨i - sn.colStart, ?_⟩
    rw [List.getElem?_take_of_lt (by omega), List.getElem?_drop, Nat.add_sub_cancel' hstart]
    exact hi

theorem SupernodeTree.exists_snode (h : SupernodeTree n parent F order snodes) (hj : j < n) :
    ∃ sn ∈ snodes, j ∈ columnsOf order sn := by
  have hmem : j ∈ order := h.perm.mem_iff.mpr (List.mem_range.mpr hj)
  have hnodup : order.Nodup := h.perm.nodup_iff.mpr List.nodup_range
  obtain ⟨i, hi⟩ := List.mem_iff_getElem?.mp hmem
  have hlt : i < n := by
    have := (List.getElem?_eq_some_iff.mp hi).1
    rwa [h.perm.length_eq, List.length_range] at this
  obtain ⟨sn, hsn, hin⟩ := h.tiles.exists_snode (Nat.zero_le i) hlt
  exact ⟨sn, hsn, (mem_columnsOf hnodup hmem).mpr (by rwa [positions_eq hnodup hi])⟩

end Snodes

/-! ## The analysis -/

section Analysis

variable {n j k : ℕ} {parent : ℕ → Option ℕ} {post l : List ℕ}

theorem getElem?_of_perm (h : l.Perm (List.range n)) (hk : k < n) : l[k]? = some (l.getD k 0) := by
  have hlen : l.length = n := by rw [h.length_eq, List.length_range]
  rw [List.getD_eq_getElem?_getD, List.getElem?_eq_getElem (hlen ▸ hk)]
  rfl

theorem getD_lt_of_perm (h : l.Perm (List.range n)) (hk : k < n) : l.getD k 0 < n :=
  List.mem_range.mp (h.mem_iff.mp (List.mem_of_getElem? (getElem?_of_perm h hk)))

/-- A permutation read in the order of another one is a permutation. -/
theorem map_getD_perm {l' : List ℕ} (h : l.Perm (List.range n)) (h' : l'.Perm (List.range n)) :
    (l'.map (l.getD · 0)).Perm (List.range n) := by
  have hlen : l.length = n := by rw [h.length_eq, List.length_range]
  have hself : (List.range n).map (l.getD · 0) = l := by
    refine List.ext_getElem? fun k => ?_
    rw [List.getElem?_map]
    rcases Nat.lt_or_ge k n with hk | hk
    · rw [List.getElem?_range hk, getElem?_of_perm h hk]
      rfl
    · rw [List.getElem?_eq_none (by rw [List.length_range]; exact hk),
        List.getElem?_eq_none (hlen ▸ hk)]
      rfl
  exact ((h'.map _).trans (.of_eq hself)).trans h

/-- The parents numbered by the positions of a postorder. -/
theorem relabel_upward (h : Upward n parent) (hperm : post.Perm (List.range n))
    (hpost : Multifrontal.Postorder (vertexParent n parent) post) :
    Upward n fun k => (parent (post.getD k 0)).map (positions post) := by
  obtain ⟨low, P⟩ := exists_postIndex h hperm hpost
  have hpos : ∀ v < n, positions post v = post.idxOf v := by
    intro v hv
    have hmem : v ∈ post := hperm.mem_iff.mpr (List.mem_range.mpr hv)
    exact positions_eq hpost.nodup (List.getElem?_idxOf hmem)
  intro k hk q hq
  have hold := getD_lt_of_perm hperm hk
  obtain ⟨p, hp, rfl⟩ := Option.map_eq_some_iff.mp hq
  obtain ⟨hlt, hpn⟩ := h _ hold p hp
  have hkpos : k = post.idxOf (post.getD k 0) := by
    rw [← hpos _ hold, positions_eq hpost.nodup (getElem?_of_perm hperm hk)]
  have hle := P.pos_le hold hpn (.single hp)
  have hne : post.idxOf (post.getD k 0) ≠ post.idxOf p := fun heq =>
    hlt.ne (P.pos_inj _ hold _ hpn heq)
  refine ⟨?_, ?_⟩
  · rw [hpos p hpn]
    omega
  · rw [hpos p hpn]
    have := List.idxOf_lt_length_of_mem (hperm.mem_iff.mpr (List.mem_range.mpr hpn))
    rwa [hperm.length_eq, List.length_range] at this

variable {A : LowerPattern} {u : UserOrder} {perm : ℕ → ℤ} {iperm : ℕ → ℤ}

/-- The columns of a legal order. -/
def orderColumns (n : ℕ) (perm : ℕ → ℤ) : List ℕ := (List.range n).map fun k => (perm k).toNat

/-- Columns in legal orders have the positions that `user_iperm` says. -/
theorem Placed.iperm_eq (h : Placed n n perm iperm) (hj : j < n) :
    iperm j = positions (orderColumns n perm) j ∧ positions (orderColumns n perm) j < n := by
  have hperm : (orderColumns n perm).Perm (List.range n) := h.order_perm
  obtain ⟨k, hk⟩ := List.mem_iff_getElem?.mp (hperm.mem_iff.mpr (List.mem_range.mpr hj))
  have hkn : k < n := by
    have := (List.getElem?_eq_some_iff.mp hk).1
    rwa [hperm.length_eq, List.length_range] at this
  rw [positions_eq (hperm.nodup_iff.mpr List.nodup_range) hk]
  have hval : (perm k).toNat = j := by
    rw [orderColumns, List.getElem?_map, List.getElem?_range hkn] at hk
    exact Option.some.inj hk
  rw [← hval]
  exact ⟨(h.column k hkn).2.2, hkn⟩

/-- The entry of a pair is structurally nonzero in the factor. -/
def pairCoupled (A : LowerPattern) (perm : ℕ → ℤ) (iperm : ℕ → ℤ) (pair : ℤ × ℤ) : Prop :=
  Fill (permAdj A ((orderColumns A.n perm).getD · 0)) (pairHigh iperm pair) (pairLow iperm pair)

/-- Two columns next to each other are parent and child when they are coupled. -/
theorem parent_iff_coupled {adj : ℕ → ℕ → Prop} :
    etree adj j = some (j + 1) ↔ Fill adj (j + 1) j := by
  rw [etree_eq_some]
  exact ⟨And.left, fun h => ⟨h, fun _ hi => hi.lt⟩⟩

open Classical in
/-- After the analysis in a legal order, the pairs counted as split are those whose entry is
    structurally zero in the factor, and every other pair lies inside one supernode. -/
theorem user_pairs_kept (A : LowerPattern) (u : UserOrder) (nemin : ℤ) (rule : Amalgamation)
    (perm iperm : ℕ → ℤ) (hcheck : checkUserOrder A.n u = some (perm, iperm)) :
    ∃ keep, analyseUserOrder A u nemin rule = some (some keep) ∧
      keep.perm.Perm (List.range A.n) ∧
      (∀ c < A.n, keep.perm[keep.iperm c]? = some c) ∧
      Tiles 0 keep.supernodes A.n ∧
      keep.pairsSplit = (u.pairs.countP fun pair => ¬pairCoupled A perm iperm pair) ∧
      ∀ pair ∈ u.pairs, pairCoupled A perm iperm pair → ∃ sn ∈ keep.supernodes,
        (sn.colStart ≤ keep.iperm pair.1.toNat ∧ keep.iperm pair.1.toNat < sn.colEnd) ∧
        sn.colStart ≤ keep.iperm pair.2.toNat ∧ keep.iperm pair.2.toNat < sn.colEnd := by
  obtain ⟨hplaced, hadjacent⟩ := checkUserOrder_spec hcheck
  have hperm : (orderColumns A.n perm).Perm (List.range A.n) := hplaced.order_perm
  obtain ⟨sym, hsym, hparent, hpostperm, hblock, -⟩ := symbolicCounts_spec hperm
  have hup : Upward A.n sym.parent := hparent ▸ permAdj_upward
  set invPo := positions sym.post with hinvPo
  set parent₁ : ℕ → Option ℕ := fun k => (sym.parent (sym.post.getD k 0)).map invPo with hparent₁
  set flags := u.pairs.foldl (flagPair iperm sym.parent invPo) ⟨fun _ => false, 0⟩ with hflags
  have hup₁ : Upward A.n parent₁ := relabel_upward hup hpostperm hblock
  obtain ⟨out, hout, htree, hcols⟩ := amalgamateRelaxed_tree hup₁
    (fun k => sym.colcount (sym.post.getD k 0)) nemin
    (if u.pairs = [] then none else some flags.keep) rule
  have hfinal : (out.order.map fun k₁ => (orderColumns A.n perm).getD (sym.post.getD k₁ 0) 0).Perm
      (List.range A.n) := by
    have hmap := map_getD_perm hperm (map_getD_perm hpostperm htree.perm)
    rwa [List.map_map] at hmap
  set permFinal := out.order.map fun k₁ => (orderColumns A.n perm).getD (sym.post.getD k₁ 0) 0
    with hpermFinal
  obtain ⟨-, hflagged, hsplit⟩ :=
    (@flagPairs_spec iperm sym.parent invPo) u.pairs ⟨fun _ => false, 0⟩
  -- a pair is kept when its entry is in the factor
  have hcoupled : ∀ pair ∈ u.pairs, pairHigh iperm pair = pairLow iperm pair + 1 ∧
      (sym.parent (pairLow iperm pair) = some (pairHigh iperm pair) ↔
        pairCoupled A perm iperm pair) := by
    intro pair hpair
    have hadj := of_decide_eq_true (hadjacent pair hpair)
    obtain ⟨h₁, h₁n, h₂, h₂n, habs⟩ := hadj
    have hv₁ := (hplaced.iperm_eq (j := pair.1.toNat) (by omega)).1
    have hv₂ := (hplaced.iperm_eq (j := pair.2.toNat) (by omega)).1
    have hnext : pairHigh iperm pair = pairLow iperm pair + 1 := by
      unfold pairHigh pairLow
      rw [Int.abs_eq_natAbs] at habs
      omega
    refine ⟨hnext, ?_⟩
    rw [pairCoupled, hparent, hnext]
    exact parent_iff_coupled
  refine ⟨⟨permFinal, positions permFinal,
    ⟨fun k => (parent₁ (out.order.getD k 0)).map (positions out.order),
      (List.range A.n).map (positions out.order), sym.depth⟩, out.snodes, flags.pairsSplit⟩,
    ?_, hfinal, fun c hc => ?_, htree.tiles, ?_, fun pair hpair hpc => ?_⟩
  · have hrun : analyseOrder A.n (lowerCscAdjacency A.n A.csc) (orderColumns A.n perm) iperm u.pairs
        nemin rule = some ⟨permFinal, positions permFinal,
          ⟨fun k => (parent₁ (out.order.getD k 0)).map (positions out.order),
            (List.range A.n).map (positions out.order), sym.depth⟩, out.snodes,
            flags.pairsSplit⟩ := by
      unfold analyseOrder
      rw [hsym, Option.bind_eq_bind, Option.bind_some]
      dsimp only
      rw [hout]
      rfl
    unfold analyseUserOrder
    rw [hcheck]
    exact congrArg (Option.map some) hrun
  · obtain ⟨i, hi⟩ := List.mem_iff_getElem?.mp (hfinal.mem_iff.mpr (List.mem_range.mpr hc))
    dsimp only
    rw [positions_eq (hfinal.nodup_iff.mpr List.nodup_range) hi]
    exact hi
  · rw [hflags, hsplit, Nat.zero_add]
    refine List.countP_congr fun pair hpair => ?_
    rw [decide_eq_true_eq, decide_eq_true_eq, ne_eq, (hcoupled pair hpair).2]
  · have hkept := (hcoupled pair hpair).2.mpr hpc
    have hsome : (if u.pairs = [] then none else some flags.keep) = some flags.keep :=
      if_neg (List.ne_nil_of_mem hpair)
    rw [hsome] at hcols
    have horder : out.order.Nodup := htree.perm.nodup_iff.mpr List.nodup_range
    have hin : ∀ {k}, k < A.n → k ∈ out.order := fun hk =>
      htree.perm.mem_iff.mpr (List.mem_range.mpr hk)
    -- where a column ends up
    have hplace : ∀ c : ℤ, 0 ≤ c → c < A.n → positions permFinal c.toNat
        = positions out.order (invPo (iperm c.toNat).toNat) ∧ (iperm c.toNat).toNat < A.n := by
      intro c h0 hn
      obtain ⟨hip, hq⟩ := hplaced.iperm_eq (j := c.toNat) (by omega)
      rw [hip, Int.toNat_natCast]
      obtain ⟨hpost, hk⟩ := getD_positions hpostperm hq
      obtain ⟨t, ht⟩ := List.mem_iff_getElem?.mp (hin hk)
      refine ⟨?_, hq⟩
      rw [hinvPo, positions_eq horder ht]
      refine positions_eq (hfinal.nodup_iff.mpr List.nodup_range) ?_
      rw [hpermFinal, List.getElem?_map, ht, Option.map_some, hpost,
        (getD_positions hperm (by omega)).1]
    obtain ⟨h₁, h₁n, h₂, h₂n, -⟩ := of_decide_eq_true (hadjacent pair hpair)
    obtain ⟨hplace₁, hq₁⟩ := hplace pair.1 h₁ h₁n
    obtain ⟨hplace₂, hq₂⟩ := hplace pair.2 h₂ h₂n
    have hlow : pairLow iperm pair < A.n := lt_of_le_of_lt (min_le_left _ _) hq₁
    have hhigh : pairHigh iperm pair < A.n := (hup _ hlow _ hkept).2
    obtain ⟨hpostlow, hklow⟩ := getD_positions hpostperm hlow
    obtain ⟨-, hkhigh⟩ := getD_positions hpostperm hhigh
    obtain ⟨sn, hsn, hlowsn⟩ := htree.exists_snode hklow
    obtain ⟨g, hg⟩ := hcols sn hsn
    have hhighsn : invPo (pairHigh iperm pair) ∈ columnsOf out.order sn := by
      rw [hg, mem_groupCols] at hlowsn ⊢
      refine ⟨hkhigh, hlowsn.2 ▸ (leadOf_keep hup₁ hklow (hflagged pair hpair hkept) ?_).symm⟩
      rw [hparent₁]
      dsimp only
      rw [hpostlow, hkept]
      rfl
    have hboth : ∀ q, q = pairLow iperm pair ∨ q = pairHigh iperm pair →
        sn.colStart ≤ positions out.order (invPo q) ∧
          positions out.order (invPo q) < sn.colEnd := by
      rintro q (rfl | rfl)
      · exact (mem_columnsOf horder (hin hklow)).mp hlowsn
      · exact (mem_columnsOf horder (hin hkhigh)).mp hhighsn
    refine ⟨sn, hsn, ?_, ?_⟩
    · dsimp only
      rw [hplace₁]
      refine hboth _ ?_
      unfold pairLow pairHigh
      omega
    · dsimp only
      rw [hplace₂]
      refine hboth _ ?_
      unfold pairLow pairHigh
      omega

/-- The given order of the kite, its first two columns a pair. -/
def kiteOrder : UserOrder where
  perm := some fun k => k
  numPairs := 1
  pairFirst := some fun k => [0, 1].getD k 0

theorem user_pairs_kept_kite : ∃ keep,
    analyseUserOrder kitePattern kiteOrder 1 .smf = some (some keep) ∧
      ∃ sn ∈ keep.supernodes, (sn.colStart ≤ keep.iperm 0 ∧ keep.iperm 0 < sn.colEnd) ∧
        sn.colStart ≤ keep.iperm 1 ∧ keep.iperm 1 < sn.colEnd := by
  obtain ⟨keep, hkeep, -, -, -, -, hpairs⟩ := user_pairs_kept kitePattern kiteOrder 1 .smf _ _ rfl
  refine ⟨keep, hkeep, hpairs (0, 1) (List.mem_singleton_self _) (.entry (by decide) ?_)⟩
  exact ⟨by decide, by decide, .inl ⟨by decide, by decide, by decide⟩⟩

end Analysis

end Symbolic
end SmfSolver
