/-
  SmfSolver.Matrix.PermutedValuesSpec

  Where the maps of an analysis send the entries, and what the vectors hold once values have
  gone through them.

  * `Carries`: a map from the entries of one matrix to the slots of another, by position;
    maps compose (`Carries.comp`), and so do the shortcuts that leave one out.
  * `Carries.entries`: added up through such a map, the values are the sums by position.
  * `doubleTranspose_carries`: the permuted pattern and its map.
  * `permuted_values`: every analysis, every vector of values, either layout.
-/
import SmfSolver.Matrix.CleanLowerSpec
import SmfSolver.Matrix.PermutedValues

namespace SmfSolver

open Lib

variable {K : Type*}

namespace CscLower

variable {A : CscLower K} {j k : ℕ}

theorem Valid.shapeOk (h : A.Valid) : A.ShapeOk := by
  obtain ⟨hn, hv⟩ := h
  unfold validateShape at hv
  split_ifs at hv with hlen hzero hmono hrow hval hrows
  exact ⟨hn, not_not.mp hlen, not_not.mp hzero, hmono, not_not.mp hrow, not_not.mp hval⟩

/-- Other values, as many. -/
theorem ShapeOk.withValues (h : A.ShapeOk) {v : List K} (hv : v.length = A.rowIdx.length) :
    ({ A with values := v } : CscLower K).ShapeOk :=
  ⟨h.1, h.2.1, h.2.2.1, h.2.2.2.1, h.2.2.2.2.1, (congrArg Nat.cast hv).trans h.2.2.2.2.1⟩

variable [Zero K]

/-- What the scan passes is what the cleaning makes. -/
theorem ShapeOk.canonical (h : A.ShapeOk) (hclean : A.isClean = true) : A.Canonical := by
  rw [h.eq_ofColumns]
  refine ofColumns_canonical (fun j hj => ?_) fun j hj e he => ?_
  · rw [h.column_eq hj]
    exact List.pairwise_map.mpr (clean_column hclean hj).2
  · rw [h.column_eq hj] at he
    obtain ⟨k, hk, rfl⟩ := List.mem_map.mp he
    have hrange := (clean_column hclean hj).1 k hk
    exact ⟨hrange.1, hrange.2.trans_eq (Int.toNat_of_nonneg h.1).symm⟩

theorem Canonical.isClean (h : A.Canonical) : A.isClean = true := by
  refine List.all_eq_true.mpr fun j hj => columnClean_iff.mpr ?_
  rw [List.mem_range] at hj
  have hcolumn := h.valid.shapeOk.column_eq hj
  refine ⟨fun i hi => ?_, List.pairwise_map.mpr ?_⟩
  · obtain ⟨k, hk, rfl⟩ := List.mem_map.mp hi
    have hrange := validateShape_column h.valid hj
      (hcolumn ▸ List.mem_map_of_mem hk : A.entryAt k ∈ A.column j)
    have hlow : (j : ℤ) ≤ A.rowAt k := hrange.1
    exact ⟨by omega, hrange.2⟩
  · have hsorted := h.sorted j hj
    rw [hcolumn, List.pairwise_map] at hsorted
    exact hsorted

omit [Zero K] in
/-- In a clean matrix a position has one slot. -/
theorem clean_slot_unique (hclean : A.isClean = true) {p p' : ℕ} (hj : j < A.dim)
    (hp : p ∈ A.indices j) (hp' : p' ∈ A.indices j) (hrow : A.rowAt p = A.rowAt p') : p = p' := by
  have hnodup : ((A.indices j).map A.rowAt).Nodup :=
    List.pairwise_map.mpr ((clean_column hclean hj).2.imp fun hlt => hlt.ne)
  exact List.inj_on_of_nodup_map hnodup hp hp' hrow

omit [Zero K] in
theorem clean_not_dropped (hclean : A.isClean = true) (hj : j < A.dim) (hk : k ∈ A.indices j) :
    ¬A.Dropped j (A.rowAt k) := by
  have := (clean_column hclean hj).1 k hk
  unfold Dropped
  omega

end CscLower

namespace PermutedValues

open CscLower

/-! ## Adding values up -/

section ScatterAdd

variable [AddCommGroup K]

theorem getElem?_scatterAdd (slots : List ℤ) (uv out : List K) (p : ℕ) :
    (scatterAdd slots uv out)[p]? =
      out[p]?.map (· + sumAt Prod.fst Prod.snd (slots.zip uv) (p : ℤ)) := by
  unfold scatterAdd
  induction slots.zip uv generalizing out with
  | nil => simp [sumAt]
  | cons e l ih =>
    rw [List.foldl_cons, ih]
    by_cases hneg : e.1 < 0
    · have hne : e.1 ≠ p := by omega
      simp [sumAt, hneg, hne]
    · rw [if_neg hneg, List.getElem?_modify]
      by_cases hp : e.1 = p
      · cases out[p]? <;> simp [sumAt, hp, add_assoc]
      · have hne : e.1.toNat ≠ p := by omega
        cases out[p]? <;> simp [sumAt, hp, hne]

theorem length_scatterAdd (slots : List ℤ) (uv out : List K) :
    (scatterAdd slots uv out).length = out.length := by
  unfold scatterAdd
  induction slots.zip uv generalizing out with
  | nil => rfl
  | cons e l ih =>
    rw [List.foldl_cons, ih]
    split_ifs
    · rfl
    · exact List.length_modify ..

theorem scatterAdd_zeros (slots : List ℤ) (uv : List K) {m p : ℕ} (hp : p < m) :
    (scatterAdd slots uv (List.replicate m 0))[p]? =
      some (sumAt Prod.fst Prod.snd (slots.zip uv) (p : ℤ)) := by
  rw [getElem?_scatterAdd, List.getElem?_replicate, if_pos hp, Option.map_some, zero_add]

/-- The sum of the values of the entries that `P` picks. -/
def pickedSum (B : CscLower K) (P : ℕ → ℕ → Prop) [∀ j k, Decidable (P j k)] : K :=
  (((List.range B.dim).flatMap fun j => (B.indices j).filter fun k => P j k).map
    fun k => B.values.getD k 0).sum

/-- The values that go to a slot, by the columns they come from. -/
theorem sumAt_zip {B : CscLower K} (h : B.ShapeOk) {slots : List ℤ}
    (hlen : slots.length = B.rowIdx.length) {q : ℤ} {P : ℕ → ℕ → Prop} [∀ j k, Decidable (P j k)]
    (hP : ∀ j < B.dim, ∀ k ∈ B.indices j, slots[k]? = some q ↔ P j k) :
    sumAt Prod.fst Prod.snd (slots.zip B.values) q = pickedSum B P := by
  have hzip : slots.zip B.values =
      (List.range B.rowIdx.length).map fun k => (slots.getD k 0, B.values.getD k 0) := by
    refine List.ext_getElem (by simp [hlen, h.length_values]) fun i hi _ => ?_
    have hi' : i < slots.length ∧ i < B.values.length := by
      rw [List.length_zip] at hi
      omega
    rw [List.getElem_zip, List.getElem_map, List.getElem_range]
    simp [hi'.1, hi'.2]
  rw [sumAt, hzip, List.filter_map, List.map_map, ← h.ptr_dim, ← h.flatMap_indices le_rfl,
    List.filter_flatMap, pickedSum]
  refine congrArg (fun l => (List.map _ l).sum) (List.flatMap_congr fun j hj => ?_)
  rw [List.mem_range] at hj
  refine List.filter_congr fun k hk => decide_eq_decide.mpr ?_
  have hlt := hlen ▸ h.mem_indices_lt hj hk
  rw [← hP j hj k hk, List.getElem?_eq_getElem hlt, Option.some.injEq]
  simp [hlt]

end ScatterAdd

/-! ## Maps by position -/

/-- `slots` sends each kept entry of `B`, in column `j` and row `i`, to the slot of `P` at
    column `(pos j i).1` and row `(pos j i).2`, the other entries to -1, and reaches every
    slot. -/
structure Carries (pos : ℕ → ℤ → ℕ × ℤ) (B P : CscLower K) (slots : List ℤ) : Prop where
  length : slots.length = B.rowIdx.length
  kept : ∀ j < B.dim, ∀ k ∈ B.indices j, ¬B.Dropped j (B.rowAt k) →
    (pos j (B.rowAt k)).1 < P.dim ∧ ∃ p ∈ P.indices (pos j (B.rowAt k)).1,
      slots[k]? = some (p : ℤ) ∧ P.rowAt p = (pos j (B.rowAt k)).2
  dropped : ∀ j < B.dim, ∀ k ∈ B.indices j, B.Dropped j (B.rowAt k) → slots[k]? = some (-1)
  onto : ∀ c < P.dim, ∀ p ∈ P.indices c, ∃ j < B.dim, ∃ k ∈ B.indices j,
    ¬B.Dropped j (B.rowAt k) ∧ slots[k]? = some (p : ℤ)

/-- The kept entries of `B` that are moved to column `c`. -/
def moved (pos : ℕ → ℤ → ℕ × ℤ) (B : CscLower K) (c : ℕ) : List (ℤ × K) :=
  (List.range B.dim).flatMap fun j =>
    ((B.column j).filter fun e => ¬B.Dropped j e.1 ∧ (pos j e.1).1 = c).map fun e =>
      ((pos j e.1).2, e.2)

section Carries

variable {pos pos' : ℕ → ℤ → ℕ × ℤ} {B C P : CscLower K} {slots otp : List ℤ}

/-- The values are no part of it. -/
theorem Carries.withValues (h : Carries pos B P slots) (v w : List K) :
    Carries pos { B with values := v } { P with values := w } slots :=
  ⟨h.length, h.kept, h.dropped, h.onto⟩

theorem Carries.of_values (h : Carries pos B P slots) (v : List K) :
    Carries pos { B with values := v } P slots :=
  ⟨h.length, h.kept, h.dropped, h.onto⟩

/-- No entries, no slots. -/
theorem Carries.length_eq_zero (h : Carries pos B P slots) (hP : P.ShapeOk) (hB : B.ShapeOk)
    (hzero : B.rowIdx.length = 0) : P.rowIdx.length = 0 := by
  by_contra hne
  have hmem : 0 ∈ (List.range P.dim).flatMap P.indices := by
    rw [hP.flatMap_indices le_rfl, hP.ptr_dim]
    exact List.mem_range.mpr (Nat.pos_of_ne_zero hne)
  obtain ⟨c, hc, hp⟩ := List.mem_flatMap.mp hmem
  obtain ⟨j, hj, k, hk, -⟩ := h.onto c (List.mem_range.mp hc) 0 hp
  have := hB.mem_indices_lt hj hk
  omega

/-- What comes to a slot: the kept entries of its position. -/
theorem Carries.iff [Zero K] (h : Carries pos B P slots) (hP : P.ShapeOk)
    (hclean : P.isClean = true) {c p j k : ℕ} (hc : c < P.dim) (hp : p ∈ P.indices c)
    (hj : j < B.dim) (hk : k ∈ B.indices j) :
    slots[k]? = some (p : ℤ) ↔
      ¬B.Dropped j (B.rowAt k) ∧ pos j (B.rowAt k) = (c, P.rowAt p) := by
  by_cases hdrop : B.Dropped j (B.rowAt k)
  · rw [h.dropped j hj k hk hdrop]
    refine iff_of_false (fun hf => ?_) fun hf => hf.1 hdrop
    have := Option.some.inj hf
    omega
  · obtain ⟨hlt, p', hp', hslot, hrow⟩ := h.kept j hj k hk hdrop
    rw [hslot, Option.some.injEq]
    constructor
    · intro heq
      obtain rfl : p' = p := by exact_mod_cast heq
      exact ⟨hdrop, Prod.ext (hP.indices_unique hc hlt hp hp') hrow.symm⟩
    · rintro ⟨-, heq⟩
      rw [heq] at hp' hrow
      rw [clean_slot_unique hclean hc hp' hp hrow]

/-- The identity map of a clean matrix. -/
theorem carries_self [Zero K] (h : C.ShapeOk) (hclean : C.isClean = true) :
    Carries (fun j i => (j, i)) C C ((List.range C.rowIdx.length).map fun k : ℕ => (k : ℤ)) := by
  have hget : ∀ j < C.dim, ∀ k ∈ C.indices j,
      ((List.range C.rowIdx.length).map fun k : ℕ => (k : ℤ))[k]? = some (k : ℤ) := by
    intro j hj k hk
    rw [List.getElem?_map, List.getElem?_range (h.mem_indices_lt hj hk)]
    rfl
  exact ⟨by simp, fun j hj k hk _ => ⟨hj, k, hk, hget j hj k hk, rfl⟩,
    fun j hj k hk hdrop => absurd hdrop (clean_not_dropped hclean hj hk),
    fun c hc p hp => ⟨c, hc, p, hp, clean_not_dropped hclean hc hp, hget c hc p hp⟩⟩

/-- A map to the cleaned matrix and one from it make a map past it; `otp` need not be there
    for the identity. -/
theorem Carries.comp {identity : Bool} {otp' : List ℤ} (h : Carries (fun j i => (j, i)) B C slots)
    (h' : Carries pos C P otp') (hclean : C.isClean = true)
    (hotp : ∀ (s : ℕ) (p : ℤ), otp'[s]? = some p →
      (if identity then (s : ℤ) else otp.getD s (-1)) = p) :
    Carries pos B P (directMap identity otp slots) := by
  have hget : ∀ k s : ℕ, slots[k]? = some (s : ℤ) → ∀ p : ℤ, otp'[s]? = some p →
      (directMap identity otp slots)[k]? = some p := by
    intro k s hs p hp
    rw [directMap, List.getElem?_map, hs, Option.map_some, if_neg (by omega), Int.toNat_natCast,
      hotp s p hp]
  refine ⟨by rw [directMap, List.length_map, h.length], fun j hj k hk hkept => ?_,
    fun j hj k hk hdrop => ?_, fun c hc p hp => ?_⟩
  · obtain ⟨hlt, s, hs, hslot, hrow⟩ := h.kept j hj k hk hkept
    obtain ⟨hlt', p, hp, hotp, hrow'⟩ := h'.kept j hlt s hs (clean_not_dropped hclean hlt hs)
    rw [hrow] at hlt' hp hrow'
    exact ⟨hlt', p, hp, hget k s hslot p hotp, hrow'⟩
  · rw [directMap, List.getElem?_map, h.dropped j hj k hk hdrop]
    rfl
  · obtain ⟨j', hj', s, hs, -, hotp⟩ := h'.onto c hc p hp
    obtain ⟨j, hj, k, hk, hkept, hslot⟩ := h.onto j' hj' s hs
    exact ⟨j, hj, k, hk, hkept, hget k s hslot p hotp⟩

/-- Only the places of the kept entries matter. -/
theorem Carries.congr (h : Carries pos B P slots) (hpos : ∀ j < B.dim, ∀ k ∈ B.indices j,
    ¬B.Dropped j (B.rowAt k) → pos j (B.rowAt k) = pos' j (B.rowAt k)) : Carries pos' B P slots :=
  ⟨h.length, fun j hj k hk hkept => hpos j hj k hk hkept ▸ h.kept j hj k hk hkept,
    h.dropped, h.onto⟩

variable [AddCommGroup K]

/-- The entries moved to a position. -/
theorem sumAt_moved (hB : B.ShapeOk) (c : ℕ) (i : ℤ) :
    sumAt Prod.fst Prod.snd (moved pos B c) i =
      pickedSum B fun j k => ¬B.Dropped j (B.rowAt k) ∧ pos j (B.rowAt k) = (c, i) := by
  rw [sumAt, moved, pickedSum, List.filter_flatMap, List.map_flatMap, List.map_flatMap]
  refine congrArg List.sum (List.flatMap_congr fun j hj => ?_)
  rw [hB.column_eq (List.mem_range.mp hj), List.filter_map, List.map_map, List.filter_map,
    List.filter_map, List.filter_filter, List.map_map]
  refine congrArg (List.map _) (List.filter_congr fun k _ => Bool.eq_iff_iff.mpr ?_)
  rw [Bool.and_eq_true]
  change decide ((pos j (B.rowAt k)).2 = i) = true ∧
    decide (¬B.Dropped j (B.rowAt k) ∧ (pos j (B.rowAt k)).1 = c) = true ↔ _
  rw [decide_eq_true_eq, decide_eq_true_eq, decide_eq_true_eq, Prod.ext_iff]
  tauto

theorem exists_moved (hB : B.ShapeOk) {c : ℕ} {i : ℤ} :
    (∃ e ∈ moved pos B c, e.1 = i) ↔ ∃ j < B.dim, ∃ k ∈ B.indices j,
      ¬B.Dropped j (B.rowAt k) ∧ pos j (B.rowAt k) = (c, i) := by
  constructor
  · rintro ⟨e, he, rfl⟩
    obtain ⟨j, hj, hmem⟩ := List.mem_flatMap.mp he
    obtain ⟨e', hmem', rfl⟩ := List.mem_map.mp hmem
    obtain ⟨hcolumn, hpos⟩ := List.mem_filter.mp hmem'
    rw [List.mem_range] at hj
    rw [hB.column_eq hj] at hcolumn
    obtain ⟨k, hk, rfl⟩ := List.mem_map.mp hcolumn
    obtain ⟨hkept, hcol⟩ := of_decide_eq_true hpos
    exact ⟨j, hj, k, hk, hkept, Prod.ext hcol rfl⟩
  · rintro ⟨j, hj, k, hk, hkept, hpos⟩
    refine ⟨(i, B.values.getD k 0), List.mem_flatMap.mpr ⟨j, List.mem_range.mpr hj, ?_⟩, rfl⟩
    refine List.mem_map.mpr ⟨B.entryAt k, List.mem_filter.mpr ⟨?_, decide_eq_true ⟨hkept, ?_⟩⟩, ?_⟩
    · rw [hB.column_eq hj]
      exact List.mem_map_of_mem hk
    · exact congrArg Prod.fst hpos
    · exact Prod.ext (congrArg Prod.snd hpos) rfl

/-- The values added up through the map: in each slot the sum of the entries of its position. -/
theorem Carries.entries (h : Carries pos B P slots) (hB : B.ShapeOk) (hP : P.ShapeOk)
    (hclean : P.isClean = true) {w : List K}
    (hw : w = scatterAdd slots B.values (List.replicate P.rowIdx.length 0)) :
    ({ P with values := w } : CscLower K).Canonical ∧
      ∀ c < P.dim, ∀ i v, (i, v) ∈ ({ P with values := w } : CscLower K).column c ↔
        (∃ e ∈ moved pos B c, e.1 = i) ∧ v = sumAt Prod.fst Prod.snd (moved pos B c) i := by
  have hQ : ({ P with values := w } : CscLower K).ShapeOk :=
    hP.withValues (by rw [hw, length_scatterAdd, List.length_replicate])
  have hsum : ∀ c < P.dim, ∀ p ∈ P.indices c,
      w.getD p 0 = sumAt Prod.fst Prod.snd (moved pos B c) (P.rowAt p) := fun c hc p hp => by
    rw [List.getD_eq_getElem?_getD, hw, scatterAdd_zeros _ _ (hP.mem_indices_lt hc hp),
      Option.getD_some, sumAt_moved hB]
    exact sumAt_zip hB h.length fun j hj k hk => h.iff hP hclean hc hp hj hk
  refine ⟨hQ.canonical hclean, fun c hc i v => ?_⟩
  rw [hQ.column_eq hc, List.mem_map, exists_moved hB]
  constructor
  · rintro ⟨p, hp, heq⟩
    obtain ⟨rfl, rfl⟩ := Prod.mk.inj heq
    obtain ⟨j, hj, k, hk, -, hslot⟩ := h.onto c hc p hp
    have hiff := (h.iff hP hclean hc hp hj hk).mp hslot
    exact ⟨⟨j, hj, k, hk, hiff⟩, hsum c hc p hp⟩
  · rintro ⟨⟨j, hj, k, hk, hkept, hpos⟩, rfl⟩
    obtain ⟨-, p, hp, -, hrow⟩ := h.kept j hj k hk hkept
    rw [hpos] at hp hrow
    exact ⟨p, hp, Prod.ext hrow ((hsum c hc p hp).trans (congrArg _ hrow))⟩

end Carries

/-! ## The permuted pattern -/

/-- Column and row of an entry in the lower triangle of P A P^T. -/
def permutedAt (ip : ℕ → ℕ) (j : ℕ) (i : ℤ) : ℕ × ℤ :=
  (min (ip i.toNat) (ip j), ((max (ip i.toNat) (ip j) : ℕ) : ℤ))

/-- The numbering of `n` rows by an order and its inverse. -/
structure Renumbers (n : ℕ) (ip : ℕ → ℕ) : Prop where
  lt : ∀ i < n, ip i < n
  inj : ∀ i < n, ∀ j < n, ip i = ip j → i = j

theorem inverse_get {perm : List ℕ} (hnodup : perm.Nodup) {i x : ℕ} (h : perm[i]? = some x) :
    inverse perm x = i :=
  foldl_zipIdx_update id (fun _ => 0) hnodup h

theorem inverse_renumbers {n : ℕ} {perm : List ℕ} (hperm : perm.Perm (List.range n)) :
    Renumbers n (inverse perm) := by
  have hnodup : perm.Nodup := hperm.nodup_iff.mpr List.nodup_range
  have hget : ∀ x < n, ∃ i < n, perm[i]? = some x := fun x hx => by
    obtain ⟨i, hi, hval⟩ := List.mem_iff_getElem.mp (hperm.mem_iff.mpr (List.mem_range.mpr hx))
    exact ⟨i, by rw [← List.length_range (n := n), ← hperm.length_eq]; exact hi,
      List.getElem?_eq_some_iff.mpr ⟨hi, hval⟩⟩
  refine ⟨fun x hx => ?_, fun x hx y hy heq => ?_⟩
  · obtain ⟨i, hi, hval⟩ := hget x hx
    rwa [inverse_get hnodup hval]
  · obtain ⟨i, -, hxi⟩ := hget x hx
    obtain ⟨j, -, hyj⟩ := hget y hy
    rw [inverse_get hnodup hxi, inverse_get hnodup hyj] at heq
    subst heq
    exact Option.some.inj (hxi.symm.trans hyj)

theorem inverse_range {n x : ℕ} (hx : x < n) : inverse (List.range n) x = x :=
  inverse_get List.nodup_range (by rw [List.getElem?_range hx])

section Transpose

variable {C : CscLower K} {ip : ℕ → ℕ} {e : ℕ × ℕ × ℕ} {c : ℕ}

theorem mem_placed : e ∈ placed C ip ↔ ∃ j < C.dim, e.2.2 ∈ C.indices j ∧
    (e.2.1, (e.1 : ℤ)) = permutedAt ip j (C.rowAt e.2.2) := by
  obtain ⟨r, c, s⟩ := e
  rw [placed, List.mem_flatMap]
  refine exists_congr fun j => and_congr List.mem_range ?_
  rw [List.mem_map]
  constructor
  · rintro ⟨k, hk, heq⟩
    obtain ⟨rfl, hrest⟩ := Prod.mk.inj heq
    obtain ⟨rfl, rfl⟩ := Prod.mk.inj hrest
    exact ⟨hk, rfl⟩
  · rintro ⟨hk, heq⟩
    obtain ⟨hcol, hrow⟩ := Prod.mk.inj heq
    exact ⟨s, hk, Prod.ext (Int.natCast_inj.mp hrow).symm (Prod.ext hcol.symm rfl)⟩

variable (hC : C.ShapeOk) (hclean : C.isClean = true) (hip : Renumbers C.dim ip)
include hC

variable (ip) in
theorem placed_numbers : (placed C ip).map (fun e => e.2.2) = List.range C.rowIdx.length := by
  rw [← hC.ptr_dim, ← hC.flatMap_indices le_rfl, placed, List.map_flatMap]
  exact List.flatMap_congr fun j _ => by rw [List.map_map]; exact List.map_id _

include hclean

theorem rowAt_lt {j k : ℕ} (hj : j < C.dim) (hk : k ∈ C.indices j) :
    ((C.rowAt k).toNat : ℤ) = C.rowAt k ∧ j ≤ (C.rowAt k).toNat ∧ (C.rowAt k).toNat < C.dim := by
  have hrange := (clean_column hclean hj).1 k hk
  have hn := hC.1
  unfold dim
  omega

include hip

theorem placed_lt (he : e ∈ placed C ip) : e.2.1 ≤ e.1 ∧ e.1 < C.dim := by
  obtain ⟨j, hj, hk, heq⟩ := mem_placed.mp he
  obtain ⟨-, -, hrow⟩ := rowAt_lt hC hclean hj hk
  obtain ⟨hcol, hmax⟩ := Prod.mk.inj heq
  have hmax' := Int.natCast_inj.mp hmax
  have h₁ := hip.lt _ hrow
  have h₂ := hip.lt j hj
  omega

/-- No two entries have the same place. -/
theorem placed_keys_nodup : ((placed C ip).map fun e => (e.1, e.2.1)).Nodup := by
  have hnodup : (placed C ip).Nodup := by
    have hnumbers := placed_numbers ip hC
    exact List.Nodup.of_map _ (hnumbers ▸ List.nodup_range)
  refine List.Nodup.map_on (fun e he e' he' hkey => ?_) hnodup
  obtain ⟨j, hj, hk, heq⟩ := mem_placed.mp he
  obtain ⟨j', hj', hk', heq'⟩ := mem_placed.mp he'
  obtain ⟨hrow, hlow, hlt⟩ := rowAt_lt hC hclean hj hk
  obtain ⟨hrow', hlow', hlt'⟩ := rowAt_lt hC hclean hj' hk'
  obtain ⟨hkey₁, hkey₂⟩ := Prod.mk.inj hkey
  obtain ⟨hcol, hmax⟩ := Prod.mk.inj heq
  obtain ⟨hcol', hmax'⟩ := Prod.mk.inj heq'
  have hmax := Int.natCast_inj.mp hmax
  have hmax' := Int.natCast_inj.mp hmax'
  -- the two places are the same pair of new rows, so of old ones; the larger is the row
  have hcases : ip (C.rowAt e.2.2).toNat = ip (C.rowAt e'.2.2).toNat ∧ ip j = ip j' ∨
      ip (C.rowAt e.2.2).toNat = ip j' ∧ ip j = ip (C.rowAt e'.2.2).toNat := by omega
  have hsame : j = j' ∧ (C.rowAt e.2.2).toNat = (C.rowAt e'.2.2).toNat := by
    rcases hcases with ⟨h₁, h₂⟩ | ⟨h₁, h₂⟩
    · exact ⟨hip.inj _ hj _ hj' h₂, hip.inj _ hlt _ hlt' h₁⟩
    · have h₃ := hip.inj _ hlt _ hj' h₁
      have h₄ := hip.inj _ hj _ hlt' h₂
      omega
  obtain ⟨rfl, hrows⟩ := hsame
  have hnumber := clean_slot_unique hclean hj hk hk' (by omega)
  exact Prod.ext hkey₁ (Prod.ext hkey₂ hnumber)

/-- The row form lists the same entries, by rows. -/
theorem byRows_perm : (byRows C ip).Perm ((placed C ip).map fun e => (e.2.1, e.1, e.2.2)) := by
  have hkey : ∀ e ∈ placed C ip, e.1 < C.dim := fun e he => (placed_lt hC hclean hip he).2
  have hperm := (Csr.flatMap_bucket_perm hkey).map fun e => (e.2.1, e.1, e.2.2)
  refine (List.Perm.of_eq ?_).trans hperm
  rw [byRows, List.map_flatMap]
  refine List.flatMap_congr fun r hr => ?_
  rw [buildRowForm, Csr.ofItems_slice hkey (List.mem_range.mp hr), List.map_map]
  rfl

theorem mem_byRows : e ∈ byRows C ip ↔ (e.2.1, e.1, e.2.2) ∈ placed C ip := by
  rw [(byRows_perm hC hclean hip).mem_iff, List.mem_map]
  exact ⟨fun ⟨e', he', heq⟩ => heq ▸ he', fun he => ⟨_, he, rfl⟩⟩

theorem byRows_numbers : ((byRows C ip).map fun e => e.2.2).Nodup := by
  refine ((byRows_perm hC hclean hip).map fun e => e.2.2).nodup_iff.mpr ?_
  rw [List.map_map]
  have hnumbers := placed_numbers ip hC
  exact hnumbers ▸ List.nodup_range

/-- The entries of a permuted column come in ascending rows. -/
theorem byRows_sorted : (byRows C ip).Pairwise fun a b => a.1 = b.1 → a.2.1 < b.2.1 := by
  have hkeys : (byRows C ip).Pairwise fun a b => (a.2.1, a.1) ≠ (b.2.1, b.1) := by
    have hperm := (byRows_perm hC hclean hip).map fun e => (e.2.1, e.1)
    rw [List.map_map] at hperm
    exact List.pairwise_map.mp (hperm.nodup_iff.mpr (placed_keys_nodup hC hclean hip))
  have hrows : (byRows C ip).Pairwise fun a b => a.2.1 ≤ b.2.1 := by
    rw [byRows, List.pairwise_flatMap]
    refine ⟨fun r _ => List.pairwise_map.mpr (List.pairwise_of_forall fun _ _ => le_rfl), ?_⟩
    refine List.pairwise_lt_range.imp fun hlt a ha b hb => ?_
    obtain ⟨_, -, rfl⟩ := List.mem_map.mp ha
    obtain ⟨_, -, rfl⟩ := List.mem_map.mp hb
    exact hlt.le
  refine (hkeys.and hrows).imp fun ⟨hne, hle⟩ heq => lt_of_le_of_ne hle fun hrow => hne ?_
  rw [hrow, heq]

theorem bucket_sorted (c : ℕ) :
    (Csr.bucket (Csr.unnumbered (byRows C ip)) c).Pairwise fun r r' => r < r' := by
  unfold Csr.bucket Csr.unnumbered
  rw [List.pairwise_map, List.filter_map, List.pairwise_map, List.pairwise_filter]
  refine (byRows_sorted hC hclean hip).imp fun h ha hb => h ?_
  exact (of_decide_eq_true ha).trans (of_decide_eq_true hb).symm

theorem mem_bucket_byRows {c r : ℕ} : r ∈ Csr.bucket (Csr.unnumbered (byRows C ip)) c ↔
    ∃ s, (r, c, s) ∈ placed C ip := by
  rw [Csr.mem_bucket, Csr.unnumbered, List.mem_map]
  constructor
  · rintro ⟨e, he, heq⟩
    obtain ⟨rfl, rfl⟩ := Prod.mk.inj heq
    exact ⟨e.2.2, (mem_byRows hC hclean hip).mp he⟩
  · rintro ⟨s, hs⟩
    exact ⟨(c, r, s), (mem_byRows hC hclean hip).mpr hs, rfl⟩

/-- Where a permuted column starts. -/
theorem columnStarts_eq (hc : c ≤ C.dim) :
    columnStarts C ip c = (Csr.unnumbered (byRows C ip)).countP fun e => e.1 < c := by
  rw [columnStarts, Csr.runningSums_countKeys _ hc, Csr.unnumbered,
    ((byRows_perm hC hclean hip).map _).countP_eq, List.map_map, List.countP_map, List.countP_map]
  rfl

theorem columnStarts_succ (hc : c < C.dim) : columnStarts C ip (c + 1) =
    columnStarts C ip c + (Csr.bucket (Csr.unnumbered (byRows C ip)) c).length := by
  rw [columnStarts_eq hC hclean hip hc, columnStarts_eq hC hclean hip hc.le, Csr.countP_lt_succ,
    Csr.bucket_length]

theorem columnStarts_dim : columnStarts C ip C.dim = C.rowIdx.length := by
  have hall : ∀ e ∈ Csr.unnumbered (byRows C ip), decide (e.1 < C.dim) = true := fun e he => by
    obtain ⟨e', he', rfl⟩ := List.mem_map.mp he
    have hlt := placed_lt hC hclean hip ((mem_byRows hC hclean hip).mp he')
    exact decide_eq_true (hlt.1.trans_lt hlt.2)
  rw [columnStarts_eq hC hclean hip le_rfl, List.countP_eq_length.mpr hall, Csr.unnumbered,
    List.length_map, (byRows_perm hC hclean hip).length_eq, List.length_map]
  have hlen := congrArg List.length (placed_numbers ip hC)
  rwa [List.length_map, List.length_range] at hlen

/-- The pattern of the double transposition, with any values. -/
def transposedPattern (C : CscLower K) (ip : ℕ → ℕ) (v : List K) : CscLower K :=
  ⟨C.n, (doubleTranspose C ip).colPtr, (doubleTranspose C ip).rowIdx, v⟩

omit hC hclean hip in
theorem transposedPattern_ptr (v : List K) (hc : c ≤ C.dim) :
    (transposedPattern C ip v).colPtr.getD c 0 = columnStarts C ip c := by
  rw [List.getD_eq_getElem?_getD]
  change (((List.range (C.dim + 1)).map fun c : ℕ => (columnStarts C ip c : ℤ))[c]?).getD 0 = _
  rw [List.getElem?_map, List.getElem?_range (Nat.lt_succ_of_le hc)]
  rfl

/-- The slots of a permuted column, and the rows there. -/
theorem transposedPattern_column (v : List K) (hc : c < C.dim) :
    (∀ p, p ∈ (transposedPattern C ip v).indices c ↔
      ∃ i < (Csr.bucket (Csr.unnumbered (byRows C ip)) c).length, p = columnStarts C ip c + i) ∧
    ∀ (i r : ℕ), (Csr.bucket (Csr.unnumbered (byRows C ip)) c)[i]? = some r →
      (transposedPattern C ip v).rowAt (columnStarts C ip c + i) = r := by
  have hsucc := columnStarts_succ hC hclean hip hc
  constructor
  · intro p
    rw [mem_indices, ptr, ptr, transposedPattern_ptr v hc.le, transposedPattern_ptr v hc,
      Int.toNat_natCast, Int.toNat_natCast, hsucc]
    constructor
    · intro hp
      exact ⟨p - columnStarts C ip c, by omega, by omega⟩
    · rintro ⟨i, hi, rfl⟩
      omega
  · intro i r hr
    have hkey : ∀ e ∈ Csr.unnumbered (byRows C ip), e.1 < C.dim := fun e he => by
      obtain ⟨e', he', rfl⟩ := List.mem_map.mp he
      have hlt := placed_lt hC hclean hip ((mem_byRows hC hclean hip).mp he')
      exact hlt.1.trans_lt hlt.2
    have hfill := @Csr.scatter_filled ℕ (columnStarts C ip) (Csr.unnumbered (byRows C ip)) []
      (Csr.unnumbered (byRows C ip)) (columnStarts C ip, fun _ => 0) C.dim
      ⟨fun k => rfl, fun k i a ha => by simp [Csr.bucket] at ha⟩ rfl hkey
      fun k hk => columnStarts_eq hC hclean hip hk
    have hlt : columnStarts C ip c + i < C.rowIdx.length := by
      have hi := (List.getElem?_eq_some_iff.mp hr).1
      -- a slot of the column lies before the end of the pattern
      have hmono : columnStarts C ip (c + 1) ≤ columnStarts C ip C.dim := by
        rw [columnStarts_eq hC hclean hip hc, columnStarts_eq hC hclean hip le_rfl]
        exact List.countP_mono_left fun e _ he => by simp at he ⊢; omega
      rw [columnStarts_dim hC hclean hip] at hmono
      omega
    rw [rowAt, List.getD_eq_getElem?_getD]
    change (((List.range C.rowIdx.length).map fun p : ℕ => (_ : ℤ))[_]?).getD 0 = _
    rw [List.getElem?_map, List.getElem?_range hlt, Option.map_some, Option.getD_some,
      Csr.scatterNoting_item]
    exact congrArg Nat.cast (hfill.stored c i r hr)

theorem transposedPattern_shapeOk {v : List K} (hv : v.length = C.rowIdx.length) :
    (transposedPattern C ip v).ShapeOk := by
  have hdim : columnStarts C ip C.dim = C.rowIdx.length := columnStarts_dim hC hclean hip
  have hlast : (transposedPattern C ip v).colPtr.getD C.dim 0 = C.rowIdx.length := by
    rw [transposedPattern_ptr v le_rfl, hdim]
  have hn : (C.dim : ℤ) = C.n := Int.toNat_of_nonneg hC.1
  refine ⟨hC.1, ?_, ?_, fun c hc => ?_, ?_, ?_⟩
  · change (((List.range (C.dim + 1)).map fun c : ℕ => (columnStarts C ip c : ℤ)).length : ℤ) =
      C.n + 1
    rw [List.length_map, List.length_range, ← hn]
    rfl
  · rw [transposedPattern_ptr v (Nat.zero_le _), columnStarts_eq hC hclean hip (Nat.zero_le _)]
    simp
  · have hc : c < C.dim := hc
    rw [transposedPattern_ptr v hc.le, transposedPattern_ptr v hc,
      columnStarts_succ hC hclean hip hc]
    omega
  · refine Eq.trans ?_ hlast.symm
    simp [transposedPattern, doubleTranspose]
  · exact (congrArg Nat.cast hv).trans hlast.symm

theorem transposedPattern_isClean (v : List K) : (transposedPattern C ip v).isClean = true := by
  refine List.all_eq_true.mpr fun c hc => columnClean_iff.mpr ?_
  have hc : c < C.dim := List.mem_range.mp hc
  obtain ⟨hslots, hrows⟩ := transposedPattern_column hC hclean hip v hc
  have hlist : ((transposedPattern C ip v).indices c).map (transposedPattern C ip v).rowAt =
      (Csr.bucket (Csr.unnumbered (byRows C ip)) c).map fun r : ℕ => (r : ℤ) := by
    have hptr : (transposedPattern C ip v).ptr c = columnStarts C ip c := by
      rw [ptr, transposedPattern_ptr v hc.le, Int.toNat_natCast]
    have hptr' : (transposedPattern C ip v).ptr (c + 1) = columnStarts C ip c +
        (Csr.bucket (Csr.unnumbered (byRows C ip)) c).length := by
      rw [ptr, transposedPattern_ptr v hc, Int.toNat_natCast, columnStarts_succ hC hclean hip hc]
    refine List.ext_getElem (by simp [indices, hptr, hptr']) fun i hi hi' => ?_
    rw [List.length_map] at hi'
    simp only [List.getElem_map, indices, List.getElem_range', hptr, Nat.one_mul]
    exact hrows i _ (List.getElem?_eq_getElem hi')
  rw [hlist]
  refine ⟨fun i hi => ?_, ?_⟩
  · obtain ⟨r, hr, rfl⟩ := List.mem_map.mp hi
    obtain ⟨s, hs⟩ := (mem_bucket_byRows hC hclean hip).mp hr
    have hlt : c ≤ r ∧ r < C.dim := placed_lt hC hclean hip hs
    have hn : (C.dim : ℤ) = (transposedPattern C ip v).n := Int.toNat_of_nonneg hC.1
    omega
  · exact List.pairwise_map.mpr ((bucket_sorted hC hclean hip c).imp fun h => by exact_mod_cast h)

/-- Every cleaned entry lands where P A P^T has it, and no slot is left out. -/
theorem doubleTranspose_carries (v : List K) :
    Carries (permutedAt ip) C (transposedPattern C ip v) (doubleTranspose C ip).otp := by
  have hnoted := Csr.scatterNoting_noted (byRows_numbers hC hclean hip) (columnStarts C ip)
    (fun _ => 0) fun _ => 0
  have hget : ∀ s < C.rowIdx.length, (doubleTranspose C ip).otp[s]? = some (((Csr.scatterNoting
      (byRows C ip) (columnStarts C ip, fun _ => 0, fun _ => 0)).2.2 s : ℕ) : ℤ) := fun s hs => by
    change ((List.range C.rowIdx.length).map fun s : ℕ => _)[s]? = _
    rw [List.getElem?_map, List.getElem?_range hs]
    rfl
  refine ⟨by simp [doubleTranspose], fun j hj k hk _ => ?_,
    fun j hj k hk hdrop => absurd hdrop (clean_not_dropped hclean hj hk), fun c hc p hp => ?_⟩
  · obtain ⟨-, -, hlt⟩ := rowAt_lt hC hclean hj hk
    have hcol : (permutedAt ip j (C.rowAt k)).1 < C.dim :=
      (min_le_right _ _).trans_lt (hip.lt j hj)
    have hmem : (max (ip (C.rowAt k).toNat) (ip j), min (ip (C.rowAt k).toNat) (ip j), k) ∈
        placed C ip := mem_placed.mpr ⟨j, hj, hk, rfl⟩
    obtain ⟨i, hi, hplace⟩ := hnoted.place (min (ip (C.rowAt k).toNat) (ip j),
      max (ip (C.rowAt k).toNat) (ip j), k) ((mem_byRows hC hclean hip).mpr hmem)
    obtain ⟨hslots, hrows⟩ := transposedPattern_column hC hclean hip v hcol
    refine ⟨hcol, columnStarts C ip (permutedAt ip j (C.rowAt k)).1 + i, ?_, ?_, hrows i _ hi⟩
    · exact (hslots _).mpr ⟨i, (List.getElem?_eq_some_iff.mp hi).1, rfl⟩
    · rw [hget k (hC.mem_indices_lt hj hk), hplace]
      rfl
  · obtain ⟨hslots, -⟩ := transposedPattern_column hC hclean hip v hc
    obtain ⟨i, hi, rfl⟩ := (hslots p).mp hp
    obtain ⟨e, he, rfl, hplace⟩ := hnoted.onto c i hi
    obtain ⟨j, hj, hk, -⟩ := mem_placed.mp ((mem_byRows hC hclean hip).mp he)
    refine ⟨j, hj, e.2.2, hk, clean_not_dropped hclean hj hk, ?_⟩
    rw [hget _ (hC.mem_indices_lt hj hk), hplace]

end Transpose

/-! ## What an analysis keeps -/

/-- Where the cleaned entries land. -/
def AnalysisKeep.slots (ak : AnalysisKeep K) : List ℤ :=
  if ak.permColPtr.isEmpty then (List.range ak.cleaned.rowIdx.length).map fun k : ℕ => (k : ℤ)
  else ak.origToPermIdx

/-- The permuted pattern and the map to it are those of the cleaned matrix and the order. -/
structure Routed (ak : AnalysisKeep K) : Prop where
  n_eq : ak.cleaned.n = ak.n
  shape : ak.cleaned.ShapeOk
  clean : ak.cleaned.isClean = true
  permShape : ∀ v : List K, v.length = ak.cleaned.rowIdx.length → (ak.permuted v).ShapeOk
  permClean : ∀ v, (ak.permuted v).isClean = true
  permLength : ∀ v, (ak.permuted v).rowIdx.length = ak.cleaned.rowIdx.length
  permNnz : ak.permColPtr ≠ [] → (ak.permColPtr.getLastD 0).toNat = ak.cleaned.rowIdx.length
  identity : ak.permColPtr = [] → ak.origToPermIdx = []
  toPerm : ∀ v, Carries (permutedAt (inverse ak.perm)) ak.cleaned (ak.permuted v) ak.slots

theorem routed {ak : AnalysisKeep K} [Zero K] (hn : ak.cleaned.n = ak.n)
    (hshape : ak.cleaned.ShapeOk)
    (hclean : ak.cleaned.isClean = true) (hperm : ak.perm.Perm (List.range ak.cleaned.dim))
    (hP : (⟨ak.permColPtr, ak.permRowIdx, ak.origToPermIdx⟩ : PermPattern) =
      if ak.perm = List.range ak.cleaned.dim then {} else doubleTranspose ak.cleaned
        (inverse ak.perm)) :
    Routed ak := by
  obtain ⟨n, origColPtr, origRowIdx, inputClean, toClean, direct, C, colPtr, rowIdx, otp, perm⟩ :=
    ak
  dsimp only at hn hshape hclean hperm hP
  subst hn
  -- the identity needs no permuted pattern
  by_cases hid : perm = List.range C.dim
  · rw [if_pos hid] at hP
    injection hP with h₁ h₂ h₃
    subst h₁ h₂ h₃
    refine ⟨rfl, hshape, hclean, fun v hv => ?_, fun _ => hclean, fun _ => rfl,
      fun hne => absurd rfl hne, fun _ => rfl, fun v => ?_⟩
    · exact hshape.withValues hv
    · refine ((carries_self hshape hclean).withValues C.values v).congr fun j hj k hk _ => ?_
      obtain ⟨hcast, hle, hlt⟩ := rowAt_lt hshape hclean hj hk
      change (j, C.rowAt k) = permutedAt (inverse perm) j (C.rowAt k)
      rw [hid, permutedAt, inverse_range hlt, inverse_range hj, min_eq_right hle, max_eq_left hle,
        hcast]
  · rw [if_neg hid] at hP
    have h₁ : colPtr = (doubleTranspose C (inverse perm)).colPtr := congrArg PermPattern.colPtr hP
    have h₂ : rowIdx = (doubleTranspose C (inverse perm)).rowIdx := congrArg PermPattern.rowIdx hP
    have h₃ : otp = (doubleTranspose C (inverse perm)).otp := congrArg PermPattern.otp hP
    have hip := inverse_renumbers hperm
    have hne : colPtr ≠ [] := by
      rw [h₁]
      simp [doubleTranspose]
    have hpattern : ∀ v,
        (⟨C.n, origColPtr, origRowIdx, inputClean, toClean, direct, C, colPtr, rowIdx, otp,
          perm⟩ : AnalysisKeep K).permuted v =
          transposedPattern C (inverse perm) v := fun v => by
      rw [AnalysisKeep.permuted, if_neg (by simpa using hne), transposedPattern, ← h₁, ← h₂]
    refine ⟨rfl, hshape, hclean, fun v hv => ?_, fun v => ?_, fun v => ?_, fun _ => ?_,
      fun h => absurd h hne, fun v => ?_⟩
    · rw [hpattern]
      exact transposedPattern_shapeOk hshape hclean hip hv
    · rw [hpattern]
      exact transposedPattern_isClean hshape hclean hip v
    · rw [hpattern]
      simp [transposedPattern, doubleTranspose]
    · have hlast := columnStarts_dim hshape hclean hip
      rw [h₁]
      change (((List.range (C.dim + 1)).map fun c : ℕ =>
        (columnStarts C (inverse perm) c : ℤ)).getLastD 0).toNat = _
      rw [List.range_succ, List.map_append, List.map_singleton, List.getLastD_concat, hlast,
        Int.toNat_natCast]
    · rw [hpattern, AnalysisKeep.slots, if_neg (by simpa using hne), h₃]
      exact doubleTranspose_carries hshape hclean hip v

/-- What every analysis of `A` keeps. -/
structure Consistent (A : CscLower K) (ak : AnalysisKeep K) : Prop where
  shape : A.ShapeOk
  n_eq : ak.n = A.n
  colPtr_eq : ak.origColPtr = A.colPtr
  rowIdx_eq : ak.origRowIdx = A.rowIdx
  routed : Routed ak
  toClean : Carries (fun j i => (j, i)) A ak.cleaned ak.origToCleanIdx
  direct : ∀ v, Carries (permutedAt (inverse ak.perm)) A (ak.permuted v) ak.origToPermDirect

/-- The map past the cleaned matrix, whichever way the identity is told. -/
theorem Routed.slots_get {ak : AnalysisKeep K} {identity : Bool}
    (hid : identity = true → ak.origToPermIdx = []) (hid' : ak.permColPtr = [] → identity = true)
    (s : ℕ) (p : ℤ) (h : ak.slots[s]? = some p) :
    (if identity then (s : ℤ) else ak.origToPermIdx.getD s (-1)) = p := by
  unfold AnalysisKeep.slots at h
  split_ifs at h with hempty
  · rw [if_pos (hid' (List.isEmpty_iff.mp hempty))]
    obtain ⟨hs, hval⟩ := List.getElem?_eq_some_iff.mp h
    simpa using hval
  · have hne : ¬identity = true := fun hc => by
      rw [hid hc] at h
      cases h
    rw [if_neg hne, List.getD_eq_getElem?_getD, h]
    rfl

section Analyses

variable [AddCommGroup K] {A : CscLower K}

theorem cleans_of_check (sort : SortBy (CleanEntry.row (K := K))) (h : A.ShapeOk)
    (info : MatrixInfo)
    {check : Bool} (hcheck : check = true ∨ A.isClean = true) :
    A.Cleans (cleanLowerCsc sort A info check).1 := by
  have hgeneral := generalPath_cleans sort h
  cases check with
  | true =>
    rw [cleanLowerCsc_eq sort h]
    exact hgeneral.congr _
  | false =>
    have hclean := hcheck.resolve_left (by decide)
    have hcopied : (cleanLowerCsc sort A info false).1 =
        { generalPath sort A with wasClean := true } := by
      rw [cleanLowerCsc, if_pos h, generalPath_of_clean sort hclean h]
      rfl
    rw [hcopied]
    exact hgeneral.congr _

theorem cleans_carries {out : CleanedPattern K} (h : A.Cleans out) (hA : A.ShapeOk) :
    Carries (fun j i => (j, i)) A out.clean out.originalToClean := by
  have hdim : out.clean.dim = A.dim := congrArg Int.toNat h.n_eq
  have hclean := h.canonical.isClean
  have hrowAt : ∀ s i, out.clean.rowIdx[s]? = some i → out.clean.rowAt s = i := fun s i hs => by
    rw [rowAt, List.getD_eq_getElem?_getD, hs]
    rfl
  refine ⟨h.length_map, fun j hj k hk hkept => ?_, h.dropped, fun c hc p hp => ?_⟩
  · obtain ⟨s, hs, hslot, hrow⟩ := h.kept j hj k hk hkept
    exact ⟨hdim.symm ▸ hj, s, hs, hslot, hrowAt s _ hrow⟩
  · have hcA : c < A.dim := hdim ▸ hc
    have hmem : out.clean.entryAt p ∈ out.clean.column c := by
      rw [h.canonical.valid.shapeOk.column_eq hc]
      exact List.mem_map_of_mem hp
    -- a slot has a kept entry behind it, and that entry's slot is this one
    obtain ⟨⟨e, he, hrow⟩, -⟩ := (h.entries c hcA _ _).mp hmem
    obtain ⟨he, hkept⟩ := List.mem_filter.mp he
    rw [hA.column_eq hcA] at he
    obtain ⟨k, hk, rfl⟩ := List.mem_map.mp he
    have hkept := of_decide_eq_true hkept
    obtain ⟨s, hs, hslot, hrow'⟩ := h.kept c hcA k hk hkept
    have hsame := clean_slot_unique hclean hc hs hp ((hrowAt s _ hrow').trans hrow)
    exact ⟨c, hcA, k, hk, hkept, hsame ▸ hslot⟩

omit [AddCommGroup K] in
/-- The parts of an analysis put together. -/
theorem consistent {ak : AnalysisKeep K} (identity : Bool) (hA : A.ShapeOk) (hn : ak.n = A.n)
    (hcol : ak.origColPtr = A.colPtr) (hrow : ak.origRowIdx = A.rowIdx) (hrouted : Routed ak)
    (hmap : Carries (fun j i => (j, i)) A ak.cleaned ak.origToCleanIdx)
    (hdirect : ak.origToPermDirect = directMap identity ak.origToPermIdx ak.origToCleanIdx)
    (hid : identity = true → ak.origToPermIdx = []) (hid' : ak.permColPtr = [] → identity = true) :
    Consistent A ak := by
  refine ⟨hA, hn, hcol, hrow, hrouted, hmap, fun v => ?_⟩
  rw [hdirect]
  exact hmap.comp (hrouted.toPerm v) hrouted.clean (Routed.slots_get hid hid')

omit [AddCommGroup K] in
theorem doubleTranspose_colPtr (C : CscLower K) (ip : ℕ → ℕ) :
    (doubleTranspose C ip).colPtr ≠ [] := by
  simp [doubleTranspose]

variable (sort : SortBy (CleanEntry.row (K := K)))

theorem analyse_status {check : Bool} {perm : List ℕ}
    (hok : (analyse sort A check perm).2.status = .success) : A.ShapeOk := by
  by_contra hA
  have hinfo : (analyse sort A check perm).2 =
      (cleanLowerCsc sort A ⟨.success, 0, 0, 0⟩ check).2 := by
    unfold analyse
    dsimp only
    split_ifs <;> rfl
  rw [hinfo, cleanLowerCsc, if_neg hA] at hok
  cases hok

/-- An analysis, from the matrix and the order to what it keeps. -/
theorem analyse_consistent (check : Bool) {perm : List ℕ} (hcheck : check = true ∨ A.isClean = true)
    (hperm : perm.Perm (List.range A.dim)) (hA : A.ShapeOk) :
    Consistent A (analyse sort A check perm).1 := by
  have hcleans := cleans_of_check sort hA ⟨.success, 0, 0, 0⟩ hcheck
  have hmap := cleans_carries hcleans hA
  have hdim : (cleanLowerCsc sort A ⟨.success, 0, 0, 0⟩ check).1.clean.dim = A.dim :=
    congrArg Int.toNat hcleans.n_eq
  have hshape := hcleans.canonical.valid.shapeOk
  unfold analyse
  dsimp only
  -- an empty matrix, the identity order, and any other
  split_ifs with hzero hid
  · -- no columns: nothing is kept but the patterns
    have hA0 : A.n = 0 := hcleans.n_eq.symm.trans hzero
    have hempty : A.rowIdx = [] := by
      have hlen := hA.ptr_dim
      have hdim0 : A.dim = 0 := congrArg Int.toNat hA0
      rw [hdim0, hA.ptr_zero] at hlen
      exact List.eq_nil_of_length_eq_zero hlen.symm
    have hdim0 : ∀ {j}, ¬j < A.dim := fun {j} hj => by
      have hdim0 : A.dim = 0 := congrArg Int.toNat hA0
      omega
    have hclean0 : (cleanLowerCsc sort A ⟨.success, 0, 0, 0⟩ check).1.clean.dim = 0 :=
      congrArg Int.toNat hzero
    refine consistent true hA hA0.symm rfl rfl ?_ ?_ rfl (fun _ => rfl) fun _ => rfl
    · refine routed hzero hshape hcleans.canonical.isClean ?_ ?_
      · rw [hclean0]
        rfl
      · rw [hclean0]
        rfl
    · refine ⟨by rw [hempty], fun j hj => absurd hj hdim0, fun j hj => absurd hj hdim0,
        fun c hc => ?_⟩
      rw [hclean0] at hc
      exact absurd hc (Nat.not_lt_zero c)
  · refine consistent (decide (perm = List.range _)) hA hcleans.n_eq rfl rfl ?_ hmap rfl
      (fun _ => rfl)
      fun _ => hid
    refine routed rfl hshape hcleans.canonical.isClean (hdim.symm ▸ hperm) ?_
    rw [if_pos (of_decide_eq_true hid)]
  · refine consistent (decide (perm = List.range _)) hA hcleans.n_eq rfl rfl ?_ hmap rfl
      (fun h => absurd h hid) fun h => absurd h (doubleTranspose_colPtr _ _)
    refine routed rfl hshape hcleans.canonical.isClean (hdim.symm ▸ hperm) ?_
    rw [if_neg fun h => hid (decide_eq_true h)]

theorem analyse_cleaned (A : CscLower K) (check : Bool) (perm : List ℕ) :
    (analyse sort A check perm).1.cleaned =
    (cleanLowerCsc sort A ⟨.success, 0, 0, 0⟩ check).1.clean := by
  unfold analyse
  dsimp only
  split_ifs <;> rfl

theorem cleanLowerCsc_unchecked (h : A.ShapeOk) (info : MatrixInfo) :
    (cleanLowerCsc sort A info false).1 = A.copied := by
  rw [cleanLowerCsc, if_pos h]
  rfl

omit [AddCommGroup K] in
/-- Other values of the cleaned matrix and other maps to it leave the permuted pattern. -/
theorem Routed.rewired {ak re : AnalysisKeep K} (h : Routed ak) (hn : re.n = ak.n)
    (hcol : re.permColPtr = ak.permColPtr) (hrow : re.permRowIdx = ak.permRowIdx)
    (hotp : re.origToPermIdx = ak.origToPermIdx) (hperm : re.perm = ak.perm) {v : List K}
    (hcleaned : re.cleaned = { ak.cleaned with values := v })
    (hv : v.length = ak.cleaned.rowIdx.length) : Routed re := by
  obtain ⟨n, origColPtr, origRowIdx, inputClean, toClean, direct, C, colPtr, rowIdx, otp, perm⟩ :=
    re
  dsimp only at hn hcol hrow hotp hperm hcleaned
  subst hn hcol hrow hotp hperm hcleaned
  exact ⟨h.n_eq, h.shape.withValues hv, h.clean, h.permShape, h.permClean, h.permLength, h.permNnz,
    h.identity, fun w => (h.toPerm w).of_values v⟩

/-- `matching_reanalysis` keeps for `A` what an analysis of it would. -/
theorem matchingReanalysis_consistent {ak re : AnalysisKeep K} (h : Consistent A ak) {cv : List K}
    {perm : List ℕ} (hperm : perm.Perm (List.range ak.cleaned.dim))
    (hre : matchingReanalysis sort ak cv perm = some re) : Consistent A re := by
  have hn := h.routed.n_eq
  unfold matchingReanalysis at hre
  dsimp only at hre
  split_ifs at hre with hok
  obtain rfl := Option.some.inj hre
  have hC := analyse_status sort (not_not.mp hok)
  have hcleaned := analyse_cleaned sort ⟨ak.n, ak.cleaned.colPtr, ak.cleaned.rowIdx, cv⟩ false perm
  rw [cleanLowerCsc_unchecked sort hC] at hcleaned
  have hclean : CscLower.isClean (⟨ak.n, ak.cleaned.colPtr, ak.cleaned.rowIdx, cv⟩ : CscLower K) =
      true := by
    rw [← hn]
    exact h.routed.clean
  have hdim : (⟨ak.n, ak.cleaned.colPtr, ak.cleaned.rowIdx, cv⟩ : CscLower K).dim =
    ak.cleaned.dim :=
    congrArg Int.toNat hn.symm
  -- the cleaned pattern is analysed again, and its maps are put behind the first cleaning
  have hinner := analyse_consistent sort false (Or.inr hclean) (hdim.symm ▸ hperm) hC
  have hsame : { (analyse sort ⟨ak.n, ak.cleaned.colPtr, ak.cleaned.rowIdx,
    cv⟩ false perm).1.cleaned
      with values := ak.cleaned.values } = ak.cleaned := by
    rw [hcleaned, copied, ← hn]
  refine consistent _ h.shape (hinner.n_eq.trans h.n_eq) h.colPtr_eq h.rowIdx_eq ?_ ?_ rfl
    (fun hempty => List.isEmpty_iff.mp hempty) fun hempty => ?_
  · refine hinner.routed.rewired rfl rfl rfl rfl rfl rfl ?_
    rw [hcleaned]
    exact h.routed.shape.length_values
  · rw [hsame]
    exact h.toClean
  · exact List.isEmpty_iff.mpr (hinner.routed.identity hempty)

theorem Analyses.consistent {ak : AnalysisKeep K} (h : Analyses A ak) : Consistent A ak := by
  induction h with
  | analysed sort check perm hcheck hperm hok =>
    exact analyse_consistent sort check hcheck hperm (analyse_status sort hok)
  | reanalysed h sort cv perm hperm hre ih =>
    exact matchingReanalysis_consistent sort ih hperm hre

end Analyses

/-! ## The values -/

section Values

variable [AddCommGroup K] {A : CscLower K}

/-- `ws` holds `B`'s values under the analysis: the permuted pattern with the sums of the
    kept entries that P A P^T has at each position, and, where asked for, the cleaned one
    with the sums in cleaned order. -/
structure Mapped (ak : AnalysisKeep K) (B : CscLower K) (needClean : Bool)
    (ws : NumericWorkspace K) : Prop where
  permCanonical : (ak.permuted ws.permValues).Canonical
  permEntries : ∀ c < ak.n.toNat, ∀ i v, (i, v) ∈ (ak.permuted ws.permValues).column c ↔
    (∃ e ∈ moved (permutedAt (inverse ak.perm)) B c, e.1 = i) ∧
      v = sumAt Prod.fst Prod.snd (moved (permutedAt (inverse ak.perm)) B c) i
  clean : needClean = true → { ak.cleaned with values := ws.cleanValues }.Canonical ∧
    ∀ j < ak.n.toNat, ∀ i v, (i, v) ∈ { ak.cleaned with values := ws.cleanValues }.column j ↔
      (∃ e ∈ B.keptEntries j, e.1 = i) ∧ v = sumAt Prod.fst Prod.snd (B.keptEntries j) i

/-- One list of many. -/
theorem flatMap_pick {α : Type*} (l : List α) (n j : ℕ) :
    ((List.range n).flatMap fun k => if k = j then l else []) = if j < n then l else [] := by
  induction n with
  | zero => rfl
  | succ n ih =>
    rw [List.range_succ, List.flatMap_append, ih, List.flatMap_singleton]
    rcases Nat.lt_trichotomy j n with hlt | rfl | hgt
    · rw [if_pos hlt, if_neg hlt.ne', if_pos (Nat.lt_succ_of_lt hlt), List.append_nil]
    · rw [if_neg (lt_irrefl j), if_pos rfl, if_pos (Nat.lt_succ_self j), List.nil_append]
    · rw [if_neg hgt.asymm, if_neg hgt.ne, if_neg (by omega), List.nil_append]

omit [AddCommGroup K] in
/-- What stays in its column is what is kept of it. -/
theorem moved_self (B : CscLower K) {j : ℕ} (hj : j < B.dim) :
    moved (fun j i => (j, i)) B j = B.keptEntries j := by
  have hcol : ∀ j', (((B.column j').filter fun e => ¬B.Dropped j' e.1 ∧ j' = j).map fun e =>
      (e.1, e.2)) = if j' = j then B.keptEntries j else [] := fun j' => by
    by_cases h : j' = j
    · subst h
      simp [keptEntries]
    · simp [h]
  refine (List.flatMap_congr fun j' _ => hcol j').trans ?_
  rw [flatMap_pick, if_pos hj]

/-- Values that need no map. -/
theorem scatterAdd_range {uv : List K} {m : ℕ} (h : uv.length = m) :
    scatterAdd ((List.range m).map fun k : ℕ => (k : ℤ)) uv (List.replicate m 0) = uv := by
  have hzip : ((List.range m).map fun k : ℕ => (k : ℤ)).zip uv =
      (List.range m).map fun k : ℕ => ((k : ℤ), uv.getD k 0) := by
    refine List.ext_getElem (by simp [h]) fun i hi _ => ?_
    have hi' : i < uv.length := by
      rw [List.length_zip, List.length_map, List.length_range] at hi
      omega
    simp [hi']
  refine List.ext_getElem? fun p => ?_
  rcases Nat.lt_or_ge p m with hp | hp
  · have hfilter : (List.range m).filter (fun k => k = p) = [p] := by
      rw [List.filter_eq, List.count_eq_one_of_mem List.nodup_range (List.mem_range.mpr hp)]
      rfl
    have hsum : sumAt Prod.fst Prod.snd ((List.range m).map fun k : ℕ =>
      ((k : ℤ), uv.getD k 0)) (p : ℤ) =
        uv.getD p 0 := by
      rw [sumAt, List.filter_map, List.map_map]
      have hpick : (List.range m).filter ((fun e : ℤ × K => decide (e.1 = (p : ℤ))) ∘
          fun k : ℕ => ((k : ℤ), uv.getD k 0)) = [p] := by
        rw [← hfilter]
        exact List.filter_congr fun k _ => decide_eq_decide.mpr Nat.cast_inj
      rw [hpick]
      simp
    rw [scatterAdd_zeros _ _ hp, hzip, hsum]
    simp [h ▸ hp]
  · rw [List.getElem?_eq_none (by rw [length_scatterAdd, List.length_replicate]; exact hp),
      List.getElem?_eq_none (h.trans_le hp)]

/-- The values went through maps that carry them. -/
theorem Routed.mapped {ak : AnalysisKeep K} (h : Routed ak) {B : CscLower K} (hB : B.ShapeOk)
    (hn : B.n = ak.n) {toClean toPerm : List ℤ}
    (hclean : Carries (fun j i => (j, i)) B ak.cleaned toClean)
    (hperm : ∀ v, Carries (permutedAt (inverse ak.perm)) B (ak.permuted v) toPerm)
    {needClean : Bool} {ws : NumericWorkspace K}
    (hwPerm : ws.permValues =
      scatterAdd toPerm B.values (List.replicate ak.cleaned.rowIdx.length 0))
    (hwClean : needClean = true → ws.cleanValues =
      scatterAdd toClean B.values (List.replicate ak.cleaned.rowIdx.length 0)) :
    Mapped ak B needClean ws := by
  have hdim : ∀ v, (ak.permuted v).dim = ak.n.toNat := fun v => by
    unfold AnalysisKeep.permuted
    split_ifs <;> rfl
  have hvalues : ∀ v w, { ak.permuted v with values := w } = ak.permuted w := fun v w => by
    unfold AnalysisKeep.permuted
    split_ifs <;> rfl
  have hlen : (List.replicate ak.cleaned.rowIdx.length (0 : K)).length = ak.cleaned.rowIdx.length :=
    List.length_replicate
  obtain ⟨hcanonical, hentries⟩ := (hperm (List.replicate ak.cleaned.rowIdx.length 0)).entries hB
    (h.permShape _ hlen) (h.permClean _) rfl
  rw [hvalues, h.permLength, ← hwPerm] at hcanonical hentries
  rw [hdim] at hentries
  refine ⟨hcanonical, hentries, fun hneed => ?_⟩
  obtain ⟨hcanonical', hentries'⟩ := hclean.entries hB h.shape h.clean (hwClean hneed)
  refine ⟨hcanonical', fun j hj i v => ?_⟩
  have hj' : j < ak.cleaned.dim := hj.trans_eq (congrArg Int.toNat h.n_eq.symm)
  rw [hentries' j hj' i v, moved_self B (hj.trans_eq (congrArg Int.toNat hn.symm))]

/-- Nothing but its dimensions is left of an empty matrix. -/
theorem Routed.mapped_empty {ak : AnalysisKeep K} (h : Routed ak) (hn : ak.n = 0) (B : CscLower K)
    (needClean : Bool) : Mapped ak B needClean ⟨[], []⟩ := by
  have hlen : ak.cleaned.rowIdx.length = 0 := by
    have hdim : ak.cleaned.dim = 0 := congrArg Int.toNat (h.n_eq.trans hn)
    rw [← h.shape.ptr_dim, hdim, h.shape.ptr_zero]
  have hnone : ∀ {c}, ¬c < ak.n.toNat := fun {c} hc => by
    rw [hn] at hc
    exact absurd hc (Nat.not_lt_zero c)
  refine ⟨(h.permShape [] hlen.symm).canonical (h.permClean []), fun c hc => absurd hc hnone,
    fun _ => ⟨?_, fun j hj => absurd hj hnone⟩⟩
  exact (h.shape.withValues (v := []) hlen.symm).canonical h.clean

/-- Cleaned values, copied or scattered. -/
theorem Routed.permValues_cleaned {ak : AnalysisKeep K} (h : Routed ak) {uv : List K}
    (huv : uv.length = ak.cleaned.rowIdx.length) :
    (if ak.origToPermIdx.isEmpty then
        uv ++ (List.replicate ak.cleaned.rowIdx.length 0).drop uv.length
      else scatterAdd ak.origToPermIdx uv (List.replicate ak.cleaned.rowIdx.length 0)) =
      scatterAdd ak.slots uv (List.replicate ak.cleaned.rowIdx.length 0) := by
  have hcopy : uv ++ (List.replicate ak.cleaned.rowIdx.length (0 : K)).drop uv.length = uv := by
    rw [huv, List.drop_eq_nil_of_le (by rw [List.length_replicate]), List.append_nil]
  rw [hcopy]
  by_cases hptr : ak.permColPtr = []
  · have hslots : ak.slots = (List.range ak.cleaned.rowIdx.length).map fun k : ℕ => (k : ℤ) := by
      rw [AnalysisKeep.slots, if_pos (List.isEmpty_iff.mpr hptr)]
    rw [if_pos (List.isEmpty_iff.mpr (h.identity hptr)), hslots, scatterAdd_range huv]
  · have hslots : ak.slots = ak.origToPermIdx := by
      rw [AnalysisKeep.slots, if_neg fun hc => hptr (List.isEmpty_iff.mp hc)]
    rw [hslots]
    split_ifs with hotp
    · -- an empty map of an order other than the identity: there are no entries
      have hlen := (h.toPerm uv).length
      rw [hslots, List.isEmpty_iff.mp hotp, List.length_nil] at hlen
      rw [← hlen] at huv
      rw [List.eq_nil_of_length_eq_zero huv, scatterAdd, List.zip_nil_right, ← hlen]
      rfl
    · rfl

/-- A layout of the values: the input's entries or the cleaned ones. -/
def layout (A : CscLower K) (ak : AnalysisKeep K) (values : FactorValues K) : CscLower K :=
  if values.originalLayout then { A with values := values.data.getD [] }
  else { ak.cleaned with values := values.data.getD [] }

variable [LinearOrder K] (finite : K → Bool)

/-- A success past the shortcut for `n = 0`: the size was right, and which map was taken. -/
theorem mapValues_success {ak : AnalysisKeep K} (hn : ak.n ≠ 0) {values : FactorValues K}
    {ws : NumericWorkspace K} {needClean : Bool}
    (hok : (mapValuesToPermuted finite ak values ws needClean false).1 = .success) :
    let viaOrig := values.originalLayout && !ak.origToCleanIdx.isEmpty
    let cleanNnz := ak.cleaned.rowIdx.length
    let permNnz := if ak.permColPtr.isEmpty then cleanNnz else (ak.permColPtr.getLastD 0).toNat
    ∃ uv, values.data = some uv ∧
      uv.length = (if viaOrig then ak.origRowIdx.length else cleanNnz) ∧
      (mapValuesToPermuted finite ak values ws needClean false).2.1 =
        ⟨if needClean then
          if viaOrig then scatterAdd ak.origToCleanIdx uv (List.replicate cleanNnz 0) else uv
          else ws.cleanValues,
        if viaOrig then scatterAdd ak.origToPermDirect uv (List.replicate permNnz 0)
        else if ak.origToPermIdx.isEmpty then uv ++ (List.replicate permNnz 0).drop uv.length
        else scatterAdd ak.origToPermIdx uv (List.replicate permNnz 0)⟩ := by
  have hpos : ¬ak.n < 0 := fun hneg => by
    rw [mapValuesToPermuted, if_pos hneg] at hok
    cases hok
  unfold mapValuesToPermuted at hok ⊢
  rw [if_neg hpos, if_neg hn] at hok ⊢
  dsimp only at hok ⊢
  -- the refusals in the order in which the source makes them
  cases hdata : values.data with
  | none =>
    rw [hdata] at hok
    cases hok
  | some uv =>
    rw [hdata] at hok
    dsimp only at hok ⊢
    by_cases hlen : uv.length ≠ if (values.originalLayout && !ak.origToCleanIdx.isEmpty) = true then
        ak.origRowIdx.length else ak.cleaned.rowIdx.length
    · rw [if_pos hlen] at hok
      cases hok
    · rw [if_neg hlen] at hok ⊢
      by_cases hfin : (!uv.all finite) = true
      · rw [if_pos hfin] at hok
        cases hok
      · have hlater : ¬(needClean && false) = true := by simp
        rw [if_neg hfin, if_neg hlater]
        exact ⟨uv, rfl, not_not.mp hlen, rfl⟩

theorem mapValues_mapped {ak : AnalysisKeep K} (h : Consistent A ak) {values : FactorValues K}
    {ws : NumericWorkspace K} {needClean : Bool}
    (hok : (mapValuesToPermuted finite ak values ws needClean false).1 = .success) :
    Mapped ak (layout A ak values) needClean
      (mapValuesToPermuted finite ak values ws needClean false).2.1 := by
  have hn := h.n_eq
  by_cases hzero : ak.n = 0
  · have hempty : (mapValuesToPermuted finite ak values ws needClean false).2.1 = ⟨[], []⟩ := by
      rw [mapValuesToPermuted, if_neg (by omega), if_pos hzero]
    rw [hempty]
    exact h.routed.mapped_empty hzero _ _
  · obtain ⟨uv, hdata, hlen, hws⟩ := mapValues_success finite hzero hok
    have hperm : (if ak.permColPtr.isEmpty then ak.cleaned.rowIdx.length
        else (ak.permColPtr.getLastD 0).toNat) = ak.cleaned.rowIdx.length := by
      split_ifs with hptr
      · rfl
      · exact h.routed.permNnz fun hc => hptr (List.isEmpty_iff.mpr hc)
    rw [hperm] at hws
    have hvec : values.data.getD [] = uv := by rw [hdata]; rfl
    by_cases hvia : (values.originalLayout && !ak.origToCleanIdx.isEmpty) = true
    · -- the input's entries, each by its own maps
      rw [if_pos hvia] at hlen
      have horig : layout A ak values = { A with values := uv } := by
        rw [layout, if_pos (Bool.and_eq_true_iff.mp hvia).1, hvec]
      rw [horig, hws]
      refine h.routed.mapped (h.shape.withValues (hlen.trans (congrArg _ h.rowIdx_eq))) hn.symm
        (h.toClean.of_values uv) (fun v => (h.direct v).of_values uv) ?_ fun hneed => ?_
      · exact if_pos hvia
      · exact (if_pos hneed).trans (if_pos hvia)
    · rw [if_neg hvia] at hlen
      by_cases horiginal : values.originalLayout = true
      · -- no cleaning map: the input has no entries, and neither has the cleaned matrix
        have hempty : ak.origToCleanIdx = [] := by simpa [horiginal] using hvia
        have hA : A.rowIdx.length = 0 := by
          rw [← h.toClean.length, hempty]
          rfl
        have hC : ak.cleaned.rowIdx.length = 0 := h.toClean.length_eq_zero h.routed.shape h.shape hA
        have huv : uv = [] := List.eq_nil_of_length_eq_zero (hlen.trans hC)
        subst huv
        have horig : layout A ak values = { A with values := [] } := by
          rw [layout, if_pos horiginal, hvec]
        rw [horig, hws, hC]
        refine h.routed.mapped (h.shape.withValues (v := []) hA.symm) hn.symm
          (h.toClean.of_values []) (fun v => (h.direct v).of_values []) ?_ fun hneed => ?_
        · rw [hC]
          simp [hvia, scatterAdd]
        · rw [hC]
          simp [hneed, hvia, scatterAdd]
      · have hcleaned : layout A ak values = { ak.cleaned with values := uv } := by
          rw [layout, if_neg horiginal, hvec]
        rw [hcleaned, hws]
        have hshape : CscLower.ShapeOk { ak.cleaned with values := uv } :=
          h.routed.shape.withValues hlen
        refine h.routed.mapped hshape h.routed.n_eq
          ((carries_self h.routed.shape h.routed.clean).of_values uv)
          (fun v => (h.routed.toPerm v).of_values uv) ?_ fun hneed => ?_
        · exact (if_neg hvia).trans (h.routed.permValues_cleaned hlen)
        · exact (if_pos hneed).trans ((if_neg hvia).trans (scatterAdd_range hlen).symm)

omit [AddCommGroup K] [LinearOrder K] in
/-- A matrix is taken exactly if it has one of the patterns, and then as what it is. -/
theorem resolve_cases {ak : AnalysisKeep K} (h : Consistent A ak) (nullIfEmpty : Bool)
    (updated : CscLower K) :
    (resolveFactorValues nullIfEmpty ak updated).1 = true ∧
        layout A ak (resolveFactorValues nullIfEmpty ak updated).2 = updated ∧ updated.ShapeOk ∧
        (updated = { A with values := updated.values } ∨
          updated = { ak.cleaned with values := updated.values }) ∨
      (resolveFactorValues nullIfEmpty ak updated).1 = false ∧
        ¬(updated.ShapeOk ∧ (updated = { A with values := updated.values } ∨
          updated = { ak.cleaned with values := updated.values })) := by
  have hdata : (vectorData nullIfEmpty updated.values).getD [] = updated.values := by
    unfold vectorData
    split_ifs with hnull
    · exact (List.isEmpty_iff.mp (Bool.and_eq_true_iff.mp hnull).2).symm
    · rfl
  -- the column pointers have one entry more than the order
  have hne : ak.origColPtr ≠ [] := fun hc => by
    have hlen := h.shape.2.1
    rw [← h.colPtr_eq, hc] at hlen
    have := h.shape.1
    rw [List.length_nil] at hlen
    omega
  unfold resolveFactorValues
  dsimp only
  split_ifs with hn horig
  · refine Or.inr ⟨rfl, fun ⟨_, hor⟩ => hn ?_⟩
    -- another order is neither the input's nor the cleaned one's
    rcases hor with heq | heq
    · exact (congrArg CscLower.n heq).trans h.n_eq.symm
    · exact (congrArg CscLower.n heq).trans h.routed.n_eq
  · obtain ⟨-, hcol, hrow, hlen⟩ := horig
    have heq : updated = { A with values := updated.values } := by
      obtain ⟨n, colPtr, rowIdx, values⟩ := updated
      rw [CscLower.mk.injEq]
      exact ⟨(not_not.mp hn).trans h.n_eq, hcol.trans h.colPtr_eq, hrow.trans h.rowIdx_eq, rfl⟩
    refine Or.inl ⟨rfl, ?_, ?_, Or.inl heq⟩
    · rw [layout, if_pos rfl, hdata]
      exact heq.symm
    · exact heq ▸ h.shape.withValues (hlen.trans (congrArg _ h.rowIdx_eq))
  · by_cases hclean : updated.colPtr = ak.cleaned.colPtr ∧ updated.rowIdx = ak.cleaned.rowIdx ∧
        updated.values.length = ak.cleaned.rowIdx.length
    · obtain ⟨hcol, hrow, hlen⟩ := hclean
      have heq : updated = { ak.cleaned with values := updated.values } := by
        obtain ⟨n, colPtr, rowIdx, values⟩ := updated
        rw [CscLower.mk.injEq]
        exact ⟨(not_not.mp hn).trans h.routed.n_eq.symm, hcol, hrow, rfl⟩
      refine Or.inl ⟨decide_eq_true ⟨hcol, hrow, hlen⟩, ?_, ?_, Or.inr heq⟩
      · rw [layout, if_neg Bool.false_ne_true, hdata]
        exact heq.symm
      · exact heq ▸ h.routed.shape.withValues hlen
    · refine Or.inr ⟨decide_eq_false hclean, fun ⟨hshape, hor⟩ => ?_⟩
      have hlen := hshape.length_values
      rcases hor with heq | heq
      · have hcol := congrArg CscLower.colPtr heq
        have hrow := congrArg CscLower.rowIdx heq
        exact horig ⟨hne, hcol.trans h.colPtr_eq.symm, hrow.trans h.rowIdx_eq.symm,
          hlen.trans (congrArg _ (hrow.trans h.rowIdx_eq.symm))⟩
      · have hcol := congrArg CscLower.colPtr heq
        have hrow := congrArg CscLower.rowIdx heq
        exact hclean ⟨hcol, hrow, hlen.trans (congrArg _ hrow)⟩

end Values

end PermutedValues

open PermutedValues in
/-- Whatever the input's entries, the order and the analysis that keeps it, and whichever
    layout the values come in: mapped with success, they stand in the permuted pattern as the
    sums of the kept entries that P A P^T has there, and in the cleaned one, when it is asked
    for, as the sums in cleaned order.  A matrix is taken exactly if its pattern is one of
    the two. -/
theorem permuted_values [AddCommGroup K] [LinearOrder K] {A : CscLower K} {ak : AnalysisKeep K}
    (hak : Analyses A ak) (finite : K → Bool) (nullIfEmpty : Bool) :
    (∀ values ws needClean, (mapValuesToPermuted finite ak values ws needClean false).1 = .success →
      Mapped ak (layout A ak values) needClean
        (mapValuesToPermuted finite ak values ws needClean false).2.1) ∧
    (∀ updated ws needClean,
      (mapUpdatedValuesToPermuted finite nullIfEmpty ak updated ws needClean).1 = .success →
        Mapped ak updated needClean
          (mapUpdatedValuesToPermuted finite nullIfEmpty ak updated ws needClean).2.1) ∧
    ∀ updated : CscLower K,
      ((resolveFactorValues nullIfEmpty ak updated).1 = true ↔
        updated.ShapeOk ∧ (updated = { A with values := updated.values } ∨
          updated = { ak.cleaned with values := updated.values })) ∧
      ((resolveFactorValues nullIfEmpty ak updated).1 = false → ∀ ws needClean,
        mapUpdatedValuesToPermuted finite nullIfEmpty ak updated ws needClean =
          (.illegalValue, ws, 0)) := by
  have h := hak.consistent
  have hrefused : ∀ updated, (resolveFactorValues nullIfEmpty ak updated).1 = false →
      ∀ ws needClean, mapUpdatedValuesToPermuted finite nullIfEmpty ak updated ws needClean =
        (.illegalValue, ws, 0) := fun updated hno ws needClean => by
    unfold mapUpdatedValuesToPermuted
    dsimp only
    rw [hno]
    rfl
  refine ⟨fun values ws needClean hok => mapValues_mapped finite h hok,
    fun updated ws needClean hok => ?_, fun updated => ⟨?_, hrefused updated⟩⟩
  -- a matrix with another pattern is refused before its values are read
  · rcases resolve_cases h nullIfEmpty updated with ⟨hyes, hlayout, -⟩ | ⟨hno, -⟩
    · have hcall : mapUpdatedValuesToPermuted finite nullIfEmpty ak updated ws needClean =
          mapValuesToPermuted finite ak (resolveFactorValues nullIfEmpty ak updated).2 ws needClean
            false := by
        unfold mapUpdatedValuesToPermuted
        dsimp only
        rw [hyes]
        rfl
      rw [hcall] at hok ⊢
      have hmapped := mapValues_mapped finite h hok
      rwa [hlayout] at hmapped
    · rw [hrefused updated hno] at hok
      cases hok
  · rcases resolve_cases h nullIfEmpty updated with ⟨hyes, -, hpattern⟩ | ⟨hno, hpattern⟩
    · exact iff_of_true hyes hpattern
    · exact iff_of_false (by rw [hno]; exact Bool.false_ne_true) hpattern

open PermutedValues in
/-- The matrix of `clean_lower_mixed` under the order that swaps its columns: the duplicate is
    summed, the entry below the diagonal is flipped, and two entries go nowhere. -/
theorem permuted_values_flipped :
    let A : CscLower ℤ := ⟨2, [0, 3, 6], [1, 0, 1, 0, 5, 1], [10, 20, 30, 40, 50, 60]⟩
    let ak := (analyse (insertionSortBy CleanEntry.row) A true [1, 0]).1
    let out := mapValuesToPermuted (fun _ => true) ak ⟨some [1, 2, 3, 4, 5, 6], true⟩
      ⟨[], []⟩ true false
    Mapped ak { A with values := [1, 2, 3, 4, 5, 6] } true out.2.1 ∧
      out = (.success, ⟨[2, 4, 6], [6, 4, 2]⟩, 6) ∧ ak.permuted [6, 4, 2] =
        ⟨2, [0, 2, 3], [0, 1, 1], [6, 4, 2]⟩ :=
  ⟨(permuted_values (.analysed (insertionSortBy CleanEntry.row) true [1, 0] (Or.inl rfl)
      (by decide +kernel) (by decide +kernel)) (fun _ => true) true).1
    ⟨some [1, 2, 3, 4, 5, 6], true⟩ ⟨[], []⟩ true (by decide +kernel),
    by decide +kernel, by decide +kernel⟩

end SmfSolver
