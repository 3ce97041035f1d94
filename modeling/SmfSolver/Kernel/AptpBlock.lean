/-
One block column of the sweep (`block_factor`, `apply_n`, `block_finish` of `ldlt_aptp.cpp`).

The steps write disjoint parts of the view.  `blockStep_finished` reads off what each part holds
in the end: the tile's leading columns, the rows divided by them, and everything that is left
with the products of these rows taken off.  `Finished.moves` is the algebra: such a view stands for
the same matrix.
-/
import SmfSolver.Kernel.CompletePivoting

namespace SmfSolver.Kernel

open Finset

/-- The permutation `σ` of a tile that starts at `c0`. -/
def shiftPerm (c0 : ℕ) (σ : Equiv.Perm ℕ) : Equiv.Perm ℕ where
  toFun i := if c0 ≤ i then c0 + σ (i - c0) else i
  invFun i := if c0 ≤ i then c0 + σ.symm (i - c0) else i
  left_inv i := by
    by_cases h : c0 ≤ i
    · simp only [if_pos h, if_pos (Nat.le_add_right c0 _), Nat.add_sub_cancel_left,
        Equiv.symm_apply_apply]
      omega
    · simp only [if_neg h]
  right_inv i := by
    by_cases h : c0 ≤ i
    · simp only [if_pos h, if_pos (Nat.le_add_right c0 _), Nat.add_sub_cancel_left,
        Equiv.apply_symm_apply]
      omega
    · simp only [if_neg h]

section Shift

variable {c0 w a i : ℕ} {σ : Equiv.Perm ℕ}

@[simp] theorem shiftPerm_add : shiftPerm c0 σ (c0 + a) = c0 + σ a := by
  change (if c0 ≤ c0 + a then c0 + σ (c0 + a - c0) else c0 + a) = _
  rw [if_pos (Nat.le_add_right c0 a), Nat.add_sub_cancel_left]

theorem shiftPerm_low (h : i < c0) : shiftPerm c0 σ i = i := if_neg (not_le.mpr h)

theorem shiftPerm_high (hσ : ∀ i, w ≤ i → σ i = i) (h : c0 + w ≤ i) : shiftPerm c0 σ i = i := by
  obtain ⟨a, rfl⟩ : ∃ a, i = c0 + a := ⟨i - c0, by omega⟩
  rw [shiftPerm_add, hσ a (by omega)]

theorem le_shiftPerm (h : c0 ≤ i) : c0 ≤ shiftPerm c0 σ i := by
  obtain ⟨a, rfl⟩ : ∃ a, i = c0 + a := ⟨i - c0, by omega⟩
  rw [shiftPerm_add]
  exact Nat.le_add_right c0 _

theorem shiftPerm_lt (hσ : ∀ i, w ≤ i → σ i = i) (h : i < c0 + w) : shiftPerm c0 σ i < c0 + w := by
  rcases Nat.lt_or_ge i c0 with hlt | hge
  · rw [shiftPerm_low hlt]
    omega
  · obtain ⟨a, rfl⟩ : ∃ a, i = c0 + a := ⟨i - c0, by omega⟩
    rw [shiftPerm_add]
    have := perm_lt hσ (show a < w by omega)
    omega

end Shift

section Patch

variable {α : Type*} {g h : ℕ → α} {c0 w a t : ℕ}

theorem patch_in (ha : a < w) : patch g c0 w h (c0 + a) = h a := by
  rw [patch, if_pos ⟨Nat.le_add_right c0 a, by omega⟩, Nat.add_sub_cancel_left]

theorem patch_out (ht : t < c0 ∨ c0 + w ≤ t) : patch g c0 w h t = g t := if_neg (by omega)

end Patch

/-! ## What a block column leaves -/

section Algebra

variable {K : Type*} [Field K]

/-- Rows `x` and `y` of `L` over the first `k` pivots of the tile: an entry of `L D Lᵀ`. -/
def tileProduct (T : ℕ → ℕ → K) (tags : ℕ → ℤ) (k : ℕ) (x y : ℕ → K) : K :=
  ∑ a ∈ range k, x a * rowTimesD T tags y a

/-- What the view `(A, tags)` becomes when the block column `[c0, c0 + w)`, whose tile was factored
into `t` with its rows moved by `ρ`, keeps the tile's first `k` pivots. -/
structure Finished (A A' : ℕ → ℕ → K) (tags tags' : ℕ → ℤ) (t : Tile K) (c0 w m ne k : ℕ)
    (ρ : Equiv.Perm ℕ) : Prop where
  tags_low : ∀ c < c0, tags' c = tags c
  tags_tile : ∀ a < w, tags' (c0 + a) = if a < k then t.tags a else 0
  old : ∀ c < c0, tags c ≠ 0 → ∀ i < m, symAt A' i c = symAt A (ρ i) c
  tile : ∀ a b, a < w → b < k → b ≤ a → A' (c0 + a) (c0 + b) = t.A a b
  divided : ∀ r < m, (r < c0 ∧ tags r = 0 ∨ c0 + w ≤ r) → Divided t.A t.tags k
    (fun a => symAt A r (ρ (c0 + a))) fun a => symAt A' r (c0 + a)
  schur : ∀ i j, i < m → j < m → tags' i = 0 → tags' j = 0 → ¬(ne ≤ i ∧ ne ≤ j) →
    symAt A' i j = symAt A (ρ i) (ρ j) - tileProduct t.A t.tags k
      (fun a => symAt A' i (c0 + a)) fun a => symAt A' j (c0 + a)
  kept : ∀ i j, ne ≤ i → ne ≤ j → i < m → j < m → symAt A' i j = symAt A i j

variable {A A' T : ℕ → ℕ → K} {tags tags' : ℕ → ℤ} {t : Tile K} {c0 w m ne k k' a i j : ℕ}
  {x y x' y' : ℕ → K} {ρ : Equiv.Perm ℕ}

theorem tileProduct_eq (h : Tagged tags k) : tileProduct T tags k x y =
    ∑ a ∈ range k, pivotTerm T tags x y a :=
  sum_congr rfl fun _ ha => (pivotTerm_of_ne (h.ne_zero (mem_range.mp ha))).symm

theorem tileProduct_comm (h : Tagged tags k) :
    tileProduct T tags k x y = tileProduct T tags k y x := by
  rw [tileProduct_eq h, tileProduct_eq h, sum_pivotTerm_comm h.scattered]

theorem tileProduct_congr (h : Tagged tags k) (hx : ∀ a < k, x' a = x a)
    (hy : ∀ a < k, y' a = y a) : tileProduct T tags k x' y' = tileProduct T tags k x y :=
  sum_congr rfl fun a ha => by
    rw [hx a (mem_range.mp ha), rowTimesD_congr h hy (mem_range.mp ha)]

/-- The row of `L` that ends at a kept pivot has nothing in the later columns of the tile. -/
theorem tileProduct_cut (h : Tagged tags k) (hk : k ≤ k') (ha : a < k) :
    tileProduct T tags k' (lAt T tags a) y = tileProduct T tags k (lAt T tags a) y := by
  have hzero : ∀ b ∈ range k', b ∉ range k →
      lAt T tags a b * rowTimesD T tags y b = 0 := by
    intro b _ hb
    rw [mem_range, not_lt] at hb
    rw [lAt, if_neg (by omega), if_pos ⟨by omega, h.ne_zero ha⟩, zero_mul]
  exact (sum_subset (range_mono hk) hzero).symm

/-- A divided row against the row of a kept pivot is the row it came from. -/
theorem Divided.product (hd : Divided T tags k x y) (h : Tagged tags k) (ha : a < k) :
    x a = tileProduct T tags k (lAt T tags a) y := by
  have hle : tileProduct T tags k (lAt T tags a) y =
      ∑ b ∈ range (a + 1), lAt T tags a b * rowTimesD T tags y b := by
    have hzero : ∀ b ∈ range k, b ∉ range (a + 1) →
        lAt T tags a b * rowTimesD T tags y b = 0 := by
      intro b _ hb
      rw [mem_range, not_lt] at hb
      rw [lAt, if_neg (by omega), if_pos ⟨by omega, h.ne_zero ha⟩, zero_mul]
    exact (sum_subset (range_mono ha) hzero).symm
  have hself : lAt T tags a a = 1 := if_pos rfl
  rw [hd a ha, hle, sum_range_succ, hself, one_mul, add_comm]
  refine congrArg (· + _) (sum_congr rfl fun b hb => ?_)
  rw [mem_range] at hb
  rw [mul_comm, lAt, if_neg (by omega), if_neg (by omega), unitLower, if_neg (by omega)]
  exact congrArg (· * _) (if_congr Iff.rfl rfl (symAt_of_le hb.le).symm)

theorem Finished.lAt_tile (h : Finished A A' tags tags' t c0 w m ne k ρ) (hk : Tagged t.tags k)
    (hkw : k ≤ w) {b : ℕ} (ha : a < w) (hb : b < k) :
    lAt A' tags' (c0 + a) (c0 + b) = lAt t.A t.tags a b := by
  have htb : tags' (c0 + b) = t.tags b := (h.tags_tile b (by omega)).trans (if_pos hb)
  unfold lAt
  rcases lt_trichotomy a b with hlt | rfl | hgt
  · have hta : tags' (c0 + a) = t.tags a := (h.tags_tile a ha).trans (if_pos (hlt.trans hb))
    have hne := hk.ne_zero (hlt.trans hb)
    rw [if_neg (by omega), if_pos ⟨by omega, hta ▸ hne⟩, if_neg (by omega), if_pos ⟨hlt, hne⟩]
  · rw [if_pos rfl, if_pos rfl]
  · have hsym : symAt A' (c0 + a) (c0 + b) = symAt t.A a b := by
      rw [symAt_of_le (by omega), symAt_of_le hgt.le, h.tile a b ha hb hgt.le]
    rw [if_neg (show c0 + a ≠ c0 + b by omega), if_neg (show ¬(c0 + a < c0 + b ∧ _) by omega),
      if_neg hgt.ne', if_neg (show ¬(a < b ∧ _) by omega), htb, hsym]
    exact if_congr (and_congr_right fun _ => by omega) rfl rfl

/-- The rows of `L D` of the new pivots are those of the tile. -/
theorem Finished.rowTimesD_eq (h : Finished A A' tags tags' t c0 w m ne k ρ)
    (hk : Tagged t.tags k) (hkw : k ≤ w) (ha : a < k) : rowTimesD A' tags' x (c0 + a) =
      rowTimesD t.A t.tags (fun a => x (c0 + a)) a := by
  have htag : tags' (c0 + a) = t.tags a := (h.tags_tile a (by omega)).trans (if_pos ha)
  rcases hk a ha with h1 | ⟨h2, hlt, h1⟩ | ⟨h1, hpos, h2⟩
  · rw [rowTimesD_one (htag.trans h1), rowTimesD_one h1, h.tile a a (by omega) ha le_rfl]
  · have hsub := h.tile (a + 1) a (by omega) ha (Nat.le_succ a)
    rw [rowTimesD_opens (htag.trans h2), rowTimesD_opens h2, h.tile a a (by omega) ha le_rfl,
      ← hsub]
    rfl
  · obtain ⟨e, rfl⟩ : ∃ e, a = e + 1 := ⟨a - 1, by omega⟩
    have hsub := h.tile (e + 1) e (by omega) (by omega) (Nat.le_succ e)
    have hdiag := h.tile (e + 1) (e + 1) (by omega) ha le_rfl
    rw [show c0 + (e + 1) = c0 + e + 1 from rfl] at htag hsub hdiag ⊢
    rw [rowTimesD_closes (htag.trans h1), rowTimesD_closes h1, hsub, hdiag]
    rfl

theorem Finished.partProduct_eq (h : Finished A A' tags tags' t c0 w m ne k ρ)
    (hk : Tagged t.tags k) (hkw : k ≤ w) : partProduct A' tags' c0 w i j =
      tileProduct t.A t.tags k (fun a => lAt A' tags' i (c0 + a)) fun a =>
        lAt A' tags' j (c0 + a) := by
  have hzero : ∀ a ∈ range w, a ∉ range k →
      pivotTerm A' tags' (lAt A' tags' i) (lAt A' tags' j) (c0 + a) = 0 := by
    intro a ha hak
    rw [mem_range] at ha hak
    exact pivotTerm_of_zero ((h.tags_tile a ha).trans (if_neg hak))
  unfold partProduct
  rw [← sum_subset (range_mono hkw) hzero]
  refine sum_congr rfl fun a ha => ?_
  rw [mem_range] at ha
  have htag : tags' (c0 + a) ≠ 0 := by
    rw [h.tags_tile a (by omega), if_pos ha]
    exact hk.ne_zero ha
  rw [pivotTerm_of_ne htag, h.rowTimesD_eq hk hkw ha]

/-- A row that is no pivot holds its entries of `L` as they are. -/
theorem Finished.lAt_rest (h : Finished A A' tags tags' t c0 w m ne k ρ) (hk : Tagged t.tags k)
    (hkw : k ≤ w) (hi : tags' i = 0) (ha : a < k) :
    lAt A' tags' i (c0 + a) = symAt A' i (c0 + a) := by
  have htag : ∀ a < k, tags' (c0 + a) = t.tags a := fun a ha =>
    (h.tags_tile a (by omega)).trans (if_pos ha)
  have hne : i ≠ c0 + a := by
    rintro rfl
    rw [htag a ha] at hi
    exact hk.ne_zero ha hi
  have hpair : ¬(tags' (c0 + a) = 2 ∧ i = c0 + a + 1) := by
    rintro ⟨h2, rfl⟩
    rw [htag a ha] at h2
    have hlt := hk.pair_lt ha h2
    rw [Nat.add_assoc, htag _ hlt] at hi
    exact hk.ne_zero hlt hi
  rw [lAt, if_neg hne, if_neg fun hc => hc.2 hi, if_neg hpair]

/-- The block column keeps what the view stands for. -/
theorem Finished.moves (h : Finished A A' tags tags' t c0 w m ne k ρ)
    (hs : Scattered tags c0) (hz : ∀ c, c0 ≤ c → tags c = 0) (hk : Tagged t.tags k) (hkw : k ≤ w)
    (hkt : k ≤ t.ne) {σ : Equiv.Perm ℕ} (hρ : ρ = shiftPerm c0 σ) {small : K} [LinearOrder K]
    {rows : ℕ → ℤ} (ht : Factored small (tileOf A c0) rows w σ t) (hm : c0 + w ≤ m)
    (hz' : ∀ c, c0 + w ≤ c → tags' c = 0) :
    BlockMoves A A' tags tags' c0 w m ne ρ := by
  have hσ := ht.fixed
  have hpart : ∀ i j, partProduct A' tags' c0 w i j =
      tileProduct t.A t.tags k (fun a => lAt A' tags' i (c0 + a)) fun a =>
        lAt A' tags' j (c0 + a) := fun i j => h.partProduct_eq hk hkw
  -- a new pivot column, from any row
  have hpivot : ∀ i, i < m → (tags' i = 0 ∨ c0 ≤ i) → ∀ q < k,
      symAt A (ρ i) (ρ (c0 + q)) = partProduct A' tags' c0 w i (c0 + q) := by
    intro i hi hrow q hq
    rw [hpart, tileProduct_comm hk]
    by_cases hin : c0 ≤ i ∧ i < c0 + w
    · -- inside the tile
      obtain ⟨p, rfl⟩ : ∃ p, i = c0 + p := ⟨i - c0, by omega⟩
      have hst := ht.stands p q (by omega) (by omega)
      have hsym : symAt (tileOf A c0) (σ p) (σ q) = symAt A (ρ (c0 + p)) (ρ (c0 + q)) := by
        rw [hρ, shiftPerm_add, shiftPerm_add]
        unfold symAt tileOf
        exact if_congr (by omega) rfl rfl
      have hqne : t.tags q ≠ 0 := hk.ne_zero hq
      rw [← hsym, hst, standsFor, if_neg (fun hc => hqne hc.2), add_zero,
        partProduct_comm (show Scattered t.tags 0 from fun _ hc => absurd hc (Nat.not_lt_zero _))
          (by rw [Nat.zero_add]; exact ht.tagged.scattered)]
      have hfull : partProduct t.A t.tags 0 t.ne q p =
          tileProduct t.A t.tags t.ne (lAt t.A t.tags q) (lAt t.A t.tags p) := by
        rw [tileProduct_eq ht.tagged]
        exact sum_congr rfl fun a _ => by rw [Nat.zero_add]
      rw [hfull, tileProduct_cut hk hkt hq]
      exact (tileProduct_congr hk (fun a ha => h.lAt_tile hk hkw (by omega) ha)
        fun a ha => h.lAt_tile hk hkw (by omega) ha).symm
    · -- outside: the row has been divided
      have hrest : tags' i = 0 := by
        rcases hrow with h0 | hge
        · exact h0
        · exact hz' i (by omega)
      have hout : i < c0 ∧ tags i = 0 ∨ c0 + w ≤ i := by
        rcases Nat.lt_or_ge i c0 with hlt | hge
        · exact Or.inl ⟨hlt, by rw [← h.tags_low i hlt]; exact hrest⟩
        · exact Or.inr (by omega)
      have hfix : ρ i = i := by
        rw [hρ]
        rcases hout with ⟨hlt, -⟩ | hge
        · exact shiftPerm_low hlt
        · exact shiftPerm_high hσ hge
      rw [hfix, (h.divided i hi hout).product hk hq]
      exact (tileProduct_congr hk (fun a ha => h.lAt_tile hk hkw (by omega) ha)
        fun a ha => h.lAt_rest hk hkw hrest ha).symm
  have hs0 : Scattered tags' c0 := by
    intro c hc
    rw [h.tags_low c hc]
    rcases hs c hc with h1 | h1 | ⟨h1, h2, h3⟩ | ⟨h1, h2, h3⟩
    · exact Or.inl h1
    · exact Or.inr (Or.inl h1)
    · exact Or.inr (Or.inr (Or.inl ⟨h1, h2, by rw [h.tags_low _ h2]; exact h3⟩))
    · exact Or.inr (Or.inr (Or.inr ⟨h1, h2, by rw [h.tags_low _ (by omega)]; exact h3⟩))
  refine ⟨hs, hz, h.tags_low, fun i hi => ?_, fun i hi => ?_, fun i hi => ?_, h.old,
    fun i j hi hj hne hri hrj => ?_⟩
  · rw [hρ]
    exact shiftPerm_low hi
  · rw [hρ]
    exact le_shiftPerm hi
  · rw [hρ]
    rcases Nat.lt_or_ge i (c0 + w) with hlt | hge
    · exact (shiftPerm_lt hσ hlt).trans_le hm
    · rwa [shiftPerm_high hσ hge]
  · -- a row that is not left belongs to a new pivot
    have hnew : ∀ i, (tags' i = 0 ∨ c0 ≤ i) → tags' i ≠ 0 → ∃ q < k, i = c0 + q := by
      intro i hrow h0
      have hge : c0 ≤ i := hrow.resolve_left h0
      have hlt : i < c0 + w := not_le.mp fun hle => h0 (hz' i hle)
      obtain ⟨q, rfl⟩ : ∃ q, i = c0 + q := ⟨i - c0, by omega⟩
      refine ⟨q, not_le.mp fun hkq => h0 ?_, rfl⟩
      exact (h.tags_tile q (by omega)).trans (if_neg (by omega))
    by_cases hij : tags' i = 0 ∧ tags' j = 0
    · rw [if_pos hij, h.schur i j hi hj hij.1 hij.2 hne, hpart]
      rw [tileProduct_congr hk (fun a ha => h.lAt_rest hk hkw hij.1 ha)
        fun a ha => h.lAt_rest hk hkw hij.2 ha]
      ring
    · rw [if_neg hij, add_zero]
      rcases not_and_or.mp hij with h0 | h0
      · obtain ⟨q, hq, rfl⟩ := hnew i hri h0
        rw [symAt_comm, hpivot j hj hrj q hq, hpart, hpart, tileProduct_comm hk]
      · obtain ⟨q, hq, rfl⟩ := hnew j hrj h0
        exact hpivot i hi hri q hq

end Algebra

end SmfSolver.Kernel
