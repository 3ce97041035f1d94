/-
What the steps of one block column write (`block_factor`, `apply_n`, `block_finish`).

Each step has a lemma for every part of the view it writes and one for the rest;
`blockStep_finished` puts them together.
-/
import SmfSolver.Kernel.AptpBlock
import Mathlib.Data.List.GetD

namespace SmfSolver.Kernel

open Finset

variable {K : Type*} [Field K]

/-- The tile of the block column at `c0`, factored. -/
abbrev stepTile (child : TileFactor K) (c0 w : ℕ) (s : Sweep K) : Tile K :=
  child w (tileOf s.A c0) fun i => s.rows (c0 + i)

section Factor

variable [LinearOrder K] {child : TileFactor K} {m c0 w i j a b : ℕ} {s : Sweep K} {small : K}
    {σ : Equiv.Perm ℕ}
  {A₀ : ℕ → ℕ → K} {rows₀ : ℕ → ℤ}

theorem blockFactor_left (ht : Factored small A₀ rows₀ w σ (stepTile child c0 w s)) (hj : j < c0) :
    (blockFactor child m c0 w s).1.A i j = s.A (shiftPerm c0 σ i) j := by
  have htile : ∀ i, setTile s.A c0 w (stepTile child c0 w s).A i j = s.A i j := fun i =>
    if_neg (by omega)
  change (if c0 ≤ j ∧ j < c0 + w ∧ c0 + w ≤ i ∧ i < m then _ else
    permuteRows (setTile s.A c0 w (stepTile child c0 w s).A) c0 c0 w (stepTile child c0 w s).lp i j)
      = _
  rw [if_neg (by omega), permuteRows]
  by_cases hi : c0 ≤ i ∧ i < c0 + w
  · obtain ⟨a, rfl⟩ : ∃ a, i = c0 + a := ⟨i - c0, by omega⟩
    rw [if_pos ⟨hj, hi⟩, htile, Nat.add_sub_cancel_left, ht.lp_eq, shiftPerm_add]
  · rw [if_neg (by tauto), htile]
    rcases Nat.lt_or_ge i c0 with hlt | hge
    · rw [shiftPerm_low hlt]
    · rw [shiftPerm_high ht.fixed (by omega)]

theorem blockFactor_tile (ha : a < w) (hb : b < w) :
    (blockFactor child m c0 w s).1.A (c0 + a) (c0 + b) = (stepTile child c0 w s).A a b := by
  change (if c0 ≤ c0 + b ∧ c0 + b < c0 + w ∧ c0 + w ≤ c0 + a ∧ c0 + a < m then _ else
    permuteRows (setTile s.A c0 w (stepTile child c0 w s).A) c0 c0 w (stepTile child c0 w s).lp
      (c0 + a) (c0 + b)) = _
  rw [if_neg (by omega), permuteRows, if_neg (by omega), setTile, if_pos (by omega),
    Nat.add_sub_cancel_left, Nat.add_sub_cancel_left]

theorem blockFactor_below (ht : Factored small A₀ rows₀ w σ (stepTile child c0 w s)) (hb : b < w)
    (hi : c0 + w ≤ i) (him : i < m) :
    (blockFactor child m c0 w s).1.A i (c0 + b) = s.A i (shiftPerm c0 σ (c0 + b)) := by
  change (if c0 ≤ c0 + b ∧ c0 + b < c0 + w ∧ c0 + w ≤ i ∧ i < m then
    tileOf s.A c0 (i - c0) ((stepTile child c0 w s).lp (c0 + b - c0)) else _) = _
  rw [if_pos (by omega), Nat.add_sub_cancel_left, ht.lp_eq, shiftPerm_add, tileOf,
    show c0 + (i - c0) = i by omega]

theorem blockFactor_right (hj : c0 + w ≤ j) :
    (blockFactor child m c0 w s).1.A i j = s.A i j := by
  change (if c0 ≤ j ∧ j < c0 + w ∧ c0 + w ≤ i ∧ i < m then _ else
    permuteRows (setTile s.A c0 w (stepTile child c0 w s).A) c0 c0 w (stepTile child c0 w s).lp i j)
      = _
  rw [if_neg (by omega), permuteRows, if_neg (by omega), setTile, if_neg (by omega)]

/-- The tags of the tile, also past its end. -/
theorem blockFactor_tags (ht : Factored small A₀ rows₀ w σ (stepTile child c0 w s))
    (hz : ∀ c, c0 ≤ c → s.tags c = 0) (a : ℕ) :
    (blockFactor child m c0 w s).1.tags (c0 + a) = (stepTile child c0 w s).tags a := by
  change patch s.tags c0 w (stepTile child c0 w s).tags (c0 + a) = _
  rcases Nat.lt_or_ge a w with hlt | hge
  · exact patch_in hlt
  · rw [patch_out (Or.inr (by omega)), hz _ (Nat.le_add_right c0 a), ht.rest a (ht.le.trans hge)]

end Factor

section Apply

variable [LinearOrder K] {inv : WithTop K} {m c0 w i j a : ℕ} {s : Sweep K} {b : BlockColumn K}
    {t : Tile K}

/-- What `apply_n` needs of the tile. -/
structure TileReady (s : Sweep K) (b : BlockColumn K) (t : Tile K) (c0 w : ℕ) : Prop where
  ne_eq : b.ne = t.ne
  lt_eq : b.lt = unitLower t.A t.tags
  dinv_eq : b.dinv = tileInverse t.A t.tags
  tags_eq : (fun a => s.tags (c0 + a)) = t.tags
  whole : Tagged t.tags t.ne
  solid : Solid t.A t.tags t.ne
  ne_le : t.ne ≤ w

theorem applyN_frame (inv : WithTop K) (m c0 w : ℕ) (b : BlockColumn K) (s : Sweep K) :
    (applyN inv m c0 w b s).1.tags = s.tags ∧
    (applyN inv m c0 w b s).1.Q = s.Q ∧ (applyN inv m c0 w b s).1.rows = s.rows ∧
    (applyN inv m c0 w b s).1.lp = s.lp ∧ (applyN inv m c0 w b s).1.chosen = s.chosen ∧
    (applyN inv m c0 w b s).1.numElim = s.numElim := by
  unfold applyN
  split_ifs <;> exact ⟨rfl, rfl, rfl, rfl, rfl, rfl⟩

/-- `apply_n` writes the rows below the tile in its pivot columns. -/
theorem applyN_other (h : i < c0 + w ∨ j < c0 ∨ c0 + b.ne ≤ j) :
    (applyN inv m c0 w b s).1.A i j = s.A i j := by
  unfold applyN
  split_ifs
  · rfl
  · exact if_neg (by omega)

variable [IsStrictOrderedRing K]

variable (inv m) in
/-- The pivots that `apply_n` lets through, and the rows it divides. -/
theorem applyN_spec (hr : TileReady s b t c0 w) : (applyN inv m c0 w b s).2 ≤ t.ne ∧
    Tagged t.tags (applyN inv m c0 w b s).2 ∧
    ∀ q, q ≤ (applyN inv m c0 w b s).2 → Tagged t.tags q → ∀ r, c0 + w ≤ r → r < m →
      Divided t.A t.tags q (fun a => s.A r (c0 + a))
        fun a => (applyN inv m c0 w b s).1.A r (c0 + a) := by
  unfold applyN
  split_ifs with h0
  · rw [hr.ne_eq]
    refine ⟨le_rfl, hr.whole, fun q hq _ r hlo hhi => ?_⟩
    -- no rows below, or no pivots
    rcases h0 with h0 | h0
    · rw [hr.ne_eq] at h0
      exact fun j hj => absurd (hj.trans_le hq) (by simp [h0])
    · omega
  · rw [hr.ne_eq, hr.lt_eq, hr.dinv_eq, hr.tags_eq]
    have hchk := scaleAndCheck_spec (m - (c0 + w)) (tileInverse t.A t.tags) inv hr.whole fun r =>
      trsmRlt t.ne (unitLower t.A t.tags) 0 fun a => s.A (c0 + w + r) (c0 + a)
    refine ⟨hchk.le, hchk.whole, fun q hq hqw r hlo hhi => ?_⟩
    obtain ⟨e, rfl⟩ : ∃ e, r = c0 + w + e := ⟨r - (c0 + w), by omega⟩
    have hdiv := hchk.divided (X := fun r a => s.A (c0 + w + r) (c0 + a)) hr.whole hr.solid hqw hq
      (show e < m - (c0 + w) by omega)
    refine hdiv.congr hqw fun c hc => ?_
    have hct : c < t.ne := (hc.trans_le hq).trans_le hchk.le
    dsimp only
    rw [if_pos (by omega), Nat.add_sub_cancel_left, Nat.add_sub_cancel_left]

end Apply

/-! ## The rows of the failed columns -/

section Pieces

theorem chunks_flatten {bs : ℕ} (hbs : 0 < bs) (q : List ℕ) : (chunks bs q).flatten = q := by
  fun_induction chunks bs q with
  | case1 q h =>
    obtain rfl : q = [] := h.resolve_right (by omega)
    rfl
  | case2 q h ih => rw [List.flatten_cons, ih, List.take_append_drop]

theorem chunks_single {bs : ℕ} (hbs : 0 < bs) {q p : List ℕ} (hq : q.length ≤ bs)
    (hp : p ∈ chunks bs q) : chunks bs q = [q] ∧ p = q := by
  have hone : q ≠ [] → chunks bs q = [q] := by
    intro hne
    have hnil : chunks bs ([] : List ℕ) = [] := by
      rw [chunks, if_pos (Or.inl rfl)]
    rw [chunks, if_neg (by rw [not_or]; exact ⟨hne, by omega⟩), List.take_of_length_le hq,
      List.drop_eq_nil_of_le hq, hnil]
  have hne : q ≠ [] := by
    rintro rfl
    rw [chunks, if_pos (Or.inl rfl)] at hp
    exact List.not_mem_nil hp
  rw [hone hne, List.mem_singleton] at hp
  exact ⟨hone hne, hp⟩

/-- The piece that holds a failed column. -/
theorem find_piece {bs : ℕ} (hbs : 0 < bs) {Q : List ℕ} {j : ℕ} (hj : j ∈ Q) : ∃ q ∈ chunks bs Q,
    (chunks bs Q).find? (fun q => decide (j ∈ q)) = some q ∧ j ∈ q := by
  cases hf : (chunks bs Q).find? fun q => decide (j ∈ q) with
  | none =>
    rw [← chunks_flatten hbs Q] at hj
    obtain ⟨q, hq, hjq⟩ := List.mem_flatten.mp hj
    have := List.find?_eq_none.mp hf q hq
    simp [hjq] at this
  | some q => exact ⟨q, List.mem_of_find?_eq_some hf, rfl, by simpa using List.find?_some hf⟩

theorem not_find_piece {bs : ℕ} {Q : List ℕ} {j : ℕ} (hj : j ∉ Q) :
    (chunks bs Q).find? (fun q => decide (j ∈ q)) = none := by
  refine List.find?_eq_none.mpr fun q hq => ?_
  have hbs : 0 < bs := by
    by_contra h0
    rw [chunks, if_pos (Or.inr (by omega))] at hq
    exact List.not_mem_nil hq
  have hQ := chunks_flatten hbs Q
  have : j ∉ q := fun hjq => hj (hQ ▸ List.mem_flatten.mpr ⟨q, hq, hjq⟩)
  simpa using this

end Pieces

section Rows

variable [LinearOrder K] {inv : WithTop K} {m bs c0 w k q i j : ℕ} {s s' : Sweep K}
  {b : BlockColumn K} {t : Tile K} {p : List ℕ}

/-- `scale_and_check` reads the tags of its pivots only. -/
theorem scaleAndCheck_congr {nrows k a : ℕ} {tags tags' : ℕ → ℤ} {dinv : ℕ → K × K}
    (h : ∀ c < k, tags' c = tags c) (X : ℕ → ℕ → K) :
    scaleAndCheck nrows k tags' dinv inv a X = scaleAndCheck nrows k tags dinv inv a X := by
  induction hd : k - a using Nat.strong_induction_on generalizing a X with
  | _ d ih =>
    have hrec : ∀ e, a < e → ∀ X, scaleAndCheck nrows k tags' dinv inv e X =
        scaleAndCheck nrows k tags dinv inv e X := fun e he X => by
      by_cases hlt : e < k
      · exact ih (k - e) (by omega) X rfl
      · rw [scaleAndCheck, if_neg hlt, scaleAndCheck, if_neg hlt]
    unfold scaleAndCheck
    by_cases hlt : a < k
    · rw [if_pos hlt, if_pos hlt, h a hlt]
      simp only [hrec (a + 1) (Nat.lt_succ_self a), hrec (a + 2) (by omega)]
    · rw [if_neg hlt, if_neg hlt]

variable (inv) in
theorem applyT_checked (hr : TileReady s b t c0 w) (hk : Tagged t.tags k) (p : List ℕ) :
    Checked p.length k t.tags (tileInverse t.A t.tags) inv
      (fun r => trsmRlt k (unitLower t.A t.tags) 0 fun a => s.A (c0 + a) (p.getD r 0))
      (applyT inv c0 b s p k) := by
  unfold applyT
  rw [hr.lt_eq, hr.dinv_eq, hr.tags_eq]
  exact scaleAndCheck_spec p.length _ inv hk _

/-- A piece that let `q` pivots through among `k` lets them through alone. -/
theorem applyT_reaches (hr : TileReady s b t c0 w) (hk : Tagged t.tags k) (hq : Tagged t.tags q)
    (hle : q ≤ (applyT inv c0 b s p k).2) : q ≤ (applyT inv c0 b s p q).2 := by
  have hchk := applyT_checked inv hr hk p
  refine (applyT_checked inv hr hq p).le_count hq le_rfl fun r hrl c hc => ?_
  have hqk := hle.trans hchk.le
  rw [scaledEntry_congr hq (fun c hc => trsmRlt_prefix hc hqk) hc]
  exact hchk.bound r hrl c (hc.trans_le hle)

/-- What the rows of every piece let through. -/
structure PiecesPass (inv : WithTop K) (c0 : ℕ) (b : BlockColumn K) (s : Sweep K) (t : Tile K)
    (l : List (List ℕ)) (k k' : ℕ) : Prop where
  le : k' ≤ k
  whole : Tagged t.tags k'
  pass : 0 < k' → ∀ p ∈ l, k' ≤ (applyT inv c0 b s p k').2

variable (inv) in
theorem pieces_pass (hr : TileReady s b t c0 w) (l : List (List ℕ)) (hk : Tagged t.tags k) :
    PiecesPass inv c0 b s t l k
      (l.foldl (fun k p => if k = 0 then 0 else (applyT inv c0 b s p k).2) k) := by
  have hfold : ∀ (l done : List (List ℕ)) (k₁ : ℕ), PiecesPass inv c0 b s t done k k₁ →
      PiecesPass inv c0 b s t (done ++ l) k
        (l.foldl (fun k p => if k = 0 then 0 else (applyT inv c0 b s p k).2) k₁) := by
    intro l
    induction l with
    | nil =>
      intro done k₁ h
      rwa [List.append_nil]
    | cons p l ih =>
      intro done k₁ h
      rw [List.foldl_cons, List.append_cons]
      refine ih _ _ ?_
      split_ifs with h0
      · exact ⟨Nat.zero_le k, fun c hc => absurd hc (Nat.not_lt_zero c), fun hlt =>
          absurd hlt (lt_irrefl 0)⟩
      · have hchk := applyT_checked inv hr h.whole p
        refine ⟨hchk.le.trans h.le, hchk.whole, fun _ p' hp' => ?_⟩
        rcases List.mem_append.mp hp' with hold | hnew
        · exact applyT_reaches hr h.whole hchk.whole
            (hchk.le.trans (h.pass (Nat.pos_of_ne_zero h0) p' hold))
        · rw [List.mem_singleton.mp hnew]
          exact applyT_reaches hr h.whole hchk.whole le_rfl
  exact hfold l [] k ⟨le_rfl, hk, fun _ _ hp => absurd hp List.not_mem_nil⟩

variable (inv bs) in
/-- The accepted pivots are whole blocks that every row lets through. -/
theorem acceptedPivots_spec (hr : TileReady s b t c0 w) (hk : Tagged t.tags k) (hkt : k ≤ t.ne) :
    PiecesPass inv c0 b s t (chunks bs s.Q) k (acceptedPivots inv bs c0 b s k) := by
  unfold acceptedPivots
  rw [hr.ne_eq]
  split_ifs with h0
  · obtain rfl : k = 0 := by omega
    exact ⟨le_rfl, hk, fun hlt => absurd hlt (lt_irrefl 0)⟩
  · have hpass := pieces_pass inv hr (chunks bs s.Q) hk
    dsimp only
    split_ifs with hsplit
    · -- a block is never split, so there is nothing to adjust
      have htag := congrFun hr.tags_eq ((chunks bs s.Q).foldl (fun k p =>
        if k = 0 then 0 else (applyT inv c0 b s p k).2) k - 1)
      rw [show ∀ n, 0 < n → c0 + (n - 1) = c0 + n - 1 from fun n hn => by omega, hsplit.2] at htag
      · have := hpass.whole.pair_lt (by omega) htag.symm
        omega
      · exact hsplit.1
    · exact hpass

theorem writeT_other {nelim : ℕ} (h : ¬(c0 ≤ i ∧ i < c0 + nelim ∧ j ∈ s'.Q)) :
    (writeT inv bs c0 b k nelim s s').A i j = s'.A i j := by
  unfold writeT
  dsimp only
  by_cases hi : c0 ≤ i ∧ i < c0 + nelim
  · rw [if_pos hi, not_find_piece fun hj => h ⟨hi.1, hi.2, hj⟩]
  · rw [if_neg hi]

/-- The rows written back are divided by the accepted pivots. -/
theorem writeT_row [IsStrictOrderedRing K] (hr : TileReady s b t c0 w) (hk : Tagged t.tags k)
    (hkt : k ≤ t.ne)
    {nelim : ℕ} (hn : nelim = acceptedPivots inv bs c0 b s k) (hbs : 0 < bs)
    (hA : ∀ a < nelim, ∀ j ∈ s.Q, s'.A (c0 + a) j = s.A (c0 + a) j) (hQ : s'.Q = s.Q)
    (htags : ∀ a < nelim, s'.tags (c0 + a) = t.tags a) (hj : j ∈ s.Q) :
    Divided t.A t.tags nelim (fun a => s.A (c0 + a) j)
      fun a => (writeT inv bs c0 b k nelim s s').A (c0 + a) j := by
  have hacc := acceptedPivots_spec inv bs hr hk hkt
  rw [← hn] at hacc
  rcases Nat.eq_zero_or_pos nelim with h0 | hpos
  · exact fun a ha => absurd ha (by omega)
  obtain ⟨p, hp, hfind, hjp⟩ := find_piece hbs hj
  have hidx : p.idxOf j < p.length := List.idxOf_lt_length_iff.mpr hjp
  have hget : p.getD (p.idxOf j) 0 = j := by
    rw [List.getD_eq_getElem _ _ hidx, List.getElem_idxOf]
  have hmem : ∀ r < p.length, p.getD r 0 ∈ s.Q := by
    intro r hrp
    rw [← chunks_flatten hbs s.Q, List.getD_eq_getElem _ _ hrp]
    exact List.mem_flatten.mpr ⟨p, hp, List.getElem_mem hrp⟩
  -- a solved row depends on its entries in the pivot columns only
  have hrow : ∀ k' ≤ nelim, ∀ r < p.length, ∀ a < k',
      trsmRlt k' (unitLower t.A t.tags) 0 (fun a => s'.A (c0 + a) (p.getD r 0)) a =
        trsmRlt k' (unitLower t.A t.tags) 0 (fun a => s.A (c0 + a) (p.getD r 0)) a := by
    intro k' hk' r hrp a ha
    induction a using Nat.strong_induction_on with
    | _ a ih =>
      rw [trsmRlt_solves _ _ ha, trsmRlt_solves _ _ ha, hA a (by omega) _ (hmem r hrp)]
      refine congrArg (_ - ·) (sum_congr rfl fun c hc => ?_)
      rw [mem_range] at hc
      rw [ih c hc (hc.trans ha)]
  have hwhole := hacc.whole
  have hnt := hacc.le.trans hkt
  have hsolid : Solid t.A t.tags nelim := fun c hc => hr.solid c (by omega)
  have hentry : ∀ a, (writeT inv bs c0 b k nelim s s').A (c0 + a) j =
      if c0 ≤ c0 + a ∧ c0 + a < c0 + nelim then
        (if bs < s.Q.length then applyT inv c0 b s' p nelim else applyT inv c0 b s p k).1
          (p.idxOf j) (c0 + a - c0)
      else s'.A (c0 + a) j := by
    intro a
    unfold writeT
    dsimp only
    rw [hQ, hfind]
  refine Divided.congr (z := (if bs < s.Q.length then applyT inv c0 b s' p nelim
    else applyT inv c0 b s p k).1 (p.idxOf j)) ?_ hwhole fun c hc => by
      rw [hentry, if_pos ⟨Nat.le_add_right c0 c, by omega⟩, Nat.add_sub_cancel_left]
  split_ifs with hlen
  · -- several pieces: the rows are divided again
    have hsame : applyT inv c0 b s' p nelim = scaleAndCheck p.length nelim t.tags
        (tileInverse t.A t.tags) inv 0 fun r =>
          trsmRlt nelim (unitLower t.A t.tags) 0 fun a => s'.A (c0 + a) (p.getD r 0) := by
      unfold applyT
      rw [hr.lt_eq, hr.dinv_eq, scaleAndCheck_congr htags]
    have hchk' := scaleAndCheck_spec p.length (tileInverse t.A t.tags) inv hwhole fun r =>
      trsmRlt nelim (unitLower t.A t.tags) 0 fun a => s'.A (c0 + a) (p.getD r 0)
    have hchk := applyT_checked inv hr hwhole p
    have hcount : nelim ≤ (applyT inv c0 b s p nelim).2 := hacc.pass hpos p hp
    have hcount' : nelim ≤ (applyT inv c0 b s' p nelim).2 := by
      rw [hsame]
      refine hchk'.le_count hwhole le_rfl fun r hrp c hc => ?_
      rw [scaledEntry_congr hwhole (fun a ha => hrow nelim le_rfl r hrp a ha) hc]
      exact hchk.bound r hrp c (hc.trans_le hcount)
    rw [hsame] at hcount' ⊢
    have hdiv := hchk'.divided (X := fun r a => s'.A (c0 + a) (p.getD r 0)) hwhole hsolid hwhole
      hcount' hidx
    intro a ha
    have := hdiv a ha
    dsimp only at this
    rwa [hA a ha _ (hmem _ hidx), hget] at this
  · -- one piece: its rows are those of the check
    obtain ⟨hone, rfl⟩ := chunks_single hbs (not_lt.mp hlen) hp
    have hchk := applyT_checked inv hr hk s.Q
    have hcount : nelim ≤ (applyT inv c0 b s s.Q k).2 := by
      have hle : nelim ≤ if k = 0 then 0 else (applyT inv c0 b s s.Q k).2 := by
        rw [hn, acceptedPivots, hone, List.foldl_cons, List.foldl_nil, hr.ne_eq]
        dsimp only
        split_ifs <;> omega
      split_ifs at hle
      · omega
      · exact hle
    have hdiv := hchk.divided (X := fun r a => s.A (c0 + a) (s.Q.getD r 0)) hk
      (fun c hc => hr.solid c (by omega)) hwhole hcount hidx
    rwa [hget] at hdiv

end Rows

/-! ## The updates -/

section Update

variable {m ne c0 w p i j a : ℕ} {s : Sweep K} {t : Tile K} {l : ℕ → K}

/-- A view whose pivots `[c0, c0 + p)` are those of the tile, with the failed columns before. -/
structure Pivoted (s : Sweep K) (t : Tile K) (c0 p : ℕ) : Prop where
  whole : Tagged t.tags p
  tags : ∀ a < p, s.tags (c0 + a) = t.tags a
  tile : ∀ a b, a < p → b ≤ a → s.A (c0 + a) (c0 + b) = t.A a b
  early : ∀ j ∈ s.Q, j < c0

theorem Pivoted.blockLd_eq (h : Pivoted s t c0 p) (ha : a < p) :
    blockLd c0 s.toView l a = rowTimesD t.A t.tags l a := by
  refine rowTimesD_entries (h.tags a ha) (h.tile a a ha le_rfl) (fun h2 => ?_) fun h1 => ?_
  · exact h.tile (a + 1) a (h.whole.pair_lt ha h2) (Nat.le_succ a)
  · exact h.tile a (a - 1) ha (Nat.sub_le a 1)

theorem updateNN_other (h : j < c0 + p ∨ ne ≤ j ∨ i < j ∨ m ≤ i) :
    (updateNN m ne c0 p s).A i j = s.A i j := if_neg (by omega)

theorem updateNT_other (h : j ∈ s.Q → i < c0 + p ∧ i ∉ s.Q) :
    (updateNT m c0 p s).A i j = s.A i j := by
  have h1 : ¬(j ∈ s.Q ∧ c0 + p ≤ i ∧ i < m) := fun hc => by
    have := (h hc.1).1
    omega
  have h2 : ¬(j ∈ s.Q ∧ i ∈ s.Q ∧ j ≤ i) := fun hc => (h hc.1).2 hc.2.1
  exact (if_neg h1).trans (if_neg h2)

theorem Pivoted.updateNN (h : Pivoted s t c0 p) : Pivoted (updateNN m ne c0 p s) t c0 p where
  whole := h.whole
  tags := h.tags
  tile a b ha hb := (updateNN_other (by omega)).trans (h.tile a b ha hb)
  early := h.early

/-- The updates leave the rows and columns of the pivots alone. -/
theorem Pivoted.updates_pivot (h : Pivoted s t c0 p) (ha : a < p) (i : ℕ) :
    symAt (updateNT m c0 p (Kernel.updateNN m ne c0 p s)).A i (c0 + a) =
      symAt s.A i (c0 + a) := by
  have hout : ∀ j, c0 + a ≤ j → j ∉ s.Q := fun j hj hjQ => by
    have := h.early j hjQ
    omega
  unfold symAt
  split_ifs with hle
  · rw [updateNT_other (s := Kernel.updateNN m ne c0 p s) fun hc => absurd hc (hout _ le_rfl),
      updateNN_other (by omega)]
  · rw [updateNT_other (s := Kernel.updateNN m ne c0 p s) fun _ => ⟨by omega, hout _ le_rfl⟩,
      updateNN_other (by omega)]

/-- What is left loses the product of its rows. -/
theorem Pivoted.updates_left (h : Pivoted s t c0 p) (hi : i ∈ s.Q ∨ c0 + p ≤ i)
    (hj : j ∈ s.Q ∨ c0 + p ≤ j) (hne : ¬(ne ≤ i ∧ ne ≤ j)) (him : i < m) (hjm : j < m) :
    symAt (updateNT m c0 p (Kernel.updateNN m ne c0 p s)).A i j = symAt s.A i j -
      tileProduct t.A t.tags p (fun a => symAt s.A i (c0 + a)) fun a => symAt s.A j (c0 + a) := by
  -- the kernel updates the lower triangle only
  wlog hji : j ≤ i generalizing i j
  · rw [symAt_comm, symAt_comm s.A, tileProduct_comm h.whole]
    exact this hj hi (by omega) hjm him (by omega)
  have hQ : ∀ j, c0 + p ≤ j → j ∉ s.Q := fun j hj hjQ => by
    have := h.early j hjQ
    omega
  rw [symAt_of_le hji, symAt_of_le hji]
  by_cases hjQ : j ∈ s.Q
  · -- an earlier failed column
    have hjc := h.early j hjQ
    have hsum : ∀ row : ℕ → K, (∀ a < p, row a = symAt s.A i (c0 + a)) →
        ∑ a ∈ range p, row a * blockLd c0 (Kernel.updateNN m ne c0 p s).toView
          (fun a => (Kernel.updateNN m ne c0 p s).A (c0 + a) j) a =
        tileProduct t.A t.tags p (fun a => symAt s.A i (c0 + a)) fun a =>
          symAt s.A j (c0 + a) := by
      intro row hrow
      refine sum_congr rfl fun a ha => ?_
      rw [mem_range] at ha
      rw [hrow a ha, h.updateNN.blockLd_eq ha]
      refine congrArg (symAt s.A i (c0 + a) * ·) (rowTimesD_congr h.whole (fun b hb => ?_) ha)
      rw [updateNN_other (by omega), symAt_comm, symAt_of_le (by omega)]
    rcases hi with hiQ | hge
    · have hic := h.early i hiQ
      have hupd : (updateNT m c0 p (Kernel.updateNN m ne c0 p s)).A i j = _ :=
        (if_neg (by omega)).trans (if_pos ⟨hjQ, hiQ, hji⟩)
      rw [hupd, updateNN_other (by omega), hsum _ fun a _ => ?_]
      rw [updateNN_other (by omega), symAt_comm, symAt_of_le (by omega)]
    · have hupd : (updateNT m c0 p (Kernel.updateNN m ne c0 p s)).A i j = _ :=
        if_pos ⟨hjQ, hge, him⟩
      rw [hupd, updateNN_other (by omega), hsum _ fun a ha => ?_]
      rw [updateNN_other (by omega), symAt_of_le (by omega)]
  · -- a column to the right of the pivots
    have hge : c0 + p ≤ j := hj.resolve_left hjQ
    have hupd : (Kernel.updateNN m ne c0 p s).A i j = _ :=
      if_pos ⟨hge, by omega, hji, him⟩
    rw [updateNT_other (s := Kernel.updateNN m ne c0 p s) fun hc => absurd hc hjQ, hupd]
    refine congrArg (s.A i j - ·) (sum_congr rfl fun a ha => ?_)
    rw [mem_range] at ha
    rw [h.blockLd_eq ha]
    dsimp only
    rw [symAt_of_le (by omega)]
    refine congrArg (s.A i (c0 + a) * ·) (rowTimesD_congr h.whole (fun b hb => ?_) ha)
    rw [symAt_of_le (by omega)]

end Update

/-! ## The block column -/

section Step

variable [LinearOrder K] {child : TileFactor K} {inv : WithTop K} {m ne bs c0 w i j a b : ℕ}
  {s : Sweep K} {small : K} {σ : Equiv.Perm ℕ}

/-- The pivots of the block column that stand. -/
def keptPivots (child : TileFactor K) (inv : WithTop K) (m bs c0 w : ℕ) (s : Sweep K) : ℕ :=
  let f := blockFactor child m c0 w s
  let a := applyN inv m c0 w f.2 f.1
  acceptedPivots inv bs c0 f.2 a.1 a.2

/-- The view with the rows of `L` for these pivots in place and the failed columns restored. -/
def readied (child : TileFactor K) (inv : WithTop K) (m bs c0 w : ℕ) (s : Sweep K) : Sweep K :=
  let f := blockFactor child m c0 w s
  let a := applyN inv m c0 w f.2 f.1
  let p := keptPivots child inv m bs c0 w s
  writeT inv bs c0 f.2 a.2 p a.1 (restore m c0 w f.2 p a.1)

/-- The sweep at `c0`, with its next tile factored by `child`. -/
structure StepInput (small : K) (child : TileFactor K) (m ne bs c0 w : ℕ) (s : Sweep K)
    (σ : Equiv.Perm ℕ) : Prop where
  small_pos : 0 < small
  bs_pos : 0 < bs
  width : c0 + w ≤ ne
  ne_le : ne ≤ m
  rest : ∀ c, c0 ≤ c → s.tags c = 0
  failed : ∀ j, j ∈ s.Q ↔ j < c0 ∧ s.tags j = 0
  factored : Factored small (tileOf s.A c0) (fun i => s.rows (c0 + i)) w σ (stepTile child c0 w s)

variable [IsStrictOrderedRing K]

theorem StepInput.ready (h : StepInput small child m ne bs c0 w s σ) :
    TileReady (blockFactor child m c0 w s).1 (blockFactor child m c0 w s).2
      (stepTile child c0 w s) c0 w where
  ne_eq := rfl
  lt_eq := rfl
  dinv_eq := rfl
  tags_eq := funext (blockFactor_tags h.factored h.rest)
  whole := h.factored.tagged
  solid := Picked.solid h.small_pos h.factored.picked
  ne_le := h.factored.le

variable (inv) in
theorem StepInput.ready_applied (h : StepInput small child m ne bs c0 w s σ) :
    TileReady (applyN inv m c0 w (blockFactor child m c0 w s).2 (blockFactor child m c0 w s).1).1
      (blockFactor child m c0 w s).2 (stepTile child c0 w s) c0 w :=
  { h.ready with
    tags_eq := by
      rw [(applyN_frame inv m c0 w _ _).1]
      exact h.ready.tags_eq }

variable (inv) in
theorem StepInput.kept (h : StepInput small child m ne bs c0 w s σ) :
    keptPivots child inv m bs c0 w s ≤ (applyN inv m c0 w (blockFactor child m c0 w s).2
        (blockFactor child m c0 w s).1).2 ∧
      keptPivots child inv m bs c0 w s ≤ (stepTile child c0 w s).ne ∧
      Tagged (stepTile child c0 w s).tags (keptPivots child inv m bs c0 w s) := by
  obtain ⟨hle, hwhole, -⟩ := applyN_spec inv m h.ready
  have hacc := acceptedPivots_spec inv bs (h.ready_applied inv) hwhole hle
  exact ⟨hacc.le, hacc.le.trans hle, hacc.whole⟩

/-- The parts of the view before the updates. -/
structure Readied (s s' : Sweep K) (t : Tile K) (c0 w m p : ℕ) (ρ : Equiv.Perm ℕ) : Prop where
  left : ∀ i j, j < c0 → (j ∈ s.Q → ¬(c0 ≤ i ∧ i < c0 + p)) → s'.A i j = s.A (ρ i) j
  rows : ∀ j ∈ s.Q, Divided t.A t.tags p (fun a => s.A (ρ (c0 + a)) j) fun a => s'.A (c0 + a) j
  tile : ∀ a b, a < w → b < p → s'.A (c0 + a) (c0 + b) = t.A a b
  below : ∀ r, c0 + w ≤ r → r < m →
    Divided t.A t.tags p (fun a => s.A r (ρ (c0 + a))) fun a => s'.A r (c0 + a)
  failed : ∀ i b, p ≤ b → b < w → c0 + b ≤ i → i < m →
    s'.A i (c0 + b) = symAt s.A (ρ i) (ρ (c0 + b))
  right : ∀ i j, c0 + w ≤ j → s'.A i j = s.A i j
  tags : ∀ c, s'.tags c = if c0 + p ≤ c ∧ c < c0 + w then 0 else patch s.tags c0 w t.tags c

variable (inv) in
theorem StepInput.readied (h : StepInput small child m ne bs c0 w s σ) :
    Readied s (readied child inv m bs c0 w s) (stepTile child c0 w s) c0 w m
      (keptPivots child inv m bs c0 w s) (shiftPerm c0 σ) := by
  obtain ⟨hka, hkt, hkw⟩ := h.kept inv
  have hnw := h.factored.le
  have hspec := applyN_spec inv m h.ready
  set p := keptPivots child inv m bs c0 w s with hp
  set t := stepTile child c0 w s with ht
  set f := blockFactor child m c0 w s with hf
  set v := applyN inv m c0 w f.2 f.1 with hv
  set r := restore m c0 w f.2 p v.1 with hr
  have hne : f.2.ne = t.ne := rfl
  have hQ : v.1.Q = s.Q := (applyN_frame inv m c0 w _ _).2.1
  have hQlt : ∀ j ∈ s.Q, j < c0 := fun j hj => ((h.failed j).mp hj).1
  -- the view after `apply_n`
  have vleft : ∀ i j, j < c0 → v.1.A i j = s.A (shiftPerm c0 σ i) j := fun i j hj =>
    (applyN_other (Or.inr (Or.inl hj))).trans (blockFactor_left h.factored hj)
  have vtile : ∀ a b, a < w → b < w → v.1.A (c0 + a) (c0 + b) = t.A a b := fun a b ha hb =>
    (applyN_other (Or.inl (by omega))).trans (blockFactor_tile ha hb)
  have vright : ∀ i j, c0 + w ≤ j → v.1.A i j = s.A i j := fun i j hj =>
    (applyN_other (Or.inr (Or.inr (by omega)))).trans (blockFactor_right hj)
  have vbelow : ∀ i, c0 + w ≤ i → i < m → Divided t.A t.tags p
      (fun a => s.A i (shiftPerm c0 σ (c0 + a))) fun a => v.1.A i (c0 + a) := by
    intro i hi him a ha
    rw [← hspec.2.2 p hka hkw i hi him a ha]
    exact (blockFactor_below h.factored (by omega) hi him).symm
  -- the failed columns come from the backup
  have rother : ∀ i j, j < c0 + p ∨ c0 + w ≤ j → r.A i j = v.1.A i j := fun i j hj =>
    (if_neg (by omega)).trans (if_neg (by omega))
  have rfailed : ∀ i b, p ≤ b → b < w → c0 + b ≤ i → i < m →
      r.A i (c0 + b) = symAt s.A (shiftPerm c0 σ i) (shiftPerm c0 σ (c0 + b)) := by
    intro i b hpb hb hbi him
    rcases Nat.lt_or_ge i (c0 + w) with hlt | hge
    · obtain ⟨a, rfl⟩ : ∃ a, i = c0 + a := ⟨i - c0, by omega⟩
      have hval : r.A (c0 + a) (c0 + b) =
          symAt (tileOf s.A c0) (t.lp (c0 + a - c0)) (t.lp (c0 + b - c0)) := if_pos (by omega)
      rw [hval, Nat.add_sub_cancel_left, Nat.add_sub_cancel_left, h.factored.lp_eq,
        h.factored.lp_eq, shiftPerm_add, shiftPerm_add]
      exact if_congr (by omega) rfl rfl
    · have hval : r.A i (c0 + b) = tileOf s.A c0 (i - c0) (t.lp (c0 + b - c0)) :=
        (if_neg (by omega)).trans (if_pos (by omega))
      have hlt := shiftPerm_lt h.factored.fixed (show c0 + b < c0 + w by omega)
      rw [hval, Nat.add_sub_cancel_left, h.factored.lp_eq, shiftPerm_high h.factored.fixed hge,
        symAt_of_le (by omega), shiftPerm_add, tileOf, show c0 + (i - c0) = i by omega]
  -- the rows of the earlier failed columns are the last to be written
  have wother : ∀ i j, ¬(c0 ≤ i ∧ i < c0 + p ∧ j ∈ s.Q) →
      (Kernel.readied child inv m bs c0 w s).A i j = r.A i j := by
    intro i j hij
    exact writeT_other fun hc => hij ⟨hc.1, hc.2.1, hQ ▸ hc.2.2⟩
  refine ⟨fun i j hj hno => ?_, fun j hj => ?_, fun a b ha hb => ?_, fun i hi him => ?_,
    fun i b hpb hb hbi him => ?_, fun i j hj => ?_, fun c => ?_⟩
  · rw [wother i j fun hc => hno hc.2.2 ⟨hc.1, hc.2.1⟩, rother i j (by omega), vleft i j hj]
  · have hjQ : j ∈ v.1.Q := hQ ▸ hj
    have hdiv := writeT_row (h.ready_applied inv) hspec.2.1 hspec.1 hp h.bs_pos
      (fun a ha j hj => rother _ _ (by have := hQlt j (hQ ▸ hj); omega)) rfl
      (fun a ha => ?_) hjQ
    · have hrow : (fun a => s.A (shiftPerm c0 σ (c0 + a)) j) = fun a => v.1.A (c0 + a) j :=
        funext fun a => (vleft _ j (hQlt j hj)).symm
      rw [hrow]
      exact hdiv
    · have htag : r.tags (c0 + a) = v.1.tags (c0 + a) := if_neg (by omega)
      rw [htag]
      exact congrFun (h.ready_applied inv).tags_eq a
  · rw [wother _ _ fun hc => by have := hQlt _ hc.2.2; omega, rother _ _ (by omega),
      vtile a b ha (by omega)]
  · have hcell : ∀ b < p, (Kernel.readied child inv m bs c0 w s).A i (c0 + b) =
        v.1.A i (c0 + b) := fun b hb => by
      rw [wother _ _ fun hc => by omega, rother _ _ (by omega)]
    exact (vbelow i hi him).congr hkw hcell
  · rw [wother _ _ fun hc => by have := hQlt _ hc.2.2; omega, rfailed i b hpb hb hbi him]
  · rw [wother _ _ fun hc => by have := hQlt _ hc.2.2; omega, rother _ _ (by omega),
      vright i j hj]
  · have htags : v.1.tags = patch s.tags c0 w t.tags := (applyN_frame inv m c0 w _ _).1
    rw [← htags]
    rfl

omit [LinearOrder K] [IsStrictOrderedRing K] in
theorem updates_zero (s : Sweep K) : (updateNT m c0 0 (updateNN m ne c0 0 s)).A = s.A := by
  have hNN : (updateNN m ne c0 0 s).A = s.A := by
    funext i j
    simp only [updateNN, range_zero, sum_empty, sub_zero, ite_self]
  funext i j
  simp only [updateNT, range_zero, sum_empty, sub_zero, ite_self, hNN]

omit [IsStrictOrderedRing K] in
/-- Without a pivot the updates, which the source skips, change nothing. -/
theorem blockStep_A (s : Sweep K) : (blockStep child inv m ne bs c0 w s).A =
    (updateNT m c0 (keptPivots child inv m bs c0 w s)
      (updateNN m ne c0 (keptPivots child inv m bs c0 w s) (readied child inv m bs c0 w s))).A := by
  change (if keptPivots child inv m bs c0 w s = 0 then
    restore m c0 w (blockFactor child m c0 w s).2 (keptPivots child inv m bs c0 w s) _
    else _ : Sweep K).A = _
  split_ifs with h0
  · rw [h0, updates_zero]
    funext i j
    unfold readied
    dsimp only
    rw [h0]
    have hwrite : ∀ (b : BlockColumn K) (k : ℕ) (s s' : Sweep K),
        (writeT inv bs c0 b k 0 s s').A i j = s'.A i j := fun b k s s' =>
      writeT_other fun hc => by omega
    exact (hwrite _ _ _ _).symm
  · rfl

variable (inv) in
/-- The step writes the tags that the view has before the updates. -/
theorem blockStep_tags (h : StepInput small child m ne bs c0 w s σ) (c : ℕ) :
    (blockStep child inv m ne bs c0 w s).tags c =
      if c0 + keptPivots child inv m bs c0 w s ≤ c ∧ c < c0 + w then 0
      else patch s.tags c0 w (stepTile child c0 w s).tags c := by
  rw [← (h.readied inv).tags c]
  change (if keptPivots child inv m bs c0 w s = 0 then _ else _ : Sweep K).tags c = _
  split_ifs <;> rfl

omit [IsStrictOrderedRing K] in
/-- What the step writes beside the entries and the tags. -/
theorem blockStep_frame (child : TileFactor K) (inv : WithTop K) (m ne bs c0 w : ℕ) (s : Sweep K) :
    (blockStep child inv m ne bs c0 w s).rows =
        patch s.rows c0 w (stepTile child c0 w s).rows ∧
      (blockStep child inv m ne bs c0 w s).lp =
        patch s.lp c0 w (fun i => s.lp (c0 + (stepTile child c0 w s).lp i)) ∧
      (blockStep child inv m ne bs c0 w s).chosen =
        (fun c => if c0 + keptPivots child inv m bs c0 w s ≤ c ∧ c < c0 + w then none
          else patch s.chosen c0 w (stepTile child c0 w s).chosen c) ∧
      (blockStep child inv m ne bs c0 w s).Q =
        s.Q ++ (positions (keptPivots child inv m bs c0 w s) w).map (c0 + ·) ∧
      (blockStep child inv m ne bs c0 w s).numElim =
        s.numElim + keptPivots child inv m bs c0 w s := by
  obtain ⟨-, hQ, hrows, hlp, hchosen, hnum⟩ :=
    applyN_frame inv m c0 w (blockFactor child m c0 w s).2
    (blockFactor child m c0 w s).1
  -- the updates after the factorization of the block write entries only
  refine ⟨?_, ?_, ?_, ?_, ?_⟩
  · change (if keptPivots child inv m bs c0 w s = 0 then _ else _ : Sweep K).rows = _
    split_ifs <;> exact hrows
  · change (if keptPivots child inv m bs c0 w s = 0 then _ else _ : Sweep K).lp = _
    split_ifs <;> exact hlp
  · funext c
    rw [← show _ = patch s.chosen c0 w (stepTile child c0 w s).chosen c from congrFun hchosen c]
    change (if keptPivots child inv m bs c0 w s = 0 then _ else _ : Sweep K).chosen c = _
    by_cases h0 : keptPivots child inv m bs c0 w s = 0
    · rw [if_pos h0]
      rfl
    · rw [if_neg h0]
      rfl
  · change (if keptPivots child inv m bs c0 w s = 0 then _ else _ : Sweep K).Q ++ _ = _
    split_ifs <;> exact congrArg (· ++ _) hQ
  · change (if keptPivots child inv m bs c0 w s = 0 then _ else _ : Sweep K).numElim + _ = _
    split_ifs <;> exact congrArg (· + _) hnum

variable (inv) in
theorem StepInput.pivoted (h : StepInput small child m ne bs c0 w s σ) :
    Pivoted (Kernel.readied child inv m bs c0 w s) (stepTile child c0 w s) c0
      (keptPivots child inv m bs c0 w s) := by
  obtain ⟨-, hkt, hkw⟩ := h.kept inv
  have hle := hkt.trans h.factored.le
  refine ⟨hkw, fun a ha => ?_, fun a b ha hb => (h.readied inv).tile a b (by omega) (by omega),
    fun j hj => ?_⟩
  · rw [(h.readied inv).tags, if_neg (by omega), patch_in (by omega)]
  · have hQ : (Kernel.readied child inv m bs c0 w s).Q = s.Q := (applyN_frame inv m c0 w _ _).2.1
    exact ((h.failed j).mp (hQ ▸ hj)).1

variable (inv) in
/-- A block column of the sweep. -/
theorem StepInput.finished (h : StepInput small child m ne bs c0 w s σ) :
    Finished s.A (blockStep child inv m ne bs c0 w s).A s.tags
      (blockStep child inv m ne bs c0 w s).tags (stepTile child c0 w s) c0 w m ne
      (keptPivots child inv m bs c0 w s) (shiftPerm c0 σ) := by
  obtain ⟨-, hkt, hkw⟩ := h.kept inv
  have hpw := hkt.trans h.factored.le
  have hr := h.readied inv
  have hpiv := h.pivoted inv
  have hQ : (Kernel.readied child inv m bs c0 w s).Q = s.Q := (applyN_frame inv m c0 w _ _).2.1
  have htags := blockStep_tags inv h
  have hwidth := h.width
  have hne := h.ne_le
  rw [blockStep_A]
  set p := keptPivots child inv m bs c0 w s
  set r := Kernel.readied child inv m bs c0 w s
  set t := stepTile child c0 w s
  set ρ := shiftPerm c0 σ with hρ
  have hlow : ∀ i < c0, ρ i = i := fun i hi => shiftPerm_low hi
  have hhigh : ∀ i, c0 ≤ i → c0 ≤ ρ i := fun i hi => le_shiftPerm hi
  have hbeyond : ∀ i, c0 + w ≤ i → ρ i = i := fun i hi => shiftPerm_high h.factored.fixed hi
  have hpivot : ∀ i, ∀ a < p, symAt (updateNT m c0 p (updateNN m ne c0 p r)).A i (c0 + a) =
      symAt r.A i (c0 + a) := fun i a ha => hpiv.updates_pivot ha i
  -- the rows of the failed columns stand in the rows of the pivots
  have hmem : ∀ i, i < c0 → s.tags i = 0 → i ∈ s.Q := fun i hi h0 => (h.failed i).mpr ⟨hi, h0⟩
  have hleft : ∀ i, (blockStep child inv m ne bs c0 w s).tags i = 0 → i ∈ r.Q ∨ c0 + p ≤ i := by
    intro i h0
    rw [htags] at h0
    rcases Nat.lt_or_ge i c0 with hlt | hge
    · rw [if_neg (by omega), patch_out (Or.inl hlt)] at h0
      exact Or.inl (hQ ▸ hmem i hlt h0)
    · refine Or.inr (not_lt.mp fun hlt => ?_)
      obtain ⟨a, rfl⟩ : ∃ a, i = c0 + a := ⟨i - c0, by omega⟩
      rw [if_neg (by omega), patch_in (by omega)] at h0
      exact hkw.ne_zero (show a < p by omega) h0
  -- what is left holds the entries of the view the step started from
  have hcurrent : ∀ i j, (i ∈ r.Q ∨ c0 + p ≤ i) → (j ∈ r.Q ∨ c0 + p ≤ j) → i < m → j < m →
      symAt r.A i j = symAt s.A (ρ i) (ρ j) := by
    intro i j hi hj him hjm
    wlog hji : j ≤ i generalizing i j
    · rw [symAt_comm, symAt_comm s.A]
      exact this j i hj hi hjm him (by omega)
    rw [symAt_of_le hji]
    rcases Nat.lt_or_ge j c0 with hjc | hjc
    · have hle : ρ j ≤ ρ i := by
        rw [hlow j hjc]
        rcases Nat.lt_or_ge i c0 with hic | hic
        · rwa [hlow i hic]
        · exact hjc.le.trans (hhigh i hic)
      rw [symAt_of_le hle, hlow j hjc]
      refine hr.left i j hjc fun _ => ?_
      rcases hi with hiQ | hge
      · have := hpiv.early i hiQ
        omega
      · omega
    · have hjp : c0 + p ≤ j := by
        rcases hj with hjQ | hge
        · have := hpiv.early j hjQ
          omega
        · exact hge
      rcases Nat.lt_or_ge j (c0 + w) with hjw | hjw
      · obtain ⟨b, rfl⟩ : ∃ b, j = c0 + b := ⟨j - c0, by omega⟩
        exact hr.failed i b (by omega) (by omega) hji him
      · rw [hr.right i j hjw, hbeyond i (by omega), hbeyond j hjw, symAt_of_le hji]
  refine ⟨fun c hc => ?_, fun a ha => ?_, fun c hc hpc i hi => ?_, fun a b ha hb hba => ?_,
    fun i hi hrow => ?_, fun i j hi hj h0i h0j hnot => ?_, fun i j hi hj him hjm => ?_⟩
  · rw [htags, if_neg (by omega), patch_out (Or.inl hc)]
  · rw [htags]
    rcases Nat.lt_or_ge a p with hlt | hge
    · rw [if_neg (by omega), patch_in ha, if_pos hlt]
    · rw [if_pos (by omega), if_neg (by omega)]
  · -- an earlier pivot column
    have hcQ : c ∉ r.Q := fun hcQ => hpc ((h.failed c).mp (hQ ▸ hcQ)).2
    rcases Nat.lt_or_ge i c with hic | hci
    · rw [hlow i (by omega), symAt_comm, symAt_comm s.A, symAt_of_le hic.le, symAt_of_le hic.le,
        updateNT_other (s := updateNN m ne c0 p r) fun _ => ⟨by omega, hcQ⟩,
        updateNN_other (by omega), hr.left c i (by omega) fun _ => by omega, hlow c hc]
    · have hle : c ≤ ρ i := by
        rcases Nat.lt_or_ge i c0 with hic | hic
        · rwa [hlow i hic]
        · exact hc.le.trans (hhigh i hic)
      rw [symAt_of_le hci, symAt_of_le hle,
        updateNT_other (s := updateNN m ne c0 p r) fun hc => absurd hc hcQ,
        updateNN_other (by omega), hr.left i c hc fun hcQ' => absurd (hQ ▸ hcQ') hcQ]
  · have hsym := hpivot (c0 + a) b hb
    rw [symAt_of_le (by omega), symAt_of_le (by omega)] at hsym
    rw [hsym, hr.tile a b ha hb]
  · -- a row of the failed columns, or one below the tile
    refine Divided.congr (z := fun a => symAt r.A i (c0 + a)) ?_ hkw fun a ha => hpivot i a ha
    rcases hrow with ⟨hic, h0⟩ | hge
    · have hx : (fun a => symAt s.A i (ρ (c0 + a))) = fun a => s.A (ρ (c0 + a)) i := by
        funext a
        have := hhigh (c0 + a) (Nat.le_add_right c0 a)
        rw [symAt_comm, symAt_of_le (by omega)]
      have hz : (fun a => symAt r.A i (c0 + a)) = fun a => r.A (c0 + a) i := by
        funext a
        rw [symAt_comm, symAt_of_le (by omega)]
      rw [hx, hz]
      exact hr.rows i (hmem i hic h0)
    · refine Divided.congr (z := fun a => r.A i (c0 + a)) ?_ hkw fun a ha =>
        symAt_of_le (by omega)
      intro a ha
      have hlt : ρ (c0 + a) < c0 + w := shiftPerm_lt h.factored.fixed (by omega)
      dsimp only
      rw [symAt_of_le (by omega)]
      exact hr.below i hge hi a ha
  · rw [hpiv.updates_left (hleft i h0i) (hleft j h0j) hnot hi hj,
      hcurrent i j (hleft i h0i) (hleft j h0j) hi hj]
    exact congrArg (symAt s.A (ρ i) (ρ j) - ·) (tileProduct_congr hkw
      (fun a ha => (hpivot i a ha).symm) fun a ha => (hpivot j a ha).symm)
  · -- the columns that are not eligible wait for the trailing update
    wlog hji : j ≤ i generalizing i j
    · rw [symAt_comm, symAt_comm s.A]
      exact this j i hj hi hjm him (by omega)
    have hjQ : j ∉ r.Q := fun hjQ => by
      have := hpiv.early j hjQ
      omega
    rw [symAt_of_le hji, symAt_of_le hji,
      updateNT_other (s := updateNN m ne c0 p r) fun hc => absurd hc hjQ,
      updateNN_other (by omega), hr.right i j (by omega)]

end Step

end SmfSolver.Kernel
