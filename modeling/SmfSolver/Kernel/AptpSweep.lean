/-
The sweep over the eligible columns and the tiles of the front (`sweep`, `sweep_compact`,
`trailing_update`, `factor_tile` of `ldlt_aptp.cpp`).

A block column takes its pivots and leaves its failed columns where they are (`SweepInv.step`),
so after the last one the pivots are scattered over the eligible columns.  The compaction moves
them to the front in their order, and the trailing update gives the rest of the view its Schur
complement: the view then holds a partial factorization (`sweep_spec`).
-/
import SmfSolver.Kernel.AptpStep
import Mathlib.Data.Nat.Count

namespace SmfSolver.Kernel

open Finset

variable {K : Type*} [Field K] [LinearOrder K]

/-- A tile factorization that does what `Factored` says on every tile. -/
def Factors (small : K) (child : TileFactor K) : Prop :=
  ∀ w A rows, ∃ σ, Factored small A rows w σ (child w A rows)

/-! ## The block columns -/

/-- The columns before `c0` have been swept: pivots and failed columns, permuted by `σ`. -/
structure SweepInv (small : K) (A₀ : ℕ → ℕ → K) (rows₀ : ℕ → ℤ) (m ne c0 : ℕ)
    (σ : Equiv.Perm ℕ) (s : Sweep K) : Prop where
  fixed : ∀ i, c0 ≤ i → σ i = i
  lp_eq : ∀ i, s.lp i = σ i
  rows_eq : ∀ i, s.rows i = rows₀ (σ i)
  scattered : Scattered s.tags c0
  rest : ∀ c, c0 ≤ c → s.tags c = 0
  failed : ∀ j, j ∈ s.Q ↔ j < c0 ∧ s.tags j = 0
  count : s.numElim = Nat.count (fun c => s.tags c ≠ 0) c0
  picked : ∀ c < c0, Picked small s.A s.tags s.chosen c
  stands : ∀ i j, i < m → j < m → ¬(ne ≤ i ∧ ne ≤ j) →
    symAt A₀ (σ i) (σ j) = standsFor s.A s.tags c0 i j
  kept : ∀ i j, ne ≤ i → ne ≤ j → i < m → j < m → symAt s.A i j = symAt A₀ i j

section Columns

variable {small : K} {A₀ : ℕ → ℕ → K} {rows₀ : ℕ → ℤ} {m ne bs c0 w : ℕ} {σ τ : Equiv.Perm ℕ}
  {s : Sweep K} {child : TileFactor K} {inv : WithTop K}

omit [LinearOrder K] in
theorem standsFor_zero (A : ℕ → ℕ → K) (i j : ℕ) :
    standsFor A (fun _ => 0) 0 i j = symAt A i j := by
  rw [standsFor, if_pos ⟨rfl, rfl⟩, partProduct, range_zero, sum_empty, zero_add]

theorem SweepInv.start (small : K) (A₀ : ℕ → ℕ → K) (rows₀ : ℕ → ℤ) (m ne : ℕ) :
    SweepInv small A₀ rows₀ m ne 0 (Equiv.refl ℕ)
      { View.start A₀ rows₀ with Q := [], numElim := 0 } where
  fixed _ _ := rfl
  lp_eq _ := rfl
  rows_eq _ := rfl
  scattered c hc := absurd hc (Nat.not_lt_zero c)
  rest _ _ := rfl
  failed j := ⟨fun hj => absurd hj List.not_mem_nil, fun hj => absurd hj.1 (Nat.not_lt_zero j)⟩
  count := (Nat.count_zero _).symm
  picked c hc := absurd hc (Nat.not_lt_zero c)
  stands i j _ _ _ := (standsFor_zero A₀ i j).symm
  kept _ _ _ _ _ _ := rfl

omit [LinearOrder K] in
theorem Finished.joined {A A' : ℕ → ℕ → K} {tags tags' : ℕ → ℤ} {t : Tile K} {k : ℕ}
    {ρ : Equiv.Perm ℕ} (h : Finished A A' tags tags' t c0 w m ne k ρ) :
    Joined tags tags' t.tags c0 w k :=
  ⟨h.tags_low, h.tags_tile⟩

variable [IsStrictOrderedRing K]

/-- One block column. -/
theorem SweepInv.step (h : SweepInv small A₀ rows₀ m ne c0 σ s)
    (hin : StepInput small child m ne bs c0 w s τ) :
    SweepInv small A₀ rows₀ m ne (c0 + w) ((shiftPerm c0 τ).trans σ)
      (blockStep child inv m ne bs c0 w s) := by
  have hfin := hin.finished inv
  obtain ⟨-, hpt, hpk⟩ := hin.kept inv
  have hpw := hpt.trans hin.factored.le
  have hw := hin.width
  have hm := hin.ne_le
  have htags := blockStep_tags inv hin
  obtain ⟨hrows, hlp, hchosen, hQ, hnum⟩ := blockStep_frame child inv m ne bs c0 w s
  have hrest : ∀ c, c0 + w ≤ c → (blockStep child inv m ne bs c0 w s).tags c = 0 := by
    intro c hc
    rw [htags, if_neg (by omega), patch_out (Or.inr hc)]
    exact hin.rest c (by omega)
  have hscat := hfin.joined.scattered h.scattered hpk hpw
  have hmoves := hfin.moves h.scattered hin.rest hpk hpw hpt rfl hin.factored (hw.trans hm) hrest
  -- the rows that move stay among the eligible ones
  have hbeyond : ∀ i, c0 + w ≤ i → shiftPerm c0 τ i = i := fun i hi =>
    shiftPerm_high hin.factored.fixed hi
  have hinside : ∀ i, i < c0 + w → shiftPerm c0 τ i < c0 + w := fun i hi =>
    shiftPerm_lt hin.factored.fixed hi
  have hmove : ∀ {α : Type _} (g f : ℕ → α) (u : ℕ → α), (∀ a, u a = g (c0 + τ a)) → ∀ i,
      patch g c0 w u i = g (shiftPerm c0 τ i) := by
    intro α g f u hu i
    rcases Nat.lt_or_ge i c0 with hlt | hge
    · rw [patch_out (Or.inl hlt), shiftPerm_low hlt]
    · obtain ⟨a, rfl⟩ : ∃ a, i = c0 + a := ⟨i - c0, by omega⟩
      rcases Nat.lt_or_ge a w with haw | hwa
      · rw [patch_in haw, hu, shiftPerm_add]
      · rw [patch_out (Or.inr (by omega)), hbeyond _ (by omega)]
  refine ⟨fun i hi => ?_, fun i => ?_, fun i => ?_, hscat, hrest, fun j => ?_, ?_, fun c hc => ?_,
    fun i j hi hj hne => ?_, fun i j hi hj him hjm => ?_⟩
  · rw [Equiv.trans_apply, hbeyond i hi, h.fixed i (by omega)]
  · rw [hlp, Equiv.trans_apply, ← h.lp_eq]
    exact hmove s.lp s.lp _ (fun a => congrArg (fun a => s.lp (c0 + a)) (hin.factored.lp_eq a)) i
  · rw [hrows, Equiv.trans_apply, ← h.rows_eq]
    exact hmove s.rows s.rows _ (fun a => hin.factored.rows_eq a) i
  · -- the failed columns of the tile join the queue
    rw [hQ, List.mem_append, h.failed, List.mem_map]
    constructor
    · rintro (⟨hlt, h0⟩ | ⟨a, ha, rfl⟩)
      · exact ⟨by omega, (hfin.tags_low j hlt).trans h0⟩
      · rw [mem_positions] at ha
        exact ⟨by omega, (hfin.tags_tile a ha.2).trans (if_neg (by omega))⟩
    · rintro ⟨hlt, h0⟩
      rcases Nat.lt_or_ge j c0 with hjc | hjc
      · exact Or.inl ⟨hjc, by rwa [hfin.tags_low j hjc] at h0⟩
      · obtain ⟨a, rfl⟩ : ∃ a, j = c0 + a := ⟨j - c0, by omega⟩
        refine Or.inr ⟨a, mem_positions.mpr ⟨not_lt.mp fun hlt' => ?_, by omega⟩, rfl⟩
        rw [hfin.tags_tile a (by omega), if_pos hlt'] at h0
        exact hpk.ne_zero hlt' h0
  · rw [hnum, h.count, hfin.joined.count hpk hpw]
  · rcases Nat.lt_or_ge c c0 with hlt | hge
    · -- an earlier pivot stays as it is
      have hentry : ∀ d e, d < c0 → e < c0 → e ≤ d → s.tags e ≠ 0 →
          (blockStep child inv m ne bs c0 w s).A d e = s.A d e := by
        intro d e hd he hed hne
        have := hfin.old e he hne d (by omega)
        rwa [symAt_of_le hed, shiftPerm_low hd, symAt_of_le hed] at this
      refine (h.picked c hlt).congr (hfin.tags_low c hlt) ?_ (fun hne => ?_) fun h2 => ?_
      · rw [hchosen]
        dsimp only
        rw [if_neg (by omega), patch_out (Or.inl hlt)]
      · exact hentry c c hlt hlt le_rfl hne
      · obtain ⟨hc1, hclose⟩ := h.scattered.pair_lt hlt h2
        exact ⟨hentry (c + 1) c hc1 hlt (Nat.le_succ c) (by omega),
          hentry (c + 1) (c + 1) hc1 hc1 le_rfl (by omega)⟩
    · obtain ⟨a, rfl⟩ : ∃ a, c = c0 + a := ⟨c - c0, by omega⟩
      rcases Nat.lt_or_ge a (keptPivots child inv m bs c0 w s) with hak | hka
      · refine (hin.factored.picked a (hak.trans_le hpt)).congr
          ((hfin.tags_tile a (by omega)).trans (if_pos hak)) ?_ (fun _ => ?_) fun h2 => ?_
        · rw [hchosen]
          dsimp only
          rw [if_neg (by omega), patch_in (by omega)]
        · exact hfin.tile a a (by omega) hak le_rfl
        · have ha1 := hpk.pair_lt hak h2
          exact ⟨hfin.tile (a + 1) a (by omega) hak (Nat.le_succ a),
            hfin.tile (a + 1) (a + 1) (by omega) ha1 le_rfl⟩
      · exact Picked.of_zero ((hfin.tags_tile a (by omega)).trans (if_neg (by omega)))
  · rw [← standsFor_step hmoves (by omega) hscat hi hj hne, Equiv.trans_apply, Equiv.trans_apply]
    have hlt : ∀ i < m, shiftPerm c0 τ i < m := fun i hi => hmoves.lt i hi
    refine h.stands _ _ (hlt i hi) (hlt j hj) fun hno => hne ?_
    have hback : ∀ i, ne ≤ shiftPerm c0 τ i → ne ≤ i := fun i hi => by
      by_contra hlt
      rcases Nat.lt_or_ge i (c0 + w) with hiw | hiw
      · have := hinside i hiw
        omega
      · rw [hbeyond i hiw] at hi
        omega
    exact ⟨hback i hno.1, hback j hno.2⟩
  · rw [hfin.kept i j hi hj him hjm, h.kept i j hi hj him hjm]

/-- The block columns, one after the other. -/
theorem sweep_columns (hs : 0 < small) (hbs : 0 < bs) (hne : ne ≤ m) (hchild : Factors small child)
    (inv : WithTop K) (A₀ : ℕ → ℕ → K) (rows₀ : ℕ → ℤ) (n : ℕ) (hn : n ≤ (ne + bs - 1) / bs) :
    ∃ σ, SweepInv small A₀ rows₀ m ne (min (n * bs) ne) σ
      ((List.range n).foldl
        (fun s b => blockStep child inv m ne bs (b * bs) (min bs (ne - b * bs)) s)
        { View.start A₀ rows₀ with Q := [], numElim := 0 }) := by
  induction n with
  | zero =>
    rw [Nat.zero_mul, Nat.zero_min]
    exact ⟨_, SweepInv.start small A₀ rows₀ m ne⟩
  | succ n ih =>
    obtain ⟨σ, h⟩ := ih (by omega)
    have hlt : n * bs < ne := by
      have := (Nat.le_div_iff_mul_le hbs).mp hn
      rw [Nat.succ_mul] at this
      omega
    have hnext : min ((n + 1) * bs) ne = n * bs + min bs (ne - n * bs) := by
      rw [Nat.succ_mul]
      omega
    rw [Nat.min_eq_left hlt.le] at h
    rw [List.range_succ, List.foldl_append, List.foldl_cons, List.foldl_nil, hnext]
    set s := (List.range n).foldl
      (fun s b => blockStep child inv m ne bs (b * bs) (min bs (ne - b * bs)) s)
      { View.start A₀ rows₀ with Q := [], numElim := 0 }
    obtain ⟨τ, hτ⟩ := hchild (min bs (ne - n * bs)) (tileOf s.A (n * bs)) fun i =>
      s.rows (n * bs + i)
    exact ⟨_, h.step ⟨hs, hbs, by omega, hne, h.rest, h.failed, hτ⟩⟩

end Columns

/-! ## The compaction -/

section Compact

variable {m ne src dst : ℕ} {s v : View K} {κ : Equiv.Perm ℕ}

/-- The pivots of `s` before `src` stand in front; `v` is `s` with its positions moved by `κ`. -/
structure Compacted (m : ℕ) (s : View K) (src dst : ℕ) (κ : Equiv.Perm ℕ) (v : View K) :
    Prop where
  gathered : Gathered s.tags src dst κ
  fixed : ∀ i, src ≤ i → κ i = i
  count : dst = Nat.count (fun c => s.tags c ≠ 0) src
  entries : ∀ i j, i < m → j < m → symAt v.A i j = symAt s.A (κ i) (κ j)
  tags : ∀ i, v.tags i = s.tags (κ i)
  rows : ∀ i, v.rows i = s.rows (κ i)
  lp : ∀ i, v.lp i = s.lp (κ i)
  chosen : ∀ i, v.chosen i = s.chosen (κ i)

omit [Field K] [LinearOrder K]

theorem Compacted.start (m : ℕ) (s : View K) : Compacted m s 0 0 (Equiv.refl ℕ) s where
  gathered := ⟨fun _ j _ hj => absurd hj (Nat.not_lt_zero j),
    fun i hi => absurd hi (Nat.not_lt_zero i), fun c hc => absurd hc (Nat.not_lt_zero c)⟩
  fixed _ _ := rfl
  count := (Nat.count_zero _).symm
  entries _ _ _ _ := rfl
  tags _ := rfl
  rows _ := rfl
  lp _ := rfl
  chosen _ := rfl

/-- A failed column stays, a pivot moves to the end of the pivots before it. -/
theorem Compacted.step (h : Compacted m s src dst κ v) (hm : src < m) : ∃ κ',
    Compacted m s (src + 1) (compactStep m (v, dst) src).2 κ' (compactStep m (v, dst) src).1 := by
  have hsrc : κ src = src := h.fixed src le_rfl
  have htag : v.tags src = s.tags src := by rw [h.tags, hsrc]
  have hcount : dst ≤ src := h.count.le.trans (Nat.count_le _)
  have hsucc : ∀ P : ℕ → Prop, ∀ [DecidablePred P],
      Nat.count P (src + 1) = Nat.count P src + if P src then 1 else 0 := fun P _ =>
    Nat.count_succ P src
  unfold compactStep
  dsimp only
  rw [htag]
  by_cases h0 : s.tags src = 0
  -- a failed column is passed over
  · rw [if_pos h0]
    refine ⟨κ, { h with gathered := ?_, fixed := fun i hi => h.fixed i (by omega), count := ?_ }⟩
    · refine ⟨h.gathered.mono, fun i hi => ?_, fun c hc hne => ?_⟩
      · obtain ⟨hlt, hne⟩ := h.gathered.pivot i hi
        exact ⟨by omega, hne⟩
      · have hcs : c ≠ src := fun hcs => hne (hcs ▸ h0)
        exact h.gathered.covers c (by omega) hne
    · rw [hsucc, if_neg (not_not.mpr h0), Nat.add_zero]
      exact h.count
  · rw [if_neg h0]
    -- `dst` is a failed column or `src` itself; the swap moves no other
    have hlow : ∀ i < dst, Equiv.swap dst src i = i := fun i hi =>
      Equiv.swap_apply_of_ne_of_ne (by omega) (by omega)
    have hhigh : ∀ i, src + 1 ≤ i → Equiv.swap dst src i = i := fun i hi =>
      Equiv.swap_apply_of_ne_of_ne (by omega) (by omega)
    have hbound : ∀ i < m, Equiv.swap dst src i < m := by
      intro i hi
      rw [Equiv.swap_apply_def]
      split_ifs <;> omega
    have hdst : κ (Equiv.swap dst src dst) = src := by rw [Equiv.swap_apply_left, hsrc]
    refine ⟨(Equiv.swap dst src).trans κ, ⟨?_, ?_, ?_⟩, fun i hi => ?_, ?_, fun i j hi hj => ?_,
      fun i => ?_, fun i => ?_, fun i => ?_, fun i => ?_⟩
    · intro i j hij hj
      rcases Nat.lt_succ_iff_lt_or_eq.mp hj with hlt | rfl
      · rw [Equiv.trans_apply, Equiv.trans_apply, hlow i (hij.trans hlt), hlow j hlt]
        exact h.gathered.mono i j hij hlt
      · rw [Equiv.trans_apply, Equiv.trans_apply, hlow i hij, hdst]
        exact (h.gathered.pivot i hij).1
    · intro i hi
      rcases Nat.lt_succ_iff_lt_or_eq.mp hi with hlt | rfl
      · obtain ⟨hpiv, hne⟩ := h.gathered.pivot i hlt
        rw [Equiv.trans_apply, hlow i hlt]
        exact ⟨by omega, hne⟩
      · rw [Equiv.trans_apply, hdst]
        exact ⟨Nat.lt_succ_self _, h0⟩
    · intro c hc hne
      rcases Nat.lt_succ_iff_lt_or_eq.mp hc with hlt | rfl
      · obtain ⟨i, hi, hκ⟩ := h.gathered.covers c hlt hne
        exact ⟨i, by omega, by rw [Equiv.trans_apply, hlow i hi, hκ]⟩
      · exact ⟨dst, Nat.lt_succ_self _, hdst⟩
    · rw [Equiv.trans_apply, hhigh i hi, h.fixed i (by omega)]
    · rw [hsucc, if_pos h0, h.count]
    · rw [View.swap_A m hi hj, h.entries _ _ (hbound i hi) (hbound j hj)]
      rfl
    · rw [View.swap_tags, h.tags]
      rfl
    · rw [View.swap_rows, h.rows]
      rfl
    · rw [View.swap_lp, h.lp]
      rfl
    · rw [View.swap_chosen, h.chosen]
      rfl

theorem compact_run (m : ℕ) (s : View K) (n : ℕ) (hn : n ≤ m) : ∃ κ,
    Compacted m s n ((List.range n).foldl (compactStep m) (s, 0)).2 κ
      ((List.range n).foldl (compactStep m) (s, 0)).1 := by
  induction n with
  | zero => exact ⟨_, Compacted.start m s⟩
  | succ n ih =>
    obtain ⟨κ, h⟩ := ih (by omega)
    rw [List.range_succ, List.foldl_append, List.foldl_cons, List.foldl_nil]
    exact h.step hn

/-- `sweep_compact`, of which the pivot count tells whether a column failed. -/
theorem sweepCompact_compacted {s : Sweep K} (hne : ne ≤ m)
    (hs : s.numElim = Nat.count (fun c => s.tags c ≠ 0) ne) : ∃ κ,
    Compacted m s.toView ne s.numElim κ (sweepCompact m ne s).toView := by
  unfold sweepCompact
  split_ifs with hlt
  · obtain ⟨κ, hκ⟩ := compact_run m s.toView ne hne
    have hcount := hκ.count.trans hs.symm
    rw [hcount] at hκ
    exact ⟨κ, hκ⟩
  · -- every column is a pivot
    have hall : ∀ c < ne, s.tags c ≠ 0 := by
      refine Nat.count_iff_forall.mp (le_antisymm (Nat.count_le _) ?_)
      rw [← hs]
      omega
    have hnum : s.numElim = ne := le_antisymm (hs.le.trans (Nat.count_le _)) (by omega)
    refine ⟨Equiv.refl ℕ, ⟨?_, ?_, ?_⟩, fun _ _ => rfl, hs, fun _ _ _ _ => rfl, fun _ => rfl,
      fun _ => rfl, fun _ => rfl, fun _ => rfl⟩
    · exact fun i j hij _ => hij
    · exact fun i hi => ⟨by rwa [hnum] at hi, hall i (by omega)⟩
    · exact fun c hc _ => ⟨c, by omega, rfl⟩

end Compact

/-! ## The view after the sweep -/

section Sweep

variable {small : K} {A₀ : ℕ → ℕ → K} {rows₀ : ℕ → ℤ} {m ne bs p i j : ℕ} {σ κ : Equiv.Perm ℕ}
  {s : Sweep K} {child : TileFactor K}

/-- The view `t` holds a partial factorization of `A₀`, its eligible columns permuted by `σ`. -/
structure Swept (small : K) (A₀ : ℕ → ℕ → K) (rows₀ : ℕ → ℤ) (m ne : ℕ) (σ : Equiv.Perm ℕ)
    (t : Tile K) : Prop where
  fixed : ∀ i, ne ≤ i → σ i = i
  lp_eq : ∀ i, t.lp i = σ i
  rows_eq : ∀ i, t.rows i = rows₀ (σ i)
  le : t.ne ≤ ne
  tagged : Tagged t.tags t.ne
  rest : ∀ c, t.ne ≤ c → t.tags c = 0
  picked : ∀ c < t.ne, Picked small t.A t.tags t.chosen c
  stands : ∀ i j, i < m → j < m → symAt A₀ (σ i) (σ j) = standsFor t.A t.tags t.ne i j

omit [LinearOrder K] in
/-- The deferred update; the source skips it where it would change nothing. -/
theorem trailingUpdate_A (m ne : ℕ) (s : Sweep K) (i j : ℕ) : (trailingUpdate m ne s).A i j =
    if ne ≤ j ∧ j ≤ i ∧ i < m then
      s.A i j - ∑ c ∈ range s.numElim, s.A i c * rowTimesD s.A s.tags (fun c => s.A j c) c
    else s.A i j := by
  by_cases hrun : ne < m ∧ 0 < s.numElim
  · rw [trailingUpdate, if_pos hrun]
  · rw [trailingUpdate, if_neg hrun]
    split_ifs with hij
    · obtain h0 : s.numElim = 0 := by omega
      rw [h0, range_zero, sum_empty, sub_zero]
    · rfl

omit [Field K] [LinearOrder K] in
theorem sweepCompact_numElim (m ne : ℕ) (s : Sweep K) :
    (sweepCompact m ne s).numElim = s.numElim := by
  unfold sweepCompact
  split_ifs <;> rfl

omit [LinearOrder K] in
/-- The deferred update changes entries only. -/
theorem trailingUpdate_frame (m ne : ℕ) (s : Sweep K) :
    (trailingUpdate m ne s).tags = s.tags ∧ (trailingUpdate m ne s).rows = s.rows ∧
      (trailingUpdate m ne s).lp = s.lp ∧ (trailingUpdate m ne s).chosen = s.chosen ∧
      (trailingUpdate m ne s).numElim = s.numElim := by
  unfold trailingUpdate
  split_ifs <;> exact ⟨rfl, rfl, rfl, rfl, rfl⟩

omit [LinearOrder K] in
/-- A product reads the pivot columns only. -/
theorem partProduct_congr {A A' : ℕ → ℕ → K} {tags : ℕ → ℤ} (hs : Scattered tags p)
    (hA : ∀ i c, c < p → symAt A' i c = symAt A i c) (i j : ℕ) :
    partProduct A' tags 0 p i j = partProduct A tags 0 p i j := by
  refine sum_congr rfl fun c hc => ?_
  rw [mem_range] at hc
  rw [Nat.zero_add]
  unfold pivotTerm
  split_ifs with h0
  · rfl
  have hl : ∀ i, ∀ c < p, lAt A' tags i c = lAt A tags i c := fun i c hc => by
    rw [lAt, lAt, hA i c hc]
  rw [hl i c hc]
  refine congrArg (lAt A tags i c * ·) (rowTimesD_eq hs hc (fun _ _ => rfl) ?_ ?_)
  · intro d _ e hed _ hd
    have := hA d e (by omega)
    rwa [symAt_of_le hed, symAt_of_le hed] at this
  · exact fun d _ _ hd => hl j d hd

variable [IsStrictOrderedRing K]

/-- `sweep` leaves a partial factorization of the view it was given. -/
theorem sweep_spec (hs : 0 < small) (hbs : 0 < bs) (hne : ne ≤ m) (hchild : Factors small child)
    (inv : WithTop K) (A₀ : ℕ → ℕ → K) (rows₀ : ℕ → ℤ) :
    ∃ σ, Swept small A₀ rows₀ m ne σ (sweep child inv m ne bs A₀ rows₀) := by
  obtain ⟨σ, h⟩ := sweep_columns hs hbs hne hchild inv A₀ rows₀ _ le_rfl
  have hend : min ((ne + bs - 1) / bs * bs) ne = ne := by
    have hdiv := Nat.div_add_mod (ne + bs - 1) bs
    have hmod := Nat.mod_lt (ne + bs - 1) hbs
    rw [mul_comm] at hdiv
    omega
  rw [hend] at h
  unfold sweep
  dsimp only
  set s := (List.range ((ne + bs - 1) / bs)).foldl
    (fun s b => blockStep child inv m ne bs (b * bs) (min bs (ne - b * bs)) s)
    { View.start A₀ rows₀ with Q := [], numElim := 0 }
  obtain ⟨κ, hc⟩ := sweepCompact_compacted hne h.count
  have hnum := sweepCompact_numElim m ne s
  obtain ⟨htags, hrows, hlp, hchosen, hnum'⟩ := trailingUpdate_frame m ne (sweepCompact m ne s)
  rw [hnum] at hnum'
  have hA := trailingUpdate_A m ne (sweepCompact m ne s)
  rw [hnum] at hA
  set v := sweepCompact m ne s
  set p := s.numElim with hp
  have hpne : p ≤ ne := h.count.le.trans (Nat.count_le _)
  -- the pivots stand in front
  have hvtags : v.tags = fun i => s.tags (κ i) := funext hc.tags
  have htagged : Tagged v.tags p := hvtags ▸ hc.gathered.tagged h.scattered
  have hvrest : ∀ c, p ≤ c → v.tags c = 0 := fun c hpc => by
    rw [hc.tags]
    exact hc.gathered.zero_of_ge h.rest hpc
  have hκ : ∀ i < m, κ i < m := by
    intro i hi
    by_contra hge
    have := hc.fixed (κ i) (by omega)
    have := κ.injective this
    omega
  have hκne : ∀ i, ne ≤ κ i ↔ ne ≤ i := by
    intro i
    constructor
    · intro hge
      have := κ.injective (hc.fixed (κ i) hge)
      omega
    · intro hge
      rwa [hc.fixed i hge]
  -- the trailing update changes the entries between columns that are not eligible
  have hlow : ∀ i c, c < ne → symAt (trailingUpdate m ne v).A i c = symAt v.A i c := by
    intro i c hcn
    unfold symAt
    split_ifs <;> rw [hA, if_neg (by omega)]
  have hpart : ∀ i j, partProduct (trailingUpdate m ne v).A v.tags 0 p i j =
      partProduct v.A v.tags 0 p i j := fun i j =>
    partProduct_congr htagged.scattered (fun i c hc => hlow i c (by omega)) i j
  have hpivot : ∀ d e, d < p → e ≤ d → (trailingUpdate m ne v).A d e = s.A (κ d) (κ e) := by
    intro d e hd hed
    have hκde : κ e ≤ κ d := by
      rcases hed.lt_or_eq with hlt | rfl
      · exact (hc.gathered.mono e d hlt hd).le
      · exact le_rfl
    have hcell := (hlow d e (by omega)).trans (hc.entries d e (by omega) (by omega))
    rwa [symAt_of_le hed, symAt_of_le hκde] at hcell
  refine ⟨κ.trans σ, fun i hi => ?_, fun i => ?_, fun i => ?_, hnum'.le.trans hpne, ?_, ?_, ?_,
    fun i j hi hj => ?_⟩
  · rw [Equiv.trans_apply, hc.fixed i hi, h.fixed i hi]
  · change (trailingUpdate m ne v).lp i = _
    rw [hlp, hc.lp, h.lp_eq, Equiv.trans_apply]
  · change (trailingUpdate m ne v).rows i = _
    rw [hrows, hc.rows, h.rows_eq, Equiv.trans_apply]
  · change Tagged (trailingUpdate m ne v).tags (trailingUpdate m ne v).numElim
    rwa [htags, hnum']
  · intro c hpc
    change (trailingUpdate m ne v).tags c = 0
    rw [htags]
    exact hvrest c (hnum'.ge.trans hpc)
  · intro c hcp
    change Picked small (trailingUpdate m ne v).A (trailingUpdate m ne v).tags
      (trailingUpdate m ne v).chosen c
    replace hcp : c < p := hcp.trans_le hnum'.le
    obtain ⟨hlt, -⟩ := hc.gathered.pivot c hcp
    refine (h.picked (κ c) hlt).congr (by rw [htags, hc.tags]) (by rw [hchosen, hc.chosen])
      (fun _ => hpivot c c hcp le_rfl) fun h2 => ?_
    obtain ⟨hc1, hκ1⟩ := hc.gathered.succ h.scattered hcp h2
    rw [← hκ1]
    exact ⟨hpivot (c + 1) c hc1 (Nat.le_succ c), hpivot (c + 1) (c + 1) hc1 le_rfl⟩
  · change symAt A₀ (σ (κ i)) (σ (κ j)) = standsFor (trailingUpdate m ne v).A
      (trailingUpdate m ne v).tags (trailingUpdate m ne v).numElim i j
    rw [htags, hnum', standsFor, hpart]
    by_cases hboth : ne ≤ i ∧ ne ≤ j
    · -- the deferred update makes the entry its Schur complement
      have hsum : ∀ i j, ne ≤ i → ne ≤ j → ∑ c ∈ range p, v.A i c * rowTimesD v.A v.tags
          (fun c => v.A j c) c = partProduct v.A v.tags 0 p i j := by
        intro i j hi hj
        have hl : ∀ i, ne ≤ i → ∀ c < p, lAt v.A v.tags i c = v.A i c := by
          intro i hi c hcp
          have hpair : ¬(v.tags c = 2 ∧ i = c + 1) := by
            rintro ⟨h2, rfl⟩
            have := htagged.pair_lt hcp h2
            omega
          rw [lAt, if_neg (by omega), if_neg (by omega), if_neg hpair, symAt_of_le (by omega)]
        refine sum_congr rfl fun c hc => ?_
        rw [mem_range] at hc
        rw [Nat.zero_add, pivotTerm_of_ne (htagged.ne_zero hc), hl i hi c hc,
          rowTimesD_congr htagged (fun e he => hl j hj e he) hc]
      have hcomm := partProduct_comm (A := v.A) (show Scattered v.tags 0 from
        fun _ hc => absurd hc (Nat.not_lt_zero _)) (by rw [Nat.zero_add]; exact htagged.scattered)
      rw [if_pos ⟨hvrest i (hpne.trans hboth.1), hvrest j (hpne.trans hboth.2)⟩,
        hc.fixed i hboth.1, hc.fixed j hboth.2, h.fixed i hboth.1, h.fixed j hboth.2,
        ← h.kept i j hboth.1 hboth.2 hi hj]
      have hentry : ∀ i j, ne ≤ i → ne ≤ j → i < m → j < m → j ≤ i → symAt s.A i j =
          partProduct v.A v.tags 0 p i j + symAt (trailingUpdate m ne v).A i j := by
        intro i j hi hj him hjm hji
        have hold := hc.entries i j him hjm
        rw [hc.fixed i hi, hc.fixed j hj] at hold
        rw [← hold, symAt_of_le hji, symAt_of_le hji, hA, if_pos ⟨hj, hji, him⟩, hsum i j hi hj]
        ring
      rcases le_total j i with hji | hij
      · exact hentry i j hboth.1 hboth.2 hi hj hji
      · rw [symAt_comm, symAt_comm (trailingUpdate m ne v).A, hcomm]
        exact hentry j i hboth.2 hboth.1 hj hi hij
    · have hκboth : ¬(ne ≤ κ i ∧ ne ≤ κ j) := by rwa [hκne, hκne]
      have hsym : symAt (trailingUpdate m ne v).A i j = symAt v.A i j := by
        rcases not_and_or.mp hboth with hlt | hlt
        · rw [symAt_comm, symAt_comm v.A]
          exact hlow j i (by omega)
        · exact hlow i j (by omega)
      rw [h.stands _ _ (hκ i hi) (hκ j hj) hκboth, hsym,
        ← hc.gathered.standsFor hc.entries h.scattered h.rest (hpne.trans hne) hi hj, ← hvtags]
      rfl

end Sweep

end SmfSolver.Kernel
