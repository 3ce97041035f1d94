/-
What `ldlt_aptp_front` returns (`ldlt_aptp.cpp`), and the kernel that takes over from it in
`process_front` (`multifrontal_serial.cpp`).

A tile of the front is swept with smaller blocks, and complete pivoting then takes what failed in
that sweep: to the view this is one more block column, with no rows below it
(`Swept.finished`).  The sweep over the front does not ask how its tiles were factored.
-/
import SmfSolver.Kernel.AptpSweep

namespace SmfSolver.Kernel

open Finset

section Tile

variable {K : Type*} [Field K] [LinearOrder K] {small : K} {A₀ : ℕ → ℕ → K} {rows₀ : ℕ → ℤ}
  {n i j : ℕ} {σ τ : Equiv.Perm ℕ} {s t : Tile K}

/-- A swept tile with its failed columns factored once more. -/
def Tile.append (n : ℕ) (s t : Tile K) : Tile K where
  A := permuteRows (setTile s.A s.ne (n - s.ne) t.A) s.ne s.ne (n - s.ne) t.lp
  tags := patch s.tags s.ne (n - s.ne) t.tags
  rows := patch s.rows s.ne (n - s.ne) t.rows
  lp := patch s.lp s.ne (n - s.ne) fun i => s.lp (s.ne + t.lp i)
  chosen := patch s.chosen s.ne (n - s.ne) t.chosen
  ne := s.ne + t.ne

theorem Swept.factored (h : Swept small A₀ rows₀ n n σ s) : Factored small A₀ rows₀ n σ s :=
  ⟨h.fixed, h.lp_eq, h.rows_eq, h.le, h.tagged, h.rest, h.picked, h.stands⟩

/-- The columns before the failed ones keep their entries, with the rows moved. -/
theorem append_left (ht : Factored small A₀ rows₀ (n - s.ne) τ t) (hj : j < s.ne) :
    (s.append n t).A i j = s.A (shiftPerm s.ne τ i) j := by
  have htile : ∀ i, setTile s.A s.ne (n - s.ne) t.A i j = s.A i j := fun i => if_neg (by omega)
  unfold Tile.append permuteRows
  dsimp only
  by_cases hi : s.ne ≤ i ∧ i < s.ne + (n - s.ne)
  · obtain ⟨a, rfl⟩ : ∃ a, i = s.ne + a := ⟨i - s.ne, by omega⟩
    rw [if_pos ⟨hj, hi⟩, htile, Nat.add_sub_cancel_left, ht.lp_eq, shiftPerm_add]
  · rw [if_neg (by tauto), htile]
    rcases Nat.lt_or_ge i s.ne with hlt | hge
    · rw [shiftPerm_low hlt]
    · rw [shiftPerm_high ht.fixed (by omega)]

omit [Field K] [LinearOrder K] in
theorem append_tile {a b : ℕ} (ha : a < n - s.ne) (hb : b < n - s.ne) :
    (s.append n t).A (s.ne + a) (s.ne + b) = t.A a b := by
  unfold Tile.append permuteRows setTile
  dsimp only
  rw [if_neg (by omega), if_pos (by omega), Nat.add_sub_cancel_left, Nat.add_sub_cancel_left]

/-- To the swept tile, factoring its failed columns is one more block column. -/
theorem Swept.finished (h : Swept small A₀ rows₀ n n σ s)
    (ht : Factored small (tileOf s.A s.ne) (fun i => s.rows (s.ne + i)) (n - s.ne) τ t) :
    Finished s.A (s.append n t).A s.tags (s.append n t).tags t s.ne (n - s.ne) n n t.ne
      (shiftPerm s.ne τ) := by
  have hle := h.le
  have hlow : ∀ i, i < s.ne → shiftPerm s.ne τ i = i := fun i hi => shiftPerm_low hi
  have hhigh : ∀ i, s.ne ≤ i → s.ne ≤ shiftPerm s.ne τ i := fun i hi => le_shiftPerm hi
  refine ⟨fun c hc => patch_out (Or.inl hc), fun a ha => ?_, fun c hc _ i hi => ?_,
    fun a b ha hb _ => append_tile ha (hb.trans_le ht.le), fun r hr hrow => ?_,
    fun i j hi hj h0i h0j _ => ?_, fun i j hi _ him => absurd him (not_lt.mpr hi)⟩
  · change patch s.tags s.ne (n - s.ne) t.tags (s.ne + a) = _
    rw [patch_in ha]
    split_ifs with hlt
    · rfl
    · exact ht.rest a (not_lt.mp hlt)
  -- the columns before keep their values, their rows are those of the second factorization
  · rcases Nat.lt_or_ge i c with hic | hci
    · rw [hlow i (by omega), symAt_comm, symAt_comm s.A, symAt_of_le hic.le, symAt_of_le hic.le,
        append_left ht (by omega), hlow c hc]
    · have hcρ : c ≤ shiftPerm s.ne τ i := by
        rcases Nat.lt_or_ge i s.ne with hlt | hge
        · rwa [hlow i hlt]
        · exact hc.le.trans (hhigh i hge)
      rw [symAt_of_le hci, symAt_of_le hcρ, append_left ht hc]
  · -- no column failed before, and there are no rows below
    rcases hrow with ⟨hlt, h0⟩ | hge
    · exact absurd h0 (h.tagged.ne_zero hlt)
    · omega
  · -- the rows that are left are those the second factorization left
    have hrest : ∀ i, (s.append n t).tags i = 0 → i < n → ∃ a, i = s.ne + a ∧ t.ne ≤ a := by
      intro i h0 hi
      change patch s.tags s.ne (n - s.ne) t.tags i = 0 at h0
      rcases Nat.lt_or_ge i s.ne with hlt | hge
      · rw [patch_out (Or.inl hlt)] at h0
        exact absurd h0 (h.tagged.ne_zero hlt)
      · obtain ⟨a, rfl⟩ : ∃ a, i = s.ne + a := ⟨i - s.ne, by omega⟩
        rw [patch_in (by omega)] at h0
        exact ⟨a, rfl, not_lt.mp fun hlt => ht.tagged.ne_zero hlt h0⟩
    obtain ⟨a, rfl, hka⟩ := hrest i h0i hi
    obtain ⟨b, rfl, hkb⟩ := hrest j h0j hj
    have hst := ht.stands a b (by omega) (by omega)
    have hsym : ∀ a b, a < n - s.ne → b < n - s.ne →
        symAt (s.append n t).A (s.ne + a) (s.ne + b) = symAt t.A a b := by
      intro a b ha hb
      unfold symAt
      rw [append_tile ha hb, append_tile hb ha]
      exact if_congr (by omega) rfl rfl
    have hold : symAt (tileOf s.A s.ne) (τ a) (τ b) =
        symAt s.A (shiftPerm s.ne τ (s.ne + a)) (shiftPerm s.ne τ (s.ne + b)) := by
      rw [shiftPerm_add, shiftPerm_add]
      unfold symAt tileOf
      exact if_congr (by omega) rfl rfl
    -- what the second factorization took off, read from the tile it was written back to
    have hprod : partProduct t.A t.tags 0 t.ne a b =
        tileProduct t.A t.tags t.ne (fun e => symAt (s.append n t).A (s.ne + a) (s.ne + e))
          fun e => symAt (s.append n t).A (s.ne + b) (s.ne + e) := by
      have hl : ∀ a, t.ne ≤ a → a < n - s.ne → ∀ e < t.ne, lAt t.A t.tags a e =
          symAt (s.append n t).A (s.ne + a) (s.ne + e) := by
        intro a hka ha e he
        have hpair : ¬(t.tags e = 2 ∧ a = e + 1) := by
          rintro ⟨h2, rfl⟩
          have := ht.tagged.pair_lt he h2
          omega
        rw [hsym a e ha (by omega), lAt, if_neg (by omega), if_neg (by omega), if_neg hpair]
      rw [tileProduct_eq ht.tagged]
      refine sum_congr rfl fun e he => ?_
      rw [mem_range] at he
      rw [Nat.zero_add, pivotTerm_of_ne (ht.tagged.ne_zero he),
        pivotTerm_of_ne (ht.tagged.ne_zero he), hl a hka (by omega) e he]
      exact congrArg (_ * ·) (rowTimesD_congr ht.tagged (fun d hd => hl b hkb (by omega) d hd) he)
    rw [hold, standsFor, if_pos ⟨ht.rest a hka, ht.rest b hkb⟩, hprod] at hst
    rw [hsym a b (by omega) (by omega), hst]
    ring

omit [LinearOrder K] in
/-- Columns without a tag add nothing. -/
theorem standsFor_extend {A : ℕ → ℕ → K} {tags : ℕ → ℤ} {p : ℕ} (hz : ∀ c, p ≤ c → tags c = 0)
    (hpn : p ≤ n) (i j : ℕ) : standsFor A tags n i j = standsFor A tags p i j := by
  have hzero : ∀ c ∈ range n, c ∉ range p →
      pivotTerm A tags (lAt A tags i) (lAt A tags j) (0 + c) = 0 := by
    intro c _ hc
    rw [mem_range, not_lt] at hc
    exact pivotTerm_of_zero (hz _ (by omega))
  unfold standsFor partProduct
  rw [sum_subset (range_mono hpn) hzero]

variable [IsStrictOrderedRing K]

omit [IsStrictOrderedRing K] in
/-- Both stages of a tile together. -/
theorem Swept.append (h : Swept small A₀ rows₀ n n σ s)
    (ht : Factored small (tileOf s.A s.ne) (fun i => s.rows (s.ne + i)) (n - s.ne) τ t) :
    Factored small A₀ rows₀ n ((shiftPerm s.ne τ).trans σ) (s.append n t) := by
  have hfin := h.finished ht
  have hle := h.le
  have htle := ht.le
  have hend : s.ne + (n - s.ne) = n := by omega
  have hrest : ∀ c, s.ne + t.ne ≤ c → (s.append n t).tags c = 0 := by
    intro c hc
    change patch s.tags s.ne (n - s.ne) t.tags c = 0
    rcases Nat.lt_or_ge c n with hlt | hge
    · obtain ⟨a, rfl⟩ : ∃ a, c = s.ne + a := ⟨c - s.ne, by omega⟩
      rw [patch_in (by omega)]
      exact ht.rest a (by omega)
    · rw [patch_out (Or.inr (by omega))]
      exact h.rest c (by omega)
  have hscat := hfin.joined.scattered h.tagged.scattered ht.tagged ht.le
  have hmoves := hfin.moves h.tagged.scattered h.rest ht.tagged ht.le le_rfl rfl ht hend.le
    fun c hc => hrest c (by omega)
  have htagged : Tagged (s.append n t).tags (s.ne + t.ne) :=
    hfin.joined.tagged h.tagged ht.tagged ht.le
  -- the rows and `lp` follow the permutation of the second stage
  have hmove : ∀ {α : Type _} (g : ℕ → α) (u : ℕ → α), (∀ a, u a = g (s.ne + τ a)) → ∀ i,
      patch g s.ne (n - s.ne) u i = g (shiftPerm s.ne τ i) := by
    intro α g u hu i
    rcases Nat.lt_or_ge i s.ne with hlt | hge
    · rw [patch_out (Or.inl hlt), shiftPerm_low hlt]
    · obtain ⟨a, rfl⟩ : ∃ a, i = s.ne + a := ⟨i - s.ne, by omega⟩
      rcases Nat.lt_or_ge a (n - s.ne) with haw | hwa
      · rw [patch_in haw, hu, shiftPerm_add]
      · rw [patch_out (Or.inr (by omega)), shiftPerm_high ht.fixed (by omega)]
  refine ⟨fun i hi => ?_, fun i => ?_, fun i => ?_, ?_, htagged, hrest, fun c hc => ?_,
    fun i j hi hj => ?_⟩
  · rw [Equiv.trans_apply, shiftPerm_high ht.fixed (by omega), h.fixed i hi]
  · rw [Equiv.trans_apply, ← h.lp_eq]
    exact hmove s.lp _ (fun a => congrArg (fun a => s.lp (s.ne + a)) (ht.lp_eq a)) i
  · rw [Equiv.trans_apply, ← h.rows_eq]
    exact hmove s.rows _ (fun a => ht.rows_eq a) i
  · change s.ne + t.ne ≤ n
    omega
  · change c < s.ne + t.ne at hc
    rcases Nat.lt_or_ge c s.ne with hlt | hge
    · have hcell : ∀ d e, d < s.ne → e < s.ne → (s.append n t).A d e = s.A d e :=
        fun d e hd he => by
        rw [append_left ht he, shiftPerm_low hd]
      refine (h.picked c hlt).congr (hfin.tags_low c hlt) (patch_out (Or.inl hlt))
        (fun _ => hcell c c hlt hlt) fun h2 => ?_
      have hc1 := h.tagged.pair_lt hlt h2
      exact ⟨hcell _ _ hc1 hlt, hcell _ _ hc1 hc1⟩
    · obtain ⟨a, rfl⟩ : ∃ a, c = s.ne + a := ⟨c - s.ne, by omega⟩
      have hcell : ∀ d e, d < n - s.ne → e < n - s.ne →
          (s.append n t).A (s.ne + d) (s.ne + e) = t.A d e := fun d e hd he => append_tile hd he
      refine (ht.picked a (by omega)).congr
        ((hfin.tags_tile a (by omega)).trans (if_pos (by omega))) (patch_in (by omega))
        (fun _ => hcell a a (by omega) (by omega)) fun h2 => ?_
      have ha1 := ht.tagged.pair_lt (by omega) h2
      exact ⟨hcell (a + 1) a (by omega) (by omega), hcell (a + 1) (a + 1) (by omega) (by omega)⟩
  · have hstep := standsFor_step hmoves (by omega) hscat hi hj (by omega)
    rw [Equiv.trans_apply, Equiv.trans_apply, h.stands _ _ (hmoves.lt i hi) (hmoves.lt j hj), hstep,
      hend]
    exact standsFor_extend hrest (by omega) i j

/-- `factor_tile` factors its tile. -/
theorem factorTile_factors (hs : 0 < small) (inv : WithTop K) {ib : ℕ} (hib : 0 < ib) :
    Factors small (factorTile small inv ib) := by
  intro w A rows
  have hcp : Factors small (cpFactor small inv) := fun w A rows => cpFactor_spec hs inv w A rows
  unfold factorTile
  split_ifs with hw
  · exact hcp w A rows
  · obtain ⟨σ, h⟩ := sweep_spec hs hib (le_refl w) hcp inv A rows
    dsimp only
    split_ifs with hlt
    · obtain ⟨τ, ht⟩ := hcp (w - (sweep (cpFactor small inv) inv w w ib A rows).ne)
        (tileOf (sweep (cpFactor small inv) inv w w ib A rows).A
          (sweep (cpFactor small inv) inv w w ib A rows).ne)
        fun i => (sweep (cpFactor small inv) inv w w ib A rows).rows
          ((sweep (cpFactor small inv) inv w w ib A rows).ne + i)
      exact ⟨_, h.append ht⟩
    · exact ⟨σ, h.factored⟩

end Tile

section Front

variable {K : Type*} [Field K] {f numElig p i j : ℕ} {F : ℕ → ℕ → K} {rows tags tags' : ℕ → ℤ}

/-- What a front stands for depends on the tags of its pivots only. -/
theorem represented_congr (h : ∀ c < p, tags' c = tags c) (i j : ℕ) :
    represented F tags' p i j = represented F tags p i j := by
  have hpair : ∀ c < p, (ldlOf F tags').pair c = (ldlOf F tags).pair c := fun c hc =>
    congrArg (fun x => decide (x = 2)) (h c hc)
  have hl : ∀ i, ∀ c < p, (ldlOf F tags').l i c = (ldlOf F tags).l i c := fun i c hc => by
    unfold BlockLdl.l
    rw [hpair c hc]
    rfl
  have hd : ∀ c < p, ∀ e < p, (ldlOf F tags').d c e = (ldlOf F tags).d c e := fun c hc e he => by
    unfold BlockLdl.d
    rw [hpair c hc, hpair e he]
    rfl
  unfold represented
  refine congrArg (· + _) (sum_congr rfl fun c hc => sum_congr rfl fun e he => ?_)
  rw [mem_range] at hc he
  rw [hl i c hc, hl j e he, hd c hc e he]

variable [LinearOrder K]

/-- Counting the inertia leaves the counts of columns alone. -/
theorem countPivots_counts (F : ℕ → ℕ → K) (tags : ℕ → ℤ) (f pe : ℕ) (small : K) (k : ℕ)
    (res : AptpResult) :
    (countPivots F tags f pe small k res).numEliminated = res.numEliminated ∧
      (countPivots F tags f pe small k res).numFailed = res.numFailed := by
  fun_induction countPivots F tags f pe small k res with
  | case1 k res hlt h2 rem ih => exact ih
  | case2 k res hlt h2 rem ih => exact ih
  | case3 k res hge => exact ⟨rfl, rfl⟩

/-- The counts depend on the tags of the pivots only. -/
theorem countPivots_congr {pe : ℕ} {small : K} (h : ∀ c < pe, tags' c = tags c) (k : ℕ)
    (res : AptpResult) :
    countPivots F tags' f pe small k res = countPivots F tags f pe small k res := by
  induction hd : pe - k using Nat.strong_induction_on generalizing k res with
  | _ d ih =>
    unfold countPivots
    by_cases hlt : k < pe
    · have hrec : ∀ e, k < e → ∀ res, countPivots F tags' f pe small e res =
          countPivots F tags f pe small e res := fun e he res => by
        by_cases hep : e < pe
        · exact ih (pe - e) (by omega) e res rfl
        · rw [countPivots, if_neg hep, countPivots, if_neg hep]
      rw [if_pos hlt, if_pos hlt, h k hlt]
      simp only [hrec (k + 1) (Nat.lt_succ_self k), hrec (k + 2) (by omega)]
    · rw [if_neg hlt, if_neg hlt]

/-- The front after `ldlt_aptp_front`. -/
structure AptpFactored (small : K) (F : ℕ → ℕ → K) (rows tags : ℕ → ℤ) (f numElig : ℕ)
    (σ : Equiv.Perm ℕ) (out : AptpFront K) : Prop where
  le : out.res.numEliminated ≤ numElig
  failed : out.res.numFailed = numElig - out.res.numEliminated
  tagged : Tagged out.tags out.res.numEliminated
  rest : ∀ c, out.res.numEliminated ≤ c → c < numElig → out.tags c = 0
  beyond : ∀ c, numElig ≤ c → out.tags c = tags c
  picked : ∀ c < out.res.numEliminated, Picked small out.A out.tags out.chosen c
  counted : out.res = countPivots out.A out.tags f out.res.numEliminated small 0
    { numEliminated := out.res.numEliminated, numFailed := numElig - out.res.numEliminated }
  fixed : ∀ i, numElig ≤ i → σ i = i
  rows_eq : ∀ i, out.rows i = rows (σ i)
  stands : ∀ i j, i < f → j < f →
    symAt F (σ i) (σ j) = represented out.A out.tags out.res.numEliminated i j

variable [IsStrictOrderedRing K]

theorem ldltAptpFront_factored (prm : AptpParams K) (hs : 0 < prm.small) (hf : numElig ≤ f)
    (F : ℕ → ℕ → K) (rows tags : ℕ → ℤ) : ∃ σ, AptpFactored prm.small F rows tags f numElig σ
      (ldltAptpFront prm f numElig F rows tags) := by
  unfold ldltAptpFront
  split_ifs with h0
  · -- nothing to eliminate
    obtain h0 : numElig = 0 := by omega
    refine ⟨Equiv.refl ℕ, Nat.zero_le _, rfl, nofun, fun c _ hc => by omega, fun _ _ => rfl, nofun,
      ?_, fun _ _ => rfl, fun _ => rfl, fun i j hi hj => ?_⟩
    · rw [countPivots, if_neg (Nat.lt_irrefl 0)]
      rfl
    change symAt F i j = represented F tags 0 i j
    rw [represented, range_zero, sum_empty, zero_add, if_pos ⟨Nat.zero_le i, Nat.zero_le j⟩]
  · dsimp only
    have hsize : 0 < (effectiveSizes numElig prm).1 ∧ 0 < (effectiveSizes numElig prm).2 := by
      unfold effectiveSizes
      dsimp only
      omega
    obtain ⟨σ, h⟩ := sweep_spec hs hsize.1 hf
      (factorTile_factors hs (invU prm.u) hsize.2) (invU prm.u) F rows
    set s := sweep (factorTile prm.small (invU prm.u) (effectiveSizes numElig prm).2)
      (invU prm.u) f numElig (effectiveSizes numElig prm).1 F rows
    -- what the result counts is what the sweep eliminated
    obtain ⟨hnum, hfail⟩ := countPivots_counts s.A s.tags f s.ne prm.small 0
      { numEliminated := s.ne, numFailed := numElig - s.ne }
    have hle := h.le
    have htag : ∀ c < s.ne, (if c < numElig then s.tags c else tags c) = s.tags c := fun c hc =>
      if_pos (by omega)
    refine ⟨σ, hnum.le.trans hle, hfail.trans (congrArg (numElig - ·) hnum.symm), ?_,
      fun c hc hcn => ?_, fun c hc => if_neg (by omega), fun c hc => ?_, ?_,
      h.fixed, h.rows_eq, fun i j hi hj => ?_⟩
    · intro c hc
      replace hc : c < s.ne := hc.trans_le hnum.le
      dsimp only
      rw [htag c hc]
      rcases h.tagged c hc with h1 | ⟨h2, hlt, h1⟩ | ⟨h1, hpos, h2⟩
      · exact Or.inl h1
      · refine Or.inr (Or.inl ⟨h2, hnum.symm ▸ hlt, ?_⟩)
        rwa [htag _ hlt]
      · refine Or.inr (Or.inr ⟨h1, hpos, ?_⟩)
        rwa [htag _ (by omega)]
    · exact (if_pos hcn).trans (h.rest c (hnum.ge.trans hc))
    · replace hc : c < s.ne := hc.trans_le hnum.le
      exact (h.picked c hc).congr (htag c hc) rfl (fun _ => rfl) fun _ => ⟨rfl, rfl⟩
    · have hres : (frontResult s.A s.tags f numElig s.ne prm.small).numEliminated = s.ne := hnum
      dsimp only
      rw [hres, countPivots_congr htag]
      rfl
    · have hst := (h.stands i j hi hj).trans (standsFor_tagged h.tagged h.rest i j)
      rw [hst, ← represented_congr htag]
      exact congrArg (fun p => represented s.A _ p i j) hnum.symm

/-- `ldlt_aptp_front` returns, for every front and every setting of `u`, `nb` and `ib`, a partial
factorization of the symmetrically permuted front on its first `num_eliminated` columns, with the
exact Schur complement in what is stored behind them; `ldlt_factor_front`, started there, carries
the same factorization on. -/
theorem ldltAptpFront_factors (prm : AptpParams K) (hs : 0 < prm.small) (hf : numElig ≤ f)
    (F : ℕ → ℕ → K) (rows tags : ℕ → ℤ) :
    ∃ out, ldltAptpFront prm f numElig F rows tags = out ∧
      out.res.numEliminated ≤ numElig ∧
      out.res.numFailed = numElig - out.res.numEliminated ∧
      Tagged out.tags out.res.numEliminated ∧
      (∀ c, out.res.numEliminated ≤ c → c < numElig → out.tags c = 0) ∧
      (∀ c, numElig ≤ c → out.tags c = tags c) ∧
      ∃ σ : Equiv.Perm ℕ, (∀ i, numElig ≤ i → σ i = i) ∧ (∀ i, out.rows i = rows (σ i)) ∧
        (∀ i j, i < f → j < f →
          symAt F (σ i) (σ j) = represented out.A out.tags out.res.numEliminated i j) ∧
        ∀ prm' : LdltKernelParams K, prm'.Zeros → ∀ work, ∃ next,
          ldltFactorFront prm' f numElig out.res.numEliminated out.A out.rows out.tags work =
            some next ∧
          out.res.numEliminated ≤ next.k ∧ next.k ≤ numElig ∧ Tagged next.tags next.k ∧
          (∀ c < out.res.numEliminated, next.tags c = out.tags c) ∧
          ∃ τ : Equiv.Perm ℕ, (∀ i, i < out.res.numEliminated ∨ numElig ≤ i → τ i = i) ∧
            (∀ i, next.rows i = rows (σ (τ i))) ∧
            ∀ i j, i < f → j < f →
              symAt F (σ (τ i)) (σ (τ j)) + (if i = j then next.toFront.shift i else 0) =
                represented next.F next.tags next.k i j := by
  obtain ⟨σ, h⟩ := ldltAptpFront_factored prm hs hf F rows tags
  refine ⟨_, rfl, h.le, h.failed, h.tagged, h.rest, h.beyond, σ, h.fixed, h.rows_eq, h.stands,
    fun prm' hz work => ?_⟩
  set out := ldltAptpFront prm f numElig F rows tags
  obtain ⟨next, pl, ps, hnext, -, hpl, hrun⟩ :=
    @ldltFactorFront_runs K _ _ prm' f numElig out.res.numEliminated _ hf out.A out.rows
      out.tags work
  obtain ⟨τ, hτ⟩ := (standsBy_init h.tagged h.le hf hpl).runs hz hrun.runs
  refine ⟨next, hnext, hτ.core.first_le, hτ.core.k_le, hτ.core.tagged, hτ.tags_eq, τ, hτ.fixed,
    fun i => (hτ.rows_eq i).trans (h.rows_eq _), fun i j hi hj => ?_⟩
  -- the permutation of the second kernel moves eligible columns only
  have hlt : ∀ i < f, τ i < f := by
    intro i hi
    by_contra hge
    have := τ.injective (hτ.fixed (τ i) (Or.inr (by omega)))
    omega
  rw [h.stands _ _ (hlt i hi) (hlt j hj)]
  exact hτ.core.represented rfl hi hj

/-- A 3x3 front in tiles of one column: the first fails its check, the second is moved before it. -/
theorem ldltAptpFront_factors_three :
    ∃ out, ldltAptpFront ⟨1 / 2, 1, 1, 1 / 1000⟩ 3 2
        (fun i j => if i = j then (if i = 0 then 1 / 10 else 5) else (i + j : ℚ))
        (fun i => i) (fun _ => 0) = out ∧
      out.res.numEliminated ≤ 2 ∧
      out.res.numFailed = 2 - out.res.numEliminated ∧
      Tagged out.tags out.res.numEliminated ∧
      (∀ c, out.res.numEliminated ≤ c → c < 2 → out.tags c = 0) ∧
      (∀ c, 2 ≤ c → out.tags c = 0) ∧
      ∃ σ : Equiv.Perm ℕ, (∀ i, 2 ≤ i → σ i = i) ∧ (∀ i, out.rows i = (σ i : ℕ)) ∧
        (∀ i j, i < 3 → j < 3 →
          symAt (fun i j => if i = j then (if i = 0 then 1 / 10 else 5) else (i + j : ℚ))
              (σ i) (σ j) =
            represented out.A out.tags out.res.numEliminated i j) ∧
        ∀ prm' : LdltKernelParams ℚ, prm'.Zeros → ∀ work, ∃ next,
          ldltFactorFront prm' 3 2 out.res.numEliminated out.A out.rows out.tags work =
            some next ∧
          out.res.numEliminated ≤ next.k ∧ next.k ≤ 2 ∧ Tagged next.tags next.k ∧
          (∀ c < out.res.numEliminated, next.tags c = out.tags c) ∧
          ∃ τ : Equiv.Perm ℕ, (∀ i, i < out.res.numEliminated ∨ 2 ≤ i → τ i = i) ∧
            (∀ i, next.rows i = (σ (τ i) : ℕ)) ∧
            ∀ i j, i < 3 → j < 3 →
              symAt (fun i j => if i = j then (if i = 0 then 1 / 10 else 5) else (i + j : ℚ))
                  (σ (τ i)) (σ (τ j)) +
                (if i = j then next.toFront.shift i else 0) =
                represented next.F next.tags next.k i j :=
  ldltAptpFront_factors ⟨1 / 2, 1, 1, 1 / 1000⟩ (by norm_num) (by decide) _ _ _

end Front

end SmfSolver.Kernel
