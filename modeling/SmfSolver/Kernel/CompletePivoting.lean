/-
Complete pivoting on a tile (`cp_factor` of `ldlt_aptp.cpp`).

`CpBlock.choice_spec` says which pivot a block of entries that are not all below `small` leads
to, and that it is not singular.  Every pivot is a step of the kind the LDL kernel takes on a
front that is kept current (`Core`), so the tile is factored like such a front: `cpFactor_spec`.
-/
import SmfSolver.Kernel.ScatteredFactor
import Mathlib.Tactic.Positivity

namespace SmfSolver.Kernel

section Choice

variable {K : Type*} [Field K] [LinearOrder K] {b : CpBlock K} {small : K}

omit [Field K] [LinearOrder K] in
theorem CpBlock.mem_entries {e : ℕ × ℕ} :
    e ∈ b.entries ↔ b.k ≤ e.2 ∧ e.2 ≤ e.1 ∧ e.1 < b.n := by
  obtain ⟨i, j⟩ := e
  simp only [CpBlock.entries, List.mem_flatMap, List.mem_map, mem_positions, Prod.mk.injEq]
  constructor
  · rintro ⟨j', hj', i', hi', rfl, rfl⟩
    omega
  · rintro ⟨hkj, hji, hin⟩
    exact ⟨j, by omega, i, by omega, rfl, rfl⟩

/-- The largest of the entries visited, or the start when there are none. -/
structure Largest.Of (A : ℕ → ℕ → K) (l : List (ℕ × ℕ)) (m : Largest K) : Prop where
  bound : ∀ e ∈ l, |A e.1 e.2| ≤ m.amax
  place : l = [] ∧ m.amax = -1 ∨ (m.bi, m.bj) ∈ l ∧ m.amax = |A m.bi m.bj|

theorem Largest.Of.visit [IsStrictOrderedRing K] {A : ℕ → ℕ → K} {l : List (ℕ × ℕ)}
    {m : Largest K} (h : m.Of A l) (e : ℕ × ℕ) : (m.visit A e).Of A (l ++ [e]) := by
  unfold Largest.visit
  split_ifs with hlt
  · refine ⟨fun e' he' => ?_, Or.inr ⟨by simp, rfl⟩⟩
    rcases List.mem_append.mp he' with hold | hnew
    · exact (h.bound e' hold).trans hlt.le
    · rw [List.mem_singleton.mp hnew]
  · refine ⟨fun e' he' => ?_, ?_⟩
    · rcases List.mem_append.mp he' with hold | hnew
      · exact h.bound e' hold
      · rw [List.mem_singleton.mp hnew]
        exact not_lt.mp hlt
    · rcases h.place with ⟨-, hm⟩ | ⟨hmem, hm⟩
      · exact absurd (hm ▸ neg_one_lt_zero.trans_le (abs_nonneg _)) hlt
      · exact Or.inr ⟨List.mem_append_left _ hmem, hm⟩

theorem CpBlock.largest_of [IsStrictOrderedRing K] (b : CpBlock K) :
    b.largest.Of b.A b.entries := by
  have hfold : ∀ (l done : List (ℕ × ℕ)) (m : Largest K), m.Of b.A done →
      (l.foldl (Largest.visit b.A) m).Of b.A (done ++ l) := by
    intro l
    induction l with
    | nil =>
      intro done m h
      rwa [List.append_nil]
    | cons e l ih =>
      intro done m h
      rw [List.foldl_cons, List.append_cons]
      exact ih _ _ (h.visit e)
  exact hfold b.entries [] ⟨-1, 0, 0⟩ ⟨by simp, Or.inl ⟨rfl, rfl⟩⟩

/-- The block has an entry that is not below `small`. -/
def CpBlock.Open (small : K) (b : CpBlock K) : Prop := b.k < b.n ∧ small ≤ b.largest.amax

variable [IsStrictOrderedRing K]

/-- The place and the size of the largest entry of an open block. -/
theorem CpBlock.Open.largest (h : b.Open small) : b.k ≤ b.largest.bj ∧
    b.largest.bj ≤ b.largest.bi ∧ b.largest.bi < b.n ∧
    b.largest.amax = |b.A b.largest.bi b.largest.bj| ∧
    ∀ i j, b.k ≤ j → j ≤ i → i < b.n → |b.A i j| ≤ b.largest.amax := by
  have hof := b.largest_of
  have hkk : (b.k, b.k) ∈ b.entries := CpBlock.mem_entries.mpr ⟨le_rfl, le_rfl, h.1⟩
  rcases hof.place with ⟨hnil, -⟩ | ⟨hmem, heq⟩
  · exact absurd hkk (hnil ▸ List.not_mem_nil)
  · obtain ⟨h1, h2, h3⟩ := CpBlock.mem_entries.mp hmem
    exact ⟨h1, h2, h3, heq, fun i j hj hji hi => hof.bound (i, j) (CpBlock.mem_entries.mpr
      ⟨hj, hji, hi⟩)⟩

/-- What complete pivoting chooses in an open block: its largest entry on the diagonal; a 2x2
pivot whose determinant is at least half the square of its largest entry, the off-diagonal; or a
diagonal below the largest entry, but not far. -/
inductive CpBlock.Chooses (small : K) (b : CpBlock K) : PivotChoice → Prop where
  | diagonal {a : ℕ} (ha : b.k ≤ a) (han : a < b.n) (hd : small ≤ |b.A a a|) :
      b.Chooses small (.one a)
  | pair {a c : ℕ} (ha : b.k ≤ a) (hac : a < c) (hcn : c < b.n) (ht : small ≤ |b.A c a|)
      (haa : |b.A a a| ≤ |b.A c a|) (hcc : |b.A c c| ≤ |b.A c a|)
      (hdet : 0.5 * b.A c a * b.A c a ≤ |b.A a a * b.A c c - b.A c a * b.A c a|) :
      b.Chooses small (.two a c)
  | larger {a c e : ℕ} (hac : a < c) (he : e = a ∨ e = c) (hk : b.k ≤ a) (hn : c < b.n)
      (ht : small ≤ |b.A c a|) (hm : |b.A e e| = max |b.A a a| |b.A c c|)
      (hdet : |b.A a a * b.A c c - b.A c a * b.A c a| < 0.5 * b.A c a * b.A c a) :
      b.Chooses small (.one e)

theorem CpBlock.choice_spec (h : b.Open small) : b.Chooses small b.choice := by
  obtain ⟨hk, hji, hn, heq, hall⟩ := h.largest
  have hsmall : small ≤ |b.A b.largest.bi b.largest.bj| := heq ▸ h.2
  unfold CpBlock.choice
  dsimp only
  split_ifs with hdiag hdet hcmp
  · rw [hdiag] at hsmall
    exact .diagonal hk (hji.trans_lt hn) hsmall
  · refine .pair hk (lt_of_le_of_ne hji (Ne.symm hdiag)) hn hsmall ?_ ?_ hdet
    · rw [← heq]
      exact hall _ _ hk le_rfl (hji.trans_lt hn)
    · rw [← heq]
      exact hall _ _ (hk.trans hji) le_rfl hn
  · exact .larger (lt_of_le_of_ne hji (Ne.symm hdiag)) (Or.inr rfl) hk hn hsmall
      (max_eq_right hcmp.le).symm (not_le.mp hdet)
  · exact .larger (lt_of_le_of_ne hji (Ne.symm hdiag)) (Or.inl rfl) hk hn hsmall
      (max_eq_left (not_lt.mp hcmp)).symm (not_le.mp hdet)

/-- What the steps need of a chosen pivot: its place in the block, and that it is not singular. -/
def CpBlock.Usable (b : CpBlock K) : PivotChoice → Prop
  | .one a => b.k ≤ a ∧ a < b.n ∧ b.A a a ≠ 0
  | .two a c => b.k ≤ a ∧ a < c ∧ c < b.n ∧ b.A a a * b.A c c - b.A c a * b.A c a ≠ 0

theorem CpBlock.Chooses.usable {pc : PivotChoice} (h : b.Chooses small pc) (hs : 0 < small) :
    b.Usable pc := by
  cases h with
  | diagonal ha han hd => exact ⟨ha, han, abs_pos.mp (hs.trans_le hd)⟩
  | @pair a c ha hac hcn ht haa hcc hdet =>
    refine ⟨ha, hac, hcn, abs_pos.mp (lt_of_lt_of_le ?_ hdet)⟩
    have hne : b.A c a ≠ 0 := abs_pos.mp (hs.trans_le ht)
    rw [mul_assoc]
    have := mul_self_pos.mpr hne
    positivity
  | @larger a c e hac he hk hn ht hm hdet =>
    refine ⟨by omega, by omega, fun h0 => ?_⟩
    -- a zero larger diagonal leaves the square of the off-diagonal
    rw [h0, abs_zero] at hm
    have haa : b.A a a = 0 := abs_eq_zero.mp (le_antisymm (hm ▸ le_max_left _ _) (abs_nonneg _))
    have hne : b.A c a ≠ 0 := abs_pos.mp (hs.trans_le ht)
    have hpos := mul_self_pos.mpr hne
    rw [haa, zero_mul, zero_sub, abs_neg, abs_of_pos hpos, mul_assoc] at hdet
    linarith

end Choice

section Picked

variable {K : Type*} [Field K] [LinearOrder K]

/-- The pivot at column `c` stands as complete pivoting found it in the block it was chosen in. -/
structure Picked (small : K) (A : ℕ → ℕ → K) (tags : ℕ → ℤ) (chosen : ℕ → Option (CpBlock K))
    (c : ℕ) : Prop where
  one : tags c = 1 → ∃ b a, chosen c = some b ∧ b.Open small ∧ b.choice = .one a ∧
    A c c = b.A a a
  two : tags c = 2 → ∃ b a e, chosen c = some b ∧ b.Open small ∧ b.choice = .two a e ∧
    A c c = b.A a a ∧ A (c + 1) c = b.A e a ∧ A (c + 1) (c + 1) = b.A e e

variable {small : K} {A A' : ℕ → ℕ → K} {tags tags' : ℕ → ℤ}
  {chosen chosen' : ℕ → Option (CpBlock K)} {c c' k : ℕ}

/-- A pivot that moves with its block. -/
theorem Picked.congr (h : Picked small A tags chosen c) (htag : tags' c' = tags c)
    (hchosen : chosen' c' = chosen c) (hdiag : tags c ≠ 0 → A' c' c' = A c c)
    (hpair : tags c = 2 → A' (c' + 1) c' = A (c + 1) c ∧ A' (c' + 1) (c' + 1) = A (c + 1) (c + 1)) :
    Picked small A' tags' chosen' c' := by
  refine ⟨fun h1 => ?_, fun h2 => ?_⟩
  · rw [htag] at h1
    obtain ⟨b, a, hb, hopen, hch, hd⟩ := h.one h1
    exact ⟨b, a, hchosen.trans hb, hopen, hch, (hdiag (by omega)).trans hd⟩
  · rw [htag] at h2
    obtain ⟨b, a, e, hb, hopen, hch, h00, h10, h11⟩ := h.two h2
    obtain ⟨hs, hn⟩ := hpair h2
    exact ⟨b, a, e, hchosen.trans hb, hopen, hch, (hdiag (by omega)).trans h00, hs.trans h10,
      hn.trans h11⟩

theorem Picked.of_zero (h : tags c = 0) : Picked small A tags chosen c :=
  ⟨fun h1 => by omega, fun h2 => by omega⟩

theorem Picked.of_neg_one (h : tags c = -1) : Picked small A tags chosen c :=
  ⟨fun h1 => by omega, fun h2 => by omega⟩

variable [IsStrictOrderedRing K]

/-- Picked pivots are not singular. -/
theorem Picked.solid (hs : 0 < small) (h : ∀ c < k, Picked small A tags chosen c) :
    Solid A tags k := by
  refine fun c hc => ⟨fun h1 => ?_, fun h2 => ?_⟩
  · obtain ⟨b, a, -, hopen, hch, hd⟩ := (h c hc).one h1
    have huse := (b.choice_spec hopen).usable hs
    rw [hch] at huse
    exact hd ▸ huse.2.2
  · obtain ⟨b, a, e, -, hopen, hch, h00, h10, h11⟩ := (h c hc).two h2
    have huse := (b.choice_spec hopen).usable hs
    rw [hch] at huse
    rw [pivotDet, symAt_of_le (Nat.le_succ c), h00, h10, h11]
    exact huse.2.2.2

end Picked

section Tiles

variable {K : Type*} [Field K] [LinearOrder K]

/-- The tile `t` of width `n` holds a factorization of `A₀`, its columns permuted by `σ`, with the
pivots in front. -/
structure Factored (small : K) (A₀ : ℕ → ℕ → K) (rows₀ : ℕ → ℤ) (n : ℕ) (σ : Equiv.Perm ℕ)
    (t : Tile K) : Prop where
  fixed : ∀ i, n ≤ i → σ i = i
  lp_eq : ∀ i, t.lp i = σ i
  rows_eq : ∀ i, t.rows i = rows₀ (σ i)
  le : t.ne ≤ n
  tagged : Tagged t.tags t.ne
  rest : ∀ c, t.ne ≤ c → t.tags c = 0
  picked : ∀ c < t.ne, Picked small t.A t.tags t.chosen c
  stands : ∀ i j, i < n → j < n → symAt A₀ (σ i) (σ j) = standsFor t.A t.tags t.ne i j

/-- The places of a permutation of the first `n` positions. -/
theorem perm_lt {σ : Equiv.Perm ℕ} {n i : ℕ} (h : ∀ i, n ≤ i → σ i = i) (hi : i < n) : σ i < n := by
  by_contra hge
  rw [not_lt] at hge
  have := σ.injective (h _ hge)
  omega

/-- A view as a front of the LDL kernel with every column current. -/
def View.lazy (v : View K) (k n : ℕ) : Lazy K where
  F := v.A
  rows := v.rows
  tags := v.tags
  W _ _ := 0
  k := k
  forced _ := none
  pl := n
  ps := 0

/-- A current front stands for its matrix whatever its row ids and workspace. -/
theorem Core.of_eq {T : ℕ → ℕ → K} {n : ℕ} {l l' : Lazy K} (h : Core T n n 0 l) (hF : l'.F = l.F)
    (htags : l'.tags = l.tags) (hk : l'.k = l.k) (hpl : l'.pl = l.pl) (hps : l'.ps = l.ps)
    (hn : l.pl = n) : Core T n n 0 l' := by
  have hbase : ∀ j, l'.base n 0 j = l.base n 0 j := fun j => by
    unfold Lazy.base
    rw [hpl, hk, hps]
  refine ⟨h.symm, by rw [htags, hk]; exact h.tagged, by rw [htags]; exact h.tagged_first,
    Nat.zero_le _, by rw [hps, hk]; exact h.ps_le, by rw [hk]; exact h.k_le, h.elig_le,
    fun i j hj hji hi => ?_, fun i j hj hji hi => ?_, fun hlt => ?_⟩
  · rw [hk] at hj ⊢
    rw [hF, htags]
    exact h.done i j hj hji hi
  · rw [hk] at hj
    rw [hF, htags, hbase]
    exact h.live i j hj hji hi
  · omega

variable {small : K} {A₀ : ℕ → ℕ → K} {rows₀ : ℕ → ℤ} {n p q i j : ℕ} {σ : Equiv.Perm ℕ}
  {s : Tile K} {v : View K}

/-! ### The moves of a view -/

omit [Field K] [LinearOrder K] in
theorem View.swap_A (m : ℕ) (hi : i < m) (hj : j < m) : symAt (v.swap m p q).A i j =
    symAt v.A (Equiv.swap p q i) (Equiv.swap p q j) := by
  unfold View.swap
  split_ifs with h
  · rw [h, Equiv.swap_self]
    rfl
  · exact symAt_symSwap hi hj

section

omit [Field K] [LinearOrder K]

theorem View.swap_tags (m i : ℕ) : (v.swap m p q).tags i = v.tags (Equiv.swap p q i) := by
  unfold View.swap
  split_ifs with h
  · rw [h, Equiv.swap_self]
    rfl
  · rfl

theorem View.swap_rows (m i : ℕ) : (v.swap m p q).rows i = v.rows (Equiv.swap p q i) := by
  unfold View.swap
  split_ifs with h
  · rw [h, Equiv.swap_self]
    rfl
  · rfl

theorem View.swap_lp (m i : ℕ) : (v.swap m p q).lp i = v.lp (Equiv.swap p q i) := by
  unfold View.swap
  split_ifs with h
  · rw [h, Equiv.swap_self]
    rfl
  · rfl

theorem View.swap_chosen (m i : ℕ) : (v.swap m p q).chosen i = v.chosen (Equiv.swap p q i) := by
  unfold View.swap
  split_ifs with h
  · rw [h, Equiv.swap_self]
    rfl
  · rfl

@[simp] theorem View.swap_self (m : ℕ) : v.swap m p p = v := if_pos rfl

/-- Positions from `k` on without tags trade places. -/
theorem View.swap_tags_eq {k : ℕ} (m : ℕ) (h : ∀ c, k ≤ c → v.tags c = 0) (hp : k ≤ p)
    (hq : k ≤ q) : (v.swap m p q).tags = v.tags := by
  funext i
  rw [View.swap_tags]
  by_cases hip : i = p
  · rw [hip, Equiv.swap_apply_left, h q hq, h p hp]
  by_cases hiq : i = q
  · rw [hiq, Equiv.swap_apply_right, h p hp, h q hq]
  rw [Equiv.swap_apply_of_ne_of_ne hip hiq]

end

/-- What holds of a tile while complete pivoting works on it, at position `k`. -/
structure CpInv (small : K) (A₀ : ℕ → ℕ → K) (rows₀ : ℕ → ℤ) (n k : ℕ) (σ : Equiv.Perm ℕ)
    (v : View K) : Prop where
  core : Core (fun i j => symAt A₀ (σ i) (σ j)) n n 0 (v.lazy k n)
  fixed : ∀ i, n ≤ i → σ i = i
  lp_eq : ∀ i, v.lp i = σ i
  rows_eq : ∀ i, v.rows i = rows₀ (σ i)
  rest : ∀ c, k ≤ c → v.tags c = 0
  picked : ∀ c < k, Picked small v.A v.tags v.chosen c

variable {k : ℕ}

theorem CpInv.start (small : K) (A₀ : ℕ → ℕ → K) (rows₀ : ℕ → ℤ) (n : ℕ) :
    CpInv small A₀ rows₀ n 0 (Equiv.refl ℕ) (View.start A₀ rows₀) := by
  refine ⟨⟨fun i j => symAt_comm A₀ i j, nofun, nofun, le_rfl, le_rfl, Nat.zero_le n, le_rfl,
    fun i j hj => absurd hj (Nat.not_lt_zero j), fun i j hj hji hi => ?_, fun hlt => ?_⟩,
    fun _ _ => rfl, fun _ => rfl, fun _ => rfl, fun _ _ => rfl, nofun⟩
  · have hbase : ((View.start A₀ rows₀).lazy 0 n).base n 0 j = 0 := if_pos (hji.trans_lt hi)
    rw [hbase, BlockLdl.product_zero, zero_add]
    exact symAt_of_le hji
  · exact absurd hlt (lt_irrefl n)

theorem CpInv.k_le (h : CpInv small A₀ rows₀ n k σ v) : k ≤ n := h.core.k_le

/-- Two columns that are left trade places. -/
theorem CpInv.swap (h : CpInv small A₀ rows₀ n k σ v) (hp : k ≤ p) (hpn : p < n) (hq : k ≤ q)
    (hqn : q < n) : CpInv small A₀ rows₀ n k ((Equiv.swap p q).trans σ) (v.swap n p q) := by
  have hbase : ∀ j, k ≤ j → j ≤ max p q → (v.lazy k n).base n 0 j = k := fun j _ hj =>
    if_pos (show j < n by omega)
  have hcore := h.core.swap (w := 0) hp hq hpn hqn hbase fun hlt => absurd hlt (lt_irrefl n)
  have htags := v.swap_tags_eq n h.rest hp hq
  have hfix : ∀ c < k, Equiv.swap p q c = c := fun c hc =>
    Equiv.swap_apply_of_ne_of_ne (by omega) (by omega)
  -- the entries among the pivots taken so far stay
  have hA : ∀ d e, d < k → e < k → e ≤ d → (v.swap n p q).A d e = v.A d e := by
    intro d e hd he hed
    have hkn := h.k_le
    have := View.swap_A (v := v) (p := p) (q := q) n (show d < n by omega) (show e < n by omega)
    rwa [hfix d hd, hfix e he, symAt_of_le hed, symAt_of_le hed] at this
  refine ⟨hcore.of_eq ?_ ?_ ?_ rfl rfl rfl, fun i hi => ?_, fun i => ?_, fun i => ?_,
    fun c hc => ?_, fun c hc => ?_⟩
  · change (v.swap n p q).A = (Front.swap n p q 0 (v.lazy k n).toFront).F
    unfold View.swap Front.swap
    split_ifs <;> rfl
  · change (v.swap n p q).tags = (Front.swap n p q 0 (v.lazy k n).toFront).tags
    rw [htags, swap_tags]
    rfl
  · change k = (Front.swap n p q 0 (v.lazy k n).toFront).k
    rw [Front.swap_k]
    rfl
  · rw [Equiv.trans_apply, Equiv.swap_apply_of_ne_of_ne (by omega) (by omega)]
    exact h.fixed i hi
  · rw [View.swap_lp, h.lp_eq]
    rfl
  · rw [View.swap_rows, h.rows_eq]
    rfl
  · rw [htags]
    exact h.rest c hc
  · refine (h.picked c hc).congr (by rw [htags]) (by rw [View.swap_chosen, hfix c hc])
      (fun _ => hA c c hc hc le_rfl) fun h2 => ?_
    have hlt := h.core.tagged.pair_lt hc h2
    exact ⟨hA (c + 1) c hlt hc (Nat.le_succ c), hA (c + 1) (c + 1) hlt hlt le_rfl⟩

variable [IsStrictOrderedRing K]

omit [LinearOrder K] [IsStrictOrderedRing K] in
theorem Updates.current (v : View K) (k n : ℕ) :
    Updates n n ⟨false, n, false, 0⟩ (v.lazy k n) :=
  ⟨Or.inr ⟨rfl, rfl⟩, fun hlt => absurd hlt (lt_irrefl n)⟩

omit [IsStrictOrderedRing K] in
/-- The 1x1 pivot at `k`, chosen in the block `b`. -/
theorem CpInv.one (h : CpInv small A₀ rows₀ n k σ v) (hk : k < n) {b : CpBlock K} {a : ℕ}
    (hopen : b.Open small) (hch : b.choice = .one a) (hd : v.A k k = b.A a a) (hne : v.A k k ≠ 0) :
    CpInv small A₀ rows₀ n (k + 1) σ
      { v with
        A := eliminate1x1 v.A n k n
        tags := Function.update v.tags k 1
        chosen := Function.update v.chosen k (some b) } := by
  have hcore := h.core.takeOne hk (if_pos hk) hne (Updates.current v k n)
  have hlow : ∀ d e, d ≤ k → eliminate1x1 v.A n k n d e = v.A d e := fun d e hd =>
    eliminate1x1_other (Or.inr (Or.inl hd))
  refine ⟨hcore.of_eq rfl rfl rfl rfl rfl rfl, h.fixed, h.lp_eq, h.rows_eq, fun c hc => ?_,
    fun c hc => ?_⟩
  · exact (Function.update_of_ne (by omega) _ _).trans (h.rest c (by omega))
  · rcases Nat.lt_or_ge c k with hlt | hge
    · refine (h.picked c hlt).congr (Function.update_of_ne hlt.ne _ _)
        (Function.update_of_ne hlt.ne _ _) (fun _ => hlow c c hlt.le) fun h2 => ?_
      have := h.core.tagged.pair_lt hlt h2
      exact ⟨hlow _ _ this.le, hlow _ _ this.le⟩
    · obtain rfl : c = k := by omega
      refine ⟨fun _ => ⟨b, a, Function.update_self .., hopen, hch, ?_⟩, fun h2 => ?_⟩
      · exact (hlow c c le_rfl).trans hd
      · dsimp only at h2
        rw [Function.update_self] at h2
        omega

/-- The 2x2 pivot at `(k, k + 1)`, chosen in the block `b`. -/
theorem CpInv.two (h : CpInv small A₀ rows₀ n k σ v) (hk : k + 1 < n) {b : CpBlock K} {a e : ℕ}
    (hopen : b.Open small) (hch : b.choice = .two a e) (h00 : v.A k k = b.A a a)
    (h10 : v.A (k + 1) k = b.A e a) (h11 : v.A (k + 1) (k + 1) = b.A e e)
    (hne : pivotDet v.A k (k + 1) ≠ 0) :
    CpInv small A₀ rows₀ n (k + 2) σ
      { v with
        A := eliminate2x2 v.A n k n
        tags := Function.update (Function.update v.tags k 2) (k + 1) (-1)
        chosen := Function.update v.chosen k (some b) } := by
  have hcore := h.core.takeTwo hk (if_pos (show k < n by omega)) (if_pos hk) hne
    (Updates.current v k n)
  -- the pivot rows and what lies above them are not written
  have hlow : ∀ d e, d ≤ k + 1 → eliminate2x2 v.A n k n d e = v.A d e := fun d e hd =>
    eliminate2x2_other (Or.inr (Or.inl hd))
  have htag : ∀ c, c ≠ k → c ≠ k + 1 →
      Function.update (Function.update v.tags k 2) (k + 1) (-1) c = v.tags c := fun c hc hc1 => by
    rw [Function.update_of_ne hc1, Function.update_of_ne hc]
  refine ⟨hcore.of_eq rfl rfl rfl rfl rfl rfl, h.fixed, h.lp_eq, h.rows_eq, fun c hc => ?_,
    fun c hc => ?_⟩
  · exact (htag c (by omega) (by omega)).trans (h.rest c (by omega))
  · rcases Nat.lt_or_ge c k with hlt | hge
    · refine (h.picked c hlt).congr (htag c (by omega) (by omega))
        (Function.update_of_ne hlt.ne _ _) (fun _ => hlow c c (by omega)) fun h2 => ?_
      have := h.core.tagged.pair_lt hlt h2
      have hlt1 : c + 1 < k := this
      exact ⟨hlow _ _ (by omega), hlow _ _ (by omega)⟩
    · rcases Nat.lt_or_ge c (k + 1) with hlt1 | hge1
      · obtain rfl : c = k := by omega
        refine ⟨fun h1 => ?_, fun _ => ⟨b, a, e, Function.update_self .., hopen, hch, ?_, ?_, ?_⟩⟩
        · dsimp only at h1
          rw [Function.update_of_ne (by omega), Function.update_self] at h1
          omega
        · exact (hlow _ _ (by omega)).trans h00
        · exact (hlow _ _ le_rfl).trans h10
        · exact (hlow _ _ le_rfl).trans h11
      · obtain rfl : c = k + 1 := by omega
        exact Picked.of_neg_one (Function.update_self ..)

omit [Field K] [LinearOrder K] [IsStrictOrderedRing K] in
/-- The source brings a 2x2 pivot to the front by two swaps, the trivial ones left out. -/
theorem placeTwo_view (v : View K) (m k a b : ℕ) :
    (let v' := if a ≠ k then v.swap m k a else v
      let partner := if a ≠ k ∧ b = k then a else b
      if partner ≠ k + 1 then v'.swap m (k + 1) partner else v') =
    (v.swap m k a).swap m (k + 1) (partnerAt k a b) := by
  have h1 : (if a ≠ k then v.swap m k a else v) = v.swap m k a := by
    split_ifs with h
    · rfl
    · rw [not_not.mp h, View.swap_self]
  dsimp only
  rw [h1, partnerAt]
  generalize (if a ≠ k ∧ b = k then a else b) = r
  split_ifs with h
  · rfl
  · rw [not_not.mp h, View.swap_self]

/-- One pivot of complete pivoting. -/
theorem CpInv.take (hs : 0 < small) (h : CpInv small A₀ rows₀ n s.ne σ s.toView)
    (hopen : (s.block n).Open small) : ∃ σ',
      CpInv small A₀ rows₀ n (s.take n (s.block n).choice).ne σ'
        (s.take n (s.block n).choice).toView := by
  have huse := ((s.block n).choice_spec hopen).usable hs
  cases hch : (s.block n).choice with
  | one a =>
    rw [hch] at huse
    obtain ⟨ha, han, hne⟩ := huse
    have ha : s.ne ≤ a := ha
    have hk : s.ne < n := hopen.1
    have hswap := h.swap le_rfl hk ha han
    have hd : (s.toView.swap n s.ne a).A s.ne s.ne = s.A a a := by
      have := View.swap_A (v := s.toView) (p := s.ne) (q := a) n hk hk
      rwa [Equiv.swap_apply_left, symAt_self, symAt_self] at this
    exact ⟨_, hswap.one hk hopen hch hd (hd ▸ hne)⟩
  | two a e =>
    rw [hch] at huse
    obtain ⟨ha, hae, hen, hne⟩ := huse
    have ha : s.ne ≤ a := ha
    have hen : e < n := hen
    have hne : s.A a a * s.A e e - s.A e a * s.A e a ≠ 0 := hne
    -- the second swap goes to where the first has left the partner
    have hpb := placed_bounds ha (ha.trans hae.le) hae.ne
    have hfirst := placed_first ha (ha.trans hae.le) hae.ne
    have hsecond := placed_second (k := s.ne) hae.ne
    have hk : s.ne + 1 < n := by omega
    have hswap := (h.swap le_rfl (by omega) ha (by omega)).swap
      (show s.ne ≤ s.ne + 1 by omega) hk (show s.ne ≤ partnerAt s.ne a e by omega) (by omega)
    have hA : ∀ i j, i < n → j < n →
        symAt ((s.toView.swap n s.ne a).swap n (s.ne + 1) (partnerAt s.ne a e)).A i j =
          symAt s.A (placed s.ne a e i) (placed s.ne a e j) := by
      intro i j hi hj
      have hlt : ∀ i < n, Equiv.swap (s.ne + 1) (partnerAt s.ne a e) i < n := fun i hi =>
        (swap_maps ⟨Nat.zero_le _, hk⟩ ⟨Nat.zero_le _, by omega⟩ ⟨Nat.zero_le i, hi⟩).2
      rw [View.swap_A n hi hj, View.swap_A n (hlt i hi) (hlt j hj)]
      rfl
    have h00 := hA s.ne s.ne (by omega) (by omega)
    have h10 := hA (s.ne + 1) s.ne hk (by omega)
    have h11 := hA (s.ne + 1) (s.ne + 1) hk hk
    rw [hfirst, symAt_self, symAt_self] at h00
    rw [hfirst, hsecond, symAt_of_le (Nat.le_succ _), symAt_of_le hae.le] at h10
    rw [hsecond, symAt_self, symAt_self] at h11
    have hdet : pivotDet ((s.toView.swap n s.ne a).swap n (s.ne + 1) (partnerAt s.ne a e)).A s.ne
        (s.ne + 1) ≠ 0 := by
      rw [pivotDet, symAt_of_le (Nat.le_succ _), h00, h10, h11]
      exact hne
    have htake := hswap.two hk hopen hch h00 h10 h11 hdet
    rw [← placeTwo_view] at htake
    exact ⟨_, htake⟩

theorem cpLoop_inv (hs : 0 < small) (inv : WithTop K)
    (h : CpInv small A₀ rows₀ n s.ne σ s.toView) : ∃ σ',
      CpInv small A₀ rows₀ n (cpLoop small inv n s).ne σ' (cpLoop small inv n s).toView := by
  fun_induction cpLoop small inv n s generalizing σ with
  | case1 s hk b hpass =>
    rename_i ih
    obtain ⟨σ', h'⟩ := h.take hs ⟨hk, hpass.1⟩
    exact ih h'
  | case2 s hk b => exact ⟨σ, h⟩
  | case3 s hk => exact ⟨σ, h⟩

/-- `cp_factor` factors its tile. -/
theorem cpFactor_spec (hs : 0 < small) (inv : WithTop K) (n : ℕ) (A₀ : ℕ → ℕ → K)
    (rows₀ : ℕ → ℤ) : ∃ σ, Factored small A₀ rows₀ n σ (cpFactor small inv n A₀ rows₀) := by
  have hstart : CpInv small A₀ rows₀ n ({ View.start A₀ rows₀ with ne := 0 } : Tile K).ne
      (Equiv.refl ℕ) ({ View.start A₀ rows₀ with ne := 0 } : Tile K).toView :=
    CpInv.start small A₀ rows₀ n
  obtain ⟨σ, h⟩ := cpLoop_inv hs inv hstart
  refine ⟨σ, h.fixed, h.lp_eq, h.rows_eq, h.k_le, h.core.tagged, h.rest, h.picked,
    fun i j hi hj => ?_⟩
  exact (h.core.represented rfl hi hj).trans (standsFor_tagged h.core.tagged h.rest i j).symm

end Tiles

end SmfSolver.Kernel
