/-
The growth bound of threshold pivoting.

Outside SPD and in-order mode every pivot that the kernel accepts without force leaves entries of
at most `1 / u` in its columns of `L`, over all rows of the front.  The tests look at the rows of
the moment; later swaps only permute them, and no later update reaches an eliminated column.
-/
import SmfSolver.Kernel.PartialFactor

namespace SmfSolver.Kernel

variable {K : Type*} [Field K] [LinearOrder K]

/-- The columns of the pivots taken from `first` on, forced ones apart, are bounded. -/
structure Grown (prm : LdltKernelParams K) (f numElig first : ℕ) (s : Front K) : Prop where
  first_le : first ≤ s.k
  k_le : s.k ≤ numElig
  whole : ∀ c, first ≤ c → c < s.k → s.tags c = 2 → c + 1 < s.k
  bound : ∀ c i, first ≤ c → c < s.k → s.forced c = none → c < i → i < f →
    ¬ (s.tags c = 2 ∧ i = c + 1) → prm.u * |s.F i c| ≤ 1

section Steps

variable {prm : LdltKernelParams K} {f numElig first : ℕ} {s s' : Front K} {l l' : Lazy K}

/-- A move that permutes the rows from `k` on in the eliminated columns keeps their bound. -/
theorem Grown.of_rows (h : Grown prm f numElig first s) {ρ : ℕ → ℕ} (hk : s'.k = s.k)
    (htags : ∀ c < s.k, s'.tags c = s.tags c) (hforced : ∀ c < s.k, s'.forced c = s.forced c)
    (hfixed : ∀ i < s.k, ρ i = i) (hmoved : ∀ i, s.k ≤ i → i < f → s.k ≤ ρ i ∧ ρ i < f)
    (hcol : ∀ c < s.k, ∀ i, c < i → i < f → s'.F i c = s.F (ρ i) c) :
    Grown prm f numElig first s' := by
  refine ⟨hk ▸ h.first_le, hk ▸ h.k_le, fun c hfc hck hp => ?_,
    fun c i hfc hck hfor hci hif hne => ?_⟩
  · rw [hk] at hck ⊢
    exact h.whole c hfc hck ((htags c hck).symm.trans hp)
  · rw [hk] at hck
    rw [hcol c hck i hci hif]
    rw [hforced c hck] at hfor
    rw [htags c hck] at hne
    rcases Nat.lt_or_ge i s.k with hlt | hge
    · rw [hfixed i hlt]
      exact h.bound c i hfc hck hfor hci hif hne
    · obtain ⟨h1, h2⟩ := hmoved i hge hif
      refine h.bound c _ hfc hck hfor (hck.trans_le h1) h2 fun hc => ?_
      have := h.whole c hfc hck hc.1
      omega

theorem Grown.swap (h : Grown prm f numElig first s) {p q w : ℕ} (hp : s.k ≤ p) (hq : s.k ≤ q)
    (hpf : p < f) (hqf : q < f) : Grown prm f numElig first (s.swap f p q w) := by
  have hmoved : ∀ i, s.k ≤ i → i < f → s.k ≤ Equiv.swap p q i ∧ Equiv.swap p q i < f :=
    fun i hki hif => swap_maps ⟨hp, hpf⟩ ⟨hq, hqf⟩ ⟨hki, hif⟩
  have hfixed : ∀ i < s.k, Equiv.swap p q i = i := fun i hi =>
    Equiv.swap_apply_of_ne_of_ne (by omega) (by omega)
  refine h.of_rows (Front.swap_k f p q w s) (fun c _ => by rw [swap_tags])
    (fun c _ => by rw [swap_forced]) hfixed hmoved fun c hc i hci hif => ?_
  have hle : c ≤ Equiv.swap p q i := by
    rcases Nat.lt_or_ge i s.k with hlt | hge
    · rw [hfixed i hlt]
      exact hci.le
    · exact hc.le.trans (hmoved i hge hif).1
  have := swap_F (p := p) (q := q) (w := w) s hif (hci.trans hif)
  rwa [symAt_of_le hci.le, hfixed c hc, symAt_of_le hle] at this

/-- The columns before `k` are out of reach of a move that leaves them alone. -/
theorem Grown.of_cols (h : Grown prm f numElig first s) (hk : s'.k = s.k)
    (htags : ∀ c < s.k, s'.tags c = s.tags c) (hforced : ∀ c < s.k, s'.forced c = s.forced c)
    (hcol : ∀ c < s.k, ∀ i, c < i → i < f → s'.F i c = s.F i c) :
    Grown prm f numElig first s' :=
  h.of_rows (ρ := id) hk htags hforced (fun _ _ => rfl) (fun _ hi hif => ⟨hi, hif⟩) hcol

/-- A 1x1 pivot adds a bounded column, or a forced one. -/
theorem Grown.takeOne [IsStrictOrderedRing K] (h : Grown prm f numElig first l.toFront)
    {m : PivotMode} (hk : l.k < numElig) (hm : Updates f numElig m l)
    (hnew : l.forced l.k = none → ∀ i, l.k < i → i < f → prm.u * |l.F i l.k| ≤ |l.F l.k l.k|) :
    Grown prm f numElig first (l.toFront.takeOne m f) := by
  refine ⟨h.first_le.trans (Nat.le_succ l.k), hk, fun c hfc (hck : c < l.k + 1) hp => ?_,
    fun c i hfc (hck : c < l.k + 1) hfor hci hif hne => ?_⟩
  · change Function.update l.tags l.k 1 c = 2 at hp
    change c + 1 < l.k + 1
    by_cases hlt : c < l.k
    · rw [Function.update_of_ne hlt.ne] at hp
      have := h.whole c hfc hlt hp
      omega
    · obtain rfl : c = l.k := by omega
      rw [Function.update_self] at hp
      exact absurd hp (by decide)
  · rw [takeOne_F hm hci.le hif]
    by_cases hlt : c < l.k
    · change ¬ (Function.update l.tags l.k 1 c = 2 ∧ i = c + 1) at hne
      rw [Function.update_of_ne hlt.ne] at hne
      rw [eliminate1x1_other (Or.inl hlt)]
      exact h.bound c i hfc hlt hfor hci hif hne
    · obtain rfl : c = l.k := by omega
      have hle := hnew hfor i hci hif
      rw [eliminate1x1_col hci hif, mul_one_div, abs_div, ← mul_div_assoc]
      exact div_le_one_of_le₀ hle (abs_nonneg _)

/-- A 2x2 pivot adds two bounded columns. -/
theorem Grown.takeTwo [IsStrictOrderedRing K] (h : Grown prm f numElig first l.toFront)
    {m : PivotMode} (hk : l.k + 1 < numElig) (hm : Updates f numElig m l)
    (hnew : ∀ i, l.k + 1 < i → i < f →
      prm.u * |(pivotInverse l.F l.k).1 * l.F i l.k + (pivotInverse l.F l.k).2.1 * l.F i
        (l.k + 1)| ≤
          1 ∧
        prm.u * |(pivotInverse l.F l.k).2.1 * l.F i l.k +
          (pivotInverse l.F l.k).2.2 * l.F i (l.k + 1)| ≤ 1) :
    Grown prm f numElig first (l.toFront.takeTwo m f) := by
  have hold : ∀ c < l.k, (l.toFront.takeTwo m f).tags c = l.tags c := fun c hc => by
    change Function.update (Function.update l.tags l.k 2) (l.k + 1) (-1) c = l.tags c
    rw [Function.update_of_ne (by omega), Function.update_of_ne hc.ne]
  have h0 : (l.toFront.takeTwo m f).tags l.k = 2 := by
    change Function.update (Function.update l.tags l.k 2) (l.k + 1) (-1) l.k = 2
    rw [Function.update_of_ne (by omega), Function.update_self]
  have h1 : (l.toFront.takeTwo m f).tags (l.k + 1) = -1 := Function.update_self _ _ _
  refine ⟨h.first_le.trans (Nat.le_add_right l.k 2), hk, fun c hfc (hck : c < l.k + 2) hp => ?_,
    fun c i hfc (hck : c < l.k + 2) hfor hci hif hne => ?_⟩
  · change c + 1 < l.k + 2
    by_cases hlt : c < l.k + 1
    · omega
    · obtain rfl : c = l.k + 1 := by omega
      rw [h1] at hp
      exact absurd hp (by decide)
  · rw [takeTwo_F hm hci.le hif]
    -- an old column, and the two columns of the new pivot
    by_cases hlt : c < l.k
    · rw [hold c hlt] at hne
      rw [eliminate2x2_other (Or.inl hlt)]
      exact h.bound c i hfc hlt hfor hci hif hne
    by_cases hlt1 : c < l.k + 1
    · obtain rfl : c = l.k := by omega
      have hi : l.k + 1 < i := by
        rw [h0] at hne
        omega
      rw [eliminate2x2_col0 hi hif]
      exact (hnew i hi hif).1
    · obtain rfl : c = l.k + 1 := by omega
      rw [eliminate2x2_col1 hci hif]
      exact (hnew i hci hif).2

end Steps

section Growth

variable {prm : LdltKernelParams K} {f numElig first : ℕ} {l l' : Lazy K}
  [IsStrictOrderedRing K]

theorem Grown.step (hth : prm.Threshold) (hu : 0 ≤ prm.u) (hf : numElig ≤ f)
    (h : Grown prm f numElig first l.toFront) (hs : Step prm f numElig first l l') :
    Grown prm f numElig first l'.toFront := by
  cases hs with
  | swap hp hq hpe hqe cur hw => exact h.swap hp hq (by omega) (by omega)
  | @one a m ha hae cur mode nonzero bound =>
    have hk : (l.toFront.swap f l.k a m.wCols).k = l.k := Front.swap_k f l.k a m.wCols l.toFront
    have hmode : Updates f numElig m { l with toFront := l.toFront.swap f l.k a m.wCols } :=
      ⟨mode.reach, fun hpl => ⟨(mode.save hpl).1, by rw [hk]; exact (mode.save hpl).2⟩⟩
    refine (h.swap (w := m.wCols) le_rfl ha (by omega) (by omega)).takeOne (by rw [hk]; omega) hmode
      fun _ i hki hif => ?_
    rw [hk] at hki ⊢
    -- the rows of the placed column are the rows of column `a`
    have hrow : (l.toFront.swap f l.k a m.wCols).F i l.k = symAt l.F (Equiv.swap l.k a i) a := by
      rw [← symAt_of_le (F := Front.F _) hki.le, swap_F _ hif (by omega), Equiv.swap_apply_left]
    have hdiag : (l.toFront.swap f l.k a m.wCols).F l.k l.k = l.F a a := by
      rw [← symAt_self (F := Front.F _), swap_F _ (by omega) (by omega), Equiv.swap_apply_left,
        symAt_self]
    change prm.u * |(l.toFront.swap f l.k a m.wCols).F i l.k| ≤
      |(l.toFront.swap f l.k a m.wCols).F l.k l.k|
    rw [hrow, hdiag]
    by_cases hia : i = a
    · rw [hia, Equiv.swap_apply_right]
      exact bound hth hu l.k le_rfl (by omega) (by omega)
    · rw [Equiv.swap_apply_of_ne_of_ne hki.ne' hia]
      exact bound hth hu i hki.le hif hia
  | @forced a m ha hae cur mode static =>
    have hraise : Grown prm f numElig first (l.toFront.raise a (staticValue prm (l.F a a))) :=
      h.of_cols rfl (fun _ _ => rfl) (fun c hc => Function.update_of_ne hc.ne _ _)
        fun c hc i _ _ => if_neg (by omega)
    have hk : ((l.toFront.raise a (staticValue prm (l.F a a))).swap f l.k a m.wCols).k = l.k :=
      Front.swap_k f l.k a m.wCols _
    have hmode : Updates f numElig m
        { l with
          toFront := (l.toFront.raise a (staticValue prm (l.F a a))).swap f l.k a m.wCols } :=
      ⟨mode.reach, fun hpl => ⟨(mode.save hpl).1, by rw [hk]; exact (mode.save hpl).2⟩⟩
    refine (hraise.swap (w := m.wCols) le_rfl ha (show l.k < f by omega) (by omega)).takeOne
      (by rw [hk]; omega) hmode fun hnone => ?_
    rw [hk, swap_forced] at hnone
    exact absurd hnone (by simp [Front.raise])
  | @two a b m ha hae hb hbe hab cur mode nonzero bound =>
    have hpb := placed_bounds ha hb hab
    have hk : (l.toFront.swap f l.k a m.wCols).k = l.k := Front.swap_k f l.k a m.wCols l.toFront
    have hk2 : (l.toFront.placeTwo f a b m.wCols).k = l.k := Front.placeTwo_k f a b _ l.toFront
    have hplaced : Grown prm f numElig first (l.toFront.placeTwo f a b m.wCols) := by
      rw [placeTwo_eq]
      exact (h.swap le_rfl ha (by omega) (by omega)).swap (by rw [hk]; omega) (by rw [hk]; omega)
        (by omega) (by omega)
    have hmode : Updates f numElig m { l with toFront := l.toFront.placeTwo f a b m.wCols } :=
      ⟨mode.reach, fun hpl => ⟨(mode.save hpl).1, by rw [hk2]; exact (mode.save hpl).2⟩⟩
    refine hplaced.takeTwo (by rw [hk2]; omega) hmode fun i hki hif => ?_
    rw [hk2] at hki ⊢
    obtain ⟨h00, h10, h11⟩ := placeTwo_block (w := m.wCols) ha (by omega) hb
      (show b < f by omega) hab
    have h0 : placed l.k a b l.k = a := placed_first ha hb hab
    have h1 : placed l.k a b (l.k + 1) = b := placed_second hab
    have hinv : pivotInverse (l.toFront.placeTwo f a b m.wCols).F l.k =
        inverse2x2 (l.F a a) (symAt l.F b a) (l.F b b) := by
      rw [pivotInverse, h00, h10, h11]
    have hrow0 : (l.toFront.placeTwo f a b m.wCols).F i l.k = symAt l.F (placed l.k a b i) a := by
      rw [← symAt_of_le (F := Front.F _) (show l.k ≤ i by omega),
        placeTwo_F hif (by omega) ha (by omega) hb (by omega) hab, h0]
    have hrow1 : (l.toFront.placeTwo f a b m.wCols).F i (l.k + 1) =
        symAt l.F (placed l.k a b i) b := by
      rw [← symAt_of_le (F := Front.F _) (show l.k + 1 ≤ i by omega),
        placeTwo_F hif (by omega) ha (by omega) hb (by omega) hab, h1]
    change prm.u * |(pivotInverse (l.toFront.placeTwo f a b m.wCols).F l.k).1 *
        (l.toFront.placeTwo f a b m.wCols).F i l.k +
      (pivotInverse (l.toFront.placeTwo f a b m.wCols).F l.k).2.1 *
        (l.toFront.placeTwo f a b m.wCols).F i (l.k + 1)| ≤ 1 ∧
      prm.u * |(pivotInverse (l.toFront.placeTwo f a b m.wCols).F l.k).2.1 *
        (l.toFront.placeTwo f a b m.wCols).F i l.k +
      (pivotInverse (l.toFront.placeTwo f a b m.wCols).F l.k).2.2 *
        (l.toFront.placeTwo f a b m.wCols).F i (l.k + 1)| ≤ 1
    rw [hinv, hrow0, hrow1]
    obtain ⟨hlow, hhigh⟩ := placed_maps ha (show a < f by omega) hb (show b < f by omega) hab
      ⟨show l.k ≤ i by omega, hif⟩
    refine bound hth hu (placed l.k a b i) hlow hhigh ?_ ?_
    · exact fun hc => by
        have := (placed l.k a b).injective (hc.trans h0.symm)
        omega
    · exact fun hc => by
        have := (placed l.k a b).injective (hc.trans h1.symm)
        omega
  | deferred hpl =>
    exact h.of_cols rfl (fun _ _ => rfl) (fun _ _ => rfl) fun c hc i _ _ => if_neg (by omega)
  | panel hpl hle => exact h
  | schur hpl =>
    have := h.k_le
    exact h.of_cols rfl (fun _ _ => rfl) (fun _ _ => rfl) fun c hc i _ _ =>
      schurUpdate_of_lt (by omega)

theorem Grown.runs (hth : prm.Threshold) (hu : 0 ≤ prm.u) (hf : numElig ≤ f)
    (h : Grown prm f numElig first l.toFront) (hrun : Runs prm f numElig first l l') :
    Grown prm f numElig first l'.toFront := by
  induction hrun with
  | refl => exact h
  | tail _ hstep ih => exact ih.step hth hu hf hstep

end Growth

end SmfSolver.Kernel
