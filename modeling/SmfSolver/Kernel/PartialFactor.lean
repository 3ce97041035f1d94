/-
`ldlt_factor_front` returns a partial factorization of the symmetrically permuted front.

`represented` is the matrix a front with `k` eliminated columns stands for: `L D Lᵀ` on these
columns plus the stored trailing block.  `StandsBy` says that the front of a run stands for the
input under a permutation of the eligible columns, with the diagonal of each forced static pivot
moved from the value the kernel found there to the value it took.
-/
import SmfSolver.Kernel.LdltRuns

namespace SmfSolver.Kernel

open Finset

variable {K : Type*}

section Placement

variable {s : Front K} {f p q w a b i j : ℕ}

theorem swap_F (s : Front K) (hi : i < f) (hj : j < f) :
    symAt (s.swap f p q w).F i j = symAt s.F (Equiv.swap p q i) (Equiv.swap p q j) := by
  unfold Front.swap
  split_ifs with h
  · rw [h, Equiv.swap_self]
    rfl
  · exact symAt_symSwap hi hj

@[simp] theorem swap_tags (s : Front K) : (s.swap f p q w).tags = s.tags := by
  unfold Front.swap
  split_ifs <;> rfl

@[simp] theorem swap_forced (s : Front K) : (s.swap f p q w).forced = s.forced := by
  unfold Front.swap
  split_ifs <;> rfl

@[simp] theorem swap_same (s : Front K) : s.swap f p p w = s := if_pos rfl

/-- Where the partner of a 2x2 pivot `(a, b)` stands once `a` stands at `k`. -/
def partnerAt (k a b : ℕ) : ℕ := if a ≠ k ∧ b = k then a else b

theorem placeTwo_eq (s : Front K) : s.placeTwo f a b w =
    (s.swap f s.k a w).swap f (s.k + 1) (partnerAt s.k a b) w := by
  unfold Front.placeTwo partnerAt
  dsimp only
  have h1 : (if a = s.k then s else s.swap f s.k a w) = s.swap f s.k a w := by
    split_ifs with h
    · rw [h, swap_same]
    · rfl
  rw [h1]
  split_ifs with h2 h3 h3
  · rw [h3, swap_same]
  · rfl
  · rw [h3, swap_same]
  · rfl

/-- The rows that stand at the positions of a placed 2x2 pivot. -/
def placed (k a b : ℕ) : Equiv.Perm ℕ :=
  (Equiv.swap (k + 1) (partnerAt k a b)).trans (Equiv.swap k a)

theorem placed_bounds {k : ℕ} (ha : k ≤ a) (hb : k ≤ b) (hab : a ≠ b) :
    k + 1 ≤ partnerAt k a b ∧ partnerAt k a b ≤ max a b := by
  unfold partnerAt
  split_ifs <;> omega

theorem placed_first {k : ℕ} (ha : k ≤ a) (hb : k ≤ b) (hab : a ≠ b) : placed k a b k = a := by
  have := placed_bounds ha hb hab
  have hk : Equiv.swap (k + 1) (partnerAt k a b) k = k :=
    Equiv.swap_apply_of_ne_of_ne (by omega) (by omega)
  rw [placed, Equiv.trans_apply, hk, Equiv.swap_apply_left]

theorem placed_second {k : ℕ} (hab : a ≠ b) : placed k a b (k + 1) = b := by
  rw [placed, Equiv.trans_apply, Equiv.swap_apply_left, partnerAt]
  split_ifs with h
  · rw [Equiv.swap_apply_right, h.2]
  · by_cases hak : a = k
    · rw [hak, Equiv.swap_self]
      rfl
    · exact Equiv.swap_apply_of_ne_of_ne (fun hb => h ⟨hak, hb⟩) (Ne.symm hab)

theorem placeTwo_F (hi : i < f) (hj : j < f) (ha : s.k ≤ a) (haf : a < f) (hb : s.k ≤ b)
    (hbf : b < f) (hab : a ≠ b) : symAt (s.placeTwo f a b w).F i j =
      symAt s.F (placed s.k a b i) (placed s.k a b j) := by
  have hpb := placed_bounds ha hb hab
  have hlt : ∀ i < f, Equiv.swap (s.k + 1) (partnerAt s.k a b) i < f := fun i hi =>
    (swap_maps ⟨Nat.zero_le _, by omega⟩ ⟨Nat.zero_le _, by omega⟩ ⟨Nat.zero_le i, hi⟩).2
  rw [placeTwo_eq, swap_F _ hi hj, swap_F _ (hlt i hi) (hlt j hj)]
  rfl

theorem placed_maps {k : ℕ} (ha : k ≤ a) (haf : a < f) (hb : k ≤ b) (hbf : b < f) (hab : a ≠ b)
    (hi : k ≤ i ∧ i < f) : k ≤ placed k a b i ∧ placed k a b i < f := by
  have hpb := placed_bounds ha hb hab
  rw [placed, Equiv.trans_apply]
  exact swap_maps ⟨le_rfl, by omega⟩ ⟨ha, haf⟩
    (swap_maps ⟨by omega, by omega⟩ ⟨by omega, by omega⟩ hi)

/-- The pivot block of a placed 2x2 pivot. -/
theorem placeTwo_block (ha : s.k ≤ a) (haf : a < f) (hb : s.k ≤ b) (hbf : b < f) (hab : a ≠ b) :
    (s.placeTwo f a b w).F s.k s.k = s.F a a ∧
      (s.placeTwo f a b w).F (s.k + 1) s.k = symAt s.F b a ∧
      (s.placeTwo f a b w).F (s.k + 1) (s.k + 1) = s.F b b := by
  have h0 := placed_first ha hb hab
  have h1 := placed_second (k := s.k) hab
  have hk1 : s.k + 1 < f := by omega
  refine ⟨?_, ?_, ?_⟩
  · rw [← symAt_self (F := (s.placeTwo f a b w).F), placeTwo_F (by omega) (by omega) ha haf hb hbf
      hab, h0, symAt_self]
  · rw [← symAt_of_le (F := (s.placeTwo f a b w).F) (Nat.le_succ s.k),
      placeTwo_F hk1 (by omega) ha haf hb hbf hab, h0, h1]
  · rw [← symAt_self (F := (s.placeTwo f a b w).F), placeTwo_F hk1 hk1 ha haf hb hbf hab, h1,
      symAt_self]

end Placement

variable [Field K]

/-- The symmetric matrix that the columns before `k` and the trailing block stand for. -/
def represented (F : ℕ → ℕ → K) (tags : ℕ → ℤ) (k i j : ℕ) : K :=
  (∑ c ∈ range k, ∑ e ∈ range k,
      (ldlOf F tags).l i c * (ldlOf F tags).d c e * (ldlOf F tags).l j e) +
    if k ≤ i ∧ k ≤ j then symAt F i j else 0

/-- What the static path moved the diagonal of pivot `i` by. -/
def Front.shift (s : Front K) (i : ℕ) : K :=
  match s.forced i with
  | some d => s.F i i - d
  | none => 0

theorem shift_of_none {s : Front K} {i : ℕ} (h : s.forced i = none) : s.shift i = 0 := by
  rw [Front.shift, h]

theorem Core.congr {f numElig first : ℕ} {l : Lazy K} {T T' : ℕ → ℕ → K}
    (h : Core T f numElig first l) (heq : ∀ i j, T i j = T' i j) :
    Core T' f numElig first l := by
  rwa [show T' = T from funext fun i => funext fun j => (heq i j).symm]

variable [LinearOrder K]

/-- The front stands for `A` under the permutation `σ` of the eligible columns. -/
structure StandsBy (prm : LdltKernelParams K) (A : ℕ → ℕ → K) (rows tags : ℕ → ℤ)
    (f numElig first : ℕ) (σ : Equiv.Perm ℕ) (l : Lazy K) : Prop where
  fixed : ∀ i, i < first ∨ numElig ≤ i → σ i = i
  rows_eq : ∀ i, l.rows i = rows (σ i)
  tags_eq : ∀ i < first, l.tags i = tags i
  forced : ∀ i d, l.forced i = some d → first ≤ i ∧ i < l.k ∧ l.tags i = 1 ∧
    0 < prm.staticPivot ∧ l.F i i = staticValue prm d
  core : Core (fun i j => A (σ i) (σ j) + if i = j then l.toFront.shift i else 0) f numElig first l

section Invariant

variable {prm : LdltKernelParams K} {A : ℕ → ℕ → K} {rows tags : ℕ → ℤ} {f numElig first : ℕ}
  {σ : Equiv.Perm ℕ} {l l' : Lazy K}

theorem StandsBy.not_forced (h : StandsBy prm A rows tags f numElig first σ l) {i : ℕ}
    (hi : l.k ≤ i) : l.forced i = none := by
  cases hf : l.forced i with
  | none => rfl
  | some d =>
    have := (h.forced i d hf).2.1
    omega

/-- A move that keeps the diagonals of the eliminated columns keeps the shifts. -/
theorem StandsBy.shift_eq (h : StandsBy prm A rows tags f numElig first σ l) {s : Front K}
    (hforced : s.forced = l.forced) (hdiag : ∀ i < l.k, s.F i i = l.F i i) (i : ℕ) :
    s.shift i = l.toFront.shift i := by
  unfold Front.shift
  rw [hforced]
  cases hf : l.forced i with
  | none => rfl
  | some d =>
    dsimp only
    rw [hdiag i (h.forced i d hf).2.1]

theorem StandsBy.swap (h : StandsBy prm A rows tags f numElig first σ l) {p q w : ℕ}
    (hp : l.k ≤ p) (hq : l.k ≤ q) (hpe : p < numElig) (hqe : q < numElig)
    (cur : ∀ j, l.k ≤ j → j ≤ max p q → l.base numElig first j = l.k)
    (hw : l.pl < numElig → w = l.k - l.ps) :
    StandsBy prm A rows tags f numElig first ((Equiv.swap p q).trans σ)
      { l with toFront := l.toFront.swap f p q w } := by
  have hcore := h.core.swap hp hq hpe hqe cur hw
  -- the pivots are before both columns, and so are the forced ones
  have hdiag : ∀ i < l.k, (l.toFront.swap f p q w).F i i = l.F i i := by
    intro i hi
    have hif : i < f := by
      have := h.core.elig_le
      omega
    have := swap_F (p := p) (q := q) (w := w) l.toFront hif hif
    rwa [symAt_self, symAt_self, Equiv.swap_apply_of_ne_of_ne (by omega) (by omega)] at this
  refine ⟨fun i hi => ?_, fun i => ?_, fun i hi => ?_, fun i d hd => ?_, hcore.congr fun i j => ?_⟩
  · have := h.core.first_le
    rw [Equiv.trans_apply, Equiv.swap_apply_of_ne_of_ne (by omega) (by omega)]
    exact h.fixed i hi
  · change (l.toFront.swap f p q w).rows i = _
    rw [swap_rows, h.rows_eq]
    rfl
  · change (l.toFront.swap f p q w).tags i = _
    rw [swap_tags]
    exact h.tags_eq i hi
  · have hd : l.forced i = some d := by
      rw [← swap_forced (f := f) (p := p) (q := q) (w := w) l.toFront]
      exact hd
    obtain ⟨h1, h2, h3, h4, h5⟩ := h.forced i d hd
    refine ⟨h1, ?_, ?_, h4, (hdiag i h2).trans h5⟩
    · change i < (l.toFront.swap f p q w).k
      rwa [Front.swap_k]
    · change (l.toFront.swap f p q w).tags i = 1
      rwa [swap_tags]
  · have hshift := h.shift_eq (s := l.toFront.swap f p q w) (swap_forced _) hdiag
    dsimp only
    rw [Equiv.trans_apply, Equiv.trans_apply]
    refine congrArg (A _ _ + ·) ?_
    by_cases hij : i = j
    · rw [if_pos (congrArg _ hij), if_pos hij, hshift]
      by_cases hip : i = p ∨ i = q
      · -- nothing at `p` and `q` was forced
        have h0 : l.toFront.shift i = 0 := shift_of_none (h.not_forced (by omega))
        rw [h0]
        refine shift_of_none (h.not_forced ?_)
        rcases hip with rfl | rfl
        · rwa [Equiv.swap_apply_left]
        · rwa [Equiv.swap_apply_right]
      · rw [Equiv.swap_apply_of_ne_of_ne (by omega) (by omega)]
    · rw [if_neg (fun hc => hij ((Equiv.swap p q).injective hc)), if_neg hij]

/-- A move that keeps the eliminated columns stands for the same matrix. -/
theorem StandsBy.of_core (h : StandsBy prm A rows tags f numElig first σ l)
    (hcore : Core (fun i j => A (σ i) (σ j) + if i = j then l.toFront.shift i else 0) f numElig
      first l')
    (hrows : l'.rows = l.rows) (hforced : l'.forced = l.forced) (hk : l.k ≤ l'.k)
    (hdiag : ∀ i < l.k, l'.F i i = l.F i i) (htags : ∀ i < l.k, l'.tags i = l.tags i) :
    StandsBy prm A rows tags f numElig first σ l' := by
  refine ⟨h.fixed, fun i => ?_, fun i hi => ?_, fun i d hd => ?_, hcore.congr fun i j => ?_⟩
  · rw [hrows, h.rows_eq]
  · rw [htags i (hi.trans_le h.core.first_le), h.tags_eq i hi]
  · rw [hforced] at hd
    obtain ⟨h1, h2, h3, h4, h5⟩ := h.forced i d hd
    exact ⟨h1, h2.trans_le hk, (htags i h2).trans h3, h4, (hdiag i h2).trans h5⟩
  · rw [h.shift_eq hforced hdiag i]

theorem StandsBy.takeOne (h : StandsBy prm A rows tags f numElig first σ l) {m : PivotMode}
    (hk : l.k < numElig) (hbase : l.base numElig first l.k = l.k) (hd : l.F l.k l.k ≠ 0)
    (hm : Updates f numElig m l) :
    StandsBy prm A rows tags f numElig first σ { l with toFront := l.toFront.takeOne m f } := by
  refine h.of_core (h.core.takeOne hk hbase hd hm) rfl rfl (Nat.le_succ l.k) (fun i hi => ?_)
    fun i hi => Function.update_of_ne hi.ne _ _
  have := h.core.elig_le
  change (l.toFront.takeOne m f).F i i = l.F i i
  rw [takeOne_F hm le_rfl (by omega), eliminate1x1_other (Or.inl hi)]

theorem StandsBy.takeTwo [IsStrictOrderedRing K]
    (h : StandsBy prm A rows tags f numElig first σ l) {m : PivotMode} (hk : l.k + 1 < numElig)
    (hbase : l.base numElig first l.k = l.k) (hbase1 : l.base numElig first (l.k + 1) = l.k)
    (hd : pivotDet l.F l.k (l.k + 1) ≠ 0) (hm : Updates f numElig m l) :
    StandsBy prm A rows tags f numElig first σ { l with toFront := l.toFront.takeTwo m f } := by
  refine h.of_core (h.core.takeTwo hk hbase hbase1 hd hm) rfl rfl (Nat.le_add_right l.k 2)
    (fun i hi => ?_) fun i hi => ?_
  · have := h.core.elig_le
    change (l.toFront.takeTwo m f).F i i = l.F i i
    rw [takeTwo_F hm le_rfl (by omega), eliminate2x2_other (Or.inl hi)]
  · change Function.update (Function.update l.tags l.k 2) (l.k + 1) (-1) i = l.tags i
    rw [Function.update_of_ne (by omega), Function.update_of_ne hi.ne]

/-- A forced pivot: its diagonal moves in the front and in the matrix the front stands for. -/
theorem StandsBy.force (h : StandsBy prm A rows tags f numElig first σ l) {a : ℕ} {m : PivotMode}
    (ha : l.k ≤ a) (hae : a < numElig) (cur : ∀ j, l.k ≤ j → j ≤ a → l.base numElig first j = l.k)
    (mode : Updates f numElig m l) (static : 0 < prm.staticPivot)
    (hv : staticValue prm (l.F a a) ≠ 0) :
    StandsBy prm A rows tags f numElig first ((Equiv.swap l.k a).trans σ)
      { l with
        toFront :=
          ((l.toFront.raise a (staticValue prm (l.F a a))).swap f l.k a m.wCols).takeOne m f } := by
  have helig := h.core.elig_le
  have hk : l.k < numElig := ha.trans_lt hae
  generalize hveq : staticValue prm (l.F a a) = v at hv ⊢
  obtain ⟨s, hs⟩ : ∃ s, s = (l.toFront.raise a v).swap f l.k a m.wCols := ⟨_, rfl⟩
  rw [← hs]
  have hsk : s.k = l.k := by
    rw [hs, Front.swap_k]
    rfl
  have hsF : ∀ i, i < f → s.F i i = (l.toFront.raise a v).F (Equiv.swap l.k a i)
      (Equiv.swap l.k a i) := by
    intro i hi
    rw [hs, ← symAt_self (F := Front.F _), swap_F _ hi hi, symAt_self]
  have hpivot : s.F l.k l.k = v := by
    rw [hsF l.k (by omega), Equiv.swap_apply_left]
    exact if_pos ⟨rfl, rfl⟩
  have hlow : ∀ i < l.k, s.F i i = l.F i i := by
    intro i hi
    rw [hsF i (by omega), Equiv.swap_apply_of_ne_of_ne (by omega) (by omega)]
    exact if_neg (by omega)
  have hraise := h.core.raise v ha
  have hswap := hraise.swap (w := m.wCols) le_rfl ha hk hae
    (fun j (hkj : l.k ≤ j) (hj : j ≤ max l.k a) => cur j hkj (by omega))
    fun hpl => (mode.save hpl).2
  change Core _ f numElig first
    { l with toFront := (l.toFront.raise a v).swap f l.k a m.wCols } at hswap
  rw [← hs] at hswap
  have hmode : Updates f numElig m { l with toFront := s } :=
    ⟨mode.reach, fun hpl => ⟨(mode.save hpl).1, by rw [hsk]; exact (mode.save hpl).2⟩⟩
  have hbase : Lazy.base numElig first { l with toFront := s } s.k = s.k := by
    have := cur l.k le_rfl ha
    unfold Lazy.base at this ⊢
    rw [hsk]
    exact this
  have htake := hswap.takeOne (show s.k < numElig by omega) hbase
    (show s.F s.k s.k ≠ 0 by rwa [hsk, hpivot]) hmode
  -- the eliminated columns of the new front
  have hdiag : ∀ i ≤ l.k, (s.takeOne m f).F i i = s.F i i := by
    intro i hi
    rw [takeOne_F (l := { l with toFront := s }) hmode le_rfl (by omega)]
    exact eliminate1x1_other (Or.inr (Or.inl (by rw [hsk]; exact hi)))
  have hforced : s.forced = Function.update l.forced l.k (some (l.F a a)) := by
    rw [hs, swap_forced]
    rfl
  have htags : ∀ i, s.tags i = l.tags i := by
    intro i
    rw [hs, swap_tags]
    rfl
  refine ⟨fun i hi => ?_, fun i => ?_, fun i hi => ?_, fun i d hd => ?_, htake.congr fun i j => ?_⟩
  · have := h.core.first_le
    rw [Equiv.trans_apply, Equiv.swap_apply_of_ne_of_ne (by omega) (by omega)]
    exact h.fixed i hi
  · change s.rows i = _
    rw [hs, swap_rows]
    exact h.rows_eq _
  · have := h.core.first_le
    change Function.update s.tags s.k 1 i = tags i
    rw [Function.update_of_ne (by omega), htags, h.tags_eq i hi]
  · change s.forced i = some d at hd
    change first ≤ i ∧ i < s.k + 1 ∧ Function.update s.tags s.k 1 i = 1 ∧ 0 < prm.staticPivot ∧
      (s.takeOne m f).F i i = staticValue prm d
    rw [hforced] at hd
    rw [hsk]
    by_cases hik : i = l.k
    · rw [hik, Function.update_self] at hd
      obtain rfl := Option.some.inj hd
      rw [hik, Function.update_self, hdiag l.k le_rfl, hpivot, hveq]
      exact ⟨h.core.first_le, Nat.lt_succ_self _, rfl, static, rfl⟩
    · rw [Function.update_of_ne hik] at hd
      obtain ⟨h1, h2, h3, -, h5⟩ := h.forced i d hd
      rw [Function.update_of_ne hik, htags, hdiag i h2.le, hlow i h2]
      exact ⟨h1, by omega, h3, static, h5⟩
  · change A (σ (Equiv.swap l.k a i)) (σ (Equiv.swap l.k a j)) +
        (if Equiv.swap l.k a i = Equiv.swap l.k a j then l.toFront.shift (Equiv.swap l.k a i)
          else 0) +
        (if Equiv.swap l.k a i = a ∧ Equiv.swap l.k a j = a then v - l.F a a else 0) =
      A (σ (Equiv.swap l.k a i)) (σ (Equiv.swap l.k a j)) +
        if i = j then (s.takeOne m f).shift i else 0
    rw [add_assoc]
    refine congrArg (A _ _ + ·) ?_
    by_cases hij : i = j
    swap
    · have hne : Equiv.swap l.k a i ≠ Equiv.swap l.k a j := fun hc =>
        hij ((Equiv.swap l.k a).injective hc)
      rw [if_neg hne, if_neg hij, if_neg fun hc => hne (hc.1.trans hc.2.symm), add_zero]
    subst hij
    rw [if_pos rfl, if_pos rfl]
    simp only [and_self]
    have hshift : (s.takeOne m f).shift i =
        match s.forced i with
        | some d => (s.takeOne m f).F i i - d
        | none => 0 := rfl
    rw [hshift, hforced]
    by_cases hik : i = l.k
    · -- the forced pivot
      rw [hik, Function.update_self, Equiv.swap_apply_left, if_pos rfl,
        shift_of_none (h.not_forced ha), zero_add]
      dsimp only
      rw [hdiag l.k le_rfl, hpivot]
    have hia : Equiv.swap l.k a i ≠ a := fun hc =>
      hik ((Equiv.swap l.k a).injective (hc.trans (Equiv.swap_apply_left l.k a).symm))
    rw [Function.update_of_ne hik, if_neg hia, add_zero]
    rcases Nat.lt_or_ge i l.k with hlt | hge
    · rw [Equiv.swap_apply_of_ne_of_ne hik (by omega), Front.shift]
      cases l.forced i with
      | none => rfl
      | some d =>
        dsimp only
        rw [hdiag i hlt.le, hlow i hlt]
    · rw [h.not_forced hge, shift_of_none (h.not_forced ?_)]
      by_cases hia' : i = a
      · rw [hia', Equiv.swap_apply_right]
      · rwa [Equiv.swap_apply_of_ne_of_ne hik hia']

variable [IsStrictOrderedRing K]

/-- Every step keeps the front standing for the input, some columns permuted. -/
theorem StandsBy.step (hz : prm.Zeros) (h : StandsBy prm A rows tags f numElig first σ l)
    (hs : Step prm f numElig first l l') :
    ∃ σ', StandsBy prm A rows tags f numElig first σ' l' := by
  have helig := h.core.elig_le
  cases hs with
  | swap hp hq hpe hqe cur hw => exact ⟨_, h.swap hp hq hpe hqe cur hw⟩
  -- the column is swapped into place first, and is then eliminated there
  | @one a m ha hae cur mode nonzero bound =>
    have hswap := h.swap le_rfl ha (by omega) hae (fun j hkj hj => cur j hkj (by omega))
      fun hpl => (mode.save hpl).2
    have hk : (l.toFront.swap f l.k a m.wCols).k = l.k := Front.swap_k f l.k a m.wCols l.toFront
    refine ⟨_, hswap.takeOne (by rw [hk]; omega) ?_ ?_ ?_⟩
    · have := cur l.k le_rfl ha
      unfold Lazy.base at this ⊢
      rw [hk]
      exact this
    · change (l.toFront.swap f l.k a m.wCols).F _ _ ≠ 0
      rw [hk, ← symAt_self (F := Front.F _), swap_F _ (by omega) (by omega),
        Equiv.swap_apply_left, symAt_self]
      exact nonzero hz
    · exact ⟨mode.reach, fun hpl => ⟨(mode.save hpl).1, by rw [hk]; exact (mode.save hpl).2⟩⟩
  | forced ha hae cur mode static =>
    exact ⟨_, h.force ha hae cur mode static (staticValue_ne_zero static)⟩
  | @two a b m ha hae hb hbe hab cur mode nonzero bound =>
    have hpb := placed_bounds ha hb hab
    have hswap := h.swap le_rfl ha (by omega) hae (fun j hkj hj => cur j hkj (by omega))
      fun hpl => (mode.save hpl).2
    have hk : (l.toFront.swap f l.k a m.wCols).k = l.k := Front.swap_k f l.k a m.wCols l.toFront
    have hbase : ∀ s : Front K, s.k = l.k → ∀ j, l.k ≤ j → j ≤ max a b →
        Lazy.base numElig first { l with toFront := s } j = l.k := by
      intro s hsk j hkj hj
      have := cur j hkj hj
      unfold Lazy.base at this ⊢
      rw [hsk]
      exact this
    -- the partner may have moved with the first swap
    have hswap2 := hswap.swap (p := l.k + 1) (q := partnerAt l.k a b) (w := m.wCols)
      (by rw [hk]; omega) (by rw [hk]; omega) (by omega) (by omega)
      (fun j hkj hj => by
        rw [hk] at hkj ⊢
        exact hbase _ hk j hkj (by omega))
      fun hpl => by rw [hk]; exact (mode.save hpl).2
    have hplace : l.toFront.placeTwo f a b m.wCols =
        (l.toFront.swap f l.k a m.wCols).swap f (l.k + 1) (partnerAt l.k a b) m.wCols :=
      placeTwo_eq l.toFront
    have hk2 : (l.toFront.placeTwo f a b m.wCols).k = l.k := Front.placeTwo_k f a b _ l.toFront
    change StandsBy prm A rows tags f numElig first _
      { l with
        toFront :=
          (l.toFront.swap f l.k a m.wCols).swap f (l.k + 1) (partnerAt l.k a b) m.wCols } at hswap2
    rw [← hplace] at hswap2
    obtain ⟨h00, h10, h11⟩ := placeTwo_block (w := m.wCols) ha (by omega) hb
      (show b < f by omega) hab
    refine ⟨_, hswap2.takeTwo (by rw [hk2]; omega) ?_ ?_ ?_ ?_⟩
    · rw [hbase _ hk2 _ (by rw [hk2]) (by rw [hk2]; omega), hk2]
    · rw [hbase _ hk2 _ (by rw [hk2]; omega) (by rw [hk2]; omega), hk2]
    · change pivotDet (l.toFront.placeTwo f a b m.wCols).F _ _ ≠ 0
      rw [hk2, pivotDet, symAt_of_le (Nat.le_succ l.k), h00, h10, h11]
      exact nonzero hz
    · exact ⟨mode.reach, fun hpl => ⟨(mode.save hpl).1, by rw [hk2]; exact (mode.save hpl).2⟩⟩
  -- what is left changes no pivot: only where the updates are applied to
  | deferred hpl =>
    refine ⟨σ, h.of_core (h.core.deferred hpl) rfl rfl le_rfl (fun i hi => ?_) fun _ _ => rfl⟩
    exact if_neg (by omega)
  | panel hpl hle =>
    exact ⟨σ, h.of_core (h.core.panel hpl hle) rfl rfl le_rfl (fun _ _ => rfl) fun _ _ => rfl⟩
  | schur hpl =>
    refine ⟨σ, h.of_core (h.core.schur hpl) rfl rfl le_rfl (fun i hi => ?_) fun _ _ => rfl⟩
    have := h.core.k_le
    exact schurUpdate_of_lt (by omega)

theorem StandsBy.runs (hz : prm.Zeros) (h : StandsBy prm A rows tags f numElig first σ l)
    (hrun : Runs prm f numElig first l l') :
    ∃ σ', StandsBy prm A rows tags f numElig first σ' l' := by
  induction hrun with
  | refl => exact ⟨σ, h⟩
  | tail _ hstep ih =>
    obtain ⟨σ', h'⟩ := ih
    exact h'.step hz hstep

end Invariant

section Factorization

variable {prm : LdltKernelParams K} {f numElig first k i j : ℕ} {F : ℕ → ℕ → K} {rows tags : ℕ → ℤ}
  {work : ℕ → ℕ → K}

omit [LinearOrder K] in
theorem represented_eq (ht : Tagged tags k) (i j : ℕ) : represented F tags k i j =
    (ldlOf F tags).product k i j + if k ≤ i ∧ k ≤ j then symAt F i j else 0 := by
  rw [represented, BlockLdl.product_eq_sum ht.whole]

omit [LinearOrder K] in
theorem represented_comm (ht : Tagged tags k) (i j : ℕ) :
    represented F tags k i j = represented F tags k j i := by
  rw [represented_eq ht, represented_eq ht, BlockLdl.product_symm ht.whole, symAt_comm]
  exact congrArg (_ + ·) (if_congr and_comm rfl rfl)

/-- At the start the front stands for its own partial factorization. -/
theorem standsBy_init (ht : Tagged tags first) (hfirst : first ≤ numElig) (hf : numElig ≤ f)
    {pl : ℕ} (hpl : pl = f ∨ pl = numElig) :
    StandsBy prm (represented F tags first) rows tags f numElig first (Equiv.refl ℕ)
      ((KernelState.init first F rows tags work).lazy pl first) := by
  refine ⟨fun _ _ => rfl, fun _ => rfl, fun _ _ => rfl, nofun, ?_⟩
  have hshift : ∀ i,
    ((KernelState.init first F rows tags work).lazy pl first).toFront.shift i = 0 :=
    fun i => rfl
  have hcore : Core (represented F tags first) f numElig first
      ((KernelState.init first F rows tags work).lazy pl first) := by
    refine ⟨represented_comm ht, ht, ht, le_rfl, le_rfl, hfirst, hf,
      fun i j hj hji hi => ?_, fun i j hj hji hi => ?_, fun hlt => ?_⟩
    · have hj : j < first := hj
      rw [represented_eq ht, if_neg (by omega), add_zero]
      rfl
    · have hj : first ≤ j := hj
      have hbase : ((KernelState.init first F rows tags work).lazy pl first).base numElig first j =
          first := by
        unfold Lazy.base
        exact (if_congr Iff.rfl rfl (ite_self _)).trans (ite_self _)
      rw [represented_eq ht, if_pos ⟨hj.trans hji, hj⟩, hbase, symAt_of_le hji]
      rfl
    · have hlt : pl < numElig := hlt
      omega
  refine hcore.congr fun i j => ?_
  rw [hshift, ite_self, add_zero]
  rfl

omit [LinearOrder K] in
/-- With every column current the front stands for the matrix it stores. -/
theorem Core.represented {T : ℕ → ℕ → K} {l : Lazy K} (h : Core T f numElig first l)
    (hpl : l.pl = f) (hi : i < f) (hj : j < f) :
    T i j = Kernel.represented l.F l.tags l.k i j := by
  have hle : ∀ i j, j ≤ i → i < f → T i j = Kernel.represented l.F l.tags l.k i j := by
    intro i j hji hi
    rw [represented_eq h.tagged]
    rcases Nat.lt_or_ge j l.k with hlt | hge
    · rw [if_neg (show ¬ (l.k ≤ i ∧ l.k ≤ j) by omega), add_zero]
      exact h.done i j hlt hji hi
    · have hlive := h.live i j hge hji hi
      have hbase : l.base numElig first j = l.k := if_pos (by omega)
      rw [hbase] at hlive
      rw [if_pos (show l.k ≤ i ∧ l.k ≤ j from ⟨hge.trans hji, hge⟩), symAt_of_le hji]
      exact hlive
  rcases Nat.le_total j i with hji | hij
  · exact hle i j hji hi
  · rw [represented_comm h.tagged, ← hle j i hij hj]
    exact h.symm i j

variable [IsStrictOrderedRing K]

/-- `ldlt_factor_front` returns, for every front, every `first` and every setting: the symmetric
permutation of the eligible columns that reordered `rows` turns what the input stands for, each
forced pivot's diagonal moved to the value it was taken with, into `L D Lᵀ` on the accepted
columns plus the stored trailing block. -/
theorem ldltFactorFront_factors (hz : prm.Zeros) (hfirst : first ≤ numElig) (hf : numElig ≤ f)
    (ht : Tagged tags first) (F : ℕ → ℕ → K) (rows : ℕ → ℤ) (work : ℕ → ℕ → K) :
    ∃ out, ldltFactorFront prm f numElig first F rows tags work = some out ∧
      out.res.numAccepted = out.k ∧ first ≤ out.k ∧ out.k ≤ numElig ∧
      Tagged out.tags out.k ∧ (∀ c < first, out.tags c = tags c) ∧
      (∀ i d, out.forced i = some d → first ≤ i ∧ i < out.k ∧ out.tags i = 1 ∧
        0 < prm.staticPivot ∧ out.F i i = staticValue prm d) ∧
      ∃ σ : Equiv.Perm ℕ, (∀ i, i < first ∨ numElig ≤ i → σ i = i) ∧
        (∀ i, out.rows i = rows (σ i)) ∧
        ∀ i j, i < f → j < f →
          represented F tags first (σ i) (σ j) + (if i = j then out.toFront.shift i else 0) =
            represented out.F out.tags out.k i j := by
  obtain ⟨out, pl, ps, hout, hnum, hpl, hrun⟩ := ldltFactorFront_runs hf F rows tags work
  obtain ⟨σ, h⟩ := (standsBy_init ht hfirst hf hpl).runs hz hrun.runs
  exact ⟨out, hout, hnum, h.core.first_le, h.core.k_le, h.core.tagged, h.tags_eq, h.forced, σ,
    h.fixed, h.rows_eq, fun i j hi hj => h.core.represented rfl hi hj⟩

/-- The exchange matrix, whose diagonals are all zero, with the default parameters. -/
theorem ldltFactorFront_factors_exchange :
    ∃ out, ldltFactorFront defaultParams 2 2 0 (fun i j => if i = j then 0 else 1)
        (fun i => i) (fun _ => 0) (fun _ _ => 0) = some out ∧
      out.res.numAccepted = out.k ∧ 0 ≤ out.k ∧ out.k ≤ 2 ∧
      Tagged out.tags out.k ∧ (∀ c < 0, out.tags c = 0) ∧
      (∀ i d, out.forced i = some d → 0 ≤ i ∧ i < out.k ∧ out.tags i = 1 ∧
        0 < defaultParams.staticPivot ∧ out.F i i = staticValue defaultParams d) ∧
      ∃ σ : Equiv.Perm ℕ, (∀ i, i < 0 ∨ 2 ≤ i → σ i = i) ∧ (∀ i, out.rows i = (σ i : ℕ)) ∧
        ∀ i j, i < 2 → j < 2 →
          represented (fun i j => if i = j then 0 else 1) (fun _ => 0) 0 (σ i) (σ j) +
              (if i = j then out.toFront.shift i else 0) =
            represented out.F out.tags out.k i j :=
  ldltFactorFront_factors ⟨fun _ _ => by norm_num [defaultParams], by norm_num [defaultParams]⟩
    (Nat.zero_le 2) le_rfl nofun _ _ _

end Factorization

end SmfSolver.Kernel
