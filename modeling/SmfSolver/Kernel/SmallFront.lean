/-
The small-front kernel against the unblocked loop.

The microkernels run over whole aligned 4-row blocks, so they write rows above the diagonal and
padding rows that the loop on the plain front leaves alone.  No search and no swap reads an entry
above the diagonal or past row `f` (`selectPivot_congr`, `symSwap_congr`), and a padding row
stays zero; `SmallSame` is the relation every pivot keeps.
-/
import SmfSolver.Kernel.LdltKernel

namespace SmfSolver.Kernel

/-- Largest front the small-front kernel takes. -/
def kSmallFrontMax : ℕ := 32

/-- Leading dimension of the small-front layout. -/
def smallFrontLd (f : ℕ) : ℕ :=
  if f ≤ 4 then 4 else if f ≤ 8 then 8 else if f ≤ 16 then 16 else kSmallFrontMax

/-- A padded column fits into the leading dimension. -/
theorem paddedRows_le {f : ℕ} (hf : f ≤ kSmallFrontMax) : paddedRows f ≤ smallFrontLd f := by
  unfold kSmallFrontMax at hf
  unfold paddedRows blockRow smallFrontLd kSmallFrontMax
  split_ifs <;> omega

section Search

variable {K : Type*} [Field K] [LinearOrder K] {prm : LdltKernelParams K} {F P : ℕ → ℕ → K}
  {f k numElig limit cand r : ℕ}

/-- The fronts agree on the lower triangle of the first `f` rows. -/
def SameLower (F P : ℕ → ℕ → K) (f : ℕ) : Prop := ∀ i j, j ≤ i → i < f → P i j = F i j

omit [Field K] in
theorem maxOver_congr {m : K} {l : List ℕ} {v w : ℕ → K} (h : ∀ i ∈ l, v i = w i) :
    maxOver m l v = maxOver m l w := by
  induction l generalizing m with
  | nil => rfl
  | cons a l ih =>
    unfold maxOver at ih ⊢
    rw [List.foldl_cons, List.foldl_cons, h a List.mem_cons_self]
    exact ih fun i hi => h i (List.mem_cons_of_mem a hi)

omit [Field K] in
theorem foldl_visit_congr {l : List ℕ} {v w : ℕ → K} (h : ∀ i ∈ l, v i = w i) (s : Scan K) :
    l.foldl (Scan.visit v) s = l.foldl (Scan.visit w) s := by
  induction l generalizing s with
  | nil => rfl
  | cons a l ih =>
    have hhead : s.visit v a = s.visit w a := by
      unfold Scan.visit
      rw [h a List.mem_cons_self]
    rw [List.foldl_cons, List.foldl_cons, hhead]
    exact ih (fun i hi => h i (List.mem_cons_of_mem a hi)) _

omit [Field K] [LinearOrder K] in
theorem SameLower.symAt (h : SameLower F P f) {i j : ℕ} (hi : i < f) (hj : j < f) :
    symAt P i j = symAt F i j := by
  rcases Nat.le_total j i with hle | hle
  · rw [symAt_of_le hle, symAt_of_le hle, h i j hle hi]
  · rw [symAt_comm P, symAt_comm F, symAt_of_le hle, symAt_of_le hle, h j i hle hj]

theorem scanColumn_congr (h : SameLower F P f) (hn : numElig ≤ f) (hc : cand < f) :
    scanColumn P k numElig cand = scanColumn F k numElig cand := by
  refine foldl_visit_congr (fun i hi => ?_) _
  rw [List.mem_append, mem_positions, mem_positions] at hi
  rw [h.symAt (by omega) hc]

theorem testDiagonal_congr (h : SameLower F P f) (hc : cand < f) (m1 : K) :
    testDiagonal prm P f cand (max numElig (cand + 1)) m1
      = testDiagonal prm F f cand (max numElig (cand + 1)) m1 := by
  have hrow : ∀ i ∈ positions (max numElig (cand + 1)) f, |P i cand| = |F i cand| := by
    intro i hi
    rw [mem_positions] at hi
    rw [h i cand (by omega) hi.2]
  have hall : (∀ i ∈ positions (max numElig (cand + 1)) f, ¬ |F cand cand| < prm.u * |P i cand|) ↔
      ∀ i ∈ positions (max numElig (cand + 1)) f, ¬ |F cand cand| < prm.u * |F i cand| :=
    forall₂_congr fun i hi => by rw [hrow i hi]
  unfold testDiagonal
  dsimp only
  rw [h cand cand le_rfl hc, maxOver_congr hrow]
  simp only [hall]

theorem twoByTwoOk_congr (h : SameLower F P f) (hc : cand < f) (hr : r < f) (m2 off1 : K) :
    twoByTwoOk prm P f cand r m2 off1 (max numElig (cand + 1))
      = twoByTwoOk prm F f cand r m2 off1 (max numElig (cand + 1)) := by
  have hrow : ∀ i ∈ positions (max numElig (cand + 1)) f, |P i cand| = |F i cand| := by
    intro i hi
    rw [mem_positions] at hi
    rw [h i cand (by omega) hi.2]
  unfold twoByTwoOk
  rw [h cand cand le_rfl hc, h r r le_rfl hr, h.symAt hr hc, maxOver_congr hrow]

theorem offMax_congr (h : SameLower F P f) (hr : r < f) : offMax P f k r = offMax F f k r := by
  refine maxOver_congr fun i hi => ?_
  rw [List.mem_append, mem_positions, mem_positions] at hi
  rw [h.symAt (by omega) hr]

theorem offMaxBut_congr (h : SameLower F P f) (hr : r < f) :
    offMaxBut P f k r cand = offMaxBut F f k r cand := by
  refine maxOver_congr fun i hi => ?_
  have hi := (List.mem_filter.mp hi).1
  rw [List.mem_append, mem_positions, mem_positions] at hi
  rw [h.symAt (by omega) hr]

theorem testPair_congr (h : SameLower F P f) (hn : numElig ≤ f) (hc : cand < f) (hr : r < f) :
    testPair prm P f k numElig limit cand r = testPair prm F f k numElig limit cand r := by
  unfold testPair
  rw [scanColumn_congr h hn hc, offMaxBut_congr h hr, twoByTwoOk_congr h hc hr]

theorem partnerPasses_congr (h : SameLower F P f) (hr : r < f) :
    partnerPasses prm P f k r ↔ partnerPasses prm F f k r := by
  unfold partnerPasses
  rw [offMax_congr h hr, h r r le_rfl hr]

theorem tryColumn_congr (h : SameLower F P f) (hn : numElig ≤ f) (hl : limit ≤ f) (hc : cand < f) :
    tryColumn prm P f k numElig limit cand = tryColumn prm F f k numElig limit cand := by
  unfold tryColumn
  dsimp only
  rw [scanColumn_congr h hn hc, testDiagonal_congr h hc]
  -- the partner, when there is one, is a column of the front
  cases hr : partnerOf k limit (scanColumn F k numElig cand) with
  | none => cases testDiagonal prm F f cand _ _ <;> rfl
  | some r =>
    have hrf : r < f := (partnerOf_some hr).2.2.1.trans_le hl
    have hpair : testPair prm P f k numElig limit cand r =
      testPair prm F f k numElig limit cand r :=
      testPair_congr h hn hc hrf
    cases testDiagonal prm F f cand _ _ with
    | strong => rfl
    | weak g =>
      dsimp only
      rw [hpair]
    | fails =>
      dsimp only
      rw [hpair]
      simp only [partnerPasses_congr h hrf]

/-- The pivot search reads the lower triangle only. -/
theorem selectPivot_congr (h : SameLower F P f) (hn : numElig ≤ f) (hl : limit ≤ f) (hk : k < f) :
    selectPivot prm P f k numElig limit = selectPivot prm F f k numElig limit := by
  have hfind : ∀ l : List ℕ, (∀ c ∈ l, c < f) →
      l.findSome? (tryColumn prm P f k numElig limit)
        = l.findSome? (tryColumn prm F f k numElig limit) := by
    intro l hlist
    induction l with
    | nil => rfl
    | cons c l ih =>
      rw [List.findSome?_cons, List.findSome?_cons,
        tryColumn_congr h hn hl (hlist c List.mem_cons_self),
        ih fun c' hc' => hlist c' (List.mem_cons_of_mem c hc')]
  unfold selectPivot
  rw [h k k le_rfl hk, hfind _ fun c hc => (mem_positions.mp hc).2.trans_le hl]

/-- So does the search of the static path. -/
theorem staticBest_congr (h : SameLower F P f) (hn : numElig ≤ f) :
    staticBest prm P f k numElig = staticBest prm F f k numElig := by
  have hfold : ∀ (l : List ℕ) (s : StaticBest K), (∀ c ∈ l, c < f) →
      l.foldl (StaticBest.visit P f k) s = l.foldl (StaticBest.visit F f k) s := by
    intro l
    induction l with
    | nil => exact fun s _ => rfl
    | cons c l ih =>
      intro s hl
      have hhead : s.visit P f k c = s.visit F f k c := by
        unfold StaticBest.visit
        rw [offMax_congr h (hl c List.mem_cons_self), h c c le_rfl (hl c List.mem_cons_self)]
      rw [List.foldl_cons, List.foldl_cons, hhead]
      exact ih _ fun c' hc' => hl c' (List.mem_cons_of_mem c hc')
  refine hfold _ _ fun c hc => ?_
  rw [mem_positions] at hc
  split_ifs at hc <;> omega

end Search

/-! ## The relation -/

section Relation

variable {K : Type*} [Field K] {F P : ℕ → ℕ → K} {f k p q i j : ℕ}

/-- Rows `[f, fe)` of the columns are zero. -/
def ZeroPadding (P : ℕ → ℕ → K) (f : ℕ) : Prop :=
  ∀ i j, f ≤ i → i < paddedRows f → j < f → P i j = 0

/-- `P'` differs from `P` in the padded columns of the front only. -/
def Within (P P' : ℕ → ℕ → K) (f : ℕ) : Prop :=
  ∀ i j, paddedRows f ≤ i ∨ f ≤ j → P' i j = P i j

omit [Field K] in
/-- A swap moves no entry outside the front. -/
theorem symSwap_outside (hp : p < f) (hq : q < f) (h : f ≤ i ∨ f ≤ j) :
    symSwap P f p q i j = P i j := by
  unfold symSwap
  split_ifs with hpq
  · rfl
  · unfold swapLower
    rcases Nat.lt_or_ge p q with hlt | hge
    · rw [min_eq_left hlt.le, max_eq_right hlt.le]
      rw [if_neg (by omega), if_neg (by omega), if_neg (by omega), if_neg (by omega),
        if_neg (by omega), if_neg (by omega), if_neg (by omega), if_neg (by omega)]
    · rw [min_eq_right hge, max_eq_left hge]
      rw [if_neg (by omega), if_neg (by omega), if_neg (by omega), if_neg (by omega),
        if_neg (by omega), if_neg (by omega), if_neg (by omega), if_neg (by omega)]

omit [Field K] in
theorem SameLower.symSwap (h : SameLower F P f) (p q : ℕ) (hp : p < f) (hq : q < f) :
    SameLower (symSwap F f p q) (symSwap P f p q) f := by
  intro i j hji hi
  have hmap : ∀ x < f, Equiv.swap p q x < f := fun x hx =>
    (swap_maps ⟨Nat.zero_le p, hp⟩ ⟨Nat.zero_le q, hq⟩ ⟨Nat.zero_le x, hx⟩).2
  rw [← symAt_of_le (F := Kernel.symSwap P f p q) hji,
    ← symAt_of_le (F := Kernel.symSwap F f p q) hji, symAt_symSwap hi (by omega),
    symAt_symSwap hi (by omega), h.symAt (hmap i hi) (hmap j (by omega))]

theorem smallEliminate1x1_outside (hk : k < f) (h : paddedRows f ≤ i ∨ f ≤ j) :
    smallEliminate1x1 P f k i j = P i j := by
  unfold smallEliminate1x1
  dsimp only
  rw [if_neg (by omega), if_neg (by omega)]

/-- A padding row takes part in the update with zeros. -/
theorem smallEliminate1x1_padding (hk : k < f) (h : ZeroPadding P f) :
    ZeroPadding (smallEliminate1x1 P f k) f := by
  intro i j hi hpad hj
  have hrow : ∀ c < f, P i c = 0 := fun c hc => h i c hi hpad hc
  unfold smallEliminate1x1
  dsimp only
  rw [hrow k hk, hrow j hj, zero_mul, zero_mul, sub_zero, ite_self, ite_self]

/-- On the lower triangle it is `eliminate_1x1` of the whole trailing triangle. -/
theorem SameLower.eliminate1x1 (hk : k < f) (h : SameLower F P f) :
    SameLower (eliminate1x1 F f k f) (smallEliminate1x1 P f k) f := by
  intro i j hji hi
  have hpad := le_paddedRows f
  have hblock := blockRow_le j
  have hkk := h k k le_rfl hk
  unfold smallEliminate1x1 Kernel.eliminate1x1
  dsimp only
  rw [hkk]
  by_cases hcol : j = k ∧ k < i
  · rw [if_pos (by omega), if_pos (by omega), h i k (by omega) hi]
  by_cases hlater : k < j
  · rw [if_neg (by omega), if_pos (by omega), if_neg (by omega), if_pos (by omega),
      h i j hji hi, h i k (by omega) hi, h j k (by omega) (by omega)]
  · rw [if_neg (by omega), if_neg (by omega), if_neg (by omega), if_neg (by omega), h i j hji hi]

variable [LinearOrder K]

theorem smallEliminate2x2_outside (hk : k + 1 < f) (h : paddedRows f ≤ i ∨ f ≤ j) :
    smallEliminate2x2 P f k i j = P i j := by
  unfold smallEliminate2x2
  dsimp only
  rw [if_neg (by omega), if_neg (by omega), if_neg (by omega)]

theorem smallEliminate2x2_padding (hk : k + 1 < f) (h : ZeroPadding P f) :
    ZeroPadding (smallEliminate2x2 P f k) f := by
  intro i j hi hpad hj
  have hrow : ∀ c < f, P i c = 0 := fun c hc => h i c hi hpad hc
  unfold smallEliminate2x2
  dsimp only
  rw [hrow k (by omega), hrow (k + 1) hk, hrow j hj]
  simp only [mul_zero, zero_mul, add_zero, sub_zero, ite_self]

theorem SameLower.pivotInverse (hk : k + 1 < f) (h : SameLower F P f) :
    pivotInverse P k = pivotInverse F k := by
  unfold Kernel.pivotInverse
  rw [h k k le_rfl (by omega), h (k + 1) k (by omega) hk, h (k + 1) (k + 1) le_rfl hk]

theorem SameLower.eliminate2x2 (hk : k + 1 < f) (h : SameLower F P f) :
    SameLower (eliminate2x2 F f k f) (smallEliminate2x2 P f k) f := by
  intro i j hji hi
  have hpad := le_paddedRows f
  have hblock := blockRow_le j
  unfold smallEliminate2x2 Kernel.eliminate2x2
  dsimp only
  rw [h.pivotInverse hk]
  by_cases hcol : j = k ∧ k + 1 < i
  · rw [if_pos (by omega), if_pos (by omega), h i k (by omega) hi, h i (k + 1) (by omega) hi]
  by_cases hcol1 : j = k + 1 ∧ k + 1 < i
  · rw [if_neg (by omega), if_pos (by omega), if_neg (by omega), if_pos (by omega),
      h i k (by omega) hi, h i (k + 1) (by omega) hi]
  by_cases hlater : k + 1 < j
  · rw [if_neg (by omega), if_neg (by omega), if_pos (by omega), if_neg (by omega),
      if_neg (by omega), if_pos (by omega), h i j hji hi, h i k (by omega) hi,
      h i (k + 1) (by omega) hi, h j k (by omega) (by omega), h j (k + 1) (by omega) (by omega)]
  · rw [if_neg (by omega), if_neg (by omega), if_neg (by omega), if_neg (by omega),
      if_neg (by omega), if_neg (by omega), h i j hji hi]

end Relation

/-! ## The loop -/

section Loop

variable {K : Type*} [Field K] [LinearOrder K] {prm : LdltKernelParams K} {f numElig : ℕ}
  {P₀ : ℕ → ℕ → K} {s t : KernelState K}

/-- The small-front kernel in state `s` and the plain loop in state `t`: the same but for the
entries only the microkernels write. -/
structure SmallSame (f : ℕ) (P₀ : ℕ → ℕ → K) (s t : Front K) : Prop where
  same : { s with F := t.F } = t
  lower : SameLower t.F s.F f
  padding : ZeroPadding s.F f
  within : Within P₀ s.F f

omit [LinearOrder K] in
theorem SmallSame.swap {s t : Front K} (h : SmallSame f P₀ s t) {p q : ℕ} (hp : p < f)
    (hq : q < f) : SmallSame f P₀ (s.swap f p q 0) (t.swap f p q 0) := by
  obtain ⟨hsame, hlower, hpad, hwithin⟩ := h
  have hout : ∀ i j, f ≤ i ∨ f ≤ j → symSwap s.F f p q i j = s.F i j :=
    fun i j => symSwap_outside hp hq
  obtain ⟨F, rows, tags, W, k, forced⟩ := t
  obtain ⟨P, rows', tags', W', k', forced'⟩ := s
  obtain ⟨-, rfl, rfl, rfl, rfl, rfl⟩ := Front.mk.inj hsame
  unfold Front.swap
  split_ifs with hpq
  · exact ⟨rfl, hlower, hpad, hwithin⟩
  · refine ⟨rfl, hlower.symSwap p q hp hq, fun i j hi hip hj => ?_, fun i j hij => ?_⟩
    · exact (hout i j (.inl hi)).trans (hpad i j hi hip hj)
    · have hle := le_paddedRows f
      exact (hout i j (by omega)).trans (hwithin i j hij)

/-- How the small-front kernel updates. -/
def smallMode (f : ℕ) : PivotMode := ⟨true, f, false, 0⟩

/-- How the unblocked loop updates. -/
def plainMode (f : ℕ) : PivotMode := ⟨false, f, false, 0⟩

omit [LinearOrder K] in
theorem SmallSame.k_eq {s t : Front K} (h : SmallSame f P₀ s t) : s.k = t.k := by
  rw [← h.same]

omit [LinearOrder K] in
theorem SmallSame.rows_eq {s t : Front K} (h : SmallSame f P₀ s t) : s.rows = t.rows := by
  rw [← h.same]

omit [LinearOrder K] in
theorem SmallSame.tags_eq {s t : Front K} (h : SmallSame f P₀ s t) : s.tags = t.tags := by
  rw [← h.same]

omit [LinearOrder K] in
theorem SmallSame.takeOne {s t : Front K} (h : SmallSame f P₀ s t) (hk : s.k < f) :
    SmallSame f P₀ (s.takeOne (smallMode f) f) (t.takeOne (plainMode f) f) := by
  obtain ⟨hsame, hlower, hpad, hwithin⟩ := h
  obtain ⟨F, rows, tags, W, k, forced⟩ := t
  obtain ⟨P, rows', tags', W', k', forced'⟩ := s
  obtain ⟨-, rfl, rfl, rfl, rfl, rfl⟩ := Front.mk.inj hsame
  exact ⟨rfl, hlower.eliminate1x1 hk, smallEliminate1x1_padding hk hpad,
    fun i j hij => (smallEliminate1x1_outside hk hij).trans (hwithin i j hij)⟩

theorem SmallSame.takeTwo {s t : Front K} (h : SmallSame f P₀ s t) (hk : s.k + 1 < f) :
    SmallSame f P₀ (s.takeTwo (smallMode f) f) (t.takeTwo (plainMode f) f) := by
  obtain ⟨hsame, hlower, hpad, hwithin⟩ := h
  obtain ⟨F, rows, tags, W, k, forced⟩ := t
  obtain ⟨P, rows', tags', W', k', forced'⟩ := s
  obtain ⟨-, rfl, rfl, rfl, rfl, rfl⟩ := Front.mk.inj hsame
  exact ⟨rfl, hlower.eliminate2x2 hk, smallEliminate2x2_padding hk hpad,
    fun i j hij => (smallEliminate2x2_outside hk hij).trans (hwithin i j hij)⟩

omit [LinearOrder K] in
theorem SmallSame.placeTwo {s t : Front K} (h : SmallSame f P₀ s t) {a b : ℕ} (hk : s.k + 1 < f)
    (ha : a < f) (hb : b < f) :
    SmallSame f P₀ (s.placeTwo f a b 0) (t.placeTwo f a b 0) := by
  have hkt := h.k_eq
  unfold Front.placeTwo
  dsimp only
  rw [← hkt]
  have hfirst : SmallSame f P₀ (if a = s.k then s else s.swap f s.k a 0)
      (if a = s.k then t else t.swap f s.k a 0) := by
    split_ifs
    · exact h
    · exact h.swap (by omega) ha
  have hpartner : (if a ≠ s.k ∧ b = s.k then a else b) < f := by
    split_ifs
    · exact ha
    · exact hb
  split_ifs at hfirst hpartner ⊢
  all_goals first | exact hfirst | exact hfirst.swap hk hpartner

omit [LinearOrder K] in
theorem SmallSame.raise {s t : Front K} (h : SmallSame f P₀ s t) {best : ℕ} (hb : best < f)
    (v : K) : SmallSame f P₀ (s.raise best v) (t.raise best v) := by
  have hle := le_paddedRows f
  obtain ⟨hsame, hlower, hpad, hwithin⟩ := h
  have hbest := hlower best best le_rfl hb
  obtain ⟨F, rows, tags, W, k, forced⟩ := t
  obtain ⟨P, rows', tags', W', k', forced'⟩ := s
  obtain ⟨-, rfl, rfl, rfl, rfl, rfl⟩ := Front.mk.inj hsame
  unfold Front.raise
  dsimp only at hbest ⊢
  refine ⟨?_, fun i j hji hi => ?_, fun i j hi hip hj => ?_, fun i j hij => ?_⟩
  · dsimp only
    rw [hbest]
  · exact if_congr Iff.rfl rfl (hlower i j hji hi)
  · dsimp only
    rw [if_neg (by omega)]
    exact hpad i j hi hip hj
  · dsimp only
    rw [if_neg (by omega)]
    exact hwithin i j hij

/-- The columns of the pivot lie in the front, from `k` on. -/
def PivotChoice.Fits (k f : ℕ) : PivotChoice → Prop
  | .one a => k ≤ a ∧ a < f
  | .two a b => k ≤ a ∧ a < f ∧ k ≤ b ∧ b < f ∧ a ≠ b

/-- A pivot, the same on both sides. -/
theorem applyPivot_same {s t : KernelState K} (h : SmallSame f P₀ s.toFront t.toFront)
    (hres : s.res = t.res) {pc : PivotChoice} (z : Bool) (hpc : pc.Fits s.k f) :
    SmallSame f P₀ (applyPivot prm f (smallMode f) z pc s).toFront
        (applyPivot prm f (plainMode f) z pc t).toFront ∧
      (applyPivot prm f (smallMode f) z pc s).res =
        (applyPivot prm f (plainMode f) z pc t).res := by
  have hkt := h.k_eq
  cases pc with
  | one a =>
    obtain ⟨hka, haf⟩ := hpc
    have hswap := h.swap (p := s.k) (by omega) haf
    have hd := hswap.lower s.k s.k le_rfl (by omega)
    unfold applyPivot smallMode plainMode
    dsimp only
    rw [← hkt]
    refine ⟨hswap.takeOne (by rw [Front.swap_k]; omega), ?_⟩
    rw [hd, hres]
  | two a b =>
    obtain ⟨hka, haf, hkb, hbf, hne⟩ := hpc
    have hplace := h.placeTwo (by omega) haf hbf
    have hd0 := hplace.lower s.k s.k le_rfl (by omega)
    have hd1 := hplace.lower (s.k + 1) s.k (by omega) (by omega)
    have hd2 := hplace.lower (s.k + 1) (s.k + 1) le_rfl (by omega)
    unfold applyPivot smallMode plainMode
    dsimp only
    rw [← hkt]
    refine ⟨hplace.takeTwo (by rw [Front.placeTwo_k]; omega), ?_⟩
    rw [hd0, hd1, hd2, hres]

theorem forceStaticPivot_same {s t : KernelState K} (h : SmallSame f P₀ s.toFront t.toFront)
    (hres : s.res = t.res) (hk : s.k < numElig) (hn : numElig ≤ f) :
    SmallSame f P₀ (forceStaticPivot prm f numElig s).toFront
        (forceStaticPivot prm f numElig t).toFront ∧
      (forceStaticPivot prm f numElig s).res = (forceStaticPivot prm f numElig t).res := by
  have hkt := h.k_eq
  have hsame := (@staticBest_congr _ _ _ prm _ _ _ s.k) h.lower hn
  have hbest : (staticBest prm t.F f s.k numElig).best < f := (staticBest_mem hk).2.trans_le hn
  have hd := h.lower _ _ le_rfl hbest
  unfold forceStaticPivot
  dsimp only
  rw [← hkt, hsame, hd, hres]
  exact ⟨h.raise hbest _, rfl⟩

theorem Chosen.fits {F : ℕ → ℕ → K} {k limit : ℕ} {pc : PivotChoice}
    (h : Chosen prm F f k limit pc) (hl : limit ≤ f) : pc.Fits k f := by
  cases pc with
  | one a => exact ⟨h.1, h.2.1.trans_le hl⟩
  | two a b =>
    obtain ⟨hka, hal, hkb, hbl, hne, -⟩ := h
    exact ⟨hka, hal.trans_le hl, hkb, hbl.trans_le hl, hne⟩

variable [IsStrictOrderedRing K]

/-- Both search the same pivot and take it. -/
theorem searchStep_same {s t : KernelState K} (h : SmallSame f P₀ s.toFront t.toFront)
    (hres : s.res = t.res) (hk : s.k < numElig) (hn : numElig ≤ f) :
    (searchStep prm f numElig (smallMode f) s = none ∧
      searchStep prm f numElig (plainMode f) t = none) ∨
    ∃ s' t', searchStep prm f numElig (smallMode f) s = some s' ∧
      searchStep prm f numElig (plainMode f) t = some t' ∧
      SmallSame f P₀ s'.toFront t'.toFront ∧ s'.res = t'.res := by
  have hkt := h.k_eq
  have hselect := (@selectPivot_congr _ _ _ prm _ _ _ s.k) h.lower hn hn (hk.trans_le hn)
  unfold searchStep
  rw [← hkt, hselect]
  cases hpc : selectPivot prm t.F f s.k numElig numElig with
  | some pc =>
    refine .inr ⟨_, _, rfl, rfl, applyPivot_same h hres false ?_⟩
    exact (selectPivot_chosen hk le_rfl hn hpc).fits hn
  | none =>
    dsimp only
    split_ifs
    · refine .inr ⟨_, _, rfl, rfl, ?_⟩
      obtain ⟨hforce, hfres⟩ := (@forceStaticPivot_same _ _ _ prm) h hres hk hn
      have hsame := (@staticBest_congr _ _ _ prm _ _ _ s.k) h.lower hn
      have hmem := (@staticBest_mem _ _ _ prm t.F f) hk
      rw [hsame, h.lower _ _ le_rfl (hmem.2.trans_le hn)]
      exact applyPivot_same hforce hfres _ ⟨hmem.1, hmem.2.trans_le hn⟩
    · exact .inl ⟨rfl, rfl⟩

omit [IsStrictOrderedRing K] in
theorem unblocked_done {m : PivotMode} {s : KernelState K}
    (h : numElig ≤ s.k ∨ searchStep prm f numElig m s = none) :
      unblocked prm f numElig m s = s := by
  rw [unblocked]
  split_ifs with hk
  · split
    · rfl
    · rename_i s' hs
      rw [h.resolve_left (not_le.mpr hk)] at hs
      cases hs
  · rfl

omit [IsStrictOrderedRing K] in
theorem unblocked_next {m : PivotMode} {s s' : KernelState K} (hk : s.k < numElig)
    (h : searchStep prm f numElig m s = some s') :
    unblocked prm f numElig m s = unblocked prm f numElig m s' := by
  rw [unblocked, if_pos hk]
  split
  · rename_i hs
    rw [h] at hs
    cases hs
  · rename_i s'' hs
    rw [h] at hs
    rw [Option.some.inj hs]

/-- The loops go pivot by pivot. -/
theorem unblocked_same {s t : KernelState K} (h : SmallSame f P₀ s.toFront t.toFront)
    (hres : s.res = t.res) (hn : numElig ≤ f) :
    SmallSame f P₀ (unblocked prm f numElig (smallMode f) s).toFront
        (unblocked prm f numElig (plainMode f) t).toFront ∧
      (unblocked prm f numElig (smallMode f) s).res
        = (unblocked prm f numElig (plainMode f) t).res := by
  generalize hm : numElig - s.k = m
  induction m using Nat.strongRecOn generalizing s t with
  | _ m ih =>
    have hkt := h.k_eq
    by_cases hk : s.k < numElig
    · rcases (@searchStep_same _ _ _ prm) h hres hk hn with ⟨hs, ht⟩ | ⟨s', t', hs, ht, h', hres'⟩
      · rw [unblocked_done (.inr hs), unblocked_done (.inr ht)]
        exact ⟨h, hres⟩
      · have hlt := searchStep_k hs
        rw [unblocked_next hk hs, unblocked_next (hkt ▸ hk) ht]
        exact ih _ (by omega) h' hres' rfl
    · rw [unblocked_done (.inl (not_lt.mp hk)), unblocked_done (.inl (hkt ▸ not_lt.mp hk))]
      exact ⟨h, hres⟩

/-- On a front of at most `kSmallFrontMax` rows over zero padding rows, the small-front kernel
returns what the unblocked loop of `ldlt_factor_front` returns on the plain front, with the same
lower triangle; the padding rows stay zero and nothing outside the padded columns is written. -/
theorem small_front_same (prm : LdltKernelParams K) {f numElig : ℕ} (hf : f ≤ kSmallFrontMax)
    (hn : numElig ≤ f) {P F : ℕ → ℕ → K} (hlower : SameLower F P f) (hpad : ZeroPadding P f)
    (rows tags : ℕ → ℤ) (work : ℕ → ℕ → K) :
    let s := ldltFactorSmallFront prm f numElig P rows tags work
    let t := (unblocked prm f numElig (plainMode f) (KernelState.init 0 F rows tags work)).finish
    (f < prm.blockedMinFront ∨ prm.nb ≤ 1 →
        ldltFactorFront prm f numElig 0 F rows tags work = some t) ∧
      s.res = t.res ∧ s.rows = t.rows ∧ s.tags = t.tags ∧ SameLower t.F s.F f ∧
      ZeroPadding s.F f ∧ Within P s.F f ∧ paddedRows f ≤ smallFrontLd f := by
  intro s t
  obtain ⟨hsame, hres⟩ :=
    (@unblocked_same _ _ _ prm _ _ P _ (KernelState.init 0 P rows tags work)
      (KernelState.init 0 F rows tags work))
    ⟨rfl, hlower, hpad, fun _ _ _ => rfl⟩ rfl hn
  refine ⟨fun hsmall => ?_, ?_, hsame.rows_eq, hsame.tags_eq, hsame.lower, hsame.padding,
    hsame.within, paddedRows_le hf⟩
  · unfold ldltFactorFront
    exact congrArg (Option.map KernelState.finish) (dif_pos hsmall)
  · exact congrArg₂ (fun r k => { r with numAccepted := k }) hres hsame.k_eq

/-- A front of order 3 whose layout has a padding row, and entries above the diagonal. -/
theorem small_front_same_three :
    let P : ℕ → ℕ → ℚ := fun i j => if i < 3 then 1 / (i + 2 * j + 1) else 0
    let s := ldltFactorSmallFront defaultParams 3 2 P (fun i => i) (fun _ => 0) fun _ _ => 0
    let t := (unblocked defaultParams 3 2 (plainMode 3)
      (KernelState.init 0 P (fun i => i) (fun _ => 0) fun _ _ => 0)).finish
    (3 < defaultParams.blockedMinFront ∨ defaultParams.nb ≤ 1 →
        ldltFactorFront defaultParams 3 2 0 P (fun i => i) (fun _ => 0) (fun _ _ => 0) = some t) ∧
      s.res = t.res ∧ s.rows = t.rows ∧ s.tags = t.tags ∧ SameLower t.F s.F 3 ∧
      ZeroPadding s.F 3 ∧ Within P s.F 3 ∧ paddedRows 3 ≤ smallFrontLd 3 :=
  small_front_same defaultParams (by decide) (by decide) (fun _ _ _ _ => rfl)
    (fun i j hi _ _ => if_neg (not_lt.mpr hi)) _ _ _

end Loop

end SmfSolver.Kernel
