/-
`sym_swap` (`ldlt_kernel.cpp`) and `view_swap` (`ldlt_aptp.cpp`) on the memory of a front.

Entry `(i, j)` of the lower triangle is the cell `j * ld + i`.  Both functions exchange the two
diagonal entries, the rows in the columns left of `p`, column `p` against row `q` between them,
and the two columns below `q`, one `std::swap` a pair of cells.  The kernels' models exchange the
same entries at once (`symSwap`); here the loops are shown to do so, and to leave every other
cell alone.
-/
import SmfSolver.Kernel.AptpFront

namespace SmfSolver.Kernel

/-! ## 1. Loops of exchanges -/

section Exchange

variable {K : Type*}

/-- `std::swap` of two cells. -/
def swapCells (x y : ℕ) (a : ℕ → K) : ℕ → K := fun t => a (Equiv.swap x y t)

/-- The loop that exchanges the cells `x m` and `y m`. -/
def swapLoop (x y : ℕ → ℕ) (l : List ℕ) (a : ℕ → K) : ℕ → K :=
  l.foldl (fun a m => swapCells (x m) (y m) a) a

variable {x y : ℕ → ℕ} {l : List ℕ} {a : ℕ → K} {t : ℕ}

theorem swapLoop_of_ne (h : ∀ m ∈ l, t ≠ x m ∧ t ≠ y m) : swapLoop x y l a t = a t := by
  induction l generalizing a with
  | nil => rfl
  | cons m l ih =>
    obtain ⟨hx, hy⟩ := h m List.mem_cons_self
    change swapLoop x y l (swapCells (x m) (y m) a) t = a t
    rw [ih fun m' hm' => h m' (List.mem_cons_of_mem m hm')]
    exact congrArg a (Equiv.swap_apply_of_ne_of_ne hx hy)

/-- The pairs of cells of a loop are disjoint. -/
structure PairsApart (x y : ℕ → ℕ) (l : List ℕ) : Prop where
  nodup : l.Nodup
  left : ∀ m ∈ l, ∀ n ∈ l, x m = x n → m = n
  right : ∀ m ∈ l, ∀ n ∈ l, y m = y n → m = n
  cross : ∀ m ∈ l, ∀ n ∈ l, x m ≠ y n

theorem swapLoop_mem (h : PairsApart x y l) {m : ℕ} (hm : m ∈ l) :
    swapLoop x y l a (x m) = a (y m) ∧ swapLoop x y l a (y m) = a (x m) := by
  -- on the pairs still to be exchanged
  induction l generalizing a with
  | nil => cases hm
  | cons n l ih =>
    have hn := h.nodup
    rw [List.nodup_cons] at hn
    have htail : PairsApart x y l :=
      ⟨hn.2, fun m hm m' hm' => h.left m (List.mem_cons_of_mem n hm) m'
        (List.mem_cons_of_mem n hm'),
        fun m hm m' hm' => h.right m (List.mem_cons_of_mem n hm) m' (List.mem_cons_of_mem n hm'),
        fun m hm m' hm' => h.cross m (List.mem_cons_of_mem n hm) m' (List.mem_cons_of_mem n hm')⟩
    change swapLoop x y l (swapCells (x n) (y n) a) (x m) = a (y m) ∧
      swapLoop x y l (swapCells (x n) (y n) a) (y m) = a (x m)
    by_cases hmn : m = n
    · -- the pair is exchanged here, and no later pair touches it
      subst hmn
      have hne : ∀ m' ∈ l, x m ≠ x m' ∧ x m ≠ y m' ∧ y m ≠ x m' ∧ y m ≠ y m' := by
        intro m' hm'
        have hmem := List.mem_cons_of_mem m hm'
        have hmm : m ≠ m' := fun he => hn.1 (he ▸ hm')
        exact ⟨fun he => hmm (h.left m hm m' hmem he), h.cross m hm m' hmem,
          fun he => h.cross m' hmem m hm he.symm, fun he => hmm (h.right m hm m' hmem he)⟩
      rw [swapLoop_of_ne fun m' hm' => ⟨(hne m' hm').1, (hne m' hm').2.1⟩,
        swapLoop_of_ne fun m' hm' => (hne m' hm').2.2]
      exact ⟨congrArg a (Equiv.swap_apply_left _ _), congrArg a (Equiv.swap_apply_right _ _)⟩
    · have hm : m ∈ l := (List.mem_cons.mp hm).resolve_left hmn
      obtain ⟨hl, hr⟩ := ih (a := swapCells (x n) (y n) a) htail hm
      have hmem := List.mem_cons_of_mem n hm
      rw [hl, hr]
      refine ⟨congrArg a (Equiv.swap_apply_of_ne_of_ne ?_ ?_),
        congrArg a (Equiv.swap_apply_of_ne_of_ne ?_ ?_)⟩
      · exact fun he => h.cross n List.mem_cons_self m hmem he.symm
      · exact fun he => hmn (h.right m hmem n List.mem_cons_self he)
      · exact fun he => hmn (h.left m hmem n List.mem_cons_self he)
      · exact h.cross m hmem n List.mem_cons_self

end Exchange

/-! ## 2. The loops on a front -/

section Front

variable {K : Type*}

/-- The front in memory with leading dimension `ld`. -/
def cells (ld : ℕ) (a : ℕ → K) (i j : ℕ) : K := a (j * ld + i)

theorem cell_inj {ld i i' j j' : ℕ} (hi : i < ld) (hi' : i' < ld) (h : j * ld + i = j' * ld + i') :
    i = i' ∧ j = j' := by
  have hmod := congrArg (· % ld) h
  have hdiv := congrArg (· / ld) h
  have hpos : 0 < ld := by omega
  simp only [Nat.mul_comm _ ld, Nat.mul_add_mod, Nat.mod_eq_of_lt hi, Nat.mod_eq_of_lt hi',
    Nat.mul_add_div hpos, Nat.div_eq_of_lt hi, Nat.div_eq_of_lt hi', Nat.add_zero] at hmod hdiv
  exact ⟨hmod, hdiv⟩

/-- The exchanges of both functions for `p < q`, in their order. -/
def swapFront (ld f p q : ℕ) (a : ℕ → K) : ℕ → K :=
  let a := swapCells (p * ld + p) (q * ld + q) a
  let a := swapLoop (fun m => m * ld + p) (fun m => m * ld + q) (positions 0 p) a
  let a := swapLoop (fun m => p * ld + m) (fun m => m * ld + q) (positions (p + 1) q) a
  swapLoop (fun m => p * ld + m) (fun m => q * ld + m) (positions (q + 1) f) a

/-- The arrays of `sym_swap`. -/
structure SwapArrays (K : Type*) where
  F : ℕ → K
  rows : ℕ → ℤ
  W : ℕ → K

/-- `sym_swap`: `W` is a workspace of leading dimension `f`. -/
def symSwapArrays (ld f p q wCols : ℕ) (s : SwapArrays K) : SwapArrays K :=
  if p = q then s
  else
    let p' := min p q
    let q' := max p q
    { F := swapFront ld f p' q' s.F
      rows := swapCells p' q' s.rows
      W := swapLoop (fun c => c * f + p') (fun c => c * f + q') (positions 0 wCols) s.W }

/-- The arrays of `view_swap`. -/
structure ViewArrays (K : Type*) where
  A : ℕ → K
  tags : ℕ → ℤ
  rows : ℕ → ℤ
  lp : ℕ → ℕ

/-- `view_swap` on an `m x m` view. -/
def viewSwapArrays (ld m p q : ℕ) (s : ViewArrays K) : ViewArrays K :=
  if p = q then s
  else
    let p' := min p q
    let q' := max p q
    { A := swapFront ld m p' q' s.A
      tags := swapCells p' q' s.tags
      rows := swapCells p' q' s.rows
      lp := swapCells p' q' s.lp }

variable {ld f p q i j : ℕ} {a : ℕ → K}

/-- Reading after the exchange of the two diagonal entries. -/
theorem cells_diagonal (hp : p < ld) (hq : q < ld) (hi : i < ld) :
    cells ld (swapCells (p * ld + p) (q * ld + q) a) i j =
      if i = p ∧ j = p then cells ld a q q
      else if i = q ∧ j = q then cells ld a p p else cells ld a i j := by
  unfold cells swapCells
  by_cases h1 : i = p ∧ j = p
  · rw [if_pos h1, h1.1, h1.2, Equiv.swap_apply_left]
  rw [if_neg h1]
  by_cases h2 : i = q ∧ j = q
  · rw [if_pos h2, h2.1, h2.2, Equiv.swap_apply_right]
  rw [if_neg h2, Equiv.swap_apply_of_ne_of_ne]
  · exact fun he => h1 (cell_inj hi hp he)
  · exact fun he => h2 (cell_inj hi hq he)

/-- Reading after a loop of exchanges: `r m`, `c m` and `r' m`, `c' m` are the row and column of
the cells of a pair. -/
theorem cells_loop (r c r' c' : ℕ → ℕ) {l : List ℕ} (hi : i < ld)
    (hr : ∀ m ∈ l, r m < ld ∧ r' m < ld)
    (h : PairsApart (fun m => c m * ld + r m) (fun m => c' m * ld + r' m) l) :
    (∀ m ∈ l, i = r m → j = c m →
      cells ld (swapLoop (fun m => c m * ld + r m) (fun m => c' m * ld + r' m) l a) i j =
        cells ld a (r' m) (c' m)) ∧
    (∀ m ∈ l, i = r' m → j = c' m →
      cells ld (swapLoop (fun m => c m * ld + r m) (fun m => c' m * ld + r' m) l a) i j =
        cells ld a (r m) (c m)) ∧
    ((∀ m ∈ l, ¬ (i = r m ∧ j = c m) ∧ ¬ (i = r' m ∧ j = c' m)) →
      cells ld (swapLoop (fun m => c m * ld + r m) (fun m => c' m * ld + r' m) l a) i j =
        cells ld a i j) := by
  refine ⟨fun m hm h1 h2 => ?_, fun m hm h1 h2 => ?_, fun hno => ?_⟩
  · rw [h1, h2]
    exact (swapLoop_mem h hm).1
  · rw [h1, h2]
    exact (swapLoop_mem h hm).2
  · refine swapLoop_of_ne fun m hm => ⟨fun he => (hno m hm).1 ?_, fun he => (hno m hm).2 ?_⟩
    · exact cell_inj hi (hr m hm).1 he
    · exact cell_inj hi (hr m hm).2 he

/-- The columns left of `p`: rows `p` and `q` trade places. -/
theorem cells_left (hp : p < ld) (hq : q < ld) (hpq : p ≠ q) (hi : i < ld) :
    cells ld (swapLoop (fun m => m * ld + p) (fun m => m * ld + q) (positions 0 p) a) i j =
      if j < p ∧ i = p then cells ld a q j
      else if j < p ∧ i = q then cells ld a p j else cells ld a i j := by
  have hapart : PairsApart (fun m => m * ld + p) (fun m => m * ld + q) (positions 0 p) :=
    ⟨List.nodup_range', fun m _ n _ he => (cell_inj hp hp he).2,
      fun m _ n _ he => (cell_inj hq hq he).2, fun m _ n _ he => hpq (cell_inj hp hq he).1⟩
  obtain ⟨hl, hr, hn⟩ := cells_loop (fun _ => p) (fun m => m) (fun _ => q)
    (fun m => m) (a := a) (j := j) hi (fun _ _ => ⟨hp, hq⟩) hapart
  by_cases h1 : j < p ∧ i = p
  · rw [if_pos h1]
    exact hl j (mem_positions.mpr ⟨Nat.zero_le j, h1.1⟩) h1.2 rfl
  rw [if_neg h1]
  by_cases h2 : j < p ∧ i = q
  · rw [if_pos h2]
    exact hr j (mem_positions.mpr ⟨Nat.zero_le j, h2.1⟩) h2.2 rfl
  rw [if_neg h2]
  refine hn fun m hm => ?_
  have hm := mem_positions.mp hm
  omega

/-- Between `p` and `q`: column `p` and row `q` trade places. -/
theorem cells_between (hq : q < ld) (hi : i < ld) :
    cells ld (swapLoop (fun m => p * ld + m) (fun m => m * ld + q) (positions (p + 1) q) a) i j =
      if j = p ∧ p < i ∧ i < q then cells ld a q i
      else if i = q ∧ p < j ∧ j < q then cells ld a j p else cells ld a i j := by
  have hlt : ∀ m ∈ positions (p + 1) q, p < m ∧ m < q ∧ m < ld := fun m hm => by
    have := mem_positions.mp hm
    omega
  have hapart : PairsApart (fun m => p * ld + m) (fun m => m * ld + q) (positions (p + 1) q) :=
    ⟨List.nodup_range', fun m hm n hn he => (cell_inj (hlt m hm).2.2 (hlt n hn).2.2 he).1,
      fun m _ n _ he => (cell_inj hq hq he).2, fun m hm n hn he => by
        have := (cell_inj (hlt m hm).2.2 hq he).1
        have := hlt m hm
        omega⟩
  obtain ⟨hl, hr, hn⟩ := cells_loop (fun m => m) (fun _ => p) (fun _ => q)
    (fun m => m) (a := a) (j := j) hi (fun m hm => ⟨(hlt m hm).2.2, hq⟩) hapart
  by_cases h1 : j = p ∧ p < i ∧ i < q
  · rw [if_pos h1]
    exact hl i (mem_positions.mpr ⟨h1.2.1, h1.2.2⟩) rfl h1.1
  rw [if_neg h1]
  by_cases h2 : i = q ∧ p < j ∧ j < q
  · rw [if_pos h2]
    exact hr j (mem_positions.mpr ⟨h2.2.1, h2.2.2⟩) h2.1 rfl
  rw [if_neg h2]
  refine hn fun m hm => ?_
  have hm := hlt m hm
  omega

/-- Below `q`: the columns `p` and `q` trade places. -/
theorem cells_below (hf : f ≤ ld) (hpq : p ≠ q) (hi : i < ld) :
    cells ld (swapLoop (fun m => p * ld + m) (fun m => q * ld + m) (positions (q + 1) f) a) i j =
      if j = p ∧ q < i ∧ i < f then cells ld a i q
      else if j = q ∧ q < i ∧ i < f then cells ld a i p else cells ld a i j := by
  have hlt : ∀ m ∈ positions (q + 1) f, q < m ∧ m < f ∧ m < ld := fun m hm => by
    have := mem_positions.mp hm
    omega
  have hapart : PairsApart (fun m => p * ld + m) (fun m => q * ld + m) (positions (q + 1) f) :=
    ⟨List.nodup_range', fun m hm n hn he => (cell_inj (hlt m hm).2.2 (hlt n hn).2.2 he).1,
      fun m hm n hn he => (cell_inj (hlt m hm).2.2 (hlt n hn).2.2 he).1,
      fun m hm n hn he => hpq (cell_inj (hlt m hm).2.2 (hlt n hn).2.2 he).2⟩
  obtain ⟨hl, hr, hn⟩ := cells_loop (fun m => m) (fun _ => p) (fun m => m)
    (fun _ => q) (a := a) (j := j) hi (fun m hm => ⟨(hlt m hm).2.2, (hlt m hm).2.2⟩) hapart
  by_cases h1 : j = p ∧ q < i ∧ i < f
  · rw [if_pos h1]
    exact hl i (mem_positions.mpr ⟨h1.2.1, h1.2.2⟩) rfl h1.1
  rw [if_neg h1]
  by_cases h2 : j = q ∧ q < i ∧ i < f
  · rw [if_pos h2]
    exact hr i (mem_positions.mpr ⟨h2.2.1, h2.2.2⟩) rfl h2.1
  rw [if_neg h2]
  refine hn fun m hm => ?_
  have hm := hlt m hm
  omega

/-- The loops exchange what `swapLower` exchanges.  No cell is in two loops, and a pair lies in
one loop. -/
theorem cells_swapFront (hf : f ≤ ld) (hpq : p < q) (hq : q < f) (hi : i < ld) :
    cells ld (swapFront ld f p q a) i j = swapLower (cells ld a) f p q i j := by
  have hqld : q < ld := by omega
  have hpld : p < ld := by omega
  have hne : p ≠ q := by omega
  unfold swapFront swapLower
  dsimp only
  -- from the last loop to the first: each case asks which loop the cell is in
  rw [cells_below hf hne hi]
  by_cases hC1 : j = p ∧ q < i ∧ i < f
  · rw [if_pos hC1, cells_between hqld hi, if_neg (by omega), if_neg (by omega),
      cells_left hpld hqld hne hi, if_neg (by omega), if_neg (by omega),
      cells_diagonal hpld hqld hi, if_neg (by omega), if_neg (by omega), if_neg (by omega),
      if_neg (by omega), if_neg (by omega), if_neg (by omega), if_neg (by omega),
      if_neg (by omega), if_pos hC1]
  rw [if_neg hC1]
  by_cases hC2 : j = q ∧ q < i ∧ i < f
  · rw [if_pos hC2, cells_between hqld hi, if_neg (by omega), if_neg (by omega),
      cells_left hpld hqld hne hi, if_neg (by omega), if_neg (by omega),
      cells_diagonal hpld hqld hi, if_neg (by omega), if_neg (by omega), if_neg (by omega),
      if_neg (by omega), if_neg (by omega), if_neg (by omega), if_neg (by omega),
      if_neg (by omega), if_neg hC1, if_pos hC2]
  rw [if_neg hC2, cells_between hqld hi]
  by_cases hB1 : j = p ∧ p < i ∧ i < q
  · rw [if_pos hB1, cells_left hpld hqld hne hqld, if_neg (by omega), if_neg (by omega),
      cells_diagonal hpld hqld hqld, if_neg (by omega), if_neg (by omega), if_neg (by omega),
      if_neg (by omega), if_neg (by omega), if_neg (by omega), if_pos hB1]
  rw [if_neg hB1]
  by_cases hB2 : i = q ∧ p < j ∧ j < q
  · have hj : j < ld := by omega
    rw [if_pos hB2, cells_left hpld hqld hne hj, if_neg (by omega), if_neg (by omega),
      cells_diagonal hpld hqld hj, if_neg (by omega), if_neg (by omega), if_neg (by omega),
      if_neg (by omega), if_neg (by omega), if_neg (by omega), if_neg hB1, if_pos hB2]
  rw [if_neg hB2, cells_left hpld hqld hne hi]
  by_cases hA1 : j < p ∧ i = p
  · rw [if_pos hA1, cells_diagonal hpld hqld hqld, if_neg (by omega), if_neg (by omega),
      if_neg (by omega), if_neg (by omega), if_pos hA1]
  rw [if_neg hA1]
  by_cases hA2 : j < p ∧ i = q
  · rw [if_pos hA2, cells_diagonal hpld hqld hpld, if_neg (by omega), if_neg (by omega),
      if_neg (by omega), if_neg (by omega), if_neg hA1, if_pos hA2]
  rw [if_neg hA2, cells_diagonal hpld hqld hi]
  simp only [if_neg hA1, if_neg hA2, if_neg hB1, if_neg hB2, if_neg hC1, if_neg hC2]

/-- A lower-triangle entry in row or column `p` or `q`. -/
def Touches (p q i j : ℕ) : Prop := i = p ∨ i = q ∨ j = p ∨ j = q

/-- The loops touch nothing but the rows and columns `p` and `q` of the lower triangle. -/
theorem swapFront_other (hpq : p < q) (hq : q < f) {t : ℕ}
    (h : ∀ i j, j ≤ i → i < f → Touches p q i j → t ≠ j * ld + i) :
      swapFront ld f p q a t = a t := by
  unfold swapFront
  rw [swapLoop_of_ne fun m hm => ?_, swapLoop_of_ne fun m hm => ?_, swapLoop_of_ne fun m hm => ?_]
  · refine congrArg a (Equiv.swap_apply_of_ne_of_ne ?_ ?_)
    · exact h p p le_rfl (hpq.trans hq) (Or.inl rfl)
    · exact h q q le_rfl hq (Or.inr (Or.inl rfl))
  · have hm := mem_positions.mp hm
    exact ⟨h p m (by omega) (by omega) (Or.inl rfl), h q m (by omega) hq (Or.inr (Or.inl rfl))⟩
  · have hm := mem_positions.mp hm
    exact ⟨h m p (by omega) (by omega) (Or.inr (Or.inr (Or.inl rfl))),
      h q m (by omega) hq (Or.inr (Or.inl rfl))⟩
  · have hm := mem_positions.mp hm
    exact ⟨h m p (by omega) (by omega) (Or.inr (Or.inr (Or.inl rfl))),
      h m q (by omega) (by omega) (Or.inr (Or.inr (Or.inr rfl)))⟩

/-! ## 3. The transposition -/

/-- The front `a'` is `a` with the rows and columns `p` and `q` of the matrix it stores
exchanged, and nothing else. -/
structure Transposed (ld f p q : ℕ) (a a' : ℕ → K) : Prop where
  matrix : ∀ i j, i < f → j < f →
    symAt (cells ld a') i j = symAt (cells ld a) (Equiv.swap p q i) (Equiv.swap p q j)
  eliminated : ∀ c, c < p → c < q → ∀ i < f, cells ld a' i c = cells ld a (Equiv.swap p q i) c
  other : ∀ t, (∀ i j, j ≤ i → i < f → Touches p q i j → t ≠ j * ld + i) → a' t = a t

theorem swap_min_max (p q : ℕ) : Equiv.swap (min p q) (max p q) = Equiv.swap p q := by
  rcases Nat.le_total p q with h | h
  · rw [min_eq_left h, max_eq_right h]
  · rw [min_eq_right h, max_eq_left h, Equiv.swap_comm]

/-- The loops of two different positions, in memory and as the kernels' models have them. -/
theorem cells_swapFront_eq (hf : f ≤ ld) (hpq : p ≠ q) (hp : p < f) (hq : q < f) (hi : i < ld) :
    cells ld (swapFront ld f (min p q) (max p q) a) i j = symSwap (cells ld a) f p q i j := by
  rw [cells_swapFront hf (min_lt_max.mpr hpq) (max_lt hp hq) hi, symSwap, if_neg hpq]

theorem swapFront_transposed (hf : f ≤ ld) (hpq : p ≠ q) (hp : p < f) (hq : q < f) (a : ℕ → K) :
    Transposed ld f p q a (swapFront ld f (min p q) (max p q) a) := by
  refine ⟨fun i j hi hj => ?_, fun c hcp hcq i hi => ?_, fun t ht => ?_⟩
  · rw [← symAt_symSwap hi hj]
    unfold symAt
    rw [cells_swapFront_eq hf hpq hp hq (hi.trans_le hf),
      cells_swapFront_eq hf hpq hp hq (hj.trans_le hf)]
  · -- a column left of both positions
    have hlt : min p q < max p q := min_lt_max.mpr hpq
    have hc : c < min p q := lt_min hcp hcq
    rw [cells_swapFront hf hlt (max_lt hp hq) (hi.trans_le hf), ← swap_min_max p q]
    unfold swapLower
    rw [if_neg (by omega), if_neg (by omega)]
    by_cases h1 : i = min p q
    · rw [if_pos ⟨hc, h1⟩, h1, Equiv.swap_apply_left]
    rw [if_neg (fun h => h1 h.2)]
    by_cases h2 : i = max p q
    · rw [if_pos ⟨hc, h2⟩, h2, Equiv.swap_apply_right]
    rw [if_neg (fun h => h2 h.2), Equiv.swap_apply_of_ne_of_ne h1 h2, if_neg (by omega),
      if_neg (by omega), if_neg (by omega), if_neg (by omega)]
  · refine swapFront_other (min_lt_max.mpr hpq) (max_lt hp hq) fun i j hji hi htouch => ?_
    refine ht i j hji hi ?_
    unfold Touches at htouch ⊢
    omega

theorem transposed_same (a : ℕ → K) : Transposed ld f p p a a := by
  refine ⟨fun i j _ _ => ?_, fun c _ _ i _ => ?_, fun _ _ => rfl⟩ <;> rw [Equiv.swap_self] <;> rfl

/-- The workspace rows follow in its first `w` columns. -/
theorem cells_workspace (hp : p < f) (hq : q < f) (hpq : p ≠ q) {w c : ℕ} (hi : i < f) (W : ℕ → K) :
    cells f (swapLoop (fun c => c * f + p) (fun c => c * f + q) (positions 0 w) W) i c =
      if c < w then cells f W (Equiv.swap p q i) c else cells f W i c := by
  have hapart : PairsApart (fun m => m * f + p) (fun m => m * f + q) (positions 0 w) :=
    ⟨List.nodup_range', fun m _ n _ he => (cell_inj hp hp he).2,
      fun m _ n _ he => (cell_inj hq hq he).2, fun m _ n _ he => hpq (cell_inj hp hq he).1⟩
  obtain ⟨hl, hr, hn⟩ := cells_loop (fun _ => p) (fun m => m) (fun _ => q)
    (fun m => m) (a := W) (j := c) hi (fun _ _ => ⟨hp, hq⟩) hapart
  by_cases hc : c < w
  · have hmem : c ∈ positions 0 w := mem_positions.mpr ⟨Nat.zero_le c, hc⟩
    rw [if_pos hc]
    by_cases h1 : i = p
    · rw [hl c hmem h1 rfl, h1, Equiv.swap_apply_left]
    by_cases h2 : i = q
    · rw [hr c hmem h2 rfl, h2, Equiv.swap_apply_right]
    rw [hn fun m _ => ⟨fun h => h1 h.1, fun h => h2 h.1⟩, Equiv.swap_apply_of_ne_of_ne h1 h2]
  · rw [if_neg hc]
    refine hn fun m hm => ?_
    have hm := mem_positions.mp hm
    omega

/-- What `sym_swap` does to the three arrays. -/
structure SwapsAll (ld f p q w : ℕ) (s s' : SwapArrays K) : Prop where
  front : Transposed ld f p q s.F s'.F
  rows : ∀ i, s'.rows i = s.rows (Equiv.swap p q i)
  work : ∀ i c, i < f →
    cells f s'.W i c = if c < w then cells f s.W (Equiv.swap p q i) c else cells f s.W i c

/-- What `view_swap` does to the four arrays. -/
structure SwapsView (ld m p q : ℕ) (s s' : ViewArrays K) : Prop where
  view : Transposed ld m p q s.A s'.A
  tags : ∀ i, s'.tags i = s.tags (Equiv.swap p q i)
  rows : ∀ i, s'.rows i = s.rows (Equiv.swap p q i)
  lp : ∀ i, s'.lp i = s.lp (Equiv.swap p q i)

theorem symSwapArrays_swaps (hf : f ≤ ld) (hp : p < f) (hq : q < f) (w : ℕ) (s : SwapArrays K) :
    SwapsAll ld f p q w s (symSwapArrays ld f p q w s) := by
  unfold symSwapArrays
  by_cases hpq : p = q
  · rw [if_pos hpq, hpq]
    refine ⟨transposed_same _, fun i => ?_, fun i c _ => ?_⟩ <;> rw [Equiv.swap_self]
    · rfl
    · exact (ite_self _).symm
  · rw [if_neg hpq]
    refine ⟨swapFront_transposed hf hpq hp hq _, fun i => ?_, fun i c hi => ?_⟩
    · rw [← swap_min_max p q]
      rfl
    · rw [← swap_min_max p q]
      exact cells_workspace (by omega) (by omega) (by omega) hi s.W

theorem viewSwapArrays_swaps {m : ℕ} (hm : m ≤ ld) (hp : p < m) (hq : q < m) (s : ViewArrays K) :
    SwapsView ld m p q s (viewSwapArrays ld m p q s) := by
  unfold viewSwapArrays
  by_cases hpq : p = q
  · rw [if_pos hpq, hpq]
    refine ⟨transposed_same _, fun i => ?_, fun i => ?_, fun i => ?_⟩ <;>
      rw [Equiv.swap_self] <;> rfl
  · rw [if_neg hpq]
    refine ⟨swapFront_transposed hm hpq hp hq _, fun i => ?_, fun i => ?_, fun i => ?_⟩ <;>
      rw [← swap_min_max p q] <;> rfl

end Front

/-! ## 4. Sequences of swaps -/

section Sequences

variable {K : Type*} {ld f : ℕ}

/-- One `sym_swap` after the other, each with its own number of workspace columns. -/
def symSwaps (ld f : ℕ) (l : List (ℕ × ℕ × ℕ)) (s : SwapArrays K) : SwapArrays K :=
  l.foldl (fun s c => symSwapArrays ld f c.1 c.2.1 c.2.2 s) s

/-- One `view_swap` after the other. -/
def viewSwaps (ld m : ℕ) (l : List (ℕ × ℕ)) (s : ViewArrays K) : ViewArrays K :=
  l.foldl (fun s c => viewSwapArrays ld m c.1 c.2 s) s

/-- The front and the rows of `s'` are those of `s` under one permutation. -/
def Permuted (ld f : ℕ) (a a' : ℕ → K) (rows rows' : ℕ → ℤ) : Prop :=
  ∃ σ : Equiv.Perm ℕ, (∀ i, i < f ↔ σ i < f) ∧ (∀ i, rows' i = rows (σ i)) ∧
    ∀ i j, i < f → j < f → symAt (cells ld a') i j = symAt (cells ld a) (σ i) (σ j)

variable {a a' a'' : ℕ → K} {rows rows' rows'' : ℕ → ℤ} {p q : ℕ}

theorem permuted_refl : Permuted ld f a a rows rows :=
  ⟨Equiv.refl ℕ, fun _ => Iff.rfl, fun _ => rfl, fun _ _ _ _ => rfl⟩

theorem swap_lt_iff (hp : p < f) (hq : q < f) (i : ℕ) : i < f ↔ Equiv.swap p q i < f := by
  by_cases h1 : i = p
  · rw [h1, Equiv.swap_apply_left]
    exact iff_of_true hp hq
  by_cases h2 : i = q
  · rw [h2, Equiv.swap_apply_right]
    exact iff_of_true hq hp
  rw [Equiv.swap_apply_of_ne_of_ne h1 h2]

/-- One more transposition. -/
theorem Permuted.step (h : Permuted ld f a a' rows rows') (hp : p < f) (hq : q < f)
    (ht : Transposed ld f p q a' a'') (hr : ∀ i, rows'' i = rows' (Equiv.swap p q i)) :
    Permuted ld f a a'' rows rows'' := by
  obtain ⟨σ, hlt, hrows, hmat⟩ := h
  have hsw := swap_lt_iff hp hq
  refine ⟨(Equiv.swap p q).trans σ, fun i => (hsw i).trans (hlt _), fun i => ?_,
    fun i j hi hj => ?_⟩
  · rw [hr, hrows]
    rfl
  · rw [ht.matrix i j hi hj, hmat _ _ ((hsw i).mp hi) ((hsw j).mp hj)]
    rfl

theorem symSwaps_permuted (hf : f ≤ ld) (l : List (ℕ × ℕ × ℕ)) (hl : ∀ c ∈ l, c.1 < f ∧ c.2.1 < f)
    (s : SwapArrays K) :
    Permuted ld f s.F (symSwaps ld f l s).F s.rows (symSwaps ld f l s).rows := by
  induction l using List.reverseRecOn with
  | nil => exact permuted_refl
  | append_singleton l c ih =>
    obtain ⟨hp, hq⟩ := hl c (List.mem_append_right l List.mem_cons_self)
    have hstep := symSwapArrays_swaps hf hp hq c.2.2 (symSwaps ld f l s)
    rw [symSwaps, List.foldl_append]
    exact (ih fun c hc => hl c (List.mem_append_left _ hc)).step hp hq hstep.front hstep.rows

theorem viewSwaps_permuted (hf : f ≤ ld) (l : List (ℕ × ℕ)) (hl : ∀ c ∈ l, c.1 < f ∧ c.2 < f)
    (s : ViewArrays K) :
    Permuted ld f s.A (viewSwaps ld f l s).A s.rows (viewSwaps ld f l s).rows := by
  induction l using List.reverseRecOn with
  | nil => exact permuted_refl
  | append_singleton l c ih =>
    obtain ⟨hp, hq⟩ := hl c (List.mem_append_right l List.mem_cons_self)
    have hstep := viewSwapArrays_swaps hf hp hq (viewSwaps ld f l s)
    rw [viewSwaps, List.foldl_append]
    exact (ih fun c hc => hl c (List.mem_append_left _ hc)).step hp hq hstep.view hstep.rows

/-- An entry of `a'` is the entry of `a` in the rows with the same ids. -/
def ByRowIds (ld f : ℕ) (a a' : ℕ → K) (rows rows' : ℕ → ℤ) : Prop :=
  ∀ i j i' j', i < f → j < f → i' < f → j' < f → rows' i = rows i' → rows' j = rows j' →
    symAt (cells ld a') i j = symAt (cells ld a) i' j'

/-- The row ids differ. -/
def DistinctIds (f : ℕ) (rows : ℕ → ℤ) : Prop :=
  ∀ i j, i < f → j < f → rows i = rows j → i = j

/-- With distinct row ids the permutation is the one the ids record. -/
theorem Permuted.byRowIds (h : Permuted ld f a a' rows rows') (hinj : DistinctIds f rows) :
    ByRowIds ld f a a' rows rows' := by
  obtain ⟨σ, hlt, hrows, hmat⟩ := h
  intro i j i' j' hi hj hi' hj' hri hrj
  rw [hmat i j hi hj, hinj (σ i) i' ((hlt i).mp hi) hi' ((hrows i).symm.trans hri),
    hinj (σ j) j' ((hlt j).mp hj) hj' ((hrows j).symm.trans hrj)]

/-- Both swaps are the symmetric transposition, and any sequence of them leaves the matrix that
the row ids describe. -/
theorem swaps_transpose (hf : f ≤ ld) :
    (∀ (p q w : ℕ) (s : SwapArrays K), p < f → q < f →
      SwapsAll ld f p q w s (symSwapArrays ld f p q w s)) ∧
    (∀ (p q : ℕ) (s : ViewArrays K), p < f → q < f →
      SwapsView ld f p q s (viewSwapArrays ld f p q s)) ∧
    (∀ (l : List (ℕ × ℕ × ℕ)) (s : SwapArrays K), (∀ c ∈ l, c.1 < f ∧ c.2.1 < f) →
      let s' := symSwaps ld f l s
      Permuted ld f s.F s'.F s.rows s'.rows ∧
        (DistinctIds f s.rows → ByRowIds ld f s.F s'.F s.rows s'.rows)) ∧
    ∀ (l : List (ℕ × ℕ)) (s : ViewArrays K), (∀ c ∈ l, c.1 < f ∧ c.2 < f) →
      let s' := viewSwaps ld f l s
      Permuted ld f s.A s'.A s.rows s'.rows ∧
        (DistinctIds f s.rows → ByRowIds ld f s.A s'.A s.rows s'.rows) := by
  refine ⟨fun _ _ w s hp hq => symSwapArrays_swaps hf hp hq w s,
    fun _ _ s hp hq => viewSwapArrays_swaps hf hp hq s, fun l s hl => ?_, fun l s hl => ?_⟩
  · have h := symSwaps_permuted hf l hl s
    exact ⟨h, h.byRowIds⟩
  · have h := viewSwaps_permuted hf l hl s
    exact ⟨h, h.byRowIds⟩

/-- A front of three rows in memory with four rows a column. -/
theorem swaps_transpose_padded :
    let s : SwapArrays ℤ := ⟨fun t => t, fun i => 10 + i, fun _ => 0⟩
    SwapsAll 4 3 2 0 1 s (symSwapArrays 4 3 2 0 1 s) ∧
      ByRowIds 4 3 s.F (symSwaps 4 3 [(2, 0, 1), (1, 2, 0)] s).F s.rows
        (symSwaps 4 3 [(2, 0, 1), (1, 2, 0)] s).rows := by
  intro s
  have h := @swaps_transpose ℤ 4 3 (by decide)
  refine ⟨h.1 2 0 1 s (by decide) (by decide), (h.2.2.1 _ s (by decide)).2 fun i j _ _ he => ?_⟩
  have he : (10 + i : ℤ) = 10 + j := he
  omega

end Sequences

end SmfSolver.Kernel
