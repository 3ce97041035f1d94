/-
Both kernels of the numeric fronts return a partial factorization of the permuted front.

The reference kernel searches as the blocked one does with all eligible columns in reach, and
both eliminate as `ldlt_factor_front` does (`taken`), so the invariant of that kernel, `Core`,
carries over: `FrontStands` adds the permutation of the eligible rows and what the collected pivot
blocks say.
-/
import SmfSolver.Kernel.NumericFront
import SmfSolver.Kernel.PartialFactor

namespace SmfSolver.Kernel

open Finset

/-! ## 1. The search -/

section Search

variable {K : Type*} [Field K] [LinearOrder K] {u effSmall smallPivot : K} {F : ℕ → ℕ → K}
  {f k numElig limit cand : ℕ} {pc : PivotChoice}

/-- What is true of a pivot the search returns. -/
def Passes (effSmall smallPivot : K) (F : ℕ → ℕ → K) (k limit : ℕ) : PivotChoice → Prop
  | .one a => k ≤ a ∧ a < limit ∧ effSmall ≤ |F a a|
  | .two a b => k ≤ a ∧ a < limit ∧ k ≤ b ∧ b < limit ∧ a ≠ b ∧
      smallPivot < |(scaledDet2x2 (F a a) (symAt F b a) (F b b)).1|

/-- The partner is another eligible row. -/
theorem rBest_mem {r : ℕ} (hk : k ≤ cand) (hc : cand < numElig)
    (h : (scanColumn F k numElig cand).rBest = some r) : k ≤ r ∧ r < numElig ∧ r ≠ cand :=
  (mem_others hk hc).mp ((scanColumn_ok F k numElig cand).best r h).1

theorem blockedCandidate_passes (hk : k ≤ cand) (hc : cand < limit) (hl : limit ≤ numElig)
    (h : blockedCandidate u effSmall smallPivot F f k numElig limit cand = some pc) :
    Passes effSmall smallPivot F k limit pc := by
  unfold blockedCandidate at h
  dsimp only at h
  by_cases hone : diagonalPasses u effSmall F cand (omega1Full F f k numElig cand)
  · rw [if_pos hone] at h
    obtain rfl := Option.some.inj h
    exact ⟨hk, hc, hone.1⟩
  rw [if_neg hone] at h
  cases hr : (scanColumn F k numElig cand).rBest with
  | none =>
    rw [hr] at h
    cases h
  | some r =>
    obtain ⟨hkr, -, hne⟩ := rBest_mem hk (hc.trans_le hl) hr
    rw [hr] at h
    dsimp only at h
    split_ifs at h with hin htwo hpartner
    · obtain rfl := Option.some.inj h
      exact ⟨hk, hc, hkr, hin.2.1, hne.symm, htwo.2.2.1⟩
    · obtain rfl := Option.some.inj h
      exact ⟨hkr, hin.2.1, hpartner.1⟩

/-- With every eligible column in reach the bounds of the blocked search always hold. -/
theorem referenceCandidate_eq (hk : k ≤ cand) (hc : cand < numElig) :
    referenceCandidate u effSmall smallPivot F f k numElig cand =
      blockedCandidate u effSmall smallPivot F f k numElig numElig cand := by
  unfold referenceCandidate blockedCandidate
  dsimp only
  cases hr : (scanColumn F k numElig cand).rBest with
  | none => rfl
  | some r =>
    obtain ⟨hkr, hlt, hne⟩ := rBest_mem hk hc hr
    have hk1 : k + 1 < numElig := by omega
    simp only [hlt, hk1, true_and]

theorem findSome_passes (hl : limit ≤ numElig)
    (h : (positions k limit).findSome?
      (blockedCandidate u effSmall smallPivot F f k numElig limit) = some pc) :
    Passes effSmall smallPivot F k limit pc := by
  obtain ⟨cand, hmem, hcand⟩ := List.exists_of_findSome?_eq_some h
  have hc := mem_positions.mp hmem
  exact blockedCandidate_passes hc.1 hc.2 hl hcand

theorem referenceSearch_eq : (positions k numElig).findSome?
      (referenceCandidate u effSmall smallPivot F f k numElig) =
    (positions k numElig).findSome?
      (blockedCandidate u effSmall smallPivot F f k numElig numElig) := by
  have heq : ∀ cand ∈ positions k numElig,
      referenceCandidate u effSmall smallPivot F f k numElig cand =
        blockedCandidate u effSmall smallPivot F f k numElig numElig cand := fun cand hmem =>
    referenceCandidate_eq (mem_positions.mp hmem).1 (mem_positions.mp hmem).2
  rw [← List.head?_filterMap, ← List.head?_filterMap, List.filterMap_congr heq]

/-- A scaled determinant that is not zero is one of a nonsingular block. -/
theorem scaledDet_ne_zero {d00 d10 d11 : K} (h : (scaledDet2x2 d00 d10 d11).1 ≠ 0) :
    d00 * d11 - d10 * d10 ≠ 0 := by
  intro hdet
  refine h ?_
  unfold scaledDet2x2
  dsimp only
  split_ifs with hs
  · rfl
  · generalize max (max |d00| |d10|) |d11| = s
    calc d00 / s * (d11 / s) - d10 / s * (d10 / s) = (d00 * d11 - d10 * d10) / (s * s) := by ring
      _ = 0 := by rw [hdet, zero_div]

end Search

/-! ## 2. The eliminations -/

section Eliminate

variable {K : Type*} [Field K] [LinearOrder K] {F : ℕ → ℕ → K} {f k e : ℕ}

omit [LinearOrder K] in
theorem blockedEliminate1x1_eq : blockedEliminate1x1 F f k e = eliminate1x1 F f k e := by
  funext i j
  unfold blockedEliminate1x1 eliminate1x1
  dsimp only
  refine if_congr Iff.rfl rfl (if_congr Iff.rfl ?_ rfl)
  ring

omit [LinearOrder K] in
theorem referenceEliminate1x1_eq : referenceEliminate1x1 F f k = eliminate1x1 F f k f := by
  funext i j
  unfold referenceEliminate1x1 eliminate1x1
  dsimp only
  refine if_congr Iff.rfl rfl (if_congr (by omega) ?_ rfl)
  by_cases hd : F k k = 0
  · rw [hd]
    simp
  · field_simp

variable [IsStrictOrderedRing K]

/-- `solve_2x2_scaled` multiplies by the inverse of a nonsingular block. -/
theorem solve2x2Scaled_eq {d00 d10 d11 : K} (h : d00 * d11 - d10 * d10 ≠ 0) (x0 x1 : K) :
    solve2x2Scaled d00 d10 d11 x0 x1 =
      (((inverse2x2 d00 d10 d11).1 * x0 + (inverse2x2 d00 d10 d11).2.1 * x1),
        ((inverse2x2 d00 d10 d11).2.1 * x0 + (inverse2x2 d00 d10 d11).2.2 * x1)) := by
  have hs : max (max |d00| |d10|) |d11| ≠ 0 := by
    intro hs
    have hle : ∀ x, |x| ≤ max (max |d00| |d10|) |d11| → x = 0 := fun x hx => by
      rw [hs] at hx
      exact abs_nonpos_iff.mp hx
    refine h ?_
    rw [hle d00 ((le_max_left _ _).trans (le_max_left _ _)),
      hle d10 ((le_max_right _ _).trans (le_max_left _ _))]
    ring
  rw [inverse2x2_eq h]
  unfold solve2x2Scaled scaledDet2x2
  dsimp only
  rw [if_neg hs]
  dsimp only
  generalize max (max |d00| |d10|) |d11| = s at hs
  -- scaling divides the determinant by the square of the scale
  have hdet : d00 / s * (d11 / s) - d10 / s * (d10 / s) = (d00 * d11 - d10 * d10) / (s * s) := by
    ring
  have hdet' : d00 / s * (d11 / s) - d10 / s * (d10 / s) ≠ 0 := by
    rw [hdet]
    exact div_ne_zero h (mul_ne_zero hs hs)
  rw [if_neg (not_or.mpr ⟨hs, hdet'⟩), hdet]
  by_cases hr : max |x0| |x1| = 0
  · -- a zero right-hand side
    have h0 : x0 = 0 := abs_nonpos_iff.mp (hr ▸ le_max_left |x0| |x1|)
    have h1 : x1 = 0 := abs_nonpos_iff.mp (hr ▸ le_max_right |x0| |x1|)
    rw [if_pos hr, h0, h1]
    simp
  · rw [if_neg hr]
    generalize max |x0| |x1| = t at hr
    refine Prod.ext ?_ ?_ <;> dsimp only <;> field_simp
    ring

theorem pivotRows_eq (h : pivotDet F k (k + 1) ≠ 0) (i : ℕ) : pivotRows F k i =
    ((pivotInverse F k).1 * F i k + (pivotInverse F k).2.1 * F i (k + 1),
      (pivotInverse F k).2.1 * F i k + (pivotInverse F k).2.2 * F i (k + 1)) := by
  rw [pivotDet, symAt_of_le (Nat.le_succ k)] at h
  exact solve2x2Scaled_eq h _ _

theorem blockedEliminate2x2_eq (h : pivotDet F k (k + 1) ≠ 0) :
    blockedEliminate2x2 F f k e = eliminate2x2 F f k e := by
  funext i j
  unfold blockedEliminate2x2 eliminate2x2
  dsimp only
  rw [pivotRows_eq h]
  refine if_congr Iff.rfl rfl (if_congr Iff.rfl rfl (if_congr Iff.rfl ?_ rfl))
  ring

theorem referenceEliminate2x2_eq (h : pivotDet F k (k + 1) ≠ 0) :
    referenceEliminate2x2 F f k = eliminate2x2 F f k f := by
  funext i j
  unfold referenceEliminate2x2 eliminate2x2
  dsimp only
  obtain ⟨h0, h1⟩ := pivotInverse_mul h (F i k) (F i (k + 1))
  rw [pivotRows_eq h i, pivotRows_eq h j]
  refine if_congr Iff.rfl rfl (if_congr Iff.rfl rfl (if_congr (by omega) ?_ rfl))
  -- the rows of `L` times the block are the pivot columns
  dsimp only at h0 h1 ⊢
  generalize (pivotInverse F k).1 * F i k + (pivotInverse F k).2.1 * F i (k + 1) = l0 at *
  generalize (pivotInverse F k).2.1 * F i k + (pivotInverse F k).2.2 * F i (k + 1) = l1 at *
  rw [← h0, ← h1]
  ring

end Eliminate

/-! ## 3. The pivots taken, in the terms of `ldlt_factor_front` -/

section Taken

variable {K : Type*} [Field K] [LinearOrder K]

/-- The front with the chosen pivot placed at `k`. -/
def Front.placed (f w : ℕ) (s : Front K) : PivotChoice → Front K
  | .one a => s.swap f s.k a w
  | .two a b => s.placeTwo f a b w

/-- The front with the chosen pivot taken. -/
def Front.taken (m : PivotMode) (f : ℕ) (s : Front K) (pc : PivotChoice) : Front K :=
  match pc with
  | .one _ => (s.placed f m.wCols pc).takeOne m f
  | .two _ _ => (s.placed f m.wCols pc).takeTwo m f

/-- The block that lists the pivot placed at `k`. -/
def Front.blockAt (s : Front K) : PivotChoice → FrontDiagBlock K
  | .one _ => ⟨1, s.rows s.k, 0, s.F s.k s.k, 0, 0⟩
  | .two _ _ =>
    ⟨2, s.rows s.k, s.rows (s.k + 1), s.F s.k s.k, s.F (s.k + 1) s.k, s.F (s.k + 1) (s.k + 1)⟩

variable {effSmall smallPivot : K} {f k ps e limit : ℕ} {s : FrontWork K} {pc : PivotChoice}

variable [IsStrictOrderedRing K]

theorem Passes.pivotDet_ne_zero {F : ℕ → ℕ → K} {a b : ℕ} (hsmall : 0 ≤ smallPivot)
    (h : Passes effSmall smallPivot F k limit (.two a b)) : pivotDet F a b ≠ 0 := by
  obtain ⟨-, -, -, -, -, hdet⟩ := h
  exact scaledDet_ne_zero (abs_pos.mp (hsmall.trans_lt hdet))

theorem placed_pivotDet {s : Front K} {w a b : ℕ} (hl : limit ≤ f) (hsmall : 0 ≤ smallPivot)
    (h : Passes effSmall smallPivot s.F s.k limit (.two a b)) :
    pivotDet (s.placeTwo f a b w).F s.k (s.k + 1) ≠ 0 := by
  have hdet := h.pivotDet_ne_zero hsmall
  obtain ⟨ha, hal, hb, hbl, hab, -⟩ := h
  obtain ⟨h00, h10, h11⟩ := placeTwo_block (w := w) ha (by omega) hb (show b < f by omega) hab
  rwa [pivotDet, symAt_of_le (Nat.le_succ s.k), h00, h10, h11]

theorem takeReference_front (hl : limit ≤ f) (hsmall : 0 ≤ smallPivot)
    (h : Passes effSmall smallPivot s.F s.k limit pc) :
    (s.takeReference effSmall smallPivot f pc).toFront =
      s.toFront.taken ⟨false, f, false, 0⟩ f pc := by
  cases pc with
  | one a => exact congrArg (fun F => { (s.toFront.swap f s.k a 0).takeOne ⟨false, f, false, 0⟩ f
      with F := F }) referenceEliminate1x1_eq
  | two a b =>
    have hdet := placed_pivotDet (w := 0) hl hsmall h
    rw [← Front.placeTwo_k f a b 0 s.toFront] at hdet
    exact congrArg (fun F => { (s.toFront.placeTwo f a b 0).takeTwo ⟨false, f, false, 0⟩ f
      with F := F }) (referenceEliminate2x2_eq hdet)

theorem takeBlocked_front (hl : limit ≤ f) (hsmall : 0 ≤ smallPivot)
    (h : Passes effSmall smallPivot s.F s.k limit pc) :
    (s.takeBlocked effSmall smallPivot f ps e pc).toFront =
      s.toFront.taken ⟨false, e, true, s.k - ps⟩ f pc := by
  cases pc with
  | one a =>
    have hk : (s.toFront.swap f s.k a (s.k - ps)).k = s.k := Front.swap_k ..
    unfold FrontWork.takeBlocked Front.taken Front.placed Front.takeOne
    dsimp only [FrontWork.swap, FrontWork.recordOne]
    rw [blockedEliminate1x1_eq, hk]
    rfl
  | two a b =>
    have hdet := placed_pivotDet (w := s.k - ps) hl hsmall h
    have hk : (s.toFront.placeTwo f a b (s.k - ps)).k = s.k := Front.placeTwo_k ..
    unfold FrontWork.takeBlocked Front.taken Front.placed Front.takeTwo
    dsimp only [FrontWork.placeTwo, FrontWork.recordTwo]
    rw [hk, blockedEliminate2x2_eq hdet]
    rfl

omit [IsStrictOrderedRing K] in
theorem takeReference_dBlocks : (s.takeReference effSmall smallPivot f pc).dBlocks =
    s.dBlocks ++ [(s.toFront.placed f 0 pc).blockAt pc] := by
  cases pc <;> rfl

omit [IsStrictOrderedRing K] in
theorem takeBlocked_dBlocks : (s.takeBlocked effSmall smallPivot f ps e pc).dBlocks =
    s.dBlocks ++ [(s.toFront.placed f (s.k - ps) pc).blockAt pc] := by
  cases pc <;> rfl

end Taken

/-! ## 4. The collected blocks -/

section Blocks

variable {K : Type*}

/-- Diagonal and subdiagonal entry of `D` in each column of the block. -/
def FrontDiagBlock.columns [Zero K] (b : FrontDiagBlock K) : List (K × K) :=
  if b.tag = 2 then [(b.d00, b.d10), (b.d11, 0)] else [(b.d00, 0)]

/-- The row of each column of the block. -/
def FrontDiagBlock.rowsOf (b : FrontDiagBlock K) : List ℤ :=
  if b.tag = 2 then [b.row0, b.row1] else [b.row0]

/-- The tag of each column of the block. -/
def FrontDiagBlock.tagsOf (b : FrontDiagBlock K) : List ℤ := if b.tag = 2 then [2, -1] else [1]

/-- Diagonal and subdiagonal entry of `D` in an eliminated column. -/
def Front.column [Zero K] (s : Front K) (c : ℕ) : K × K :=
  (s.F c c, if s.tags c = 2 then s.F (c + 1) c else 0)

/-- The blocks list the eliminated columns in order. -/
structure BlocksOf [Zero K] (bs : List (FrontDiagBlock K)) (s : Front K) : Prop where
  columns : bs.flatMap FrontDiagBlock.columns = (List.range s.k).map s.column
  rows : bs.flatMap FrontDiagBlock.rowsOf = (List.range s.k).map s.rows
  tags : bs.flatMap FrontDiagBlock.tagsOf = (List.range s.k).map s.tags

/-- The eliminated columns of `s` stand in `s'` as they were. -/
structure KeepsColumns (s s' : Front K) : Prop where
  entry : ∀ i c, c ≤ i → i < s.k → s'.F i c = s.F i c
  rows : ∀ c < s.k, s'.rows c = s.rows c
  tags : ∀ c < s.k, s'.tags c = s.tags c

theorem KeepsColumns.trans {s s' s'' : Front K} (h : KeepsColumns s s') (h' : KeepsColumns s' s'')
    (hk : s.k ≤ s'.k) : KeepsColumns s s'' := by
  refine ⟨fun i c hci hi => ?_, fun c hc => ?_, fun c hc => ?_⟩
  · rw [h'.entry i c hci (hi.trans_le hk), h.entry i c hci hi]
  · rw [h'.rows c (hc.trans_le hk), h.rows c hc]
  · rw [h'.tags c (hc.trans_le hk), h.tags c hc]

theorem map_range_congr {α : Type*} {g g' : ℕ → α} {k : ℕ} (h : ∀ c < k, g' c = g c) :
    (List.range k).map g = (List.range k).map g' :=
  List.map_congr_left fun c hc => (h c (List.mem_range.mp hc)).symm

variable [Zero K] {s s' : Front K} {bs : List (FrontDiagBlock K)}

theorem KeepsColumns.column (h : KeepsColumns s s') (ht : Tagged s.tags s.k) {c : ℕ}
    (hc : c < s.k) : s'.column c = s.column c := by
  unfold Front.column
  rw [h.entry c c le_rfl hc, h.tags c hc]
  by_cases hp : s.tags c = 2
  · rw [if_pos hp, if_pos hp, h.entry (c + 1) c (Nat.le_succ c) (ht.pair_lt hc hp)]
  · rw [if_neg hp, if_neg hp]

/-- One more block, for the `n` columns from `k` on. -/
theorem BlocksOf.append (h : BlocksOf bs s) (ht : Tagged s.tags s.k) (hkeep : KeepsColumns s s')
    {n : ℕ} (hk : s'.k = s.k + n) {b : FrontDiagBlock K}
    (hcolumns : b.columns = (List.range' s.k n).map s'.column)
    (hrows : b.rowsOf = (List.range' s.k n).map s'.rows)
    (htags : b.tagsOf = (List.range' s.k n).map s'.tags) : BlocksOf (bs ++ [b]) s' := by
  have hrange : List.range s'.k = List.range s.k ++ List.range' s.k n := by
    rw [hk, List.range_eq_range', List.range_eq_range', ← List.range'_append_1, Nat.zero_add]
  refine ⟨?_, ?_, ?_⟩
  · rw [List.flatMap_append, h.columns, List.flatMap_singleton, hcolumns, hrange, List.map_append,
      map_range_congr fun c hc => hkeep.column ht hc]
  · rw [List.flatMap_append, h.rows, List.flatMap_singleton, hrows, hrange, List.map_append,
      map_range_congr hkeep.rows]
  · rw [List.flatMap_append, h.tags, List.flatMap_singleton, htags, hrange, List.map_append,
      map_range_congr hkeep.tags]

/-- A move that takes no pivot. -/
theorem BlocksOf.keep (h : BlocksOf bs s) (ht : Tagged s.tags s.k) (hkeep : KeepsColumns s s')
    (hk : s'.k = s.k) : BlocksOf bs s' := by
  refine ⟨?_, ?_, ?_⟩
  · rw [h.columns, hk, map_range_congr fun c hc => hkeep.column ht hc]
  · rw [h.rows, hk, map_range_congr hkeep.rows]
  · rw [h.tags, hk, map_range_congr hkeep.tags]

end Blocks

section Keeps

variable {K : Type*} [Field K] {f w p q : ℕ} {s : Front K} {m : PivotMode}

omit [Field K] in
theorem keeps_swap (hp : s.k ≤ p) (hq : s.k ≤ q) (hkf : s.k ≤ f) :
    KeepsColumns s (s.swap f p q w) := by
  have hfix : ∀ i < s.k, Equiv.swap p q i = i := fun i hi =>
    Equiv.swap_apply_of_ne_of_ne (by omega) (by omega)
  refine ⟨fun i c hci hi => ?_, fun c hc => ?_, fun c _ => by rw [swap_tags]⟩
  · have := swap_F (p := p) (q := q) (w := w) s (show i < f by omega) (show c < f by omega)
    rwa [hfix i hi, hfix c (by omega), symAt_of_le hci, symAt_of_le hci] at this
  · rw [swap_rows, hfix c hc]

theorem takeOne_low (hm : m.small = false) {i c : ℕ} (h : c < s.k ∨ i ≤ s.k) :
    (s.takeOne m f).F i c = s.F i c := by
  unfold Front.takeOne
  dsimp only
  rw [hm, if_neg Bool.false_ne_true]
  exact eliminate1x1_other (by omega)

variable [LinearOrder K] {pc : PivotChoice} {effSmall smallPivot : K} {limit : ℕ}

theorem keeps_placed (hl : limit ≤ f) (h : Passes effSmall smallPivot s.F s.k limit pc) :
    KeepsColumns s (s.placed f w pc) := by
  cases pc with
  | one a =>
    obtain ⟨ha, hal, -⟩ := h
    exact keeps_swap le_rfl ha (by omega)
  | two a b =>
    obtain ⟨ha, hal, hb, hbl, hab, -⟩ := h
    have hpb := placed_bounds ha hb hab
    have hk : (s.swap f s.k a w).k = s.k := Front.swap_k ..
    unfold Front.placed
    dsimp only
    rw [placeTwo_eq]
    refine (keeps_swap le_rfl ha (by omega)).trans (keeps_swap ?_ ?_ ?_) hk.ge
    all_goals
      rw [hk]
      omega

theorem takeTwo_low (hm : m.small = false) {i c : ℕ} (h : c < s.k ∨ i ≤ s.k + 1) :
    (s.takeTwo m f).F i c = s.F i c := by
  unfold Front.takeTwo
  dsimp only
  rw [hm, if_neg Bool.false_ne_true]
  exact eliminate2x2_other (by omega)

/-- The pivot taken adds its block. -/
theorem BlocksOf.taken {bs : List (FrontDiagBlock K)} (h : BlocksOf bs s)
    (ht : Tagged s.tags s.k) (hm : m.small = false) (hl : limit ≤ f)
    (hpass : Passes effSmall smallPivot s.F s.k limit pc) :
    BlocksOf (bs ++ [(s.placed f m.wCols pc).blockAt pc]) (s.taken m f pc) := by
  have hplaced := keeps_placed (w := m.wCols) hl hpass
  cases pc with
  | one a =>
    obtain ⟨s1, hs1⟩ : ∃ s1, s1 = s.swap f s.k a m.wCols := ⟨_, rfl⟩
    have hk : s1.k = s.k := by rw [hs1, Front.swap_k]
    change KeepsColumns s (s.swap f s.k a m.wCols) at hplaced
    change BlocksOf (bs ++ [(s.swap f s.k a m.wCols).blockAt _])
      ((s.swap f s.k a m.wCols).takeOne m f)
    rw [← hs1] at hplaced ⊢
    have htag : (s1.takeOne m f).tags s.k = 1 := by
      rw [← hk]
      exact Function.update_self _ _ _
    -- the elimination changes no column before `k`
    have hkeep : KeepsColumns s1 (s1.takeOne m f) :=
      ⟨fun i c _ hi => takeOne_low hm (Or.inr hi.le), fun _ _ => rfl,
        fun c hc => Function.update_of_ne hc.ne _ _⟩
    refine h.append (n := 1) ht (hplaced.trans hkeep hk.ge) (by rw [← hk]; rfl) ?_ ?_ ?_
    · rw [List.range'_one, List.map_singleton, Front.column, htag, if_neg (by decide),
        takeOne_low hm (Or.inr hk.ge)]
      change [(s1.F s1.k s1.k, (0 : K))] = _
      rw [hk]
    · rw [List.range'_one, List.map_singleton]
      exact congrArg (fun k => [s1.rows k]) hk
    · rw [List.range'_one, List.map_singleton, htag]
      rfl
  | two a b =>
    obtain ⟨s1, hs1⟩ : ∃ s1, s1 = s.placeTwo f a b m.wCols := ⟨_, rfl⟩
    have hk : s1.k = s.k := by rw [hs1, Front.placeTwo_k]
    change KeepsColumns s (s.placeTwo f a b m.wCols) at hplaced
    change BlocksOf (bs ++ [(s.placeTwo f a b m.wCols).blockAt _])
      ((s.placeTwo f a b m.wCols).takeTwo m f)
    rw [← hs1] at hplaced ⊢
    -- the two columns are tagged as one block
    have htag1 : (s1.takeTwo m f).tags (s.k + 1) = -1 := by
      rw [← hk]
      exact Function.update_self _ _ _
    have htag : (s1.takeTwo m f).tags s.k = 2 := by
      rw [← hk]
      exact (Function.update_of_ne (by omega) _ _).trans (Function.update_self _ _ _)
    have hkeep : KeepsColumns s1 (s1.takeTwo m f) :=
      ⟨fun i c _ hi => takeTwo_low hm (Or.inr (by omega)), fun _ _ => rfl, fun c hc =>
        (Function.update_of_ne (by omega) _ _).trans (Function.update_of_ne hc.ne _ _)⟩
    refine h.append (n := 2) ht (hplaced.trans hkeep hk.ge) (by rw [← hk]; rfl) ?_ ?_ ?_
    · rw [List.range'_succ, List.range'_one, List.map_cons, List.map_singleton, Front.column,
        Front.column, htag, htag1, if_pos rfl, if_neg (by decide),
        takeTwo_low hm (Or.inr (by omega)), takeTwo_low hm (Or.inr (by omega)),
        takeTwo_low hm (Or.inr (by omega))]
      change [(s1.F s1.k s1.k, s1.F (s1.k + 1) s1.k), (s1.F (s1.k + 1) (s1.k + 1), (0 : K))] = _
      rw [hk]
    · rw [List.range'_succ, List.range'_one, List.map_cons, List.map_singleton]
      exact congrArg (fun k => [s1.rows k, s1.rows (k + 1)]) hk
    · rw [List.range'_succ, List.range'_one, List.map_cons, List.map_singleton, htag, htag1]
      rfl

end Keeps

/-! ## 5. What the working front stands for -/

section Invariant

variable {K : Type*} [Field K] [LinearOrder K]

/-- The working front stands for the given one under the permutation `σ` of its eligible rows:
columns before `pl` are current, the others have received the pivots before `ps`. -/
structure FrontStands (front : NumericFront K) (σ : Equiv.Perm ℕ) (s : FrontWork K) (pl ps : ℕ) :
    Prop where
  core : Core (fun i j => symAt front.data (σ i) (σ j)) front.numRows front.numRows 0
    (s.toFront.lazy pl ps)
  k_le : s.k ≤ front.numEligible
  fixed : ∀ i, front.numEligible ≤ i → σ i = i
  rows_eq : ∀ i, s.rows i = front.rowIds.getD (σ i) 0
  blocks : BlocksOf s.dBlocks s.toFront

variable {front : NumericFront K} {σ : Equiv.Perm ℕ} {s s' : FrontWork K} {pl ps limit : ℕ}
  {m : PivotMode} {pc : PivotChoice} {u effSmall smallPivot : K}

omit [LinearOrder K] in
theorem frontStands_start (ws : ℕ → ℕ → K) :
    FrontStands front (Equiv.refl ℕ) (front.start ws) front.numRows 0 := by
  refine ⟨⟨fun i j => symAt_comm _ _ _, nofun, nofun, le_rfl, le_rfl, Nat.zero_le _, le_rfl, nofun,
    fun i j _ hji _ => ?_, fun h => absurd h (lt_irrefl _)⟩, Nat.zero_le _, fun _ _ => rfl,
    fun _ => rfl, ⟨rfl, rfl, rfl⟩⟩
  have hbase : ((front.start ws).toFront.lazy front.numRows 0).base front.numRows 0 j = 0 := by
    unfold Lazy.base
    exact (if_congr Iff.rfl rfl (ite_self _)).trans (ite_self _)
  rw [hbase, BlockLdl.product_zero, zero_add]
  exact symAt_of_le hji

/-- Where the pivot rows go. -/
def pivotPerm (k : ℕ) : PivotChoice → Equiv.Perm ℕ
  | .one a => Equiv.swap k a
  | .two a b => placed k a b

theorem FrontStands.placed (h : FrontStands front σ s pl ps) (hl : limit ≤ front.numEligible)
    (cur : ∀ j, s.k ≤ j → j < limit →
      (s.toFront.lazy pl ps).base front.numRows 0 j = s.k)
    {w : ℕ} (hw : pl < front.numRows → w = s.k - ps)
    (hpass : Passes effSmall smallPivot s.F s.k limit pc) :
    Core (fun i j => symAt front.data (σ (pivotPerm s.k pc i)) (σ (pivotPerm s.k pc j)))
        front.numRows front.numRows 0 ((s.toFront.placed front.numRows w pc).lazy pl ps) ∧
      (∀ i, front.numEligible ≤ i → pivotPerm s.k pc i = i) ∧
      ∀ i, (s.toFront.placed front.numRows w pc).rows i = s.rows (pivotPerm s.k pc i) := by
  have hf := front.eligible_le
  have hrows : front.rowIds.length = front.numRows := rfl
  cases pc with
  | one a =>
    obtain ⟨ha, hal, -⟩ := hpass
    refine ⟨h.core.swap le_rfl ha (show s.k < front.numRows by omega)
      (show a < front.numRows by omega) (fun j hkj hj => cur j hkj ?_) hw, fun i hi => ?_,
      fun i => swap_rows ..⟩
    · have hj : j ≤ max s.k a := hj
      omega
    · exact Equiv.swap_apply_of_ne_of_ne (by omega) (by omega)
  | two a b =>
    obtain ⟨ha, hal, hb, hbl, hab, -⟩ := hpass
    have hpb := placed_bounds ha hb hab
    have hk : (s.toFront.swap front.numRows s.k a w).k = s.k := Front.swap_k ..
    have hplace : s.toFront.placeTwo front.numRows a b w =
        (s.toFront.swap front.numRows s.k a w).swap front.numRows (s.k + 1)
          (partnerAt s.k a b) w := placeTwo_eq s.toFront
    have hbase : ∀ j, ((s.toFront.swap front.numRows s.k a w).lazy pl ps).base front.numRows 0 j =
        (s.toFront.lazy pl ps).base front.numRows 0 j := by
      intro j
      unfold Lazy.base
      rw [hk]
    have hswap := h.core.swap (w := w) le_rfl ha (show s.k < front.numRows by omega)
      (show a < front.numRows by omega)
      (fun j hkj (hj : j ≤ max s.k a) => cur j hkj (by omega)) hw
    -- the partner may have moved with the first swap
    have hswap2 := hswap.swap (p := s.k + 1) (q := partnerAt s.k a b) (w := w)
      (by rw [hk]; omega) (by rw [hk]; omega) (by omega) (by omega)
      (fun j hkj hj => by
        rw [hk] at hkj ⊢
        exact (hbase j).trans (cur j hkj (by omega)))
      fun hpl => by rw [hk]; exact hw hpl
    refine ⟨?_, fun i hi => ?_, fun i => ?_⟩
    · change Core _ _ _ _ ((s.toFront.placeTwo front.numRows a b w).lazy pl ps)
      rw [hplace]
      exact hswap2
    · change Equiv.swap s.k a (Equiv.swap (s.k + 1) (partnerAt s.k a b) i) = i
      rw [Equiv.swap_apply_of_ne_of_ne (a := s.k + 1) (by omega) (by omega),
        Equiv.swap_apply_of_ne_of_ne (by omega) (by omega)]
    · change (s.toFront.placeTwo front.numRows a b w).rows i = _
      rw [hplace, swap_rows, swap_rows]
      rfl

variable [IsStrictOrderedRing K]

/-- A chosen pivot of current columns keeps the front standing for the given one. -/
theorem FrontStands.taken (h : FrontStands front σ s pl ps) (hl : limit ≤ front.numEligible)
    (cur : ∀ j, s.k ≤ j → j < limit → (s.toFront.lazy pl ps).base front.numRows 0 j = s.k)
    (hm : m.small = false) (mode : Updates front.numRows front.numRows m (s.toFront.lazy pl ps))
    (heff : 0 < effSmall) (hsmall : 0 ≤ smallPivot)
    (hpass : Passes effSmall smallPivot s.F s.k limit pc)
    (hfront : s'.toFront = s.toFront.taken m front.numRows pc)
    (hblocks : s'.dBlocks =
      s.dBlocks ++ [(s.toFront.placed front.numRows m.wCols pc).blockAt pc]) :
    FrontStands front ((pivotPerm s.k pc).trans σ) s' pl ps := by
  have hf := front.eligible_le
  have hrows : front.rowIds.length = front.numRows := rfl
  have hlf : limit ≤ front.numRows := by omega
  obtain ⟨hcore, hfix, hrow⟩ := h.placed hl cur (w := m.wCols) (fun hpl => (mode.save hpl).2) hpass
  -- the columns that may be chosen are up to date, also once the pivot is in place
  have hbase : ∀ s1 : Front K, s1.k = s.k → ∀ j, s.k ≤ j → j < limit →
      (s1.lazy pl ps).base front.numRows 0 j = s.k := by
    intro s1 hk j hkj hj
    have := cur j hkj hj
    unfold Lazy.base at this ⊢
    rw [hk]
    exact this
  have hmode : ∀ s1 : Front K, s1.k = s.k →
      Updates front.numRows front.numRows m (s1.lazy pl ps) := fun s1 hk =>
    ⟨mode.reach, fun hpl => ⟨(mode.save hpl).1, by rw [hk]; exact (mode.save hpl).2⟩⟩
  -- the block of `D` is recorded before the step eliminates it
  have hB := h.blocks.taken h.core.tagged hm hlf hpass
  rw [← hblocks, ← hfront] at hB
  have htake : Core (fun i j => symAt front.data (σ (pivotPerm s.k pc i))
      (σ (pivotPerm s.k pc j))) front.numRows front.numRows 0 (s'.toFront.lazy pl ps) ∧
      s'.k ≤ front.numEligible ∧ ∀ i, s'.rows i = s.rows (pivotPerm s.k pc i) := by
    rw [hfront]
    cases pc with
    | one a =>
      have hk : (s.toFront.swap front.numRows s.k a m.wCols).k = s.k := Front.swap_k ..
      -- the pivot passed the test, so it is not zero
      obtain ⟨ha, hal, hnz⟩ := hpass
      refine ⟨hcore.takeOne ?_ ?_ ?_ (hmode _ hk), ?_, hrow⟩
      · change (s.toFront.swap front.numRows s.k a m.wCols).k < _
        omega
      · change Lazy.base _ _ _ (s.toFront.swap front.numRows s.k a m.wCols).k =
          (s.toFront.swap front.numRows s.k a m.wCols).k
        rw [hk]
        exact hbase _ hk s.k le_rfl (by omega)
      · change (s.toFront.swap front.numRows s.k a m.wCols).F
          (s.toFront.swap front.numRows s.k a m.wCols).k
          (s.toFront.swap front.numRows s.k a m.wCols).k ≠ 0
        rw [hk, ← symAt_self (F := Front.F _), swap_F _ (by omega) (by omega),
          Equiv.swap_apply_left, symAt_self]
        exact abs_pos.mp (heff.trans_le hnz)
      · change (s.toFront.swap front.numRows s.k a m.wCols).k + 1 ≤ _
        omega
    | two a b =>
      have hk : (s.toFront.placeTwo front.numRows a b m.wCols).k = s.k := Front.placeTwo_k ..
      -- the determinant test is made on the entries the swaps put in place
      have hdet := placed_pivotDet (w := m.wCols) hlf hsmall hpass
      obtain ⟨ha, hal, hb, hbl, hab, -⟩ := hpass
      refine ⟨hcore.takeTwo ?_ ?_ ?_ ?_ (hmode _ hk), ?_, hrow⟩
      · change (s.toFront.placeTwo front.numRows a b m.wCols).k + 1 < _
        omega
      · change Lazy.base _ _ _ (s.toFront.placeTwo front.numRows a b m.wCols).k =
          (s.toFront.placeTwo front.numRows a b m.wCols).k
        rw [hk]
        exact hbase _ hk s.k le_rfl (by omega)
      · change Lazy.base _ _ _ ((s.toFront.placeTwo front.numRows a b m.wCols).k + 1) =
          (s.toFront.placeTwo front.numRows a b m.wCols).k
        rw [hk]
        exact hbase _ hk (s.k + 1) (Nat.le_succ _) (by omega)
      · change pivotDet (s.toFront.placeTwo front.numRows a b m.wCols).F
          (s.toFront.placeTwo front.numRows a b m.wCols).k
          ((s.toFront.placeTwo front.numRows a b m.wCols).k + 1) ≠ 0
        rw [hk]
        exact hdet
      · change (s.toFront.placeTwo front.numRows a b m.wCols).k + 2 ≤ _
        omega
  refine ⟨htake.1, htake.2.1, fun i hi => ?_, fun i => ?_, hB⟩
  · rw [Equiv.trans_apply, hfix i hi]
    exact h.fixed i hi
  · rw [htake.2.2, h.rows_eq]
    rfl

theorem FrontStands.referenceStep (h : FrontStands front σ s front.numRows ps) (heff : 0 < effSmall)
    (hsmall : 0 ≤ smallPivot)
    (hs : referenceStep u effSmall smallPivot front.numRows front.numEligible s = some s') :
    ∃ σ', FrontStands front σ' s' front.numRows ps := by
  obtain ⟨pc, hpc, rfl⟩ := Option.map_eq_some_iff.mp hs
  rw [referenceSearch_eq] at hpc
  have hpass := findSome_passes le_rfl hpc
  have hf : front.numEligible ≤ front.numRows := front.eligible_le
  exact ⟨_, h.taken le_rfl (fun j _ hj => if_pos (show j < front.numRows by omega)) rfl
    ⟨Or.inr ⟨rfl, rfl⟩, fun hlt => absurd hlt (lt_irrefl _)⟩ heff hsmall hpass
    (takeReference_front hf hsmall hpass) takeReference_dBlocks⟩

/-- A pivot of the blocked kernel that updates the columns before `pl`. -/
theorem FrontStands.tryStepWithin (h : FrontStands front σ s pl ps) (heff : 0 < effSmall)
    (hsmall : 0 ≤ smallPivot) (hl : limit ≤ front.numEligible)
    (cur : ∀ j, s.k ≤ j → j < limit → (s.toFront.lazy pl ps).base front.numRows 0 j = s.k)
    (hs : tryStepWithin u effSmall smallPivot front.numRows front.numEligible ps limit pl s =
      some s') : (∃ σ', FrontStands front σ' s' pl ps) ∧ s'.k ≤ limit := by
  obtain ⟨pc, hpc, rfl⟩ := Option.map_eq_some_iff.mp hs
  have hpass := findSome_passes hl hpc
  have hf : limit ≤ front.numRows := hl.trans front.eligible_le
  have hfront : (s.takeBlocked effSmall smallPivot front.numRows ps pl pc).toFront =
      s.toFront.taken ⟨false, pl, true, s.k - ps⟩ front.numRows pc :=
    takeBlocked_front hf hsmall hpass
  refine ⟨⟨_, h.taken hl cur rfl ⟨Or.inr ⟨rfl, rfl⟩, fun _ => ⟨rfl, rfl⟩⟩ heff hsmall hpass hfront
    takeBlocked_dBlocks⟩, ?_⟩
  rw [hfront]
  cases pc with
  | one a =>
    obtain ⟨ha, hal, -⟩ := hpass
    change (s.toFront.swap front.numRows s.k a (s.k - ps)).k + 1 ≤ limit
    rw [Front.swap_k]
    omega
  | two a b =>
    obtain ⟨ha, hal, hb, hbl, hab, -⟩ := hpass
    change (s.toFront.placeTwo front.numRows a b (s.k - ps)).k + 2 ≤ limit
    rw [Front.placeTwo_k]
    omega

omit [LinearOrder K] [IsStrictOrderedRing K] in
/-- A panel starts: the columns from `pl` on wait for its pivots. -/
theorem FrontStands.panel (h : FrontStands front σ s front.numRows ps) (hpl : pl ≤ front.numRows) :
    FrontStands front σ s pl s.k :=
  ⟨h.core.panel rfl hpl, h.k_le, h.fixed, h.rows_eq, h.blocks⟩

omit [LinearOrder K] [IsStrictOrderedRing K] in
/-- The flush is the update of the waiting columns, also where the source skips it. -/
theorem flushPanel_eq (f ps col : ℕ) (s : FrontWork K) :
    s.flushPanel f ps col = { s with toFront := s.toFront.deferred f ps col f } := by
  unfold FrontWork.flushPanel
  split_ifs with hno
  · have hF : (s.toFront.deferred f ps col f).F = s.F := by
      funext i j
      change (if col ≤ j ∧ j < f ∧ j ≤ i ∧ i < f then _ else _) = s.F i j
      rcases hno with hk | hcol
      · rw [Nat.sub_eq_zero_of_le hk, sum_range_zero, sub_zero, ite_self]
      · exact if_neg (by omega)
    exact congrArg (fun F => { s with F := F }) hF.symm
  · rfl

omit [LinearOrder K] [IsStrictOrderedRing K] in
/-- The flush makes every column current. -/
theorem FrontStands.flushPanel (h : FrontStands front σ s pl ps) (hpl : pl ≤ front.numRows)
    {col : ℕ}
    (hcol : col = max pl s.k) :
    FrontStands front σ (s.flushPanel front.numRows ps col) front.numRows ps := by
  rw [flushPanel_eq, hcol]
  have hkf : s.k ≤ front.numRows := h.core.k_le
  have hkeep : KeepsColumns s.toFront
      (s.toFront.deferred front.numRows ps (max pl s.k) front.numRows) :=
    ⟨fun i c hci hi => if_neg (by omega), fun _ _ => rfl, fun _ _ => rfl⟩
  exact ⟨h.core.deferred hpl, h.k_le, h.fixed, h.rows_eq, h.blocks.keep h.core.tagged hkeep rfl⟩

/-! ## 6. The loops -/

theorem FrontStands.referenceLoop (h : FrontStands front σ s front.numRows ps) (heff : 0 < effSmall)
    (hsmall : 0 ≤ smallPivot) :
    ∃ σ', FrontStands front σ'
      (referenceLoop u effSmall smallPivot front.numRows front.numEligible s) front.numRows ps := by
  fun_induction Kernel.referenceLoop u effSmall smallPivot front.numRows front.numEligible s
    generalizing σ with
  | case1 s hk hs => exact ⟨σ, h⟩
  | case2 s hk s' hs ih =>
    obtain ⟨σ', h'⟩ := h.referenceStep heff hsmall hs
    exact ih h'
  | case3 s hk => exact ⟨σ, h⟩

theorem FrontStands.frontPanel (h : FrontStands front σ s pl ps) (heff : 0 < effSmall)
    (hsmall : 0 ≤ smallPivot) (hl : pl ≤ front.numEligible) (hk : s.k ≤ pl) :
    (∃ σ', FrontStands front σ'
        (frontPanel u effSmall smallPivot front.numRows front.numEligible ps pl s) pl ps) ∧
      (frontPanel u effSmall smallPivot front.numRows front.numEligible ps pl s).k ≤ pl := by
  fun_induction Kernel.frontPanel u effSmall smallPivot front.numRows front.numEligible ps pl s
    generalizing σ with
  | case1 s hk' hs => exact ⟨⟨σ, h⟩, hk⟩
  | case2 s hk' s' hs ih =>
    obtain ⟨⟨σ', h'⟩, hle⟩ := h.tryStepWithin heff hsmall hl (fun j _ hj => if_pos hj) hs
    exact ih h' hle
  | case3 s hk' => exact ⟨⟨σ, h⟩, hk⟩

theorem FrontStands.blockedLoop {nb : ℕ} (hnb : 1 < nb) (heff : 0 < effSmall)
    (hsmall : 0 ≤ smallPivot)
    (s : FrontWork K) (σ : Equiv.Perm ℕ) (ps : ℕ) (h : FrontStands front σ s front.numRows ps) :
    ∃ σ' ps', FrontStands front σ'
      (blockedLoop u effSmall smallPivot front.numRows front.numEligible nb hnb s)
        front.numRows ps' := by
  have hf : front.numEligible ≤ front.numRows := front.eligible_le
  fun_induction Kernel.blockedLoop u effSmall smallPivot front.numRows front.numEligible nb hnb s
    generalizing σ ps with
  | case1 s hk pl s1 hst hs =>
    obtain ⟨⟨σ1, h1⟩, hle⟩ := (h.panel (show pl ≤ front.numRows by omega)).frontPanel
      (u := u) heff hsmall (show pl ≤ front.numEligible by omega) (show s.k ≤ pl by omega)
    exact ⟨σ1, s.k, h1.flushPanel (by omega) (max_eq_left hle).symm⟩
  | case2 s hk pl s1 hst s2 hs ih =>
    obtain ⟨⟨σ1, h1⟩, hle⟩ := (h.panel (show pl ≤ front.numRows by omega)).frontPanel
      (u := u) heff hsmall (show pl ≤ front.numEligible by omega) (show s.k ≤ pl by omega)
    have hflush : FrontStands front σ1 s1 front.numRows s.k :=
      h1.flushPanel (by omega) (max_eq_left hle).symm
    -- every eligible column is current: the step has a panel of no columns
    have hcur : ∀ j, s1.k ≤ j → j < front.numEligible →
        (s1.toFront.lazy s1.k s1.k).base front.numRows 0 j = s1.k := by
      intro j hkj hj
      unfold Lazy.base
      rw [if_neg (by simpa using hkj), if_pos (by omega)]
    have hk1 := hflush.k_le
    obtain ⟨⟨σ2, h2⟩, -⟩ :=
      (hflush.panel (show s1.k ≤ front.numRows by omega)).tryStepWithin heff hsmall le_rfl hcur hs
    have hk2 : s1.k < s2.k := tryStepWithin_k hs
    exact ih _ _ (h2.flushPanel (by omega) (max_eq_right hk2.le).symm)
  | case3 s hk pl s1 hst ih =>
    obtain ⟨⟨σ1, h1⟩, hle⟩ := (h.panel (show pl ≤ front.numRows by omega)).frontPanel
      (u := u) heff hsmall (show pl ≤ front.numEligible by omega) (show s.k ≤ pl by omega)
    exact ih _ _ (h1.flushPanel (by omega) (max_eq_left hle).symm)
  | case4 s hk => exact ⟨σ, ps, h⟩

end Invariant

end SmfSolver.Kernel
