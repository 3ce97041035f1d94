/-
The inertia that `ldlt_aptp_front` reports (`front_result` of `ldlt_aptp.cpp`,
`add_inertia_2x2` of `dense_indef.cpp`).

Complete pivoting compares the largest entry of a block with `small`, the counts compare the
pivot.  The two agree when the largest entry is the pivot; a pivot taken from the diagonal of a
larger off-diagonal entry may be below `small`, and is then counted as a zero eigenvalue though it
was eliminated.  `ldltAptpFront_inertia` says for which runs that does not happen, by the blocks
that complete pivoting stands before (`aptpTrace`).
-/
import SmfSolver.Kernel.AptpTrace

namespace SmfSolver.Kernel

section Counts

variable {K : Type*} [Field K] [LinearOrder K]

/-- A 1x1 pivot by its sign. -/
def countSign (d : K) (c : InertiaCounts) : InertiaCounts :=
  if 0 < d then { c with positive := c.positive + 1 } else { c with negative := c.negative + 1 }

/-- A 2x2 pivot by its determinant and its trace. -/
def countSigns (d00 d10 d11 : K) (c : InertiaCounts) : InertiaCounts :=
  if d00 * d11 - d10 * d10 < 0 then
    { c with positive := c.positive + 1, negative := c.negative + 1 }
  else if 0 < d00 + d11 then { c with positive := c.positive + 2 }
  else { c with negative := c.negative + 2 }

/-- `inertia_from_d` of the kernel's tests: the inertia of the pivots in `D`. -/
def inertiaFromD (F : ℕ → ℕ → K) (tags : ℕ → ℤ) (pe k : ℕ) (c : InertiaCounts) : InertiaCounts :=
  if k < pe then
    if tags k = 2 then
      inertiaFromD F tags pe (k + 2) (countSigns (F k k) (F (k + 1) k) (F (k + 1) (k + 1)) c)
    else inertiaFromD F tags pe (k + 1) (countSign (F k k) c)
  else c
termination_by pe - k

/-- The pivot that complete pivoting chooses in the block is counted with its sign: the largest
entry stands on the diagonal, or it spans a 2x2 whose determinant is above `small` at the scale of
that entry, or the larger of its two diagonals reaches `small`. -/
def CpBlock.PivotCounts (small : K) (b : CpBlock K) : Prop :=
  let m := b.largest
  let amm := b.A m.bj m.bj
  let att := b.A m.bi m.bi
  let amt := b.A m.bi m.bj
  let delta := amm * att - amt * amt
  m.bi = m.bj ∨ (0.5 * amt * amt ≤ |delta| ∧ small * (amt * amt) < |delta|) ∨
    (|delta| < 0.5 * amt * amt ∧ small ≤ max |amm| |att|)

variable [IsStrictOrderedRing K] {small d d00 d10 d11 : K} {b : CpBlock K} {a e : ℕ}
  {c : InertiaCounts}

theorem CpBlock.pivotCounts_one (h : b.Open small) (hch : b.choice = .one a) :
    b.PivotCounts small ↔ small ≤ |b.A a a| := by
  obtain ⟨-, -, -, heq, -⟩ := h.largest
  have hsmall : small ≤ |b.A b.largest.bi b.largest.bj| := heq ▸ h.2
  unfold CpBlock.choice at hch
  unfold CpBlock.PivotCounts
  dsimp only at hch ⊢
  split_ifs at hch with hdiag hdet hcmp
  · obtain rfl : b.largest.bj = a := by simpa using hch
    rw [hdiag] at hsmall
    exact ⟨fun _ => hsmall, fun _ => Or.inl hdiag⟩
  all_goals
    rw [not_le] at hdet
    constructor
    · rintro (h1 | ⟨h1, -⟩ | ⟨-, h1⟩)
      · exact absurd h1 hdiag
      · exact absurd h1 (not_le.mpr hdet)
      · obtain rfl : _ = a := by simpa using hch
        first
          | rwa [max_eq_right hcmp.le] at h1
          | rwa [max_eq_left (not_lt.mp hcmp)] at h1
    · intro h1
      obtain rfl : _ = a := by simpa using hch
      refine Or.inr (Or.inr ⟨hdet, ?_⟩)
      first
        | rwa [max_eq_right hcmp.le]
        | rwa [max_eq_left (not_lt.mp hcmp)]

omit [IsStrictOrderedRing K] in
theorem CpBlock.pivotCounts_two (small : K) (hch : b.choice = .two a e) : b.PivotCounts small ↔
    small * (b.A e a * b.A e a) < |b.A a a * b.A e e - b.A e a * b.A e a| := by
  unfold CpBlock.choice at hch
  unfold CpBlock.PivotCounts
  dsimp only at hch ⊢
  split_ifs at hch with hdiag hdet
  obtain ⟨rfl, rfl⟩ : b.largest.bj = a ∧ b.largest.bi = e := by simpa using hch
  constructor
  · rintro (h1 | ⟨-, h1⟩ | ⟨h1, -⟩)
    · exact absurd h1 hdiag
    · exact h1
    · exact absurd hdet (not_le.mpr h1)
  · exact fun h1 => Or.inr (Or.inl ⟨hdet, h1⟩)

omit [IsStrictOrderedRing K] in
/-- A pivot that reaches `small` is counted with its sign. -/
theorem addInertia1x1_sign (hd : small ≤ |d|) : addInertia1x1 d small c = countSign d c :=
  if_neg (not_lt.mpr hd)

omit [IsStrictOrderedRing K] in
theorem addInertia1x1_zero (hd : |d| < small) :
    addInertia1x1 d small c = { c with zero := c.zero + 1 } := if_pos hd

/-- The scaled determinant of a 2x2 pivot whose largest entry is the off-diagonal. -/
theorem scaled_det (h10 : d10 ≠ 0) (h0 : |d00| ≤ |d10|) (h1 : |d11| ≤ |d10|) :
    d00 / max (max |d00| |d10|) |d11| * (d11 / max (max |d00| |d10|) |d11|) -
        d10 / max (max |d00| |d10|) |d11| * (d10 / max (max |d00| |d10|) |d11|) =
      (d00 * d11 - d10 * d10) / (d10 * d10) := by
  have hs : max (max |d00| |d10|) |d11| = |d10| := by rw [max_eq_right h0, max_eq_left h1]
  have habs : |d10| ≠ 0 := abs_ne_zero.mpr h10
  rw [hs, div_mul_div_comm, div_mul_div_comm, ← sub_div, abs_mul_abs_self]

theorem det_nonpos (h0 : |d00| ≤ |d10|) (h1 : |d11| ≤ |d10|) : d00 * d11 - d10 * d10 ≤ 0 := by
  have hle : |d00| * |d11| ≤ |d10| * |d10| := mul_le_mul h0 h1 (abs_nonneg _) (abs_nonneg _)
  rw [abs_mul_abs_self, ← abs_mul] at hle
  linarith [le_abs_self (d00 * d11)]

/-- A 2x2 pivot far from singular is counted as one positive and one negative. -/
theorem addInertia2x2_sign (h10 : d10 ≠ 0) (h0 : |d00| ≤ |d10|) (h1 : |d11| ≤ |d10|)
    (hdet : small * (d10 * d10) < |d00 * d11 - d10 * d10|) :
    addInertia2x2 d00 d10 d11 small c =
      { c with positive := c.positive + 1, negative := c.negative + 1 } := by
  have hpos : 0 < d10 * d10 := mul_self_pos.mpr h10
  have hs : max (max |d00| |d10|) |d11| ≠ 0 := by
    rw [max_eq_right h0, max_eq_left h1]
    exact abs_ne_zero.mpr h10
  rw [abs_of_nonpos (det_nonpos h0 h1)] at hdet
  have hneg : (d00 * d11 - d10 * d10) / (d10 * d10) < -small := by
    rw [div_lt_iff₀ hpos]
    linarith
  unfold addInertia2x2
  dsimp only
  rw [if_neg h10, if_neg hs, scaled_det h10 h0 h1, if_pos hneg]

/-- Any other is counted with at least one zero. -/
theorem addInertia2x2_zero (h10 : d10 ≠ 0) (h0 : |d00| ≤ |d10|) (h1 : |d11| ≤ |d10|)
    (hdet : |d00 * d11 - d10 * d10| ≤ small * (d10 * d10)) :
    c.zero < (addInertia2x2 d00 d10 d11 small c).zero := by
  have hpos : 0 < d10 * d10 := mul_self_pos.mpr h10
  have hs : max (max |d00| |d10|) |d11| ≠ 0 := by
    rw [max_eq_right h0, max_eq_left h1]
    exact abs_ne_zero.mpr h10
  have hsmall : |(d00 * d11 - d10 * d10) / (d10 * d10)| ≤ small := by
    rw [abs_div, abs_of_pos hpos, div_le_iff₀ hpos]
    exact hdet
  have hneg : ¬(d00 * d11 - d10 * d10) / (d10 * d10) < -small := not_lt.mpr (abs_le.mp hsmall).1
  unfold addInertia2x2
  dsimp only
  rw [if_neg h10, if_neg hs, scaled_det h10 h0 h1, if_neg hneg, if_pos hsmall]
  split_ifs <;> exact Nat.lt_add_of_pos_right (by norm_num)

omit [IsStrictOrderedRing K] in
theorem addInertia1x1_le (d small : K) (c : InertiaCounts) :
    c.zero ≤ (addInertia1x1 d small c).zero := by
  unfold addInertia1x1
  split_ifs <;> simp

omit [IsStrictOrderedRing K] in
theorem addInertia2x2_le (d00 d10 d11 small : K) (c : InertiaCounts) :
    c.zero ≤ (addInertia2x2 d00 d10 d11 small c).zero := by
  unfold addInertia2x2
  by_cases h10 : d10 = 0
  · rw [if_pos h10]
    exact (addInertia1x1_le d00 small c).trans (addInertia1x1_le d11 small _)
  · rw [if_neg h10]
    dsimp only
    split_ifs <;> simp

end Counts

section Front

variable {K : Type*} [Field K] [LinearOrder K] {F : ℕ → ℕ → K} {tags : ℕ → ℤ}
  {chosen : ℕ → Option (CpBlock K)} {f pe k : ℕ} {small : K} {res : AptpResult} {c : InertiaCounts}

theorem countPivots_zero_le (res : AptpResult) :
    res.inertia.zero ≤ (countPivots F tags f pe small k res).inertia.zero := by
  fun_induction countPivots F tags f pe small k res with
  | case1 k res hlt h2 rem ih => exact (addInertia2x2_le _ _ _ _ _).trans ih
  | case2 k res hlt h2 rem ih => exact (addInertia1x1_le _ _ _).trans ih
  | case3 k res hge => exact le_rfl

/-- The signs of whole pivots count every column once. -/
theorem inertiaFromD_total (hpe : Tagged tags pe) (hk : Tagged tags k) (hkp : k ≤ pe)
    (c : InertiaCounts) :
    (inertiaFromD F tags pe k c).positive + (inertiaFromD F tags pe k c).negative =
        c.positive + c.negative + (pe - k) ∧
      (inertiaFromD F tags pe k c).zero = c.zero := by
  fun_induction inertiaFromD F tags pe k c with
  | case1 k c hlt h2 ih =>
    have hlt1 := hpe.pair_lt hlt h2
    obtain ⟨htotal, hzero⟩ := ih (hpe.after_two hlt h2) hlt1
    rw [htotal, hzero]
    unfold countSigns
    split_ifs <;> exact ⟨by dsimp only; omega, rfl⟩
  | case2 k c hlt h2 ih =>
    obtain ⟨htotal, hzero⟩ := ih (hpe.after_one hlt h2) hlt
    rw [htotal, hzero]
    unfold countSign
    split_ifs <;> exact ⟨by dsimp only; omega, rfl⟩
  | case3 k c hge => exact ⟨by omega, rfl⟩

variable [IsStrictOrderedRing K]

/-- The pivots from `k` on whose block does not count them. -/
def Uncounted (small : K) (tags : ℕ → ℤ) (chosen : ℕ → Option (CpBlock K)) (pe k : ℕ) : Prop :=
  ∃ c, k ≤ c ∧ c < pe ∧ tags c ≠ -1 ∧ ∃ b, chosen c = some b ∧ ¬b.PivotCounts small

/-- What `front_result` counts from pivot `k` on. -/
theorem countPivots_spec (hs : 0 < small) (hpe : Tagged tags pe) (hk : Tagged tags k)
    (hpick : ∀ c < pe, Picked small F tags chosen c) (res : AptpResult) :
    (¬Uncounted small tags chosen pe k →
      (countPivots F tags f pe small k res).inertia = inertiaFromD F tags pe k res.inertia) ∧
      (Uncounted small tags chosen pe k →
        res.inertia.zero < (countPivots F tags f pe small k res).inertia.zero) := by
  fun_induction countPivots F tags f pe small k res with
  | case1 k res hlt h2 rem ih =>
    have hlt1 := hpe.pair_lt hlt h2
    have hclose : tags (k + 1) = -1 := by
      rcases hpe k hlt with h1 | ⟨-, -, h1⟩ | ⟨h1, -⟩ <;> omega
    obtain ⟨b, a, e, hb, hopen, hch, h00, h10, h11⟩ := (hpick k hlt).two h2
    have hspec := b.choice_spec hopen
    rw [hch] at hspec
    cases hspec with
    | pair ha hae hen ht haa hee hdet =>
    rw [← h00, ← h10] at haa
    rw [← h11, ← h10] at hee
    have hcounts := CpBlock.pivotCounts_two small hch
    rw [← h00, ← h10, ← h11] at hcounts
    have hne : F (k + 1) k ≠ 0 := abs_pos.mp (hs.trans_le (h10 ▸ ht))
    obtain ⟨hsame, hmore⟩ := ih (hpe.after_two hlt h2)
    -- the block of `k` is the first of those left
    have hunc : Uncounted small tags chosen pe k ↔
        ¬b.PivotCounts small ∨ Uncounted small tags chosen pe (k + 2) := by
      constructor
      · rintro ⟨c, hkc, hcp, hc1, b', hb', hno⟩
        rcases Nat.lt_or_ge c (k + 2) with hlt2 | hge2
        · obtain rfl : c = k := by
            by_contra hck
            obtain rfl : c = k + 1 := by omega
            exact hc1 hclose
          rw [hb] at hb'
          obtain rfl : b = b' := Option.some.inj hb'
          exact Or.inl hno
        · exact Or.inr ⟨c, hge2, hcp, hc1, b', hb', hno⟩
      · rintro (hno | ⟨c, hkc, hcp, hc1, b', hb', hno⟩)
        · exact ⟨k, le_rfl, hlt, by omega, b, hb, hno⟩
        · exact ⟨c, by omega, hcp, hc1, b', hb', hno⟩
    constructor
    · intro hno
      rw [hunc, not_or, not_not] at hno
      rw [hsame hno.2]
      dsimp only
      rw [addInertia2x2_sign hne haa hee (hcounts.mp hno.1)]
      have hdet0 : F k k * F (k + 1) (k + 1) - F (k + 1) k * F (k + 1) k < 0 := by
        refine lt_of_le_of_ne (det_nonpos haa hee) fun h0 => ?_
        rw [h00, h10, h11] at h0
        rw [h0, abs_zero] at hdet
        have := mul_self_pos.mpr (h10 ▸ hne)
        linarith
      conv_rhs => rw [inertiaFromD, if_pos hlt, if_pos h2, countSigns, if_pos hdet0]
    · intro hun
      rcases hunc.mp hun with hno | hrest
      · rw [hcounts, not_lt] at hno
        refine lt_of_lt_of_le ?_ (countPivots_zero_le _)
        exact addInertia2x2_zero hne haa hee hno
      · exact (addInertia2x2_le _ _ _ _ _).trans_lt (hmore hrest)
  | case2 k res hlt h2 rem ih =>
    have h1 : tags k = 1 := by
      rcases hpe.opens hk hlt with h1 | ⟨h1, -⟩
      · exact h1
      · exact absurd h1 h2
    obtain ⟨b, a, hb, hopen, hch, hd⟩ := (hpick k hlt).one h1
    have hcounts := CpBlock.pivotCounts_one hopen hch
    rw [← hd] at hcounts
    obtain ⟨hsame, hmore⟩ := ih (hpe.after_one hlt h2)
    have hunc : Uncounted small tags chosen pe k ↔
        ¬b.PivotCounts small ∨ Uncounted small tags chosen pe (k + 1) := by
      constructor
      · rintro ⟨c, hkc, hcp, hc1, b', hb', hno⟩
        rcases hkc.lt_or_eq with hgt | rfl
        · exact Or.inr ⟨c, hgt, hcp, hc1, b', hb', hno⟩
        · rw [hb] at hb'
          obtain rfl : b = b' := Option.some.inj hb'
          exact Or.inl hno
      · rintro (hno | ⟨c, hkc, hcp, hc1, b', hb', hno⟩)
        · exact ⟨k, le_rfl, hlt, by omega, b, hb, hno⟩
        · exact ⟨c, by omega, hcp, hc1, b', hb', hno⟩
    constructor
    · intro hno
      rw [hunc, not_or, not_not] at hno
      rw [hsame hno.2]
      dsimp only
      rw [addInertia1x1_sign (hcounts.mp hno.1)]
      conv_rhs => rw [inertiaFromD, if_pos hlt, if_neg h2]
    · intro hun
      rcases hunc.mp hun with hno | hrest
      · rw [hcounts, not_le] at hno
        refine lt_of_lt_of_le ?_ (countPivots_zero_le _)
        dsimp only
        rw [addInertia1x1_zero hno]
        exact Nat.lt_succ_self _
      · exact (addInertia1x1_le _ _ _).trans_lt (hmore hrest)
  | case3 k res hge =>
    refine ⟨fun _ => ?_, fun hun => ?_⟩
    · rw [inertiaFromD, if_neg hge]
    · obtain ⟨c, hkc, hcp, -⟩ := hun
      omega

/-- The inertia that `ldlt_aptp_front` reports is that of the pivots it eliminated, without zeros,
if and only if every block from which its run takes a pivot that stays counts that pivot. -/
theorem ldltAptpFront_inertia {numElig : ℕ} (prm : AptpParams K) (hs : 0 < prm.small)
    (hf : numElig ≤ f) (F : ℕ → ℕ → K) (rows tags : ℕ → ℤ) :
    let out := ldltAptpFront prm f numElig F rows tags
    (out.res.inertia = inertiaFromD out.A out.tags out.res.numEliminated 0 {} ∧
      out.res.inertia.positive + out.res.inertia.negative = out.res.numEliminated ∧
      out.res.inertia.zero = 0) ↔
    ∀ b ∈ aptpTrace prm f numElig F rows, b.PivotCounts prm.small := by
  intro out
  obtain ⟨σ, h⟩ := ldltAptpFront_factored prm hs hf F rows tags
  have hzero : Tagged out.tags 0 := fun c hc => absurd hc (Nat.not_lt_zero c)
  have hcount : out.res.inertia = (countPivots out.A out.tags f out.res.numEliminated prm.small 0
      { numEliminated := out.res.numEliminated,
        numFailed := numElig - out.res.numEliminated }).inertia :=
    congrArg AptpResult.inertia h.counted
  obtain ⟨hsame, hmore⟩ := countPivots_spec (f := f) hs h.tagged hzero h.picked
    { numEliminated := out.res.numEliminated, numFailed := numElig - out.res.numEliminated }
  rw [← hcount] at hsame hmore
  obtain ⟨htotal, hnone⟩ := inertiaFromD_total (F := out.A) h.tagged hzero (Nat.zero_le _) {}
  have htrace := fun b => mem_aptpTrace (b := b) hs hf F rows tags
  -- one zero pivot among those that stay already makes the counts differ, by `hmore`
  constructor
  · rintro ⟨-, -, h0⟩ b hb
    obtain ⟨c, hc, hne, hch⟩ := (htrace b).mp hb
    by_contra hno
    have hlt : 0 < out.res.inertia.zero := hmore ⟨c, Nat.zero_le c, hc, hne, b, hch, hno⟩
    omega
  · intro hall
    have heq := hsame fun ⟨c, _, hc, hne, b, hb, hno⟩ =>
      hno (hall b ((htrace b).mpr ⟨c, hc, hne, hb⟩))
    refine ⟨heq, ?_, ?_⟩
    · rw [heq]
      refine htotal.trans ?_
      change 0 + 0 + (out.res.numEliminated - 0) = out.res.numEliminated
      omega
    · rw [heq]
      exact hnone

/-- A front of default parameters whose largest entry, off the diagonal, is just `small`: its
pivot `4 / 5 * small` is eliminated and counted as a zero eigenvalue. -/
theorem ldltAptpFront_inertia_small :
    let out := ldltAptpFront ⟨1 / 100, 128, 32, 1 / 10 ^ 20⟩ 2 2
      (fun i j => if i = j then 4 / 5 / 10 ^ 20 else (1 / 10 ^ 20 : ℚ)) (fun i => i) (fun _ => 0)
    ¬(out.res.inertia = inertiaFromD out.A out.tags out.res.numEliminated 0 {} ∧
      out.res.inertia.positive + out.res.inertia.negative = out.res.numEliminated ∧
      out.res.inertia.zero = 0) := by
  decide +kernel

/-- A 3x3 front in tiles of one column, the first of which fails its check: the run takes two
pivots that stay, and both blocks count theirs. -/
theorem ldltAptpFront_inertia_three :
    let prm : AptpParams ℚ := ⟨1 / 2, 1, 1, 1 / 10 ^ 20⟩
    let F : ℕ → ℕ → ℚ := fun i j => if i = j then (if i = 0 then 1 / 10 else 5) else i + j
    let out := ldltAptpFront prm 3 3 F (fun i => i) (fun _ => 0)
    (aptpTrace prm 3 3 F fun i => i).length = 2 ∧
      (∀ b ∈ aptpTrace prm 3 3 F fun i => i, b.PivotCounts prm.small) ∧
      out.res.inertia = inertiaFromD out.A out.tags out.res.numEliminated 0 {} ∧
      out.res.inertia.positive + out.res.inertia.negative = out.res.numEliminated ∧
      out.res.inertia.zero = 0 := by
  intro prm F out
  have hcounts : out.res.inertia = inertiaFromD out.A out.tags out.res.numEliminated 0 {} ∧
      out.res.inertia.positive + out.res.inertia.negative = out.res.numEliminated ∧
      out.res.inertia.zero = 0 := by
    decide +kernel
  refine ⟨by decide +kernel, ?_, hcounts⟩
  exact (ldltAptpFront_inertia prm (by norm_num) le_rfl F (fun i => i) fun _ => 0).mp hcounts

end Front

end SmfSolver.Kernel
