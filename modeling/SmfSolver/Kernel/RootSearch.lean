/-
Threshold pivoting on a root front: it stops only when nothing usable is left.

The search tries, per column, the 1x1, one 2x2 and the partner's 1x1.  Where the largest entry
that remains is at least `2 * effSmall`, one of them passes: a diagonal of half its size makes a
1x1 pivot, and two smaller diagonals make the 2x2 pivot at the largest entry stable.
-/
import SmfSolver.Kernel.PartialFactor

namespace SmfSolver.Kernel

variable {K : Type*} [Field K] [LinearOrder K]

section Search

variable {prm : LdltKernelParams K} {F : ℕ → ℕ → K} {f k cand r : ℕ} {x : K}

/-- A column without a pivot fails all three of its tests. -/
theorem tryColumn_none {numElig limit : ℕ} (h : tryColumn prm F f k numElig limit cand = none) :
    testDiagonal prm F f cand (max numElig (cand + 1)) (scanColumn F k numElig cand).m1 = .fails ∧
      ∀ r, partnerOf k limit (scanColumn F k numElig cand) = some r →
        testPair prm F f k numElig limit cand r = none ∧ ¬ partnerPasses prm F f k r := by
  unfold tryColumn at h
  dsimp only at h
  split at h
  case h_1 => cases h
  case h_2 => cases h
  case h_3 g r hweak hr =>
    split at h
    · cases h
    · split_ifs at h
  case h_4 hfails hnone =>
    refine ⟨hfails, fun r hr => ?_⟩
    rw [hnone] at hr
    cases hr
  case h_5 r hfails hr =>
    refine ⟨hfails, fun r' hr' => ?_⟩
    obtain rfl : r = r' := Option.some.inj (hr.symm.trans hr')
    split at h
    case h_1 => cases h
    case h_2 hpair =>
      split_ifs at h with hp
      exact ⟨hpair, hp⟩

/-- The largest entry of the scanned column is bounded where the column is. -/
theorem scanColumn_m1_le (hk : k ≤ cand) (hc : cand < f) (hx : 0 ≤ x)
    (h : ∀ i, k ≤ i → i < f → i ≠ cand → |symAt F i cand| ≤ x) :
    (scanColumn F k f cand).m1 ≤ x := by
  have hs := scanColumn_ok F k f cand
  cases hb : (scanColumn F k f cand).rBest with
  | none => rwa [hs.none_le hb]
  | some r =>
    obtain ⟨hmem, hval⟩ := hs.best r hb
    obtain ⟨h1, h2, h3⟩ := (mem_others hk hc).mp hmem
    rw [← hval]
    exact h r h1 h2 h3

variable [IsStrictOrderedRing K]

/-- On a root front a diagonal that bounds its column passes. -/
theorem testDiagonal_passes (hk : k ≤ cand) (hc : cand < f) (hu : 0 ≤ prm.u)
    (hsmall : prm.effSmall ≤ |F cand cand|) (hx : prm.u * x ≤ |F cand cand|) (hx0 : 0 ≤ x)
    (h : ∀ i, k ≤ i → i < f → i ≠ cand → |symAt F i cand| ≤ x) :
    testDiagonal prm F f cand (max f (cand + 1)) (scanColumn F k f cand).m1 ≠ .fails := by
  have hm1 := scanColumn_m1_le hk hc hx0 h
  have hnot : ¬ |F cand cand| < prm.u * (scanColumn F k f cand).m1 :=
    not_lt.mpr ((mul_le_mul_of_nonneg_left hm1 hu).trans hx)
  unfold testDiagonal
  dsimp only
  rw [if_pos ⟨hsmall, hnot⟩, if_pos fun i hi => absurd (mem_positions.mp hi) (by omega)]
  split_ifs <;> exact nofun

/-- Two diagonals below half of the entry `x` between them make a stable 2x2 pivot. -/
theorem testPair_passes (hk : k ≤ cand) (hc : cand < f) (hkr : k ≤ r) (hr : r < f) (hne : r ≠ cand)
    (hu0 : 0 ≤ prm.u) (hu : prm.u ≤ 1 / 2) (hsp : prm.smallPivot < 3 / 4) (hx : 0 < x)
    (hsmall : prm.effSmall ≤ x) (hval : |symAt F r cand| = x)
    (h0 : |F cand cand| < x / 2) (h1 : |F r r| < x / 2)
    (hmax : ∀ i j, k ≤ i → i < f → k ≤ j → j < f → |symAt F i j| ≤ x) :
    testPair prm F f k f f cand r ≠ none := by
  have hs2 : max (max |F cand cand| |symAt F r cand|) |F r r| = x := by
    have hle0 : |F cand cand| ≤ x := by linarith
    have hle1 : |F r r| ≤ x := by linarith
    rw [hval, max_eq_right hle0, max_eq_left hle1]
  have hoff0 : maxOver (scanColumn F k f cand).m2 (positions (max f (cand + 1)) f)
      (fun i => |F i cand|) ≤ x := by
    refine maxOver_le_iff.mpr ⟨?_, fun i hi => absurd (mem_positions.mp hi) (by omega)⟩
    exact (scanColumn_ok F k f cand).m2_le.trans
      (scanColumn_m1_le hk hc hx.le fun i h1 h2 _ => hmax i cand h1 h2 hk hc)
  have hoff1 : offMaxBut F f k r cand ≤ x :=
    offMaxBut_le hkr hr hx.le fun i h1 h2 _ => hmax i r h1 h2 hkr hr
  -- the scaled block `(a, b, c)` with `|b| = 1`
  have hb : |symAt F r cand / x| = 1 := by rw [abs_div, hval, abs_of_pos hx, div_self hx.ne']
  have ha : |F cand cand / x| < 1 / 2 := by
    rw [abs_div, abs_of_pos hx, div_lt_iff₀ hx]
    linarith
  have hc' : |F r r / x| < 1 / 2 := by
    rw [abs_div, abs_of_pos hx, div_lt_iff₀ hx]
    linarith
  unfold testPair twoByTwoOk
  dsimp only
  rw [if_pos (by omega), hs2, if_pos hsmall]
  generalize maxOver (scanColumn F k f cand).m2 (positions (max f (cand + 1)) f)
    (fun i => |F i cand|) = off0 at hoff0 ⊢
  generalize offMaxBut F f k r cand = off1 at hoff1 ⊢
  generalize F cand cand / x = a at ha ⊢
  generalize symAt F r cand / x = b at hb ⊢
  generalize F r r / x = c at hc' ⊢
  have hdet : 3 / 4 < |a * c - b * b| := by
    have hbb : b * b = 1 := by rw [← abs_mul_abs_self, hb, one_mul]
    have hac : |a * c| ≤ 1 / 4 := by
      rw [abs_mul]
      calc |a| * |c| ≤ 1 / 2 * (1 / 2) :=
            mul_le_mul ha.le hc'.le (abs_nonneg c) (by norm_num)
        _ = 1 / 4 := by norm_num
    have hac' : |a * c| < 1 / 4 := by
      rcases eq_or_ne c 0 with rfl | hc0
      · rw [mul_zero, abs_zero]
        norm_num
      · rw [abs_mul]
        have : |a| * |c| < 1 / 2 * |c| := mul_lt_mul_of_pos_right ha (abs_pos.mpr hc0)
        linarith
    have := (abs_lt.mp hac').2
    rw [hbb, abs_of_neg (by linarith)]
    linarith
  rw [if_pos (hsp.trans hdet)]
  have hbound : prm.u * max ((|c| * off0 + |b| * off1) / x) ((|b| * off0 + |a| * off1) / x) ≤
      3 / 4 := by
    have hle : max ((|c| * off0 + |b| * off1) / x) ((|b| * off0 + |a| * off1) / x) ≤ 3 / 2 := by
      have hhalf : ∀ y z : K, |y| < 1 / 2 → z ≤ x → |y| * z ≤ 1 / 2 * x := fun y z hy hz =>
        (mul_le_mul_of_nonneg_left hz (abs_nonneg y)).trans
          (mul_le_mul_of_nonneg_right hy.le hx.le)
      refine max_le ?_ ?_
      · rw [hb, div_le_iff₀ hx]
        linarith [hhalf c off0 hc' hoff0]
      · rw [hb, div_le_iff₀ hx]
        linarith [hhalf a off1 ha hoff1]
    calc _ ≤ prm.u * (3 / 2) := mul_le_mul_of_nonneg_left hle hu0
      _ ≤ 1 / 2 * (3 / 2) := mul_le_mul_of_nonneg_right hu (by norm_num)
      _ = 3 / 4 := by norm_num
  split_ifs with hpos hlt
  · exact absurd hlt (not_lt.mpr (hbound.trans hdet.le))
  · exact Option.some_ne_none _
  · exact Option.some_ne_none _

/-- Where a search over all columns of a root finds nothing, every entry is below
`2 * effSmall`. -/
theorem selectPivot_none (hth : prm.Threshold) (hu0 : 0 ≤ prm.u) (hu : prm.u ≤ 1 / 2)
    (hsp : prm.smallPivot < 3 / 4) (h : selectPivot prm F f k f f = none) {i j : ℕ} (hki : k ≤ i)
    (hi : i < f) (hkj : k ≤ j) (hj : j < f) : |symAt F i j| < 2 * prm.effSmall := by
  have htry : ∀ cand, k ≤ cand → cand < f → tryColumn prm F f k f f cand = none := by
    intro cand h1 h2
    unfold selectPivot at h
    rw [hth.1, if_neg Bool.false_ne_true, if_neg (not_lt.mpr hth.2)] at h
    exact List.findSome?_eq_none_iff.mp h cand (mem_positions.mpr ⟨h1, h2⟩)
  by_contra hlarge
  -- the largest entry that remains
  obtain ⟨⟨p, q⟩, hpq, hmax⟩ := Finset.exists_max_image (Finset.Ico k f ×ˢ Finset.Ico k f)
    (fun o => |symAt F o.1 o.2|) ⟨(i, j), by simp; omega⟩
  obtain ⟨⟨hkp, hp⟩, hkq, hq⟩ : (k ≤ p ∧ p < f) ∧ k ≤ q ∧ q < f := by simpa using hpq
  obtain ⟨x, hx⟩ : ∃ x, x = |symAt F p q| := ⟨_, rfl⟩
  have hle : ∀ i j, k ≤ i → i < f → k ≤ j → j < f → |symAt F i j| ≤ x := by
    intro i j h1 h2 h3 h4
    rw [hx]
    exact hmax (i, j) (by simp; omega)
  have hx0 : 0 ≤ x := hx ▸ abs_nonneg _
  have h2 : 2 * prm.effSmall ≤ x := (not_lt.mp hlarge).trans (hle i j hki hi hkj hj)
  have hsmall : prm.effSmall ≤ x / 2 := by linarith
  -- no diagonal reaches half of it
  have hdiag : ∀ c, k ≤ c → c < f → |F c c| < x / 2 := by
    intro c h1 h2
    by_contra hc
    have hc := not_lt.mp hc
    refine testDiagonal_passes h1 h2 hu0 (hsmall.trans hc) ?_ hx0
      (fun i h3 h4 _ => hle i c h3 h4 h1 h2) (tryColumn_none (htry c h1 h2)).1
    calc prm.u * x ≤ 1 / 2 * x := mul_le_mul_of_nonneg_right hu hx0
      _ = x / 2 := by ring
      _ ≤ |F c c| := hc
  have hxpos : 0 < x := by
    have := (abs_nonneg (F p p)).trans_lt (hdiag p hkp hp)
    linarith
  -- the column of the largest entry has a partner of that size
  have hpq' : p ≠ q := by
    rintro rfl
    have := hdiag p hkp hp
    rw [symAt_self] at hx
    rw [← hx] at this
    linarith
  have hs := scanColumn_ok F k f q
  have hm1 : (scanColumn F k f q).m1 = x := by
    refine le_antisymm (scanColumn_m1_le hkq hq hx0 fun i h1 h2 _ => hle i q h1 h2 hkq hq) ?_
    rw [hx]
    exact hs.le_m1 p ((mem_others hkq hq).mpr ⟨hkp, hp, hpq'⟩)
  cases hb : (scanColumn F k f q).rBest with
  | none =>
    have := hs.none_le hb
    rw [hm1] at this
    exact hxpos.ne' this
  | some r =>
    obtain ⟨hmem, hval⟩ := hs.best r hb
    obtain ⟨hkr, hr, hrq⟩ := (mem_others hkq hq).mp hmem
    have hpartner : partnerOf k f (scanColumn F k f q) = some r := by
      unfold partnerOf
      rw [hb]
      dsimp only
      rw [if_neg]
      rw [hm1]
      push Not
      exact ⟨hkr, hr, hxpos⟩
    refine testPair_passes hkq hq hkr hr hrq hu0 hu hsp hxpos (by linarith) (hval.trans hm1)
      (hdiag q hkq hq) (hdiag r hkr hr) hle ((tryColumn_none (htry q hkq hq)).2 r hpartner).1

end Search

section Stop

variable {prm : LdltKernelParams K} {f numElig first : ℕ} {s : KernelState K} {m : PivotMode}

theorem searchStep_none (h : searchStep prm f numElig m s = none) :
    selectPivot prm s.F f s.k numElig numElig = none := by
  unfold searchStep at h
  split at h
  case h_1 => cases h
  case h_2 hsel => exact hsel

/-- The unblocked loop stops before the last column only when the search finds nothing. -/
theorem unblocked_stop (s : KernelState K) (h : (unblocked prm f numElig m s).k < numElig) :
    selectPivot prm (unblocked prm f numElig m s).F f (unblocked prm f numElig m s).k numElig
      numElig = none := by
  fun_induction unblocked prm f numElig m s with
  | case1 s hk hstep => exact searchStep_none hstep
  | case2 s hk s' hstep ih => exact ih h
  | case3 s hk => exact absurd h hk

theorem searchPass_stop (hnb : 1 < prm.nb) (s : KernelState K)
    (h : (searchPass prm f numElig hnb s).k < numElig) :
    selectPivot prm (searchPass prm f numElig hnb s).F f (searchPass prm f numElig hnb s).k numElig
      numElig = none := by
  fun_induction searchPass prm f numElig hnb s with
  | case1 s hk pl s1 hst hstep => exact searchStep_none hstep
  | case2 s hk pl s1 hst s2 hstep ih => exact ih h
  | case3 s hk pl s1 hst ih => exact ih h
  | case4 s hk => exact absurd h hk

omit [LinearOrder K] in
/-- A root front has no rows below its eligible block to update. -/
theorem schur_root (s : Front K) : s.schur f first f = s := by
  unfold Front.schur schurUpdate
  rw [if_pos (Or.inr le_rfl)]

/-- What stops the kernel on a root front. -/
theorem ldltFactorFront_stop {F : ℕ → ℕ → K} {rows tags : ℕ → ℤ} {work : ℕ → ℕ → K}
    {out : KernelState K} (h : ldltFactorFront prm f f first F rows tags work = some out)
    (hk : out.k < f) : selectPivot prm out.F f out.k f f = none := by
  unfold ldltFactorFront at h
  dsimp only at h
  obtain ⟨s, hs, rfl⟩ := Option.map_eq_some_iff.mp h
  split_ifs at hs with hsmall
  · obtain rfl := Option.some.inj hs
    exact unblocked_stop _ hk
  · obtain ⟨s1, -, rfl⟩ := Option.map_eq_some_iff.mp hs
    change (searchPass prm f f _ s1).k < f at hk
    change selectPivot prm ((searchPass prm f f _ s1).toFront.schur f first f).F f _ f f = none
    rw [schur_root]
    exact searchPass_stop _ s1 hk

/-- Threshold pivoting never gives up on a root that still holds a usable pivot: when it stops
with columns left, every entry of what remains is below `2 * effSmall`. -/
theorem ldltFactorFront_root [IsStrictOrderedRing K] (hth : prm.Threshold) (hu0 : 0 < prm.u)
    (hu : prm.u ≤ 1 / 2) (hsp : prm.smallPivot < 3 / 4) (F : ℕ → ℕ → K) (rows tags : ℕ → ℤ)
    (work : ℕ → ℕ → K) :
    ∃ out, ldltFactorFront prm f f first F rows tags work = some out ∧
      (out.res.numAccepted < f → ∀ i j, out.res.numAccepted ≤ i → i < f →
        out.res.numAccepted ≤ j → j < f → |symAt out.F i j| < 2 * prm.effSmall) := by
  obtain ⟨out, pl, ps, hout, hnum, -, -⟩ :=
    ldltFactorFront_runs (le_refl f) F rows tags work
  refine ⟨out, hout, fun hlt i j hi hif hj hjf => ?_⟩
  rw [hnum] at hlt hi hj
  exact selectPivot_none hth hu0.le hu hsp (ldltFactorFront_stop hout hlt) hi hif hj hjf

/-- Two rows with all entries 1: the first column is taken, and what it leaves is zero. -/
theorem ldltFactorFront_root_ones :
    ∃ out, ldltFactorFront defaultParams 2 2 0 (fun _ _ => 1) (fun i => i) (fun _ => 0)
        (fun _ _ => 0) = some out ∧ out.res.numAccepted = 1 ∧
      ∀ i j, 1 ≤ i → i < 2 → 1 ≤ j → j < 2 → |symAt out.F i j| < 2 * defaultParams.effSmall := by
  obtain ⟨out, hout, hstop⟩ : ∃ out, ldltFactorFront defaultParams 2 2 0 (fun _ _ => 1)
      (fun i => i) (fun _ => 0) (fun _ _ => 0) = some out ∧
      (out.res.numAccepted < 2 → ∀ i j, out.res.numAccepted ≤ i → i < 2 →
        out.res.numAccepted ≤ j → j < 2 → |symAt out.F i j| < 2 * defaultParams.effSmall) :=
    ldltFactorFront_root ⟨rfl, le_rfl⟩ (by norm_num [defaultParams])
      (by norm_num [defaultParams]) (by norm_num [defaultParams]) _ _ _ _
  have hone : (ldltFactorFront defaultParams 2 2 0 (fun _ _ => 1) (fun i => i) (fun _ => 0)
      (fun _ _ => 0)).map (fun out => out.res.numAccepted) = some 1 := by decide +kernel
  rw [hout] at hone
  have hone : out.res.numAccepted = 1 := Option.some.inj hone
  rw [hone] at hstop
  exact ⟨out, hout, hone, hstop (by decide)⟩

end Stop

end SmfSolver.Kernel
