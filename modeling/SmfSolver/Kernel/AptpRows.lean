/-
The rows of a block column (`trsm_rlt`, `scale_and_check`, `row_times_d` of `ldlt_aptp.cpp`).

A row `x` of the block column is divided by the tile's `L_t D_t`: a triangular solve, then the
inverse of each pivot block, up to the first pivot that breaks the bound.  `Divided` says what
the result is: times `D_t` and `L_t` again it is `x`, on the pivots that were let through.
-/
import SmfSolver.Kernel.AptpFront
import SmfSolver.Kernel.LazyFront

namespace SmfSolver.Kernel

open Finset

section Solve

variable {K : Type*} [Field K] {L : ℕ → ℕ → K} {x : ℕ → K} {j0 jb k j : ℕ}

theorem trsmBlock_other (h : j < j0 ∨ j0 + jb ≤ j) : trsmBlock L j0 jb x j = x j := by
  induction jb with
  | zero => rfl
  | succ jb ih =>
    change Function.update (trsmBlock L j0 jb x) (j0 + jb) _ j = x j
    rw [Function.update_of_ne (by omega)]
    exact ih (by omega)

theorem trsmBlock_succ (h : j ≠ j0 + jb) :
    trsmBlock L j0 (jb + 1) x j = trsmBlock L j0 jb x j := Function.update_of_ne h _ _

theorem trsmBlock_le {jb' : ℕ} (h : jb ≤ jb') (hj : j < j0 + jb) :
    trsmBlock L j0 jb' x j = trsmBlock L j0 jb x j := by
  induction jb' with
  | zero =>
    obtain rfl : jb = 0 := by omega
    rfl
  | succ n ih =>
    rcases h.lt_or_eq with hlt | rfl
    · rw [trsmBlock_succ (by omega)]
      exact ih (by omega)
    · rfl

/-- The columns of a block solve their equations. -/
theorem trsmBlock_solves {t : ℕ} (ht : t < jb) : trsmBlock L j0 jb x (j0 + t) =
    x (j0 + t) - ∑ s ∈ range t, trsmBlock L j0 jb x (j0 + s) * L (j0 + t) (j0 + s) := by
  have hlast : trsmBlock L j0 (t + 1) x (j0 + t) = x (j0 + t) -
      ∑ s ∈ range t, trsmBlock L j0 t x (j0 + s) * L (j0 + t) (j0 + s) := by
    conv_lhs => unfold trsmBlock
    dsimp only
    rw [Function.update_self, trsmBlock_other (by omega)]
  rw [trsmBlock_le (show t + 1 ≤ jb by omega) (by omega), hlast]
  refine congrArg (x (j0 + t) - ·) (sum_congr rfl fun s hs => ?_)
  rw [mem_range] at hs
  rw [trsmBlock_le (show t ≤ jb by omega) (by omega)]

/-- The columns before `j0` solve their equations, and the others have had them taken off. -/
structure Solving (k : ℕ) (L : ℕ → ℕ → K) (x : ℕ → K) (j0 : ℕ) (y : ℕ → K) : Prop where
  solved : ∀ j < j0, j < k → y j = x j - ∑ s ∈ range j, y s * L j s
  rest : ∀ j, j0 ≤ j → j < k → y j = x j - ∑ s ∈ range j0, y s * L j s

/-- One block of columns. -/
theorem Solving.block {y : ℕ → K} (h : Solving k L x j0 y) (jb : ℕ) :
    Solving k L x (j0 + jb) fun j =>
      if j0 + jb ≤ j ∧ j < k then
        trsmBlock L j0 jb y j - ∑ s ∈ range jb, trsmBlock L j0 jb y (j0 + s) * L j (j0 + s)
      else trsmBlock L j0 jb y j := by
  have hlow : ∀ s < j0 + jb, (if j0 + jb ≤ s ∧ s < k then
      trsmBlock L j0 jb y s - ∑ r ∈ range jb, trsmBlock L j0 jb y (j0 + r) * L s (j0 + r)
      else trsmBlock L j0 jb y s) = trsmBlock L j0 jb y s := fun s hs => if_neg (by omega)
  have hold : ∀ j < j0, trsmBlock L j0 jb y j = y j := fun j hj => trsmBlock_other (Or.inl hj)
  -- a sum up to the block's end is that of the columns before it and that of the block
  have hsum : ∀ j t, t ≤ jb → ∑ s ∈ range (j0 + t), trsmBlock L j0 jb y s * L j s =
      ∑ s ∈ range j0, y s * L j s +
        ∑ s ∈ range t, trsmBlock L j0 jb y (j0 + s) * L j (j0 + s) := fun j t _ => by
    rw [sum_range_add]
    exact congrArg (· + _) (sum_congr rfl fun s hs => by rw [hold s (mem_range.mp hs)])
  refine ⟨fun j hj hjk => ?_, fun j hj hjk => ?_⟩
  · rw [hlow j hj]
    have hcongr : ∑ s ∈ range j, (if j0 + jb ≤ s ∧ s < k then
        trsmBlock L j0 jb y s - ∑ r ∈ range jb, trsmBlock L j0 jb y (j0 + r) * L s (j0 + r)
        else trsmBlock L j0 jb y s) * L j s = ∑ s ∈ range j, trsmBlock L j0 jb y s * L j s :=
      sum_congr rfl fun s hs => by rw [hlow s ((mem_range.mp hs).trans hj)]
    rw [hcongr]
    -- the columns before the block are solved already, those of the block by `trsmBlock`
    rcases Nat.lt_or_ge j j0 with hlt | hge
    · rw [hold j hlt, h.solved j hlt hjk]
      exact congrArg (x j - ·) (sum_congr rfl fun s hs => by
        rw [hold s ((mem_range.mp hs).trans hlt)])
    · obtain ⟨t, rfl⟩ : ∃ t, j = j0 + t := ⟨j - j0, by omega⟩
      rw [trsmBlock_solves (by omega), h.rest _ hge hjk, hsum _ t (by omega)]
      ring
  · rw [if_pos ⟨hj, hjk⟩, trsmBlock_other (Or.inr hj), h.rest j (by omega) hjk]
    have hcongr : ∑ s ∈ range (j0 + jb), (if j0 + jb ≤ s ∧ s < k then
        trsmBlock L j0 jb y s - ∑ r ∈ range jb, trsmBlock L j0 jb y (j0 + r) * L s (j0 + r)
        else trsmBlock L j0 jb y s) * L j s =
          ∑ s ∈ range (j0 + jb), trsmBlock L j0 jb y s * L j s :=
      sum_congr rfl fun s hs => by rw [hlow s (mem_range.mp hs)]
    rw [hcongr, hsum j jb le_rfl]
    ring

theorem Solving.solve {y : ℕ → K} (h : Solving k L x j0 y) :
    Solving k L x k (trsmRlt k L j0 y) := by
  fun_induction trsmRlt k L j0 y with
  | case1 j0 y hlt jb z ih =>
    have hjb : jb = min 32 (k - j0) := rfl
    rcases Nat.lt_or_ge (j0 + 32) k with hmore | hlast
    · refine ih ?_
      have hblock := h.block jb
      rwa [show j0 + jb = j0 + 32 by omega] at hblock ⊢
    · -- the last block: nothing is left to its right
      have hblock := h.block jb
      refine ih ⟨fun j _ hjk => hblock.solved j (by omega) hjk, fun j hj hjk => by omega⟩
  | case2 j0 y hge =>
    exact ⟨fun j hj hjk => h.solved j (by omega) hjk, fun j hj hjk => by omega⟩

/-- `trsm_rlt` solves the triangular system of its row. -/
theorem trsmRlt_solves (L : ℕ → ℕ → K) (x : ℕ → K) (hj : j < k) : trsmRlt k L 0 x j =
    x j - ∑ s ∈ range j, trsmRlt k L 0 x s * L j s := by
  have h0 : Solving k L x 0 x := ⟨fun j hj => absurd hj (Nat.not_lt_zero j), fun j _ _ => by simp⟩
  exact h0.solve.solved j hj hj

/-- The leading columns do not depend on how many are solved. -/
theorem trsmRlt_prefix {k' : ℕ} (hj : j < k) (hk : k ≤ k') :
    trsmRlt k L 0 x j = trsmRlt k' L 0 x j := by
  induction j using Nat.strong_induction_on with
  | _ j ih =>
    rw [trsmRlt_solves L x hj, trsmRlt_solves L x (hj.trans_le hk)]
    refine congrArg (x j - ·) (sum_congr rfl fun s hs => ?_)
    rw [mem_range] at hs
    rw [ih s hs (hs.trans hj)]

end Solve

section Scale

variable {K : Type*} [Field K]

/-- Entry `c` of a row times the inverse of the pivot blocks. -/
def scaledEntry (tags : ℕ → ℤ) (dinv : ℕ → K × K) (x : ℕ → K) (c : ℕ) : K :=
  if tags c = 2 then (dinv c).1 * x c + (dinv c).2 * x (c + 1)
  else if tags c = -1 then (dinv (c - 1)).2 * x (c - 1) + (dinv c).1 * x c
  else x c * (dinv c).1

variable {tags : ℕ → ℤ} {dinv : ℕ → K × K} {x y : ℕ → K} {k t c : ℕ}

theorem scaledEntry_congr (h : Tagged tags k) (hxy : ∀ c < k, x c = y c) (hc : c < k) :
    scaledEntry tags dinv x c = scaledEntry tags dinv y c := by
  unfold scaledEntry
  split_ifs with h2 h1
  · rw [hxy c hc, hxy (c + 1) (h.pair_lt hc h2)]
  · rw [hxy c hc, hxy (c - 1) (by omega)]
  · rw [hxy c hc]

theorem rowTimesD_congr {T : ℕ → ℕ → K} (h : Tagged tags k) (hxy : ∀ c < k, x c = y c)
    (hc : c < k) : rowTimesD T tags x c = rowTimesD T tags y c := by
  unfold rowTimesD
  split_ifs with h2 h1
  · rw [hxy c hc, hxy (c + 1) (h.pair_lt hc h2)]
  · rw [hxy c hc, hxy (c - 1) (by omega)]
  · rw [hxy c hc]

/-- A row of `L D` reads the pivot block only. -/
theorem rowTimesD_entries {T T' : ℕ → ℕ → K} {tags' : ℕ → ℤ} (htag : tags' c = tags c)
    (hd : T' c c = T c c) (hopen : tags c = 2 → T' (c + 1) c = T (c + 1) c)
    (hclose : tags c = -1 → T' c (c - 1) = T c (c - 1)) :
    rowTimesD T' tags' x c = rowTimesD T tags x c := by
  unfold rowTimesD
  rw [htag, hd]
  split_ifs with h2 h1
  · rw [hopen h2]
  · rw [hclose h1]
  · rfl

/-- A prefix that ends between two blocks. -/
theorem Tagged.cut (h : Tagged tags k) (ht : t ≤ k) (hcut : t = 0 ∨ tags (t - 1) ≠ 2) :
    Tagged tags t := by
  intro c hc
  rcases h c (hc.trans_le ht) with h1 | ⟨h1, h2, h3⟩ | h1
  · exact Or.inl h1
  · refine Or.inr (Or.inl ⟨h1, ?_, h3⟩)
    by_contra hge
    rw [show t - 1 = c by omega] at hcut
    omega
  · exact Or.inr (Or.inr h1)

/-- The first tag after whole blocks opens a block. -/
theorem Tagged.opens (h : Tagged tags k) (ht : Tagged tags t) (htk : t < k) :
    tags t = 1 ∨ tags t = 2 ∧ t + 1 < k ∧ tags (t + 1) = -1 := by
  rcases h t htk with h1 | h2 | ⟨h3, hpos, h4⟩
  · exact Or.inl h1
  · exact Or.inr h2
  · have := ht.pair_lt (show t - 1 < t by omega) h4
    omega

theorem Tagged.after_one (h : Tagged tags k) (htk : t < k) (h1 : tags t ≠ 2) :
    Tagged tags (t + 1) :=
  h.cut htk (Or.inr h1)

theorem Tagged.after_two (h : Tagged tags k) (htk : t < k) (h2 : tags t = 2) :
    Tagged tags (t + 2) := by
  have hlt := h.pair_lt htk h2
  refine h.cut hlt (Or.inr ?_)
  rcases h t htk with h1 | ⟨-, -, h3⟩ | ⟨h3, -⟩
  · omega
  · change tags (t + 1) ≠ 2
    omega
  · omega

/-- The tile's pivots can be divided by. -/
def Solid (T : ℕ → ℕ → K) (tags : ℕ → ℤ) (k : ℕ) : Prop :=
  ∀ c < k, (tags c = 1 → T c c ≠ 0) ∧ (tags c = 2 → pivotDet T c (c + 1) ≠ 0)

variable [LinearOrder K] [IsStrictOrderedRing K] {T : ℕ → ℕ → K}

/-- Dividing by the pivot blocks and multiplying by them again. -/
theorem rowTimesD_scaledEntry (h : Tagged tags k) (hs : Solid T tags k) (hc : c < k) :
    rowTimesD T tags (scaledEntry tags (tileInverse T tags) x) c = x c := by
  -- a 1x1 pivot, and the two columns of a 2x2 one
  rcases h c hc with h1 | ⟨h2, hlt, h3⟩ | ⟨h3, hpos, h2⟩
  · have hd := (hs c hc).1 h1
    unfold rowTimesD scaledEntry tileInverse
    simp only [h1, show (1 : ℤ) ≠ 2 by decide, show (1 : ℤ) ≠ -1 by decide, if_false]
    field_simp
  · have hmul := (pivotInverse_mul ((hs c hc).2 h2) (x c) (x (c + 1))).1
    have hopen : scaledEntry tags (tileInverse T tags) x c =
        (pivotInverse T c).1 * x c + (pivotInverse T c).2.1 * x (c + 1) := by
      unfold scaledEntry tileInverse
      rw [if_pos h2, if_pos h2]
    have hclose : scaledEntry tags (tileInverse T tags) x (c + 1) =
        (pivotInverse T c).2.1 * x c + (pivotInverse T c).2.2 * x (c + 1) := by
      unfold scaledEntry tileInverse
      rw [Nat.add_sub_cancel, if_pos h2, h3]
      norm_num
    rw [rowTimesD, if_pos h2, hopen, hclose]
    exact hmul
  · obtain ⟨e, rfl⟩ : ∃ e, c = e + 1 := ⟨c - 1, by omega⟩
    rw [Nat.add_sub_cancel] at h2
    have hmul := (pivotInverse_mul ((hs e (by omega)).2 h2) (x e) (x (e + 1))).2
    have hopen : scaledEntry tags (tileInverse T tags) x e =
        (pivotInverse T e).1 * x e + (pivotInverse T e).2.1 * x (e + 1) := by
      unfold scaledEntry tileInverse
      rw [if_pos h2, if_pos h2]
    have hclose : scaledEntry tags (tileInverse T tags) x (e + 1) =
        (pivotInverse T e).2.1 * x e + (pivotInverse T e).2.2 * x (e + 1) := by
      unfold scaledEntry tileInverse
      rw [Nat.add_sub_cancel, if_pos h2, h3]
      norm_num
    rw [rowTimesD, h3, if_neg (by decide), if_pos rfl, Nat.add_sub_cancel, hopen, hclose]
    exact hmul

end Scale

section Check

variable {K : Type*} [Field K] [LinearOrder K] {nrows k t : ℕ} {tags : ℕ → ℤ}
  {dinv : ℕ → K × K} {inv : WithTop K} {X X₀ : ℕ → ℕ → K}

/-- The pivots before `t` have been scaled in every row and are within the bound. -/
structure Scaled (nrows : ℕ) (tags : ℕ → ℤ) (dinv : ℕ → K × K) (inv : WithTop K)
    (X₀ : ℕ → ℕ → K) (t : ℕ) (X : ℕ → ℕ → K) : Prop where
  done : ∀ r < nrows, ∀ c < t, X r c = scaledEntry tags dinv (X₀ r) c ∧ lOk inv (X r c) = true
  rest : ∀ r < nrows, ∀ c, t ≤ c → X r c = X₀ r c

/-- What `scale_and_check` returns: the leading whole blocks, scaled and within the bound, and all
of them unless the next block breaks it. -/
structure Checked (nrows k : ℕ) (tags : ℕ → ℤ) (dinv : ℕ → K × K) (inv : WithTop K)
    (X₀ : ℕ → ℕ → K) (out : (ℕ → ℕ → K) × ℕ) : Prop where
  le : out.2 ≤ k
  whole : Tagged tags out.2
  entries : ∀ r < nrows, ∀ c < out.2, out.1 r c = scaledEntry tags dinv (X₀ r) c
  bound : ∀ r < nrows, ∀ c < out.2, lOk inv (scaledEntry tags dinv (X₀ r) c) = true
  stop : out.2 = k ∨ ∃ r < nrows, ∃ c, out.2 ≤ c ∧
    c < (if tags out.2 = 2 then out.2 + 2 else out.2 + 1) ∧
    lOk inv (scaledEntry tags dinv (X₀ r) c) = false

theorem scaleAndCheck_checked (hk : Tagged tags k) (ht : Tagged tags t) (htk : t ≤ k)
    (h : Scaled nrows tags dinv inv X₀ t X) :
    Checked nrows k tags dinv inv X₀ (scaleAndCheck nrows k tags dinv inv t X) := by
  fun_induction scaleAndCheck nrows k tags dinv inv t X with
  | case1 t X hlt h2 Y hall ih =>
    -- a 2x2 pivot within the bound
    obtain ⟨-, hlt1, hclose⟩ : tags t = 2 ∧ t + 1 < k ∧ tags (t + 1) = -1 := by
      rcases hk.opens ht hlt with h1 | h1
      · omega
      · exact h1
    rw [List.all_eq_true] at hall
    refine ih (hk.after_two hlt h2) hlt1 ⟨fun r hr c hc => ?_, fun r hr c hc => ?_⟩
    · have hok := hall r (List.mem_range.mpr hr)
      rw [Bool.and_eq_true] at hok
      rcases Nat.lt_or_ge c t with hct | hct
      · have hY : Y r c = X r c := by
          change (if r < nrows ∧ c = t then _ else if r < nrows ∧ c = t + 1 then _ else _) = _
          rw [if_neg (by omega), if_neg (by omega)]
        rw [hY]
        exact h.done r hr c hct
      rcases Nat.lt_or_ge c (t + 1) with hct1 | hct1
      · obtain rfl : c = t := by omega
        refine ⟨?_, hok.1⟩
        change (if r < nrows ∧ c = c then _ else _) = _
        rw [if_pos ⟨hr, rfl⟩, h.rest r hr c le_rfl, h.rest r hr (c + 1) (by omega), scaledEntry,
          if_pos h2]
      · obtain rfl : c = t + 1 := by omega
        refine ⟨?_, hok.2⟩
        change (if r < nrows ∧ t + 1 = t then _ else if r < nrows ∧ t + 1 = t + 1 then _ else _) = _
        rw [if_neg (by omega), if_pos ⟨hr, rfl⟩, h.rest r hr t le_rfl,
          h.rest r hr (t + 1) (by omega), scaledEntry, hclose, if_neg (by decide), if_pos rfl,
          Nat.add_sub_cancel]
    · change (if r < nrows ∧ c = t then _ else if r < nrows ∧ c = t + 1 then _ else _) = _
      rw [if_neg (by omega), if_neg (by omega)]
      exact h.rest r hr c (by omega)
  | case2 t X hlt h2 Y hall =>
    -- a 2x2 pivot above the bound
    have hclose : tags (t + 1) = -1 := by
      rcases hk.opens ht hlt with h1 | h1
      · omega
      · exact h1.2.2
    have hYt : ∀ r < nrows, Y r t = scaledEntry tags dinv (X₀ r) t := by
      intro r hr
      change (if r < nrows ∧ t = t then _ else _) = _
      rw [if_pos ⟨hr, rfl⟩, h.rest r hr t le_rfl, h.rest r hr (t + 1) (by omega), scaledEntry,
        if_pos h2]
    have hYt1 : ∀ r < nrows, Y r (t + 1) = scaledEntry tags dinv (X₀ r) (t + 1) := by
      intro r hr
      change (if r < nrows ∧ t + 1 = t then _ else if r < nrows ∧ t + 1 = t + 1 then _ else _) = _
      rw [if_neg (by omega), if_pos ⟨hr, rfl⟩, h.rest r hr t le_rfl,
        h.rest r hr (t + 1) (by omega), scaledEntry, hclose, if_neg (by decide), if_pos rfl,
        Nat.add_sub_cancel]
    have hY : ∀ r < nrows, ∀ c < t, Y r c = X r c := by
      intro r hr c hc
      change (if r < nrows ∧ c = t then _ else if r < nrows ∧ c = t + 1 then _ else _) = _
      rw [if_neg (by omega), if_neg (by omega)]
    refine ⟨htk, ht, fun r hr c hc => ?_, fun r hr c hc => ?_, Or.inr ?_⟩
    · exact (hY r hr c hc).trans (h.done r hr c hc).1
    · rw [← (h.done r hr c hc).1]
      exact (h.done r hr c hc).2
    · rw [Bool.not_eq_true, List.all_eq_false] at hall
      obtain ⟨r, hr, hbad⟩ := hall
      rw [List.mem_range] at hr
      rw [Bool.not_eq_true, Bool.and_eq_false_iff] at hbad
      refine ⟨r, hr, ?_⟩
      rw [if_pos h2]
      rcases hbad with hbad | hbad
      · exact ⟨t, le_rfl, by omega, (hYt r hr) ▸ hbad⟩
      · exact ⟨t + 1, by omega, by omega, (hYt1 r hr) ▸ hbad⟩
  | case3 t X hlt h2 Y hall ih =>
    rw [List.all_eq_true] at hall
    have h1 : tags t ≠ -1 := by
      rcases hk.opens ht hlt with h1 | h1 <;> omega
    refine ih (hk.after_one hlt h2) hlt ⟨fun r hr c hc => ?_, fun r hr c hc => ?_⟩
    · rcases Nat.lt_or_ge c t with hct | hct
      · have hY : Y r c = X r c := if_neg (by omega)
        rw [hY]
        exact h.done r hr c hct
      · obtain rfl : c = t := by omega
        refine ⟨?_, hall r (List.mem_range.mpr hr)⟩
        change (if r < nrows ∧ c = c then _ else _) = _
        rw [if_pos ⟨hr, rfl⟩, h.rest r hr c le_rfl, scaledEntry, if_neg h2, if_neg h1]
    · change (if r < nrows ∧ c = t then _ else _) = _
      rw [if_neg (by omega)]
      exact h.rest r hr c (by omega)
  | case4 t X hlt h2 Y hall =>
    have h1 : tags t ≠ -1 := by
      rcases hk.opens ht hlt with h1 | h1 <;> omega
    refine ⟨htk, ht, fun r hr c hc => ?_, fun r hr c hc => ?_, Or.inr ?_⟩
    · have hY : Y r c = X r c := if_neg (by omega)
      exact hY.trans (h.done r hr c hc).1
    · rw [← (h.done r hr c hc).1]
      exact (h.done r hr c hc).2
    · rw [Bool.not_eq_true, List.all_eq_false] at hall
      obtain ⟨r, hr, hbad⟩ := hall
      rw [List.mem_range] at hr
      rw [Bool.not_eq_true] at hbad
      refine ⟨r, hr, t, le_rfl, by rw [if_neg h2]; omega, ?_⟩
      have hY : Y r t = scaledEntry tags dinv (X₀ r) t := by
        change (if r < nrows ∧ t = t then _ else _) = _
        rw [if_pos ⟨hr, rfl⟩, h.rest r hr t le_rfl, scaledEntry, if_neg h2, if_neg h1]
      exact hY ▸ hbad
  | case5 t X hge =>
    obtain rfl : t = k := by omega
    refine ⟨le_rfl, hk, fun r hr c hc => (h.done r hr c hc).1, fun r hr c hc => ?_, Or.inl rfl⟩
    rw [← (h.done r hr c hc).1]
    exact (h.done r hr c hc).2

theorem scaleAndCheck_spec (nrows : ℕ) (dinv : ℕ → K × K) (inv : WithTop K) (hk : Tagged tags k)
    (X : ℕ → ℕ → K) :
    Checked nrows k tags dinv inv X (scaleAndCheck nrows k tags dinv inv 0 X) :=
  scaleAndCheck_checked hk (fun _ h => absurd h (Nat.not_lt_zero _)) (Nat.zero_le k)
    ⟨fun _ _ _ h => absurd h (Nat.not_lt_zero _), fun _ _ _ _ => rfl⟩

/-- The check lets every leading block through that is within the bound. -/
theorem Checked.le_count {out : (ℕ → ℕ → K) × ℕ} (h : Checked nrows k tags dinv inv X₀ out) {q : ℕ}
    (hq : Tagged tags q) (hqk : q ≤ k)
    (hok : ∀ r < nrows, ∀ c < q, lOk inv (scaledEntry tags dinv (X₀ r) c) = true) : q ≤ out.2 := by
  by_contra hlt
  rw [not_le] at hlt
  rcases h.stop with heq | ⟨r, hr, c, hc, hc', hbad⟩
  · omega
  · have hcq : c < q := by
      split_ifs at hc' with h2
      · have := hq.pair_lt hlt h2
        omega
      · omega
    rw [hok r hr c hcq] at hbad
    exact Bool.noConfusion hbad

end Check

section Divided

variable {K : Type*} [Field K] {T : ℕ → ℕ → K} {tags : ℕ → ℤ} {k c : ℕ} {x z : ℕ → K}

/-- The row `z` times `D_t L_tᵀ` is the row `x`, on the first `k` pivots. -/
def Divided (T : ℕ → ℕ → K) (tags : ℕ → ℤ) (k : ℕ) (x z : ℕ → K) : Prop :=
  ∀ j < k, x j = rowTimesD T tags z j + ∑ s ∈ range j, rowTimesD T tags z s * unitLower T tags j s

theorem Divided.congr {z' : ℕ → K} (h : Divided T tags k x z) (hk : Tagged tags k)
    (hz : ∀ c < k, z' c = z c) : Divided T tags k x z' := by
  intro j hj
  rw [h j hj, rowTimesD_congr hk hz hj]
  refine congrArg (_ + ·) (sum_congr rfl fun c hc => ?_)
  rw [rowTimesD_congr hk hz ((mem_range.mp hc).trans hj)]

variable [LinearOrder K] [IsStrictOrderedRing K]

/-- The rows that `scale_and_check` lets through after `trsm_rlt` are divided by the tile. -/
theorem Checked.divided {nrows q k' : ℕ} {inv : WithTop K} {X : ℕ → ℕ → K} {out : (ℕ → ℕ → K) × ℕ}
    (h : Checked nrows k' tags (tileInverse T tags) inv
      (fun r => trsmRlt k' (unitLower T tags) 0 (X r)) out)
    (hk : Tagged tags k') (hs : Solid T tags k') (hq : Tagged tags q) (hqo : q ≤ out.2) {r : ℕ}
    (hr : r < nrows) : Divided T tags q (X r) (out.1 r) := by
  have hld : ∀ c < q, rowTimesD T tags (out.1 r) c = trsmRlt k' (unitLower T tags) 0 (X r) c := by
    intro c hc
    have hcong := rowTimesD_congr (T := T) hq (fun e he => h.entries r hr e (he.trans_le hqo)) hc
    rw [hcong]
    exact rowTimesD_scaledEntry hk hs ((hc.trans_le hqo).trans_le h.le)
  intro j hj
  rw [hld j hj, trsmRlt_solves _ _ ((hj.trans_le hqo).trans_le h.le)]
  have hsum : ∑ s ∈ range j, rowTimesD T tags (out.1 r) s * unitLower T tags j s =
      ∑ s ∈ range j, trsmRlt k' (unitLower T tags) 0 (X r) s * unitLower T tags j s :=
    sum_congr rfl fun s hsj => by rw [hld s ((mem_range.mp hsj).trans hj)]
  rw [hsum]
  ring

end Divided

end SmfSolver.Kernel
