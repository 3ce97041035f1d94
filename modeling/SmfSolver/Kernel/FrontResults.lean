/-
What the results of the two numeric front kernels say.

`PartialLdl` reads a result as a partial factorization of the front it was computed from: the
permuted front is `L D Lᵀ`, from the packed panel and the listed blocks, plus what the kernel
leaves below the accepted pivots.  A front with a parent hands that block over as its
contribution, whose rows start with the delayed columns.  A root hands over nothing: its
unaccepted columns become zero pivots and the block below them is dropped.
-/
import SmfSolver.Kernel.NumericFrontSpec
import Mathlib.Data.List.GetD

namespace SmfSolver.Kernel

open Finset

section Readings

variable {K : Type*} [Field K]

/-- The factor that a result describes: blocks by the tags, `D` from the listed blocks. -/
def FrontResult.factor (res : FrontResult K) : BlockLdl K where
  pair c := decide (res.pivotTags.getD c 0 = 2)
  diag c := ((res.dBlocks.flatMap FrontDiagBlock.columns).getD c (0, 0)).1
  sub c := ((res.dBlocks.flatMap FrontDiagBlock.columns).getD c (0, 0)).2
  col := res.lPanel

/-- Entry `(i, j)` of `L D Lᵀ`, with the packed panel. -/
def FrontResult.ldlt (res : FrontResult K) (i j : ℕ) : K :=
  ∑ c ∈ range res.numAccepted, ∑ e ∈ range res.numAccepted,
    res.lPanel i c * res.factor.d c e * res.lPanel j e

/-- Entry `(i, j)` of the contribution, at the positions of the permuted front. -/
def FrontResult.contribution (res : FrontResult K) (i j : ℕ) : K :=
  match res.contrib with
  | none => 0
  | some q =>
    if res.numAccepted ≤ i ∧ res.numAccepted ≤ j then
      symAt q (i - res.numAccepted) (j - res.numAccepted)
    else 0

/-- How a result with `p` pivots sorts the rows of the front. -/
structure PackedRows (front : NumericFront K) (isRoot : Bool)
    (out : NumericFront K × FrontResult K) (p : ℕ) : Prop where
  block_rows : out.2.dBlocks.flatMap FrontDiagBlock.rowsOf = out.2.acceptedRowIds
  accepted : out.2.acceptedRowIds = out.2.lRowIds.take out.2.numAccepted
  /-- A front with a parent, or one without unaccepted columns. -/
  partitioned : isRoot = false ∨ p = front.numEligible →
    out.2.status = .success ∧ out.2.numAccepted = p ∧
      out.2.delayedCount = front.numEligible - p ∧
      out.2.delayedColIds = (out.2.lRowIds.take front.numEligible).drop p ∧
      out.2.acceptedRowIds ++ out.2.contribRowIds = out.2.lRowIds
  contributed : isRoot = false → ∀ i j, i < front.numRows → j < front.numRows →
    (if p ≤ i ∧ p ≤ j then symAt out.1.data i j else 0) = out.2.contribution i j
  rooted : isRoot = true → out.2.contrib = none ∧ out.2.delayedColIds = [] ∧
    out.2.delayedCount = 0
  singular : isRoot = true → p < front.numEligible →
    out.2.status = .singularMatrix ∧ out.2.numAccepted = front.numEligible ∧
      out.2.contribRowIds = []

/-- The results of a kernel: `σ` permutes the front, and its first `p` columns are pivots. -/
structure PartialLdl (front : NumericFront K) (isRoot : Bool)
    (out : NumericFront K × FrontResult K) (σ : Equiv.Perm ℕ) (p : ℕ) : Prop where
  pivots_le : p ≤ front.numEligible
  fixed : ∀ i, front.numEligible ≤ i → σ i = i
  rows : out.2.lRowIds = (List.range front.numRows).map fun i => front.rowIds.getD (σ i) 0
  rows_perm : out.2.lRowIds.Perm front.rowIds
  factors : ∀ i j, i < front.numRows → j < front.numRows →
    symAt front.data (σ i) (σ j) =
      out.2.ldlt i j + if p ≤ i ∧ p ≤ j then symAt out.1.data i j else 0
  tagged : Tagged (fun c => out.2.pivotTags.getD c 0) p
  zeros : ∀ c, p ≤ c → out.2.pivotTags.getD c 0 = 0 ∧ ∀ e, out.2.factor.d c e = 0
  /-- The panel is unit lower trapezoidal, with the blocks of the tags. -/
  trapezoidal : ∀ c < out.2.numAccepted, ∀ r < front.numRows,
    out.2.lPanel r c = out.2.factor.l r c
  packed : PackedRows front isRoot out p

variable [LinearOrder K] {front : NumericFront K} {isRoot : Bool} {s : FrontWork K}
  {σ : Equiv.Perm ℕ} {ps : ℕ}

/-- A result lists the eliminated columns of `s`, then zero pivots. -/
structure Lists (front : NumericFront K) (s : FrontWork K) (res : FrontResult K) : Prop where
  le : s.k ≤ res.numAccepted
  columns : ∀ c, (res.dBlocks.flatMap FrontDiagBlock.columns).getD c (0, 0) =
    if c < s.k then s.toFront.column c else (0, 0)
  tags : ∀ c, res.pivotTags.getD c 0 = if c < s.k then s.tags c else 0
  panel : ∀ c < s.k, ∀ r < front.numRows, res.lPanel r c = (ldlOf s.F s.tags).l r c
  unit : ∀ c < res.numAccepted, s.k ≤ c → ∀ r, res.lPanel r c = if r = c then 1 else 0

omit [Field K] [LinearOrder K] in
theorem getD_map_range {α : Type*} (g : ℕ → α) (n c : ℕ) (d : α) :
    ((List.range n).map g).getD c d = if c < n then g c else d := by
  by_cases h : c < n
  · rw [if_pos h, List.getD_eq_getElem _ _ (by simpa using h)]
    simp
  · rw [if_neg h, List.getD_eq_default _ _ (by simpa using h)]

omit [LinearOrder K] in
/-- The packed panel is `L`. -/
theorem panel_eq (F : ℕ → ℕ → K) (tags : ℕ → ℤ) {f r c : ℕ} (hr : r < f) :
    (if r = c then 1 else if (if tags c = 2 then c + 2 else c + 1) ≤ r ∧ r < f then F r c else 0) =
      (ldlOf F tags).l r c := by
  unfold BlockLdl.l
  by_cases hrc : r = c
  · rw [if_pos hrc, if_pos hrc]
  rw [if_neg hrc, if_neg hrc]
  by_cases hp : tags c = 2
  · rw [if_pos hp]
    by_cases hin : c + 2 ≤ r ∧ r < f
    · rw [if_pos hin, if_neg (by omega), if_neg (by omega)]
      rfl
    · rw [if_neg hin]
      by_cases hlt : r < c
      · rw [if_pos hlt]
      · rw [if_neg hlt, if_pos ⟨decide_eq_true hp, by omega⟩]
  · have hpair : (ldlOf F tags).pair c = false := decide_eq_false hp
    rw [if_neg hp, hpair]
    by_cases hin : c + 1 ≤ r ∧ r < f
    · rw [if_pos hin, if_neg (by omega), if_neg (fun h => Bool.false_ne_true h.1)]
      rfl
    · rw [if_neg hin, if_pos (by omega)]

omit [LinearOrder K] in
theorem lists_result (h : FrontStands front σ s front.numRows ps) :
    Lists front s (front.result isRoot s) := by
  have hcols : s.dBlocks.flatMap FrontDiagBlock.columns = (List.range s.k).map s.toFront.column :=
    h.blocks.columns
  unfold NumericFront.result
  dsimp only
  -- a root reports the columns it could not eliminate as zero pivots
  by_cases hsing : isRoot = true ∧ 0 < front.numEligible - s.k
  · rw [if_pos hsing]
    refine ⟨h.k_le, fun c => ?_, fun c => ?_, fun c hc r hr => ?_, fun c _ hc r => ?_⟩
    · have hzero : ∀ l : List ℕ, (l.map fun c => (⟨1, s.rows c, 0, 0, 0, 0⟩ :
          FrontDiagBlock K)).flatMap FrontDiagBlock.columns = l.map fun _ => (0, 0) := by
        intro l
        rw [List.flatMap_map]
        exact List.flatMap_pure_eq_map ..
      dsimp only
      rw [List.flatMap_append, hcols, hzero, positions, List.map_const']
      rcases Nat.lt_or_ge c s.k with hlt | hge
      · rw [List.getD_append _ _ _ _ (by simpa using hlt), getD_map_range]
      · rw [List.getD_append_right _ _ _ _ (by simpa using hge), if_neg (by omega),
          List.getD_eq_getElem?_getD, List.getElem?_getD_replicate_default_eq]
    · dsimp only
      rw [getD_map_range]
      by_cases hlt : c < s.k
      · have := h.k_le
        rw [if_pos hlt, if_pos (by omega)]
      · rw [if_neg hlt, ite_self]
    · have htag : s.tags c ≠ 0 := by
        intro hz
        rcases h.core.tagged c hc with h1 | ⟨h1, -⟩ | ⟨h1, -⟩
        all_goals
          have h1 : s.tags c = _ := h1
          omega
      simp only [if_pos hc, ne_eq, htag, not_false_eq_true, true_and]
      exact panel_eq s.F s.tags hr
    · have htag : ¬ (if c < s.k then s.tags c else 0) ≠ 0 := not_not.mpr (if_neg (by omega))
      dsimp only
      exact if_congr Iff.rfl rfl (if_neg fun hin => htag hin.1)
  · rw [if_neg hsing]
    refine ⟨le_rfl, fun c => ?_, fun c => getD_map_range .., fun c hc r hr =>
      panel_eq s.F s.tags hr, fun c hlt hc => absurd hlt (not_lt.mpr hc)⟩
    dsimp only
    rw [hcols, getD_map_range]

section Listed

variable {res : FrontResult K}

omit [LinearOrder K]

theorem Lists.pair (h : Lists front s res) {c : ℕ} (hc : c < s.k) :
    res.factor.pair c = (ldlOf s.F s.tags).pair c := by
  change decide (res.pivotTags.getD c 0 = 2) = decide (s.tags c = 2)
  rw [h.tags, if_pos hc]

/-- The packed panel is unit lower trapezoidal, with the blocks of the tags. -/
theorem Lists.l_eq (h : Lists front s res) {c r : ℕ} (hc : c < res.numAccepted)
    (hr : r < front.numRows) : res.lPanel r c = res.factor.l r c := by
  rcases Nat.lt_or_ge c s.k with hlt | hge
  · have hL := h.panel c hlt r hr
    unfold BlockLdl.l at hL ⊢
    rw [h.pair hlt]
    split_ifs at hL ⊢
    · exact hL
    · exact hL
    · exact hL
    · rfl
  · have hL := h.unit c hc hge r
    have htag : res.pivotTags.getD c 0 = 0 := (h.tags c).trans (if_neg (by omega))
    have hpair : res.factor.pair c = false := decide_eq_false (by rw [htag]; decide)
    unfold BlockLdl.l
    rw [hpair]
    split_ifs with hrc hlt hin
    · rw [hL, if_pos hrc]
    · rw [hL, if_neg hrc]
    · exact absurd hin.1 not_false
    · rfl

/-- The listed blocks are `D`. -/
theorem Lists.d_eq (h : Lists front s res) {c e : ℕ} (hc : c < s.k) (he : e < s.k) :
    res.factor.d c e = (ldlOf s.F s.tags).d c e := by
  have hdiag : res.factor.diag c = s.F c c := by
    change ((res.dBlocks.flatMap FrontDiagBlock.columns).getD c (0, 0)).1 = _
    rw [h.columns, if_pos hc]
    rfl
  have hsub : ∀ c < s.k, (ldlOf s.F s.tags).pair c = true →
      res.factor.sub c = s.F (c + 1) c := by
    intro c hc hp
    change ((res.dBlocks.flatMap FrontDiagBlock.columns).getD c (0, 0)).2 = _
    rw [h.columns, if_pos hc]
    exact if_pos (of_decide_eq_true hp)
  unfold BlockLdl.d
  rw [h.pair hc, h.pair he]
  refine if_congr Iff.rfl hdiag ?_
  by_cases h1 : (ldlOf s.F s.tags).pair c = true ∧ e = c + 1
  · rw [if_pos h1, if_pos h1, hsub c hc h1.1]
    rfl
  rw [if_neg h1, if_neg h1]
  by_cases h2 : (ldlOf s.F s.tags).pair e = true ∧ c = e + 1
  · rw [if_pos h2, if_pos h2, hsub e he h2.1]
    rfl
  rw [if_neg h2, if_neg h2]

/-- After the eliminated columns `D` is zero. -/
theorem Lists.d_zero (h : Lists front s res) (ht : Tagged s.tags s.k) {c e : ℕ}
    (hce : s.k ≤ c ∨ s.k ≤ e) : res.factor.d c e = 0 := by
  have hpair : ∀ c e, res.factor.pair c = true → (s.k ≤ c ∨ s.k ≤ e) → e ≠ c + 1 := by
    intro c e hp hce hsucc
    by_cases hc : c < s.k
    · rw [h.pair hc] at hp
      have := ht.pair_lt hc (of_decide_eq_true hp)
      omega
    · have hp : res.pivotTags.getD c 0 = 2 := of_decide_eq_true hp
      rw [h.tags, if_neg hc] at hp
      omega
  by_cases heq : c = e
  · subst heq
    have hc : ¬ c < s.k := by omega
    rw [show res.factor.d c c = res.factor.diag c from if_pos rfl]
    change ((res.dBlocks.flatMap FrontDiagBlock.columns).getD c (0, 0)).1 = _
    rw [h.columns, if_neg hc]
  · exact BlockLdl.d_eq_zero heq (fun hp => hpair c e hp hce) fun hp => hpair e c hp hce.symm

/-- The packed result is the product over the eliminated columns. -/
theorem Lists.ldlt_eq (h : Lists front s res) (ht : Tagged s.tags s.k) {i j : ℕ}
    (hi : i < front.numRows) (hj : j < front.numRows) : res.ldlt i j =
      ∑ c ∈ range s.k, ∑ e ∈ range s.k,
        (ldlOf s.F s.tags).l i c * (ldlOf s.F s.tags).d c e * (ldlOf s.F s.tags).l j e := by
  have hsub : range s.k ⊆ range res.numAccepted := range_mono h.le
  unfold FrontResult.ldlt
  rw [← sum_subset hsub fun c _ hc => ?_]
  · refine sum_congr rfl fun c hc => ?_
    rw [← sum_subset hsub fun e _ he => ?_]
    · refine sum_congr rfl fun e he => ?_
      rw [mem_range] at hc he
      rw [h.panel c hc i hi, h.panel e he j hj, h.d_eq hc he]
    · rw [h.d_zero ht (Or.inr (by simpa using he)), mul_zero, zero_mul]
  · refine sum_eq_zero fun e _ => ?_
    rw [h.d_zero ht (Or.inl (by simpa using hc)), mul_zero, zero_mul]

end Listed

omit [Field K] [LinearOrder K] in
/-- A permutation that fixes every position from `e` on permutes the first `n`, for `n ≥ e`. -/
theorem perm_range {e n : ℕ} (hn : e ≤ n) (hfix : ∀ i, e ≤ i → σ i = i) :
    ((List.range n).map σ).Perm (List.range n) := by
  refine (List.perm_ext_iff_of_nodup (List.nodup_range.map σ.injective) List.nodup_range).mpr
    fun a => ?_
  rw [List.mem_map, List.mem_range]
  constructor
  · rintro ⟨i, hi, rfl⟩
    rw [List.mem_range] at hi
    by_contra hge
    have := σ.injective (hfix (σ i) (by omega))
    omega
  · intro ha
    refine ⟨σ.symm a, ?_, σ.apply_symm_apply a⟩
    rw [List.mem_range]
    by_contra hge
    have := hfix (σ.symm a) (by omega)
    rw [σ.apply_symm_apply] at this
    omega

omit [Field K] [LinearOrder K] in
theorem map_getD_range (l : List ℤ) : (List.range l.length).map (fun i => l.getD i 0) = l := by
  refine List.ext_getElem (by simp) fun i hi hi' => ?_
  rw [List.getElem_map, List.getElem_range, List.getD_eq_getElem _ _ hi']

omit [Field K] [LinearOrder K] in
theorem after_take {n : ℕ} (hn : n ≤ front.numRows) :
    (front.after s).rowIds.take n = (List.range n).map s.rows := by
  change ((List.range front.numRows).map s.rows).take n = _
  rw [← List.map_take, List.take_range, min_eq_left hn]

omit [LinearOrder K] in
/-- A root with unaccepted columns: all its eligible rows are accepted. -/
theorem packedRows_singular (h : FrontStands front σ s front.numRows ps)
    (hsing : isRoot = true ∧ 0 < front.numEligible - s.k) :
    PackedRows front isRoot (front.after s, front.result isRoot s) s.k := by
  have hk := h.k_le
  have hres : front.result isRoot s = _ := if_pos hsing
  rw [hres]
  have hblocks : (s.dBlocks ++ (positions s.k front.numEligible).map fun c =>
      (⟨1, s.rows c, 0, 0, 0, 0⟩ : FrontDiagBlock K)).flatMap FrontDiagBlock.rowsOf =
        (front.after s).rowIds.take front.numEligible := by
    have hzero : ((positions s.k front.numEligible).map fun c =>
        (⟨1, s.rows c, 0, 0, 0, 0⟩ : FrontDiagBlock K)).flatMap FrontDiagBlock.rowsOf =
          (positions s.k front.numEligible).map s.rows := by
      rw [List.flatMap_map]
      exact List.flatMap_pure_eq_map ..
    have hrange : List.range front.numEligible =
        List.range s.k ++ positions s.k front.numEligible := by
      have happ := List.range'_append_1 (s := 0) (m := s.k) (n := front.numEligible - s.k)
      rw [Nat.zero_add, Nat.add_sub_cancel' hk] at happ
      rw [positions, List.range_eq_range', List.range_eq_range', happ]
    rw [List.flatMap_append, h.blocks.rows, hzero, after_take front.eligible_le, hrange,
      List.map_append]
  refine ⟨hblocks, rfl, fun hno => ?_, fun hno => ?_, fun _ => ⟨rfl, rfl, rfl⟩,
    fun _ _ => ⟨rfl, rfl, rfl⟩⟩
  · rcases hno with hno | hno
    · exact absurd (hsing.1.symm.trans hno) (by decide)
    · omega
  · exact absurd (hsing.1.symm.trans hno) (by decide)

omit [LinearOrder K] in
/-- Every other front: the rows after the pivots are those of its contribution. -/
theorem packedRows_regular (h : FrontStands front σ s front.numRows ps)
    (hreg : ¬ (isRoot = true ∧ 0 < front.numEligible - s.k)) :
    PackedRows front isRoot (front.after s, front.result isRoot s) s.k := by
  have hk := h.k_le
  have hf : front.numEligible ≤ front.numRows := front.eligible_le
  have hres : front.result isRoot s = _ := if_neg hreg
  rw [hres]
  -- the pivots come first, in the order of their columns
  have hblocks : s.dBlocks.flatMap FrontDiagBlock.rowsOf = (front.after s).rowIds.take s.k := by
    rw [h.blocks.rows, after_take (hk.trans hf)]
  refine ⟨hblocks, rfl, fun _ => ⟨rfl, rfl, rfl, rfl, List.take_append_drop _ _⟩,
    fun hroot i j hi hj => ?_, fun hroot => ⟨if_neg fun hno => ?_, ?_, ?_⟩,
    fun hroot hlt => absurd ⟨hroot, by omega⟩ hreg⟩
  · -- the packed block is the trailing block
    unfold FrontResult.contribution
    dsimp only
    by_cases hij : s.k ≤ i ∧ s.k ≤ j
    · rw [if_pos hij, if_pos ⟨by omega, hroot⟩]
      dsimp only
      rw [if_pos hij]
      change symAt s.F i j = _
      have hq : ∀ a b, s.k ≤ a → a < front.numRows → s.k ≤ b → b ≤ a →
          (if b - s.k ≤ a - s.k ∧ a - s.k < front.numRows - s.k then
            s.F (s.k + (a - s.k)) (s.k + (b - s.k)) else 0) = s.F a b := by
        intro a b ha haf hb hba
        rw [if_pos (by omega), Nat.add_sub_cancel' ha, Nat.add_sub_cancel' hb]
      rcases Nat.le_total j i with hji | hij'
      · rw [symAt_of_le hji, symAt_of_le (by omega), hq i j hij.1 hi hij.2 hji]
      · rw [symAt_comm, symAt_comm _ (i - s.k), symAt_of_le hij', symAt_of_le (by omega),
          hq j i hij.2 hj hij.1 hij']
    · rw [if_neg hij]
      split_ifs <;> rfl
  · exact absurd (hroot.symm.trans hno.2) (by decide)
  · refine List.drop_eq_nil_of_le ?_
    have : front.numEligible - s.k = 0 := Nat.eq_zero_of_not_pos fun hpos => hreg ⟨hroot, hpos⟩
    rw [List.length_take]
    omega
  · exact Nat.eq_zero_of_not_pos fun hpos => hreg ⟨hroot, hpos⟩

omit [LinearOrder K] in
/-- What a kernel packs is a partial factorization of the front. -/
theorem partialLdl_result (h : FrontStands front σ s front.numRows ps) :
    PartialLdl front isRoot (front.after s, front.result isRoot s) σ s.k := by
  have hlists : Lists front s (front.result isRoot s) := lists_result h
  have hf : front.numEligible ≤ front.numRows := front.eligible_le
  have hrows : (front.after s).rowIds =
      (List.range front.numRows).map fun i => front.rowIds.getD (σ i) 0 :=
    List.map_congr_left fun i _ => h.rows_eq i
  have hlrows : (front.result isRoot s).lRowIds = (front.after s).rowIds := by
    unfold NumericFront.result
    dsimp only
    by_cases hsing : isRoot = true ∧ 0 < front.numEligible - s.k
    · rw [if_pos hsing]
    · rw [if_neg hsing]
  -- the kernel moves eligible columns only, so no row id is lost
  have hperm : (front.after s).rowIds.Perm front.rowIds := by
    have hmap : ((List.range front.numRows).map fun i => front.rowIds.getD (σ i) 0) =
        ((List.range front.numRows).map σ).map fun i => front.rowIds.getD i 0 := by
      rw [List.map_map]
      rfl
    rw [hrows, hmap]
    refine ((perm_range hf h.fixed).map _).trans (List.Perm.of_eq ?_)
    exact map_getD_range front.rowIds
  have hpacked : PackedRows front isRoot (front.after s, front.result isRoot s) s.k := by
    by_cases hsing : isRoot = true ∧ 0 < front.numEligible - s.k
    · exact packedRows_singular h hsing
    · exact packedRows_regular h hsing
  refine ⟨h.k_le, h.fixed, hlrows.trans hrows, by rw [hlrows]; exact hperm, fun i j hi hj => ?_,
    h.core.tagged.congr fun c hc => (hlists.tags c).trans (if_pos hc), fun c hc =>
      ⟨(hlists.tags c).trans (if_neg (by omega)), fun e => hlists.d_zero h.core.tagged (Or.inl hc)⟩,
    fun c hc r hr => hlists.l_eq hc hr, hpacked⟩
  rw [hlists.ldlt_eq h.core.tagged hi hj]
  exact h.core.represented rfl hi hj

end Readings

section Kernels

variable {K : Type*} [Field K] [LinearOrder K]

/-- The thresholds are those of a zero pivot: an accepted pivot can be divided by. -/
def FrontControl.Zeros (ctrl : FrontControl K) (effectiveSmall : K) : Prop :=
  0 ≤ ctrl.smallPivot ∧ (0 < effectiveSmall ∨ 0 < ctrl.smallPivot)

variable [IsStrictOrderedRing K] {ctrl : FrontControl K} {effectiveSmall : K}

theorem effSmallOf_pos (h : ctrl.Zeros effectiveSmall) (m : K) :
    0 < effSmallOf ctrl effectiveSmall m := by
  unfold effSmallOf
  split_ifs with heff hmax
  · exact heff
  · have hsmall : 0 < ctrl.smallPivot := h.2.resolve_left heff
    exact mul_pos hsmall hmax.1
  · exact h.2.resolve_left heff

omit [LinearOrder K] [IsStrictOrderedRing K] in
/-- A front without rows. -/
theorem partialLdl_empty {front : NumericFront K} (h : front.numRows = 0) (isRoot : Bool) :
    PartialLdl front isRoot (front, { lPanel := fun _ _ => 0 }) (Equiv.refl ℕ) 0 := by
  have hnil : front.rowIds = [] := List.eq_nil_of_length_eq_zero h
  have helig : front.numEligible = 0 := Nat.le_zero.mp (h ▸ front.eligible_le)
  refine ⟨Nat.zero_le _, fun _ _ => rfl, by rw [h]; rfl, by rw [hnil], fun i j hi => by omega,
    nofun, fun c _ => ⟨rfl, fun e => ?_⟩, nofun,
    ⟨rfl, rfl, fun _ => ⟨rfl, rfl, by rw [helig], ?_, rfl⟩,
      fun _ i j hi => by omega, fun _ => ⟨rfl, rfl, rfl⟩, fun _ hlt => by omega⟩⟩
  · unfold BlockLdl.d
    split_ifs <;> rfl
  · rw [helig]
    rfl

variable (isRoot : Bool) (ws : ℕ → ℕ → K) (front : NumericFront K)

theorem factorFrontReference_ldl (h : ctrl.Zeros effectiveSmall) :
    ∃ σ p, PartialLdl front isRoot
      (factorFrontReference ctrl effectiveSmall isRoot ws front) σ p := by
  unfold factorFrontReference
  dsimp only
  by_cases hf : front.numRows = 0
  · rw [if_pos hf]
    exact ⟨_, _, partialLdl_empty hf isRoot⟩
  · rw [if_neg hf]
    have hstart : FrontStands front (Equiv.refl ℕ) (front.start ws) front.numRows 0 :=
      frontStands_start ws
    obtain ⟨σ, hrun⟩ := hstart.referenceLoop (u := ctrl.pivotU)
      (effSmallOf_pos h _) h.1
    exact ⟨σ, _, partialLdl_result hrun⟩

theorem factorFrontBlocked_ldl (h : ctrl.Zeros effectiveSmall) :
    ∃ σ p, PartialLdl front isRoot
      (factorFrontBlocked ctrl effectiveSmall isRoot ws front) σ p := by
  unfold factorFrontBlocked
  dsimp only
  by_cases hf : ctrl.indefUseReferenceKernel = true ∨ (max 1 ctrl.indefPanelSize).toNat ≤ 1 ∨
      front.numRows < 4
  · rw [dif_pos hf]
    exact factorFrontReference_ldl isRoot ws front h
  · have hnb : 1 < (max 1 ctrl.indefPanelSize).toNat := by omega
    rw [dif_neg hf]
    have hstart : FrontStands front (Equiv.refl ℕ) (front.start ws) front.numRows 0 :=
      frontStands_start ws
    obtain ⟨σ, ps, hrun⟩ := FrontStands.blockedLoop (u := ctrl.pivotU) hnb (effSmallOf_pos h _)
      h.1 _ _ _ hstart
    exact ⟨σ, _, partialLdl_result hrun⟩

/-- Both kernels return a partial factorization of every front, for every setting of which the
thresholds are those of a zero pivot. -/
theorem frontKernels_factor (h : ctrl.Zeros effectiveSmall) :
    (∃ σ p, PartialLdl front isRoot
      (factorFrontReference ctrl effectiveSmall isRoot ws front) σ p) ∧
      ∃ σ p, PartialLdl front isRoot
        (factorFrontBlocked ctrl effectiveSmall isRoot ws front) σ p :=
  ⟨factorFrontReference_ldl isRoot ws front h, factorFrontBlocked_ldl isRoot ws front h⟩

end Kernels

/-- The exchange matrix on two rows, with the default settings, below a parent. -/
def exchangeFront : NumericFront ℚ where
  rowIds := [0, 1]
  numEligible := 2
  data i j := if i = j then 0 else 1
  eligible_le := le_rfl

theorem frontKernels_factor_exchange :
    (∃ σ p, PartialLdl exchangeFront false
      (factorFrontReference defaultFrontControl (-1) false (fun _ _ => 0) exchangeFront) σ p) ∧
      ∃ σ p, PartialLdl exchangeFront false
        (factorFrontBlocked defaultFrontControl (-1) false (fun _ _ => 0) exchangeFront) σ p :=
  frontKernels_factor false _ _
    ⟨by norm_num [defaultFrontControl], Or.inr (by norm_num [defaultFrontControl])⟩

/-- One row with the entry 1/2. -/
def halfFront : NumericFront ℚ where
  rowIds := [7]
  numEligible := 1
  data _ _ := 1 / 2
  eligible_le := le_rfl

/-- The permuted front is `L D Lᵀ` plus the contribution that is returned. -/
def ReturnsAll (front : NumericFront ℚ) (res : FrontResult ℚ) : Prop :=
  ∃ σ : Equiv.Perm ℕ, (∀ i, front.numEligible ≤ i → σ i = i) ∧
    ∀ i j, i < front.numRows → j < front.numRows →
      symAt front.data (σ i) (σ j) = res.ldlt i j + res.contribution i j

/-- Every row is accepted, delayed or a contribution row, and only one of these. -/
def RowsOnce (front : NumericFront ℚ) (res : FrontResult ℚ) : Prop :=
  (res.acceptedRowIds ++ res.delayedColIds ++ res.contribRowIds).Perm front.rowIds

instance (front : NumericFront ℚ) (res : FrontResult ℚ) : Decidable (RowsOnce front res) := by
  unfold RowsOnce
  infer_instance

/-- A root that leaves its only column unaccepted returns `L D Lᵀ = 0` and no contribution; the
same front below a parent lists its row both as delayed and as a contribution row; and with
thresholds of zero a zero diagonal with a nonzero column is taken as a pivot. -/
theorem frontKernels_leave_out :
    ¬ ReturnsAll halfFront
      (factorFrontReference defaultFrontControl 1 true (fun _ _ => 0) halfFront).2 ∧
    ¬ RowsOnce halfFront
      (factorFrontReference defaultFrontControl 1 false (fun _ _ => 0) halfFront).2 ∧
    ¬ ReturnsAll exchangeFront
      (factorFrontReference ⟨0, 0, 16, false⟩ 0 false (fun _ _ => 0) exchangeFront).2 := by
  refine ⟨?_, by decide +kernel, ?_⟩
  · rintro ⟨σ, hfix, hall⟩
    have h := hall 0 0 Nat.zero_lt_one Nat.zero_lt_one
    have hzero : (factorFrontReference defaultFrontControl 1 true (fun _ _ => 0) halfFront).2.ldlt
        0 0 + (factorFrontReference defaultFrontControl 1 true (fun _ _ => 0)
          halfFront).2.contribution 0 0 = 0 := by decide +kernel
    have hhalf : symAt halfFront.data (σ 0) (σ 0) = 1 / 2 := symAt_self
    rw [hzero, hhalf] at h
    norm_num at h
  · rintro ⟨σ, hfix, hall⟩
    have h := hall 1 0 Nat.one_lt_two Nat.zero_lt_two
    have hzero : (factorFrontReference ⟨0, 0, 16, false⟩ 0 false (fun _ _ => 0)
        exchangeFront).2.ldlt 1 0 + (factorFrontReference ⟨0, 0, 16, false⟩ 0 false (fun _ _ => 0)
          exchangeFront).2.contribution 1 0 = 0 := by decide +kernel
    have hne : σ 1 ≠ σ 0 := fun he => Nat.one_ne_zero (σ.injective he)
    have hone : symAt exchangeFront.data (σ 1) (σ 0) = 1 := by
      unfold symAt exchangeFront
      dsimp only
      rw [if_neg hne, if_neg hne.symm, ite_self]
    rw [hzero, hone] at h
    norm_num at h

end SmfSolver.Kernel
