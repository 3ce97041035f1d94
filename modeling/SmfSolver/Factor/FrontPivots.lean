/-
  SmfSolver.Factor.FrontPivots

  The kernels leave whole pivots of a front's eligible columns, and `process_front` and
  the merge of the passes list one D entry for each.

  * `tpp_pivots`, `small_pivots`, `aptp_pivots`: the kernels of the lean engines.
  * `factorFrontReference_sorts`, `factorFrontBlocked_sorts`: those of the legacy one.
  * `storeFront_entries`: the D entries of a front; `merge_entries`: of the whole factor.
-/
import SmfSolver.Factor.PivotOrder
import SmfSolver.Kernel.AptpFactor
import SmfSolver.Kernel.SmallFront
import SmfSolver.Multifrontal.ProcessFront
import SmfSolver.Parallel.PassMerge

namespace SmfSolver
namespace Factor

open Multifrontal Kernel

/-! ## The lean kernels -/

section LeanFront

variable {K : Type*} [Field K] [LinearOrder K] [IsStrictOrderedRing K] {f numElig : ℕ}

/-- A kernel that moves eligible rows only leaves a permutation of them. -/
def KernelPivots.ofPerm {rows out tags : ℕ → ℤ} {k : ℕ} (σ : Equiv.Perm ℕ)
    (hfix : ∀ i, numElig ≤ i → σ i = i) (hrows : ∀ i, out i = rows (σ i)) (hk : k ≤ numElig)
    (htagged : Tagged tags k) : KernelPivots ((List.range numElig).map rows) where
  rows := out
  tags := tags
  numAccepted := k
  accepted_le := by rwa [List.length_map, List.length_range]
  perm := by
    rw [List.length_map, List.length_range, List.map_congr_left fun i _ => hrows i]
    have hmap : (List.range numElig).map (fun i => rows (σ i)) =
        ((List.range numElig).map σ).map rows := List.map_map.symm
    rw [hmap]
    exact (perm_range le_rfl hfix).map rows
  tagged := htagged

/-- What a kernel state leaves of the eligible rows. -/
def LeavesPivots (numElig : ℕ) (rows : ℕ → ℤ) (out tags : ℕ → ℤ) (k : ℕ) : Prop :=
  ∃ kr : KernelPivots ((List.range numElig).map rows),
    kr.rows = out ∧ kr.tags = tags ∧ kr.numAccepted = k

variable {prm : LdltKernelParams K}

/-- `ldlt_factor_front`. -/
theorem tpp_pivots (hz : prm.Zeros) (hf : numElig ≤ f) (F : ℕ → ℕ → K) (rows tags : ℕ → ℤ)
    (work : ℕ → ℕ → K) :
    ∃ out, ldltFactorFront prm f numElig 0 F rows tags work = some out ∧
      LeavesPivots numElig rows out.rows out.tags out.res.numAccepted := by
  obtain ⟨out, hout, hnum, -, hk, htagged, -, -, σ, hfix, hrows, -⟩ :=
    ldltFactorFront_factors (f := f) hz (Nat.zero_le numElig) hf
      (fun c hc => absurd hc (Nat.not_lt_zero c)) F rows work
  refine ⟨out, hout, KernelPivots.ofPerm σ (fun i hi => hfix i (.inr hi)) hrows hk htagged, rfl,
    rfl, hnum.symm⟩

/-- `ldlt_factor_small_front`, on the fronts that `process_front` gives it. -/
theorem small_pivots (hz : prm.Zeros) (hf : f ≤ Kernel.kSmallFrontMax) (hn : numElig ≤ f)
    (hsmall : f < prm.blockedMinFront) {P : ℕ → ℕ → K} (hpad : ZeroPadding P f)
    (rows tags : ℕ → ℤ) (work : ℕ → ℕ → K) :
    let out := ldltFactorSmallFront prm f numElig P rows tags work
    LeavesPivots numElig rows out.rows out.tags out.res.numAccepted := by
  obtain ⟨hsame, hres, hrows, htags, -⟩ :=
    small_front_same prm hf hn (P := P) (F := P) (fun _ _ _ _ => rfl) hpad rows tags work
  obtain ⟨out, hout, hleaves⟩ := tpp_pivots hz hn P rows tags work
  obtain rfl := Option.some.inj ((hsame (.inl hsmall)).symm.trans hout)
  dsimp only
  rw [hres, hrows, htags]
  exact hleaves

/-- `ldlt_aptp_front`, alone and with `ldlt_factor_front` on the columns it failed. -/
theorem aptp_pivots (hz : prm.Zeros) {aprm : AptpParams K} (hs : 0 < aprm.small)
    (hf : numElig ≤ f) (F : ℕ → ℕ → K) (rows tags : ℕ → ℤ) (work : ℕ → ℕ → K) :
    let out := ldltAptpFront aprm f numElig F rows tags
    LeavesPivots numElig rows out.rows out.tags out.res.numEliminated ∧
      ∃ next, ldltFactorFront prm f numElig out.res.numEliminated out.A out.rows out.tags work =
          some next ∧
        LeavesPivots numElig rows next.rows next.tags next.res.numAccepted := by
  obtain ⟨_, rfl, hle, -, htagged, -, -, σ, hfix, hrows, -, hnext⟩ :=
    ldltAptpFront_factors aprm hs hf F rows tags
  obtain ⟨next, hrun, -, hk, hnexttagged, -, τ, hτ, hnextrows, -⟩ := hnext prm hz work
  refine ⟨⟨KernelPivots.ofPerm σ hfix hrows hle htagged, rfl, rfl, rfl⟩, next, hrun,
    KernelPivots.ofPerm (τ.trans σ) (fun i hi => ?_) hnextrows hk hnexttagged, rfl, rfl, ?_⟩
  · rw [Equiv.trans_apply, hτ i (.inr hi), hfix i hi]
  · obtain ⟨out, pl, ps, hout, hnum, -⟩ :=
      @ldltFactorFront_runs K _ _ prm f numElig
        (ldltAptpFront aprm f numElig F rows tags).res.numEliminated
        _ hf (ldltAptpFront aprm f numElig F rows tags).A
        (ldltAptpFront aprm f numElig F rows tags).rows
        (ldltAptpFront aprm f numElig F rows tags).tags work
    obtain rfl := Option.some.inj (hrun.symm.trans hout)
    exact hnum.symm

end LeanFront

/-! ## The legacy kernels -/

section Legacy

theorem pivotAt_congr {rows rows' tags tags' : ℕ → ℤ} {c : ℕ} (htags : tags c = tags' c)
    (hrow : rows c = rows' c) (hnext : tags c = 2 → rows (c + 1) = rows' (c + 1)) :
    pivotAt rows tags c = pivotAt rows' tags' c := by
  unfold pivotAt
  rw [← htags, hrow]
  by_cases h2 : tags c = 2
  · rw [hnext h2]
  · rw [if_neg h2, if_neg h2]

variable {K : Type*}

/-- Blocks that list the tags and rows of the columns are the pivots. -/
theorem blocks_pivots {bs : List (FrontDiagBlock K)} {rows tags : ℕ → ℤ} {i n : ℕ}
    (htags : bs.flatMap FrontDiagBlock.tagsOf = (List.range' i n).map tags)
    (hrows : bs.flatMap FrontDiagBlock.rowsOf = (List.range' i n).map rows) :
    bs.map blockPivot = (List.range' i n).filterMap (pivotAt rows tags) := by
  -- on the blocks: the first one covers column `i`, and `i + 1` when its tag is 2
  induction bs generalizing i n with
  | nil =>
    rw [List.flatMap_nil, eq_comm, List.map_eq_nil_iff] at htags
    rw [htags]
    rfl
  | cons b bs ih =>
    rw [List.flatMap_cons] at htags hrows
    by_cases htwo : b.tag = 2
    · -- two columns
      rw [FrontDiagBlock.tagsOf, if_pos htwo] at htags
      rw [FrontDiagBlock.rowsOf, if_pos htwo] at hrows
      obtain ⟨m, rfl⟩ : ∃ m, n = m + 2 := by
        have hlen := congrArg List.length htags
        rw [List.length_append, List.length_map, List.length_range'] at hlen
        exact ⟨n - 2, by simp only [List.length_cons, List.length_nil] at hlen; omega⟩
      rw [List.range'_succ, List.range'_succ] at htags hrows ⊢
      simp only [List.map_cons, List.cons_append, List.nil_append, List.cons.injEq] at htags hrows
      obtain ⟨ht0, ht1, htags⟩ := htags
      obtain ⟨hr0, hr1, hrows⟩ := hrows
      have hfirst : pivotAt rows tags i = some (blockPivot b) := by
        rw [pivotAt, if_neg (by omega), if_pos ht0.symm, blockPivot, if_pos htwo, hr0, hr1]
      have hsecond : pivotAt rows tags (i + 1) = none := by
        rw [pivotAt, if_neg (by omega), if_neg (by omega), if_neg (by omega)]
      rw [List.map_cons, List.filterMap_cons, hfirst, List.filterMap_cons, hsecond, ih htags hrows]
    · rw [FrontDiagBlock.tagsOf, if_neg htwo] at htags
      rw [FrontDiagBlock.rowsOf, if_neg htwo] at hrows
      obtain ⟨m, rfl⟩ : ∃ m, n = m + 1 := by
        have hlen := congrArg List.length htags
        rw [List.length_append, List.length_map, List.length_range'] at hlen
        exact ⟨n - 1, by simp only [List.length_cons, List.length_nil] at hlen; omega⟩
      rw [List.range'_succ] at htags hrows ⊢
      simp only [List.map_cons, List.cons_append, List.nil_append, List.cons.injEq] at htags hrows
      obtain ⟨ht0, htags⟩ := htags
      obtain ⟨hr0, hrows⟩ := hrows
      have hfirst : pivotAt rows tags i = some (blockPivot b) := by
        rw [pivotAt, if_neg (by omega), if_neg (by omega), if_pos ht0.symm, blockPivot, if_neg htwo,
          hr0]
      rw [List.map_cons, List.filterMap_cons, hfirst, ih htags hrows]

theorem unmarked_of_noZero {ps : List Pivot} (h : ∀ p ∈ ps, p.isZero = false) :
    ps.map Pivot.unmarked = ps := by
  refine (List.map_congr_left fun p hp => ?_).trans (List.map_id ps)
  cases p with
  | zero c => exact absurd (h _ hp) Bool.noConfusion
  | one c => rfl
  | two a b => rfl

variable [Field K] {front : NumericFront K} {σ : Equiv.Perm ℕ} {s : FrontWork K} {ps : ℕ}
  {eligible : List ℤ}

/-- What the numeric kernels return of a front. -/
theorem sorts_result (h : FrontStands front σ s front.numRows ps) (isRoot : Bool)
    (helig : front.rowIds.take front.numEligible = eligible) :
    SortsColumns (front.result isRoot s) eligible isRoot := by
  have hk := h.k_le
  have hlists : Lists front s (front.result isRoot s) := lists_result h
  have htagged : Tagged s.tags s.k := h.core.tagged
  obtain ⟨count, hcount⟩ : ∃ count, count = (front.result isRoot s).numAccepted := ⟨_, rfl⟩
  have hkc : s.k ≤ count := hcount ▸ hlists.le
  -- the accepted rows and, below a parent, the delayed ones
  have hsplit : count ≤ front.numEligible ∧
      (front.result isRoot s).acceptedRowIds = (List.range count).map s.rows ∧
      (front.result isRoot s).acceptedRowIds ++ (front.result isRoot s).delayedColIds =
        (List.range front.numEligible).map s.rows ∧
      (isRoot = true → (front.result isRoot s).delayedColIds = []) ∧
      (front.result isRoot s).dBlocks = s.dBlocks ++
        (positions s.k count).map fun c => ⟨1, s.rows c, 0, 0, 0, 0⟩ := by
    have htake := after_take (s := s) front.eligible_le
    by_cases hsing : isRoot = true ∧ 0 < front.numEligible - s.k
    · have hres : front.result isRoot s = _ := if_pos hsing
      rw [hres] at hcount ⊢
      subst hcount
      exact ⟨le_rfl, htake, (List.append_nil _).trans htake, fun _ => rfl, rfl⟩
    · have hres : front.result isRoot s = _ := if_neg hsing
      rw [hres] at hcount ⊢
      subst hcount
      refine ⟨hk, after_take (hk.trans front.eligible_le), ?_, fun hroot => ?_, ?_⟩
      · dsimp only
        rw [htake, after_take (hk.trans front.eligible_le), ← List.map_drop]
        have hcut : List.range front.numEligible =
            List.range s.k ++ (List.range front.numEligible).drop s.k := by
          conv_lhs => rw [← List.take_append_drop s.k (List.range front.numEligible),
            List.take_range, min_eq_left hk]
        conv_rhs => rw [hcut, List.map_append]
      · have heq : s.k = front.numEligible := by
          by_contra hne
          exact hsing ⟨hroot, by omega⟩
        dsimp only
        rw [htake, heq, List.drop_eq_nil_iff.mpr (by simp)]
      · rw [positions, Nat.sub_self]
        exact (List.append_nil _).symm
  obtain ⟨hce, hacc, hall, hroot, hblocks⟩ := hsplit
  have hlen : (front.result isRoot s).acceptedRowIds.length = count := by
    rw [hacc, List.length_map, List.length_range]
  have hget : ∀ c < count, (front.result isRoot s).acceptedRowIds.getD c 0 = s.rows c :=
    fun c hc => by
    rw [hacc, getD_map_range, if_pos hc]
  have hwhole : WholePivots (fun c => (front.result isRoot s).pivotTags.getD c 0) s.k count := by
    refine ⟨hkc, htagged.congr fun c hc => ?_, fun c hc _ => ?_⟩
    · rw [hlists.tags, if_pos hc]
    · rw [hlists.tags, if_neg (by omega)]
  -- the pivots by the working front's rows and tags
  have hpivots : resultPivots (front.result isRoot s) = pivotsOf s.rows s.tags s.k ++
      (positions s.k count).map fun c => Pivot.zero (s.rows c) := by
    have hcut : List.range count = List.range s.k ++ positions s.k count := by
      rw [positions, List.range_eq_range', List.range_eq_range']
      conv_lhs => rw [← Nat.add_sub_cancel' hkc, ← List.range'_append_1, Nat.zero_add]
    rw [resultPivots, pivotsOf, ← hcount, hcut, List.filterMap_append]
    congr 1
    · refine List.filterMap_congr fun c hc => ?_
      have hc := List.mem_range.mp hc
      have htag : (front.result isRoot s).pivotTags.getD c 0 = s.tags c := by
        rw [hlists.tags, if_pos hc]
      refine pivotAt_congr htag (hget c (by omega)) fun h2 => hget (c + 1) ?_
      have := htagged.pair_lt hc (htag ▸ h2)
      omega
    · rw [← List.filterMap_eq_map]
      refine List.filterMap_congr fun c hc => ?_
      obtain ⟨hkc', hcc⟩ := mem_positions.mp hc
      have htag : (front.result isRoot s).pivotTags.getD c 0 = 0 := by
        rw [hlists.tags, if_neg (by omega)]
      rw [pivotAt, if_pos htag, hget c hcc]
      rfl
  refine ⟨?_, hroot, ?_, ?_⟩
  · rw [hall, ← helig]
    have hmap : (List.range front.numEligible).map s.rows =
        ((List.range front.numEligible).map σ).map fun i => front.rowIds.getD i 0 := by
      rw [List.map_map]
      exact List.map_congr_left fun i _ => h.rows_eq i
    rw [hmap]
    refine ((perm_range le_rfl h.fixed).map _).trans (.of_eq ?_)
    conv_rhs => rw [← map_getD_range front.rowIds, ← List.map_take, List.take_range,
      min_eq_left front.eligible_le]
  · rw [resultPivots, ← hcount, hwhole.columns, hacc]
    refine List.map_congr_left fun c hc => ?_
    rw [← hacc, hget c (List.mem_range.mp hc)]
  · have hlive : s.dBlocks.map blockPivot = pivotsOf s.rows s.tags s.k := by
      rw [pivotsOf, List.range_eq_range']
      have htags := h.blocks.tags
      have hrows := h.blocks.rows
      rw [List.range_eq_range'] at htags hrows
      exact blocks_pivots htags hrows
    rw [hblocks, hpivots, List.map_append, List.map_append, hlive,
      unmarked_of_noZero (pivotsOf_noZero htagged), List.map_map, List.map_map]
    rfl

/-- A front without rows. -/
theorem sorts_empty (h : front.numRows = 0) (isRoot : Bool)
    (helig : front.rowIds.take front.numEligible = eligible) :
    SortsColumns ({ lPanel := fun _ _ => 0 } : FrontResult K) eligible isRoot := by
  rw [List.eq_nil_of_length_eq_zero h, List.take_nil] at helig
  subst helig
  exact ⟨.refl _, fun _ => rfl, rfl, rfl⟩

variable [LinearOrder K] [IsStrictOrderedRing K] {ctrl : FrontControl K} {effectiveSmall : K}

/-- `factor_front_reference`. -/
theorem factorFrontReference_sorts (hz : ctrl.Zeros effectiveSmall) (isRoot : Bool)
    (ws : ℕ → ℕ → K) (front : NumericFront K)
    (helig : front.rowIds.take front.numEligible = eligible) :
    SortsColumns (factorFrontReference ctrl effectiveSmall isRoot ws front).2 eligible isRoot := by
  unfold factorFrontReference
  dsimp only
  by_cases hf : front.numRows = 0
  · rw [if_pos hf]
    exact sorts_empty hf isRoot helig
  · rw [if_neg hf]
    have hstart : FrontStands front (Equiv.refl ℕ) (front.start ws) front.numRows 0 :=
      frontStands_start ws
    obtain ⟨σ, hrun⟩ := hstart.referenceLoop (u := ctrl.pivotU) (effSmallOf_pos hz _) hz.1
    exact sorts_result hrun isRoot helig

/-- `factor_front_blocked`. -/
theorem factorFrontBlocked_sorts (hz : ctrl.Zeros effectiveSmall) (isRoot : Bool)
    (ws : ℕ → ℕ → K) (front : NumericFront K)
    (helig : front.rowIds.take front.numEligible = eligible) :
    SortsColumns (factorFrontBlocked ctrl effectiveSmall isRoot ws front).2 eligible isRoot := by
  unfold factorFrontBlocked
  dsimp only
  by_cases hf : ctrl.indefUseReferenceKernel = true ∨ (max 1 ctrl.indefPanelSize).toNat ≤ 1 ∨
      front.numRows < 4
  · rw [dif_pos hf]
    exact factorFrontReference_sorts hz isRoot ws front helig
  · have hnb : 1 < (max 1 ctrl.indefPanelSize).toNat := by omega
    rw [dif_neg hf]
    have hstart : FrontStands front (Equiv.refl ℕ) (front.start ws) front.numRows 0 :=
      frontStands_start ws
    obtain ⟨σ, ps, hrun⟩ := FrontStands.blockedLoop (u := ctrl.pivotU) hnb (effSmallOf_pos hz _)
      hz.1 _ _ _ hstart
    exact sorts_result hrun isRoot helig

end Legacy

/-! ## The stored D entries -/

section Stored

variable {V : Type*} [Zero V]

/-- What the order reads of a D entry. -/
def PivotEntry.ofFront (e : Multifrontal.DiagSolveEntry V) : PivotEntry :=
  ⟨e.tag, e.wasZero, e.row0, e.row1⟩

/-- Each column stored pushes its entry. -/
theorem storeColumn_entry (cx : Context V) (row : ℕ → ℕ) (tags : ℕ → ℤ) (f : ℕ)
    (st : StoredColumns V) (c : ℕ) :
    (cx.storeColumn row tags f st c).diag.map PivotEntry.ofFront =
      st.diag.map PivotEntry.ofFront ++ storedEntry (fun i => (row i : ℤ)) tags c := by
  unfold Context.storeColumn storedEntry
  dsimp only
  by_cases h0 : tags c = 0
  · rw [if_pos h0, if_pos h0]
    exact List.map_append
  rw [if_neg h0, if_neg h0]
  by_cases h2 : tags c = 2
  · rw [if_pos h2, if_pos h2]
    exact List.map_append
  rw [if_neg h2, if_neg h2]
  by_cases h1 : tags c = 1
  · rw [if_pos h1, if_pos h1]
    exact List.map_append
  rw [if_neg h1, if_neg h1]
  exact (List.append_nil _).symm

variable [Add V] [Mul V]

omit [Add V] in
/-- The entries that `process_front` pushes for an indefinite front. -/
theorem storeFront_entries (cx : Context V) (hposdef : cx.posdef = false) (s : ℕ) (p : FrontPlan)
    (kr : KernelResult V) (st : State V)
    (k : KernelPivots ((List.range p.numElig).map fun c => (kr.rows c : ℤ)))
    (hrows : k.rows = fun c => (kr.rows c : ℤ)) (htags : k.tags = kr.tags)
    (hk : k.numAccepted = kr.numAccepted) :
    (cx.storeFront s p kr st).1.pass.diag.map PivotEntry.ofFront =
      st.pass.diag.map PivotEntry.ofFront ++
        storedEntries k.rows (k.storedTags (isRoot cx.keep s))
          (k.storedCount (isRoot cx.keep s)) := by
  -- the loop over the columns, for any tags: on the list of columns
  have hfold : ∀ (tags : ℕ → ℤ) (l : List ℕ) (sc : StoredColumns V),
      (l.foldl (cx.storeColumn kr.rows tags p.f) sc).diag.map PivotEntry.ofFront =
        sc.diag.map PivotEntry.ofFront ++ l.flatMap
          (storedEntry (fun i => (kr.rows i : ℤ)) tags) := by
    intro tags l
    induction l with
    | nil => exact fun sc => (List.append_nil _).symm
    | cons c l ih =>
      intro sc
      rw [List.foldl_cons, ih, storeColumn_entry, List.flatMap_cons, List.append_assoc]
  have hlen : ((List.range p.numElig).map fun c => (kr.rows c : ℤ)).length = p.numElig := by
    rw [List.length_map, List.length_range]
  obtain ⟨zeros, hzeros⟩ : ∃ zeros, zeros =
      ((cx.keep.parent s).isNone && decide (kr.numAccepted < p.numElig)) := ⟨_, rfl⟩
  have hzero : zeros = true ↔ (cx.keep.parent s).isNone = true ∧ kr.numAccepted < p.numElig := by
    rw [hzeros, Bool.and_eq_true, decide_eq_true_iff]
  have hcount : (if zeros = true then p.numElig else kr.numAccepted) =
      k.storedCount (isRoot cx.keep s) := by
    unfold KernelPivots.storedCount isRoot
    rw [hlen, hk]
    exact if_congr hzero rfl rfl
  have hstored : (fun c => if zeros = true ∧ kr.numAccepted ≤ c ∧ c < p.numElig then 0
      else kr.tags c) = k.storedTags (isRoot cx.keep s) := by
    funext c
    unfold KernelPivots.storedTags isRoot
    rw [hlen, hk, htags]
    refine if_congr ⟨fun h => ⟨(hzero.mp h.1).1, h.2⟩, fun h => ⟨hzero.mpr ⟨h.1, ?_⟩, h.2⟩⟩ rfl rfl
    exact h.2.1.trans_lt h.2.2
  unfold Context.storeFront Context.storeColumns
  dsimp only
  rw [hposdef, ← hzeros, hcount, hstored, if_neg Bool.false_ne_true, hrows]
  exact hfold _ _ _

end Stored

section Merged

variable {α : Type} {n : ℕ} {akPerm : List ℕ}

/-- What the order reads of a D entry of a merged factor. -/
def PivotEntry.ofMerged (e : Parallel.DiagSolveEntry α) : PivotEntry :=
  ⟨e.tag, e.wasZero, e.row0, e.row1⟩

/-- Whichever pass factored a front, the merged factor lists the entries of a lean factor. -/
theorem merge_entries (T : AssemblyTree) (kernels : LeanKernels)
    (out : ℕ → Parallel.FrontFactor α) (orders : List (List ℕ))
    (horders : orders.flatten.Perm (List.range T.ns))
    (hout : ∀ s < T.ns, (out s).diag.map PivotEntry.ofMerged = leanEntries T kernels s) :
    (Parallel.merge (Parallel.passesOf out orders) T.ns).diagEntries.map PivotEntry.ofMerged =
      (leanFactor T kernels akPerm).diagEntries := by
  have hserial : (Parallel.FrontPass.storeAll out {} (List.range T.ns)).toKeep.diagEntries =
      (List.range T.ns).flatMap fun s => (out s).diag := Parallel.holds_serial.diag
  rw [(Parallel.merge_eq horders).2, hserial, List.map_flatMap]
  exact List.flatMap_congr fun s hs => hout s (List.mem_range.mp hs)

end Merged

end Factor
end SmfSolver
