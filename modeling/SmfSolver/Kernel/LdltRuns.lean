/-
The kernel's run as a sequence of steps on a lazily updated front.

`Step` says once what the kernel does to a front: a swap of current eligible columns, a pivot
that passed its tests, a raised static pivot, a deferred update, a new panel, the last Schur
update.  Every loop of `ldlt_factor_front` and of the small-front kernel is a run of such steps,
in which the inertia counts grow by those of the pivots taken (`CountedRuns`); what the steps
preserve is proved per step, in `StandsBy` and in `Grown`.
-/
import SmfSolver.Kernel.LazyFront
import Mathlib.Data.List.Perm.Subperm
import Mathlib.Logic.Relation

namespace SmfSolver.Kernel

variable {K : Type*} [Field K] [LinearOrder K]

/-- One step of the kernel on the front `l`. -/
inductive Step (prm : LdltKernelParams K) (f numElig first : ℕ) : Lazy K → Lazy K → Prop where
  | swap {l : Lazy K} {p q w : ℕ} (hp : l.k ≤ p) (hq : l.k ≤ q) (hpe : p < numElig)
      (hqe : q < numElig) (cur : ∀ j, l.k ≤ j → j ≤ max p q → l.base numElig first j = l.k)
      (hw : l.pl < numElig → w = l.k - l.ps) :
      Step prm f numElig first l { l with toFront := l.toFront.swap f p q w }
  | one {l : Lazy K} {a : ℕ} {m : PivotMode} (ha : l.k ≤ a) (hae : a < numElig)
      (cur : ∀ j, l.k ≤ j → j ≤ a → l.base numElig first j = l.k) (mode : Updates f numElig m l)
      (nonzero : prm.Zeros → l.F a a ≠ 0)
      (bound : prm.Threshold → 0 ≤ prm.u → Bounds1 prm l.F f l.k a) :
      Step prm f numElig first l
        { l with toFront := (l.toFront.swap f l.k a m.wCols).takeOne m f }
  | forced {l : Lazy K} {a : ℕ} {m : PivotMode} (ha : l.k ≤ a) (hae : a < numElig)
      (cur : ∀ j, l.k ≤ j → j ≤ a → l.base numElig first j = l.k) (mode : Updates f numElig m l)
      (static : 0 < prm.staticPivot) :
      Step prm f numElig first l
        { l with
          toFront :=
            ((l.toFront.raise a (staticValue prm (l.F a a))).swap f l.k a m.wCols).takeOne m f }
  | two {l : Lazy K} {a b : ℕ} {m : PivotMode} (ha : l.k ≤ a) (hae : a < numElig) (hb : l.k ≤ b)
      (hbe : b < numElig) (hab : a ≠ b)
      (cur : ∀ j, l.k ≤ j → j ≤ max a b → l.base numElig first j = l.k)
      (mode : Updates f numElig m l) (nonzero : prm.Zeros → pivotDet l.F a b ≠ 0)
      (bound : prm.Threshold → 0 ≤ prm.u → Bounds2 prm l.F f l.k a b) :
      Step prm f numElig first l
        { l with toFront := (l.toFront.placeTwo f a b m.wCols).takeTwo m f }
  | deferred {l : Lazy K} (hpl : l.pl ≤ numElig) :
      Step prm f numElig first l
        { l with toFront := l.toFront.deferred f l.ps (max l.pl l.k) numElig, pl := numElig }
  | panel {l : Lazy K} {pl : ℕ} (hpl : l.pl = numElig) (hle : pl ≤ numElig) :
      Step prm f numElig first l { l with pl := pl, ps := l.k }
  | schur {l : Lazy K} (hpl : l.pl = numElig) :
      Step prm f numElig first l { l with toFront := l.toFront.schur f first numElig, pl := f }

/-- A run of the kernel. -/
abbrev Runs (prm : LdltKernelParams K) (f numElig first : ℕ) : Lazy K → Lazy K → Prop :=
  Relation.ReflTransGen (Step prm f numElig first)

/-! ## Counts -/

/-- What the pivot at column `c` adds to the counts; the second column of a block adds nothing. -/
def columnCounts (prm : LdltKernelParams K) (s : Front K) (out : InertiaCounts) (c : ℕ) :
    InertiaCounts :=
  if s.tags c = 1 then addInertia1x1 (s.F c c) prm.effSmall out
  else if s.tags c = 2 then
    addInertia2x2 (s.F c c) (s.F (c + 1) c) (s.F (c + 1) (c + 1)) prm.smallPivot out
  else out

/-- What the pivots from column `k` on add to the counts. -/
def countFrom (prm : LdltKernelParams K) (s : Front K) (k : ℕ) (out : InertiaCounts) :
    InertiaCounts :=
  (List.range' k (s.k - k)).foldl (columnCounts prm s) out

/-- A step with the counts before and after it. -/
structure CountedStep (prm : LdltKernelParams K) (f numElig first : ℕ)
    (a b : Lazy K × InertiaCounts) : Prop where
  step : Step prm f numElig first a.1 b.1
  counts : ¬0 < prm.staticPivot → b.2 = countFrom prm b.1.toFront a.1.k a.2

/-- A run of the kernel with its counts. -/
abbrev CountedRuns (prm : LdltKernelParams K) (f numElig first : ℕ) :
    Lazy K × InertiaCounts → Lazy K × InertiaCounts → Prop :=
  Relation.ReflTransGen (CountedStep prm f numElig first)

section Counts

variable {prm : LdltKernelParams K} {f numElig first : ℕ} {l l' : Lazy K} {c c' : InertiaCounts}

theorem CountedRuns.runs (h : CountedRuns prm f numElig first (l, c) (l', c')) :
    Runs prm f numElig first l l' :=
  h.lift Prod.fst fun _ _ hstep => hstep.step

theorem countFrom_self (s : Front K) : countFrom prm s s.k c = c := by
  rw [countFrom, Nat.sub_self]
  rfl

/-- A step that takes no pivot. -/
theorem CountedStep.still (h : Step prm f numElig first l l') (hk : l'.k = l.k) :
    CountedStep prm f numElig first (l, c) (l', c) :=
  ⟨h, fun _ => by rw [← hk, countFrom_self]⟩

theorem countFrom_takeOne (m : PivotMode) (s : Front K) :
    countFrom prm (s.takeOne m f) s.k c = addInertia1x1 (s.F s.k s.k) prm.effSmall c := by
  have hdiag : (s.takeOne m f).F s.k s.k = s.F s.k s.k := by
    change (if m.small = true then smallEliminate1x1 s.F f s.k
      else eliminate1x1 s.F f s.k m.ucolEnd) s.k s.k = _
    split
    · exact (if_neg (by omega)).trans (if_neg (by omega))
    · exact (if_neg (by omega)).trans (if_neg (by omega))
  have htag : (s.takeOne m f).tags s.k = 1 := Function.update_self ..
  have hk : (s.takeOne m f).k - s.k = 1 := by
    show s.k + 1 - s.k = 1
    omega
  rw [countFrom, hk, List.range'_one, List.foldl_cons, List.foldl_nil, columnCounts, if_pos htag,
    hdiag]

theorem countFrom_takeTwo (m : PivotMode) (s : Front K) :
    countFrom prm (s.takeTwo m f) s.k c =
      addInertia2x2 (s.F s.k s.k) (s.F (s.k + 1) s.k)
        (s.F (s.k + 1) (s.k + 1)) prm.smallPivot c := by
  have hblock : ∀ i ≤ s.k + 1, ∀ j ≤ i, s.k ≤ j → (s.takeTwo m f).F i j = s.F i j := by
    intro i hi j hji hj
    change (if m.small = true then smallEliminate2x2 s.F f s.k
      else eliminate2x2 s.F f s.k m.ucolEnd) i j = _
    split
    · exact ((if_neg (by omega)).trans (if_neg (by omega))).trans (if_neg (by omega))
    · exact ((if_neg (by omega)).trans (if_neg (by omega))).trans (if_neg (by omega))
  have htag : (s.takeTwo m f).tags s.k = 2 := by
    show Function.update (Function.update s.tags s.k 2) (s.k + 1) (-1) s.k = 2
    rw [Function.update_of_ne (by omega), Function.update_self]
  have htag1 : (s.takeTwo m f).tags (s.k + 1) = -1 := Function.update_self ..
  have hk : (s.takeTwo m f).k - s.k = 2 := by
    show s.k + 2 - s.k = 2
    omega
  rw [countFrom, hk, List.range'_succ, List.range'_one, List.foldl_cons, List.foldl_cons,
    List.foldl_nil, columnCounts, columnCounts, htag, htag1, if_neg (by decide), if_pos rfl,
    if_neg (by decide), if_neg (by decide), hblock _ (by omega) _ le_rfl le_rfl,
    hblock _ le_rfl _ (by omega) le_rfl, hblock _ le_rfl _ le_rfl (by omega)]

end Counts

section Loops

variable {prm : LdltKernelParams K} {f numElig first pl ps : ℕ} {s s' : KernelState K}
  {m : PivotMode}

/-- The front of a state, with its panel. -/
abbrev Front.lazy (s : Front K) (pl ps : ℕ) : Lazy K := { toFront := s, pl := pl, ps := ps }

/-- A chosen pivot of current columns is a step. -/
theorem applyPivot_step {limit : ℕ} {pc : PivotChoice}
    (hc : Chosen prm s.F f s.k limit pc) (hl : limit ≤ numElig)
    (cur : ∀ j, s.k ≤ j → j < limit → (s.lazy pl ps).base numElig first j = s.k)
    (mode : Updates f numElig m (s.lazy pl ps)) :
    CountedStep prm f numElig first (s.lazy pl ps, s.res.inertia)
      ((applyPivot prm f m false pc s).lazy pl ps,
        (applyPivot prm f m false pc s).res.inertia) := by
  cases pc with
  | one a =>
    obtain ⟨ha, hal, hnz, hbound⟩ := hc
    refine ⟨Step.one ha (by omega) (fun j hkj hja => cur j hkj (by omega)) mode hnz hbound,
      fun _ => ?_⟩
    have hk : (s.toFront.swap f s.k a m.wCols).k = s.k := Front.swap_k ..
    have hcount := (@countFrom_takeOne _ _ _ prm f s.res.inertia) m
      (s.toFront.swap f s.k a m.wCols)
    rw [hk] at hcount
    exact hcount.symm
  | two a b =>
    obtain ⟨ha, hal, hb, hbl, hab, hnz, hbound⟩ := hc
    refine ⟨Step.two ha (by omega) hb (by omega) hab (fun j hkj hj => cur j hkj (by omega)) mode
      hnz hbound, fun _ => ?_⟩
    have hk : (s.toFront.placeTwo f a b m.wCols).k = s.k := Front.placeTwo_k ..
    have hcount := (@countFrom_takeTwo _ _ _ prm f s.res.inertia) m
      (s.toFront.placeTwo f a b m.wCols)
    rw [hk] at hcount
    exact hcount.symm

variable [IsStrictOrderedRing K]

/-- A search over all eligible columns, all current, is a step. -/
theorem searchStep_step (h : searchStep prm f numElig m s = some s') (hk : s.k < numElig)
    (hf : numElig ≤ f)
    (cur : ∀ j, s.k ≤ j → j < numElig → (s.lazy pl ps).base numElig first j = s.k)
    (mode : Updates f numElig m (s.lazy pl ps)) :
    CountedStep prm f numElig first (s.lazy pl ps, s.res.inertia) (s'.lazy pl ps,
      s'.res.inertia) := by
  unfold searchStep at h
  split at h
  case h_1 pc hpc =>
    obtain rfl := Option.some.inj h
    exact applyPivot_step (selectPivot_chosen hk le_rfl hf hpc) le_rfl cur mode
  case h_2 =>
    split_ifs at h with hstatic
    obtain rfl := Option.some.inj h
    have hbest : s.k ≤ (staticBest prm s.F f s.k numElig).best ∧
        (staticBest prm s.F f s.k numElig).best < numElig := staticBest_mem hk
    exact ⟨Step.forced hbest.1 hbest.2 (fun j hkj hj => cur j hkj (by omega)) mode hstatic,
      fun hno => absurd hstatic hno⟩

theorem unblocked_runs (hf : numElig ≤ f) (hm : m.small = true ∨ m.small = false ∧ m.ucolEnd = f)
    (s : KernelState K) : CountedRuns prm f numElig first (s.lazy f ps, s.res.inertia)
      ((unblocked prm f numElig m s).lazy f ps, (unblocked prm f numElig m s).res.inertia) := by
  fun_induction unblocked prm f numElig m s with
  | case1 s hk h => exact Relation.ReflTransGen.refl
  | case2 s hk s' h ih =>
    refine Relation.ReflTransGen.head (searchStep_step h hk hf (fun j _ hj => ?_) ?_) ih
    · exact if_pos (show j < f by omega)
    · refine ⟨?_, fun hlt => absurd hlt (by simpa using hf)⟩
      rcases hm with hm | hm
      · exact Or.inl ⟨hm, le_rfl⟩
      · exact Or.inr hm
  | case3 s hk => exact Relation.ReflTransGen.refl

/-- A panel pivot leaves `k` in the panel. -/
theorem panelStep_le (h : panelStep prm f numElig ps pl s = some s') (hk : s.k < pl)
    (hl : pl ≤ numElig) (hf : numElig ≤ f) : s'.k ≤ pl := by
  obtain ⟨pc, hpc, rfl⟩ := Option.map_eq_some_iff.mp h
  have hc := selectPivot_chosen hk hl hf hpc
  cases pc with
  | one a =>
    change (s.toFront.swap f s.k a (s.k - ps)).k + 1 ≤ pl
    rw [Front.swap_k]
    exact hk
  | two a b =>
    obtain ⟨ha, hal, hb, hbl, hab, -⟩ := hc
    change (s.toFront.placeTwo f a b (s.k - ps)).k + 2 ≤ pl
    rw [Front.placeTwo_k]
    omega

theorem panelStep_step (h : panelStep prm f numElig ps pl s = some s') (hk : s.k < pl)
    (hl : pl ≤ numElig) (hf : numElig ≤ f) :
    CountedStep prm f numElig first (s.lazy pl ps, s.res.inertia) (s'.lazy pl ps,
      s'.res.inertia) := by
  obtain ⟨pc, hpc, rfl⟩ := Option.map_eq_some_iff.mp h
  refine applyPivot_step (selectPivot_chosen hk hl hf hpc) hl (fun j _ hj => if_pos hj) ?_
  exact ⟨Or.inr ⟨rfl, rfl⟩, fun _ => ⟨rfl, rfl⟩⟩

variable (prm first ps)

theorem panel_runs (hl : pl ≤ numElig) (hf : numElig ≤ f) (s : KernelState K) (hk : s.k ≤ pl) :
    CountedRuns prm f numElig first (s.lazy pl ps, s.res.inertia)
        ((panel prm f numElig ps pl s).lazy pl ps, (panel prm f numElig ps pl s).res.inertia) ∧
      (panel prm f numElig ps pl s).k ≤ pl := by
  fun_induction panel prm f numElig ps pl s with
  | case1 s hk' h => exact ⟨Relation.ReflTransGen.refl, hk⟩
  | case2 s hk' s' h ih =>
    obtain ⟨hrun, hle⟩ := ih (panelStep_le h hk' hl hf)
    exact ⟨Relation.ReflTransGen.head (panelStep_step h hk' hl hf) hrun, hle⟩
  | case3 s hk' => exact ⟨Relation.ReflTransGen.refl, hk⟩

/-- One panel and its update: from all eligible columns current to all of them current. -/
theorem panelUpdate_runs (hl : pl ≤ numElig) (hf : numElig ≤ f) (hk : s.k ≤ pl) :
    CountedRuns prm f numElig first (s.lazy numElig ps, s.res.inertia)
        ((panelUpdate prm f numElig s.k pl s).lazy numElig s.k,
          (panelUpdate prm f numElig s.k pl s).res.inertia) ∧
      (panelUpdate prm f numElig s.k pl s).k ≤ pl := by
  obtain ⟨hrun, hle⟩ := panel_runs prm first s.k hl hf s hk
  refine ⟨Relation.ReflTransGen.head (CountedStep.still (Step.panel rfl hl) rfl)
    (hrun.tail ?_), hle⟩
  have hstep : Step prm f numElig first ((panel prm f numElig s.k pl s).lazy pl s.k) _ :=
    Step.deferred hl
  rw [show max ((panel prm f numElig s.k pl s).lazy pl s.k).pl _ = pl from max_eq_left hle]
    at hstep
  exact CountedStep.still hstep rfl

theorem searchPass_runs (hnb : 1 < prm.nb) (hf : numElig ≤ f) (s : KernelState K) (ps : ℕ) :
    ∃ ps', CountedRuns prm f numElig first (s.lazy numElig ps, s.res.inertia)
      ((searchPass prm f numElig hnb s).lazy numElig ps',
        (searchPass prm f numElig hnb s).res.inertia) := by
  fun_induction searchPass prm f numElig hnb s generalizing ps with
  | case1 s hk pl s1 hst h =>
    exact ⟨s.k, (panelUpdate_runs prm first ps (by omega) hf (by omega)).1⟩
  | case2 s hk pl s1 hst s2 h ih =>
    obtain ⟨hrun, hle⟩ := panelUpdate_runs prm first ps (show pl ≤ numElig by omega) hf
      (show s.k ≤ pl by omega)
    obtain ⟨ps', hrest⟩ := ih s1.k
    refine ⟨ps', hrun.trans ?_⟩
    -- every eligible column is current: the search has a panel of no columns
    have hcur : ∀ j, s1.k ≤ j → j < numElig → (s1.lazy s1.k s1.k).base numElig first j = s1.k := by
      intro j hkj hj
      unfold Lazy.base
      rw [if_neg (by simpa using hkj), if_pos hj]
    have hstep : CountedStep prm f numElig first (s1.lazy s1.k s1.k, s1.res.inertia)
        (s2.lazy s1.k s1.k, s2.res.inertia) :=
      searchStep_step h (show s1.k < numElig by omega) hf hcur
        ⟨Or.inr ⟨rfl, rfl⟩, fun _ => ⟨rfl, (Nat.sub_self _).symm⟩⟩
    have hdef : Step prm f numElig first (s2.lazy s1.k s1.k) _ :=
      Step.deferred (show s1.k ≤ numElig by omega)
    have hk2 : s1.k ≤ s2.k := (searchStep_k h).le
    rw [show max (s2.lazy s1.k s1.k).pl (s2.lazy s1.k s1.k).k = s2.k from max_eq_right hk2] at hdef
    exact Relation.ReflTransGen.head (CountedStep.still (Step.panel rfl (by omega)) rfl)
      (Relation.ReflTransGen.head hstep
        (Relation.ReflTransGen.head (CountedStep.still hdef rfl) hrest))
  | case3 s hk pl s1 hst ih =>
    obtain ⟨hrun, hle⟩ := panelUpdate_runs prm first ps (show pl ≤ numElig by omega) hf
      (show s.k ≤ pl by omega)
    obtain ⟨ps', hrest⟩ := ih s.k
    exact ⟨ps', hrun.trans hrest⟩
  | case4 s hk => exact ⟨ps, Relation.ReflTransGen.refl⟩

end Loops

section Pairing

variable {prm : LdltKernelParams K} {f numElig first pl ps : ℕ} {c : InertiaCounts}

/-- With all eligible columns current, eligible columns may trade places. -/
theorem swap_step {s : Front K} {p q : ℕ} (hp : s.k ≤ p) (hq : s.k ≤ q) (hpe : p < numElig)
    (hqe : q < numElig) :
    CountedStep prm f numElig first (s.lazy numElig ps, c) ((s.swap f p q 0).lazy numElig ps, c) :=
  CountedStep.still (Step.swap (l := s.lazy numElig ps) hp hq hpe hqe
    (fun j _ hj => if_pos (show j < numElig by omega)) fun hlt => absurd hlt (lt_irrefl numElig))
    (Front.swap_k ..)

omit [Field K] [LinearOrder K] in
theorem swap_rows {s : Front K} {p q w i : ℕ} :
    (s.swap f p q w).rows i = s.rows (Equiv.swap p q i) := by
  unfold Front.swap
  split_ifs with h
  · rw [h, Equiv.swap_self]
    rfl
  · rfl

theorem positions_cons {p n : ℕ} (h : p < n) : positions p n = p :: positions (p + 1) n := by
  rw [positions, positions, show n - p = n - (p + 1) + 1 by omega, List.range'_succ]

theorem positions_nodup (a b : ℕ) : (positions a b).Nodup := List.nodup_range'

/-- The ids of distinct eligible columns are found one after the other: what a swap displaces
moves further back. -/
theorem gather_runs (prm : LdltKernelParams K) (first ps : ℕ) (hf : numElig ≤ f) {ids : List ℤ}
    {p : ℕ} {s : Front K} (hp : s.k ≤ p)
    (hids : ids.Subperm ((positions p numElig).map s.rows)) :
    ∃ s', Front.gather f ids p s = some s' ∧
      CountedRuns prm f numElig first (s.lazy numElig ps, c) (s'.lazy numElig ps, c) := by
  induction ids generalizing p s with
  | nil => exact ⟨s, rfl, Relation.ReflTransGen.refl⟩
  | cons id ids ih =>
    obtain ⟨q0, hq0, hid0⟩ := List.mem_map.mp (hids.subset List.mem_cons_self)
    have hpn : p < numElig := by
      have := mem_positions.mp hq0
      omega
    -- the first position that holds the id
    obtain ⟨q, hq, hpq, hqn, hrow⟩ : ∃ q, s.findRow id p f = some q ∧ p ≤ q ∧ q < numElig ∧
        s.rows q = id := by
      have hsplit : positions p f = positions p numElig ++ positions numElig f := by
        rw [positions, positions, positions,
          show numElig = p + 1 * (numElig - p) by omega, Nat.add_sub_cancel_left,
          show f - p = (1 * (numElig - p)) + (f - (p + 1 * (numElig - p))) by omega, Nat.one_mul]
        exact List.range'_append_1.symm
      cases hfind : (positions p numElig).find? fun q => s.rows q = id with
      | none =>
        have := List.find?_eq_none.mp hfind q0 hq0
        exact absurd (decide_eq_true hid0) this
      | some q =>
        have hmem := mem_positions.mp (List.mem_of_find?_eq_some hfind)
        have hid := List.find?_some hfind
        refine ⟨q, ?_, hmem.1, hmem.2, of_decide_eq_true hid⟩
        rw [Front.findRow, hsplit, List.find?_append, hfind]
        rfl
    have hperm : ((positions p numElig).map s.rows).Perm
        (id :: (positions (p + 1) numElig).map (s.swap f p q 0).rows) := by
      have hhead : (s.swap f p q 0).rows p = id := by
        rw [swap_rows, Equiv.swap_apply_left, hrow]
      have hmoved : ((positions p numElig).map (Equiv.swap p q)).Perm (positions p numElig) := by
        refine (List.perm_ext_iff_of_nodup ?_ (positions_nodup _ _)).mpr fun i => ?_
        · exact (positions_nodup _ _).map (Equiv.swap p q).injective
        · rw [List.mem_map]
          have hin : ∀ i, i ∈ positions p numElig → Equiv.swap p q i ∈ positions p numElig := by
            intro i hi
            rw [mem_positions] at hi ⊢
            by_cases hip : i = p
            · rw [hip, Equiv.swap_apply_left]
              omega
            by_cases hiq : i = q
            · rw [hiq, Equiv.swap_apply_right]
              omega
            rwa [Equiv.swap_apply_of_ne_of_ne hip hiq]
          constructor
          · rintro ⟨j, hj, rfl⟩
            exact hin j hj
          · exact fun hi => ⟨_, hin i hi, Equiv.swap_apply_self p q i⟩
      rw [← hhead, ← List.map_cons, ← positions_cons hpn]
      have hrows : (s.swap f p q 0).rows = s.rows ∘ Equiv.swap p q := funext fun i => swap_rows
      rw [hrows, ← List.map_map]
      exact (hmoved.map s.rows).symm
    have hrest : ids.Subperm ((positions (p + 1) numElig).map (s.swap f p q 0).rows) :=
      (List.subperm_cons id).mp (hids.trans hperm.subperm)
    obtain ⟨s', hs', hrun⟩ := ih (p := p + 1) (s := s.swap f p q 0)
      (by rw [Front.swap_k]; omega) hrest
    refine ⟨s', ?_, Relation.ReflTransGen.head (swap_step hp (hp.trans hpq) hpn hqn) hrun⟩
    rw [Front.gather, hq]
    exact hs'

theorem retire_runs {s : Front K} {live mv : ℕ} (hmv : s.k + mv ≤ live - mv) (hl : live ≤ numElig) :
    CountedRuns prm f numElig first (s.lazy numElig ps, c)
      ((s.retire f live mv).lazy numElig ps, c) := by
  have hrun : ∀ (l : List ℕ) (s' : Front K), s'.k = s.k → (∀ t ∈ l, t < mv) →
      CountedRuns prm f numElig first (s'.lazy numElig ps, c)
        ((l.foldl (fun s' t => s'.swap f (s.k + t) (live - mv + t) 0) s').lazy numElig ps, c) := by
    intro l
    induction l with
    | nil => exact fun s' _ _ => Relation.ReflTransGen.refl
    | cons t l ih =>
      intro s' hk hl
      have ht := hl t List.mem_cons_self
      refine Relation.ReflTransGen.head (swap_step (by omega) (by omega) (by omega) (by omega))
        (ih _ ?_ fun t ht => hl t (List.mem_cons_of_mem _ ht))
      rw [Front.swap_k, hk]
  exact hrun _ s rfl fun t ht => List.mem_range.mp ht

/-- The pairs of positions behind the row ids of a pairing: distinct failed columns of the panel,
and distinct partners behind it. -/
structure Pairs (k pl numElig : ℕ) (visited : List ℕ) (pairs : List (ℕ × ℕ)) : Prop where
  failed : ∀ o ∈ pairs, k ≤ o.1 ∧ o.1 < pl ∧ o.1 ∈ visited
  partner : ∀ o ∈ pairs, pl ≤ o.2 ∧ o.2 < numElig
  failed_nodup : (pairs.map Prod.fst).Nodup
  partner_nodup : (pairs.map Prod.snd).Nodup

theorem addPartner_cases (maxPairs : ℕ) (s : Front K) (order : List (ℤ × ℤ)) (pos : ℕ) :
    s.addPartner maxPairs pl numElig order pos = order ∨
      ∃ r, pl ≤ r ∧ r < numElig ∧ (∀ o ∈ order, o.2 ≠ s.rows r) ∧
        s.addPartner maxPairs pl numElig order pos = order ++ [(s.rows pos, s.rows r)] := by
  unfold Front.addPartner
  by_cases hlen : order.length < maxPairs
  swap
  · exact Or.inl (if_neg hlen)
  rw [if_pos hlen]
  dsimp only
  have hscan := scanOk (fun j => |s.F j pos|) (positions pl numElig)
  cases hr : (s.outScan pl numElig pos).rBest with
  | none => exact Or.inl rfl
  | some r =>
    have hmem := mem_positions.mp (hscan.best r hr).1
    dsimp only
    by_cases hin : (s.outScan pl numElig pos).m1 ≤ s.inMax s.k pl pos
    · exact Or.inl (if_pos hin)
    rw [if_neg hin]
    by_cases hany : order.any (fun o => o.2 = s.rows r) = true
    · exact Or.inl (if_pos hany)
    · refine Or.inr ⟨r, hmem.1, hmem.2, fun o ho heq => hany ?_, if_neg hany⟩
      exact List.any_eq_true.mpr ⟨o, ho, decide_eq_true heq⟩

theorem partners_pairs (prm : LdltKernelParams K) (s : Front K) (pl numElig : ℕ) :
    ∃ pairs, Pairs s.k pl numElig (positions s.k pl) pairs ∧
      s.partners prm pl numElig = pairs.map fun o => (s.rows o.1, s.rows o.2) := by
  have hrun : ∀ (l : List ℕ), (∀ i ∈ l, s.k ≤ i ∧ i < pl) → l.Nodup →
      ∃ pairs, Pairs s.k pl numElig l pairs ∧
        l.foldl (s.addPartner (min (prm.nb / 2) 64) pl numElig) [] =
          pairs.map fun o => (s.rows o.1, s.rows o.2) := by
    intro l
    induction l using List.reverseRecOn with
    | nil => exact fun _ _ => ⟨[], ⟨by simp, by simp, by simp, by simp⟩, rfl⟩
    | append_singleton l i ih =>
      intro hl hnd
      obtain ⟨hndl, -, hdisj⟩ := List.nodup_append.mp hnd
      have hil : i ∉ l := fun hi => hdisj i hi i List.mem_cons_self rfl
      have hi := hl i (List.mem_append_right _ List.mem_cons_self)
      obtain ⟨pairs, hp, heq⟩ := ih (fun j hj => hl j (List.mem_append_left _ hj)) hndl
      have hsame : Pairs s.k pl numElig (l ++ [i]) pairs :=
        ⟨fun o ho => ⟨(hp.failed o ho).1, (hp.failed o ho).2.1,
          List.mem_append_left _ (hp.failed o ho).2.2⟩, hp.partner, hp.failed_nodup,
          hp.partner_nodup⟩
      rw [List.foldl_append, heq, List.foldl_cons, List.foldl_nil]
      rcases addPartner_cases (min (prm.nb / 2) 64) s
        (pairs.map fun o => (s.rows o.1, s.rows o.2)) i
        with h | ⟨r, hrl, hrn, hnew, h⟩
      · exact ⟨pairs, hsame, h⟩
      refine ⟨pairs ++ [(i, r)], ⟨?_, ?_, ?_, ?_⟩, by rw [h, List.map_append]; rfl⟩
      · intro o ho
        rcases List.mem_append.mp ho with ho | ho
        · exact hsame.failed o ho
        · rw [List.mem_singleton.mp ho]
          exact ⟨hi.1, hi.2, List.mem_append_right _ List.mem_cons_self⟩
      · intro o ho
        rcases List.mem_append.mp ho with ho | ho
        · exact hp.partner o ho
        · rw [List.mem_singleton.mp ho]
          exact ⟨hrl, hrn⟩
      · rw [List.map_append, List.map_singleton]
        refine List.nodup_append.mpr ⟨hp.failed_nodup, List.nodup_singleton _, ?_⟩
        intro a ha b hb hab
        obtain ⟨o, ho, rfl⟩ := List.mem_map.mp ha
        rw [List.mem_singleton.mp hb] at hab
        have hmem := (hp.failed o ho).2.2
        rw [hab] at hmem
        exact hil hmem
      · rw [List.map_append, List.map_singleton]
        refine List.nodup_append.mpr ⟨hp.partner_nodup, List.nodup_singleton _, ?_⟩
        intro a ha b hb hab
        obtain ⟨o, ho, rfl⟩ := List.mem_map.mp ha
        rw [List.mem_singleton.mp hb] at hab
        -- the partner's row id would have been found among the ids
        exact hnew _ (List.mem_map.mpr ⟨o, ho, rfl⟩) (congrArg s.rows hab)
  exact hrun _ (fun i hi => mem_positions.mp hi) (positions_nodup _ _)

/-- The ids to pull are the ids of distinct eligible columns. -/
theorem pullOrder_subperm (prm : LdltKernelParams K) (s : Front K) (kPaired : Option ℕ)
    (hk : s.k ≤ pl) (hl : pl ≤ numElig) :
    (pullOrder prm numElig pl kPaired s).Subperm ((positions s.k numElig).map s.rows) := by
  unfold pullOrder
  split_ifs with hpaired
  · exact List.nil_subperm
  obtain ⟨pairs, hp, heq⟩ := partners_pairs prm s pl numElig
  have hflat : ((s.partners prm pl numElig).flatMap fun o => [o.1, o.2]) =
      (pairs.flatMap fun o => [o.1, o.2]).map s.rows := by
    rw [heq, List.flatMap_map, List.map_flatMap]
    rfl
  have hperm : ∀ l : List (ℕ × ℕ),
      (l.flatMap fun o => [o.1, o.2]).Perm (l.map Prod.fst ++ l.map Prod.snd) := by
    intro l
    induction l with
    | nil => exact List.Perm.refl _
    | cons o l ih =>
      rw [List.flatMap_cons, List.map_cons, List.map_cons]
      exact ((ih.cons o.2).trans List.perm_middle.symm).cons o.1
  -- a failed column lies before `pl`, its partner from `pl` on
  have hnd : (pairs.flatMap fun o => [o.1, o.2]).Nodup := by
    refine (hperm pairs).nodup_iff.mpr
      (List.nodup_append.mpr ⟨hp.failed_nodup, hp.partner_nodup, ?_⟩)
    intro a ha b hb hab
    obtain ⟨o, ho, rfl⟩ := List.mem_map.mp ha
    obtain ⟨o', ho', rfl⟩ := List.mem_map.mp hb
    have h1 := hp.failed o ho
    have h2 := hp.partner o' ho'
    omega
  have hsub : (pairs.flatMap fun o => [o.1, o.2]).Subperm (positions s.k numElig) := by
    refine List.subperm_of_subset hnd fun i hi => ?_
    rcases List.mem_append.mp ((hperm pairs).subset hi) with hi | hi
    · obtain ⟨o, ho, rfl⟩ := List.mem_map.mp hi
      have := hp.failed o ho
      exact mem_positions.mpr (by omega)
    · obtain ⟨o, ho, rfl⟩ := List.mem_map.mp hi
      have := hp.partner o ho
      exact mem_positions.mpr (by omega)
  obtain ⟨l, hl1, hl2⟩ := hsub
  rw [hflat]
  exact ⟨l.map s.rows, hl1.map s.rows, hl2.map s.rows⟩

variable [IsStrictOrderedRing K]

/-- The pairing pass finds every row id it looks for. -/
theorem pairingPass_runs (hnb : 1 < prm.nb) (hf : numElig ≤ f) (live : ℕ) (kPaired : Option ℕ)
    (s : KernelState K) (ps : ℕ) (hl : live ≤ numElig) :
    ∃ s' ps', pairingPass prm f numElig hnb live kPaired s = some s' ∧
      CountedRuns prm f numElig first (s.lazy numElig ps, s.res.inertia)
        (s'.lazy numElig ps', s'.res.inertia) := by
  fun_induction pairingPass prm f numElig hnb live kPaired s generalizing ps with
  | case1 live kPaired s hk pl s1 hst order hne h =>
    -- a row id not found
    exfalso
    have hle := (panelUpdate_runs prm first ps (show pl ≤ numElig by omega) hf
      (show s.k ≤ pl by omega)).2
    obtain ⟨s', hs', -⟩ := gather_runs (c := {}) prm first s.k hf (le_refl s1.k)
      (pullOrder_subperm prm s1.toFront kPaired hle (show pl ≤ numElig by omega))
    exact Option.some_ne_none s' (hs'.symm.trans h)
  | case2 live kPaired s hk pl s1 hst order hne s2 h ih =>
    obtain ⟨hrun, hle⟩ := panelUpdate_runs prm first ps (show pl ≤ numElig by omega) hf
      (show s.k ≤ pl by omega)
    have hsub := pullOrder_subperm prm s1.toFront kPaired hle (show pl ≤ numElig by omega)
    obtain ⟨s', hs', hpull⟩ := gather_runs prm first s.k hf (le_refl s1.k) hsub
    obtain rfl : s2 = s' := Option.some.inj (h.symm.trans hs')
    have hlen : order.length ≤ numElig - s1.k := by
      simpa [positions] using hsub.length_le
    obtain ⟨out, ps', hout, hrest⟩ := ih s.k (by omega)
    exact ⟨out, ps', hout, (hrun.trans hpull).trans hrest⟩
  | case3 live kPaired s hk pl s1 hst order hne m ih =>
    obtain ⟨hrun, hle⟩ := panelUpdate_runs prm first ps (show pl ≤ numElig by omega) hf
      (show s.k ≤ pl by omega)
    obtain ⟨out, ps', hout, hrest⟩ := ih s.k (by omega)
    have hmove : CountedRuns prm f numElig first (s1.lazy numElig s.k, s1.res.inertia)
        ((s1.toFront.retire f live (min m (live - pl))).lazy numElig s.k, s1.res.inertia) :=
      retire_runs (by omega) hl
    exact ⟨out, ps', hout, (hrun.trans hmove).trans hrest⟩
  | case4 live kPaired s hk pl s1 hst ih =>
    obtain ⟨hrun, hle⟩ := panelUpdate_runs prm first ps (show pl ≤ numElig by omega) hf
      (show s.k ≤ pl by omega)
    obtain ⟨s', ps', hs', hrest⟩ := ih s.k hl
    exact ⟨s', ps', hs', hrun.trans hrest⟩
  | case5 live kPaired s hk => exact ⟨s, ps, rfl, Relation.ReflTransGen.refl⟩

theorem blocked_runs (hnb : 1 < prm.nb) (hf : numElig ≤ f) (s : KernelState K) (ps : ℕ) :
    ∃ out ps', blocked prm f numElig hnb first s = some out ∧
      CountedRuns prm f numElig first (s.lazy numElig ps, s.res.inertia)
        (out.lazy f ps', out.res.inertia) := by
  obtain ⟨s1, ps1, hs1, hrun1⟩ : ∃ s1 ps1,
      (if prm.posdef = false ∧ prm.staticPivot = 0 ∧ prm.minAbsPivot = 0 then
        pairingPass prm f numElig hnb numElig none s else some s) = some s1 ∧
      CountedRuns prm f numElig first (s.lazy numElig ps, s.res.inertia)
        (s1.lazy numElig ps1, s1.res.inertia) := by
    split_ifs
    · exact pairingPass_runs hnb hf numElig none s ps le_rfl
    · exact ⟨s, ps, rfl, Relation.ReflTransGen.refl⟩
  obtain ⟨ps2, hrun2⟩ := searchPass_runs prm first hnb hf s1 ps1
  have hschur : Step prm f numElig first ((searchPass prm f numElig hnb s1).lazy numElig ps2) _ :=
    Step.schur rfl
  refine ⟨{ searchPass prm f numElig hnb s1 with
    toFront := (searchPass prm f numElig hnb s1).schur f first numElig }, ps2, ?_,
    (hrun1.trans hrun2).tail (CountedStep.still hschur rfl)⟩
  unfold blocked
  dsimp only
  rw [hs1]
  rfl

/-- `ldlt_factor_front` returns, and what it does is a run of steps; at the start either all
columns of the front count as current, or the eligible ones. -/
theorem ldltFactorFront_runs (hf : numElig ≤ f) (F : ℕ → ℕ → K) (rows tags : ℕ → ℤ)
    (work : ℕ → ℕ → K) :
    ∃ out pl ps, ldltFactorFront prm f numElig first F rows tags work = some out ∧
      out.res.numAccepted = out.k ∧ (pl = f ∨ pl = numElig) ∧
      CountedRuns prm f numElig first ((KernelState.init first F rows tags work).lazy pl first, {})
        (out.lazy f ps, out.res.inertia) := by
  unfold ldltFactorFront
  dsimp only
  by_cases hsmall : f - first < prm.blockedMinFront ∨ prm.nb ≤ 1
  · refine ⟨(unblocked prm f numElig ⟨false, f, false, 0⟩
      (KernelState.init first F rows tags work)).finish, f, first, ?_, rfl, Or.inl rfl, ?_⟩
    · rw [dif_pos hsmall]
      rfl
    · exact unblocked_runs hf (Or.inr ⟨rfl, rfl⟩) _
  · have hnb : 1 < prm.nb := by omega
    obtain ⟨out, ps', hout, hrun⟩ : ∃ out ps', blocked prm f numElig hnb first
        (KernelState.init first F rows tags work) = some out ∧ CountedRuns prm f numElig first
          ((KernelState.init first F rows tags work).lazy numElig first, {})
          (out.lazy f ps', out.res.inertia) :=
      blocked_runs hnb hf _ first
    refine ⟨out.finish, numElig, ps', ?_, rfl, Or.inr rfl, hrun⟩
    rw [dif_neg hsmall, hout]
    rfl

end Pairing

end SmfSolver.Kernel
