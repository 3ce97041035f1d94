/-
The threshold-pivoting LDL kernel (`ldlt_kernel.cpp`): `apply_pivot`, the unblocked loop, the
panels, the pairing pass and the search pass of `ldlt_factor_front`, and
`ldlt_factor_small_front`.

The loops end: every pivot moves `k` on, and the pairing pass restarts a panel only after it
took a pivot, paired columns it had not paired at this `k`, or gave up a failed column.
-/
import SmfSolver.Kernel.PivotSearch

namespace SmfSolver.Kernel

structure LdltKernelResult (K : Type*) where
  numAccepted : ℕ := 0
  staticPivots : ℕ := 0
  maxGrowth : K
  inertia : InertiaCounts := {}
  flops : ℕ := 0

/-- The front being factored, with its row ids, pivot tags and panel workspace.  Columns before
`k` are eliminated.  `forced` is not in the source: it records, for every pivot the static path
took, the diagonal it found there. -/
structure Front (K : Type*) where
  F : ℕ → ℕ → K
  rows : ℕ → ℤ
  tags : ℕ → ℤ
  W : ℕ → ℕ → K
  k : ℕ
  forced : ℕ → Option K

structure KernelState (K : Type*) extends Front K where
  res : LdltKernelResult K

/-- How `apply_pivot` updates: the small-front layout, or the columns before `ucolEnd` with the
unscaled pivot columns saved at workspace column `wCols` when there is a workspace. -/
structure PivotMode where
  small : Bool
  ucolEnd : ℕ
  save : Bool
  wCols : ℕ

namespace Front

variable {K : Type*}

/-- `sym_swap`: the front, the row ids, and the rows of `wCols` workspace columns. -/
def swap (f p q wCols : ℕ) (s : Front K) : Front K :=
  if p = q then s
  else
    { s with
      F := symSwap s.F f p q
      rows := fun i => s.rows (Equiv.swap p q i)
      W := fun i c => if c < wCols then s.W (Equiv.swap p q i) c else s.W i c }

/-- Brings the 2x2 pivot `(a, b)` to `(k, k + 1)`. -/
def placeTwo (f a b wCols : ℕ) (s : Front K) : Front K :=
  let s1 := if a = s.k then s else s.swap f s.k a wCols
  let partner := if a ≠ s.k ∧ b = s.k then a else b
  if partner = s.k + 1 then s1 else s1.swap f (s.k + 1) partner wCols

/-- The diagonal at `best` set to `v` for a static pivot that will stand at `k`. -/
def raise (best : ℕ) (v : K) (s : Front K) : Front K :=
  { s with
    F := fun i j => if i = best ∧ j = best then v else s.F i j
    forced := Function.update s.forced s.k (some (s.F best best)) }

/-- First position from `p` on with the row id; the source does not look for the end. -/
def findRow (s : Front K) (id : ℤ) (p f : ℕ) : Option ℕ :=
  (positions p f).find? fun q => s.rows q = id

/-- Swaps the columns with the given row ids to the positions from `p` on. -/
def gather (f : ℕ) : List ℤ → ℕ → Front K → Option (Front K)
  | [], _, s => some s
  | id :: ids, p, s =>
    match s.findRow id p f with
    | none => none
    | some q => gather f ids (p + 1) (s.swap f p q 0)

/-- The failed columns from `k` on trade places with the last `mv` columns before `live`. -/
def retire (f live mv : ℕ) (s : Front K) : Front K :=
  (List.range mv).foldl (fun s' t => s'.swap f (s.k + t) (live - mv + t) 0) s

@[simp] theorem swap_k (f p q w : ℕ) (s : Front K) : (s.swap f p q w).k = s.k := by
  unfold swap
  split_ifs <;> rfl

@[simp] theorem placeTwo_k (f a b w : ℕ) (s : Front K) : (s.placeTwo f a b w).k = s.k := by
  unfold placeTwo
  dsimp only
  split_ifs <;> simp

theorem gather_k {f : ℕ} {ids : List ℤ} {p : ℕ} {s s' : Front K} (h : gather f ids p s = some s') :
    s'.k = s.k := by
  induction ids generalizing p s with
  | nil =>
    obtain rfl := Option.some.inj h
    rfl
  | cons id ids ih =>
    rw [gather] at h
    cases hq : s.findRow id p f with
    | none =>
      rw [hq] at h
      cases h
    | some q =>
      rw [hq] at h
      rw [ih h, swap_k]

/-- The ids found end inside the front. -/
theorem gather_fits {f : ℕ} {ids : List ℤ} {p : ℕ} {s s' : Front K}
    (h : gather f ids p s = some s') (hne : ids ≠ []) : p + ids.length ≤ f := by
  induction ids generalizing p s with
  | nil => exact absurd rfl hne
  | cons id ids ih =>
    rw [gather] at h
    cases hq : s.findRow id p f with
    | none =>
      rw [hq] at h
      cases h
    | some q =>
      rw [hq] at h
      have hmem := mem_positions.mp (List.mem_of_find?_eq_some hq)
      rw [List.length_cons]
      cases ids with
      | nil => simpa using (by omega : p + 1 ≤ f)
      | cons id' ids =>
        have := ih h (List.cons_ne_nil id' ids)
        omega

theorem foldl_swap_k (f : ℕ) (p q : ℕ → ℕ) (l : List ℕ) (s : Front K) :
    (l.foldl (fun s' t => s'.swap f (p t) (q t) 0) s).k = s.k := by
  induction l generalizing s with
  | nil => rfl
  | cons t l ih => rw [List.foldl_cons, ih, swap_k]

theorem retire_k (f live mv : ℕ) (s : Front K) : (s.retire f live mv).k = s.k :=
  foldl_swap_k f _ _ _ s

variable [Field K] [LinearOrder K]

/-- Tags and eliminates the 1x1 pivot at `k`. -/
def takeOne (m : PivotMode) (f : ℕ) (s : Front K) : Front K :=
  { s with
    F := if m.small = true then smallEliminate1x1 s.F f s.k else eliminate1x1 s.F f s.k m.ucolEnd
    W := if m.save = true then saveColumn s.F s.W f s.k (s.k + 1) m.wCols else s.W
    tags := Function.update s.tags s.k 1
    k := s.k + 1 }

/-- Tags and eliminates the 2x2 pivot at `(k, k + 1)`. -/
def takeTwo (m : PivotMode) (f : ℕ) (s : Front K) : Front K :=
  { s with
    F := if m.small = true then smallEliminate2x2 s.F f s.k else eliminate2x2 s.F f s.k m.ucolEnd
    W := if m.save = true then
        saveColumn s.F (saveColumn s.F s.W f s.k (s.k + 2) m.wCols) f (s.k + 1) (s.k + 2)
          (m.wCols + 1)
      else s.W
    tags := Function.update (Function.update s.tags s.k 2) (s.k + 1) (-1)
    k := s.k + 2 }

def deferred (f p0 c0 e : ℕ) (s : Front K) : Front K :=
  { s with F := deferredUpdate s.F s.W f p0 s.k c0 e }

def schur (f p0 e : ℕ) (s : Front K) : Front K :=
  { s with F := schurUpdate s.F f p0 s.k e s.tags }

/-- Largest entry of column `pos` inside the panel. -/
def inMax (k pl pos : ℕ) (s : Front K) : K :=
  maxOver 0 (positions k pos ++ positions (pos + 1) pl) fun i => |symAt s.F i pos|

/-- Largest entry of column `pos` in the eligible rows outside the panel, and its row. -/
def outScan (pl numElig pos : ℕ) (s : Front K) : Scan K :=
  (positions pl numElig).foldl (Scan.visit fun i => |s.F i pos|) ⟨0, 0, none⟩

/-- Pairs the failed column `pos` with its largest entry, when that lies outside the panel and
no earlier column took it. -/
def addPartner (maxPairs pl numElig : ℕ) (s : Front K) (order : List (ℤ × ℤ)) (pos : ℕ) :
    List (ℤ × ℤ) :=
  if order.length < maxPairs then
    let out := s.outScan pl numElig pos
    match out.rBest with
    | none => order
    | some r =>
      if out.m1 ≤ s.inMax s.k pl pos then order
      else if order.any (fun o => o.2 = s.rows r) then order
      else order ++ [(s.rows pos, s.rows r)]
  else order

/-- The (failed column, partner) row ids of a stalled panel. -/
def partners (prm : LdltKernelParams K) (pl numElig : ℕ) (s : Front K) : List (ℤ × ℤ) :=
  (positions s.k pl).foldl (s.addPartner (min (prm.nb / 2) 64) pl numElig) []

end Front

section Loops

variable {K : Type*} [Field K] [LinearOrder K] (prm : LdltKernelParams K) (f numElig : ℕ)

/-- Accept the chosen pivot at position `k`. -/
def applyPivot (m : PivotMode) (asZero : Bool) (pc : PivotChoice) (s : KernelState K) :
    KernelState K :=
  match pc with
  | .one a =>
    let s1 := s.toFront.swap f s.k a m.wCols
    let rem := f - (s.k + 1)
    { toFront := s1.takeOne m f
      res :=
        { s.res with
          inertia :=
            -- a forced static pivot may have to be counted as zero
            if asZero = true then { s.res.inertia with zero := s.res.inertia.zero + 1 }
            else addInertia1x1 (s1.F s.k s.k) prm.effSmall s.res.inertia
          flops := s.res.flops + (rem + rem * (rem + 1)) } }
  | .two a b =>
    let s1 := s.toFront.placeTwo f a b m.wCols
    let rem := f - (s.k + 2)
    { toFront := s1.takeTwo m f
      res :=
        { s.res with
          inertia :=
            addInertia2x2 (s1.F s.k s.k) (s1.F (s.k + 1) s.k) (s1.F (s.k + 1) (s.k + 1))
              prm.smallPivot s.res.inertia
          flops := s.res.flops + (6 * rem + 2 * rem * (rem + 1)) } }

/-- `force_static_pivot`: raises the diagonal of the best column and counts it. -/
def forceStaticPivot (s : KernelState K) : KernelState K :=
  let b := staticBest prm s.F f s.k numElig
  let d := s.F b.best b.best
  let v := staticValue prm d
  { toFront := s.toFront.raise b.best v
    res :=
      { s.res with
        staticPivots := s.res.staticPivots + if raisedOf prm d = 0 then 0 else 1
        maxGrowth :=
          if 0 < b.colmax ∧ 0 < |v| then max s.res.maxGrowth (b.colmax / |v|)
          else s.res.maxGrowth } }

/-- The next pivot of a search over all eligible columns, or a static pivot. -/
def searchStep (m : PivotMode) (s : KernelState K) : Option (KernelState K) :=
  match selectPivot prm s.F f s.k numElig numElig with
  | some pc => some (applyPivot prm f m false pc s)
  | none =>
    if 0 < prm.staticPivot then
      let b := staticBest prm s.F f s.k numElig
      some (applyPivot prm f m (staticCountsAsZero prm (raisedOf prm (s.F b.best b.best)))
        (.one b.best) (forceStaticPivot prm f numElig s))
    else none

/-- The next pivot of the panel `[ps, pl)`. -/
def panelStep (ps pl : ℕ) (s : KernelState K) : Option (KernelState K) :=
  (selectPivot prm s.F f s.k numElig pl).map fun pc =>
    applyPivot prm f ⟨false, pl, true, s.k - ps⟩ false pc s

variable {prm f numElig}

theorem applyPivot_k {m : PivotMode} {z : Bool} {pc : PivotChoice} (s : KernelState K) :
    s.k < (applyPivot prm f m z pc s).k := by
  cases pc with
  | one a => simp [applyPivot, Front.takeOne]
  | two a b => simp [applyPivot, Front.takeTwo]

theorem searchStep_k {m : PivotMode} {s s' : KernelState K}
    (h : searchStep prm f numElig m s = some s') : s.k < s'.k := by
  unfold searchStep at h
  split at h
  · obtain rfl := Option.some.inj h
    exact applyPivot_k s
  · split_ifs at h
    obtain rfl := Option.some.inj h
    exact applyPivot_k (forceStaticPivot prm f numElig s)

theorem panelStep_k {ps pl : ℕ} {s s' : KernelState K}
    (h : panelStep prm f numElig ps pl s = some s') : s.k < s'.k := by
  obtain ⟨pc, -, rfl⟩ := Option.map_eq_some_iff.mp h
  exact applyPivot_k s

variable (prm f numElig)

/-- The unblocked loop: every pivot updates the full trailing triangle. -/
def unblocked (m : PivotMode) (s : KernelState K) : KernelState K :=
  if s.k < numElig then
    match _h : searchStep prm f numElig m s with
    | none => s
    | some s' => unblocked m s'
  else s
termination_by numElig - s.k
decreasing_by
  have := searchStep_k _h
  omega

/-- The pivots of the panel `[ps, pl)`; it has stalled when `k` ends before `pl`. -/
def panel (ps pl : ℕ) (s : KernelState K) : KernelState K :=
  if s.k < pl then
    match _h : panelStep prm f numElig ps pl s with
    | none => s
    | some s' => panel ps pl s'
  else s
termination_by pl - s.k
decreasing_by
  have := panelStep_k _h
  omega

/-- One panel and its deferred update. -/
def panelUpdate (ps pl : ℕ) (s : KernelState K) : KernelState K :=
  let s1 := panel prm f numElig ps pl s
  { s1 with toFront := s1.deferred f ps pl numElig }

variable {prm f numElig}

theorem panel_k (ps pl : ℕ) (s : KernelState K) : s.k ≤ (panel prm f numElig ps pl s).k := by
  fun_induction panel prm f numElig ps pl s with
  | case1 s hk h => exact le_rfl
  | case2 s hk s' h ih => exact (panelStep_k h).le.trans ih
  | case3 s hk => exact le_rfl

@[simp] theorem panelUpdate_k (ps pl : ℕ) (s : KernelState K) :
    (panelUpdate prm f numElig ps pl s).k = (panel prm f numElig ps pl s).k := rfl

/-- A panel that does not start at the end moves `k` to `pl` unless it stalls. -/
theorem lt_of_not_stalled {pl k1 k live nb : ℕ} (hnb : 1 < nb) (hk : k < live)
    (hpl : pl = min live (k + nb)) (h : ¬ k1 < pl) : k < k1 := by
  omega

theorem lex_left {a a' b b' c c' : ℕ} (h : a' < a) :
    Prod.Lex (· < ·) (Prod.Lex (· < ·) (· < ·)) (a', b', c') (a, b, c) := Prod.Lex.left _ _ h

theorem lex_right {a a' b b' c c' : ℕ} (ha : a' ≤ a) (h : b' < b ∨ b' = b ∧ c' < c) :
    Prod.Lex (· < ·) (Prod.Lex (· < ·) (· < ·)) (a', b', c') (a, b, c) := by
  rcases ha.lt_or_eq with hlt | rfl
  · exact lex_left hlt
  · refine Prod.Lex.right _ ?_
    rcases h with hb | ⟨rfl, hc⟩
    · exact Prod.Lex.left _ _ hb
    · exact Prod.Lex.right _ hc

variable (prm f numElig)

/-- Pairs to pull in for a panel that stalled at `k`: none when it was paired there before. -/
def pullOrder (pl : ℕ) (kPaired : Option ℕ) (s : Front K) : List ℤ :=
  if kPaired = some s.k then []
  else (s.partners prm pl numElig).flatMap fun o => [o.1, o.2]

/-- The first passes over the columns, without a search outside the panel.  A stalled panel pulls
in the partners of its failed columns, or gives its failed columns up to the search pass. -/
def pairingPass (hnb : 1 < prm.nb) (live : ℕ) (kPaired : Option ℕ) (s : KernelState K) :
    Option (KernelState K) :=
  if s.k < live then
    let pl := min live (s.k + prm.nb)
    let s1 := panelUpdate prm f numElig s.k pl s
    if s1.k < pl then
      let order := pullOrder prm numElig pl kPaired s1.toFront
      if order ≠ [] then
        match _h : Front.gather f order s1.k s1.toFront with
        | none => none
        | some s2 =>
          pairingPass hnb (max live (s1.k + order.length)) (some s1.k) { s1 with toFront := s2 }
      else
        let m := pl - s1.k
        pairingPass hnb (live - m) kPaired
          { s1 with toFront := s1.toFront.retire f live (min m (live - pl)) }
    else pairingPass hnb live kPaired s1
  else some s
-- `k`, then a first pairing at `k`, then a column given up
termination_by (max f live - s.k, if kPaired = some s.k then 0 else 1, live - s.k)
decreasing_by
  · have hk : s.k ≤ s1.k := panel_k s.k pl s
    have hk2 : s2.k = s1.k := Front.gather_k _h
    have hfit : s1.k + order.length ≤ f := Front.gather_fits _h ‹order ≠ []›
    change Prod.Lex _ _ (max f (max live (s1.k + order.length)) - s2.k,
      (if some s1.k = some s2.k then 0 else 1), max live (s1.k + order.length) - s2.k) _
    rcases hk.lt_or_eq with hlt1 | heq
    · exact lex_left (by omega)
    · have hpair : kPaired ≠ some s.k := fun hp => ‹order ≠ []› (if_pos (heq ▸ hp))
      rw [if_pos (by rw [hk2]), if_neg hpair]
      exact lex_right (by omega) (Or.inl Nat.zero_lt_one)
  · have hk : s.k ≤ s1.k := panel_k s.k pl s
    have hr : (s1.toFront.retire f live (min m (live - pl))).k = s1.k := Front.retire_k _ _ _ _
    change Prod.Lex _ _ (max f (live - (pl - s1.k)) - (s1.toFront.retire f live
      (min m (live - pl))).k, (if kPaired = some (s1.toFront.retire f live (min m (live - pl))).k
        then 0 else 1), live - (pl - s1.k) - (s1.toFront.retire f live (min m (live - pl))).k) _
    rw [hr]
    rcases hk.lt_or_eq with hlt1 | heq
    · exact lex_left (by omega)
    · rw [← heq]
      exact lex_right (by omega) (Or.inr ⟨rfl, by omega⟩)
  · have hk : s.k < s1.k := lt_of_not_stalled hnb ‹s.k < live› rfl ‹¬ s1.k < pl›
    exact lex_left (show max f live - s1.k < max f live - s.k by omega)

/-- The last passes: a stalled panel is followed by a search over every remaining column. -/
def searchPass (hnb : 1 < prm.nb) (s : KernelState K) : KernelState K :=
  if s.k < numElig then
    let pl := min numElig (s.k + prm.nb)
    let s1 := panelUpdate prm f numElig s.k pl s
    -- the panel has stalled
    if s1.k < pl then
      match _h : searchStep prm f numElig ⟨false, s1.k, true, 0⟩ s1 with
      | none => s1
      | some s2 => searchPass hnb { s2 with toFront := s2.deferred f s1.k s2.k numElig }
    else searchPass hnb s1
  else s
termination_by numElig - s.k
decreasing_by
  · have hk : s.k ≤ s1.k := panel_k s.k pl s
    have hk2 : s1.k < s2.k := searchStep_k _h
    exact show numElig - s2.k < numElig - s.k by omega
  · have hk : s.k < s1.k := lt_of_not_stalled hnb ‹s.k < numElig› rfl ‹¬ s1.k < pl›
    exact show numElig - s1.k < numElig - s.k by omega

/-- The blocked kernel: the pairing pass on plain threshold fronts, the search pass, and one
Schur update of the rows below the eligible block. -/
def blocked (hnb : 1 < prm.nb) (first : ℕ) (s : KernelState K) : Option (KernelState K) :=
  let paired :=
    if prm.posdef = false ∧ prm.staticPivot = 0 ∧ prm.minAbsPivot = 0 then
      pairingPass prm f numElig hnb numElig none s
    else some s
  paired.map fun s1 =>
    let s2 := searchPass prm f numElig hnb s1
    { s2 with toFront := s2.schur f first numElig }

/-- `res.num_accepted = k`. -/
def KernelState.finish (s : KernelState K) : KernelState K :=
  { s with res := { s.res with numAccepted := s.k } }

/-- The state in which the kernel starts at column `first`. -/
def KernelState.init (first : ℕ) (F : ℕ → ℕ → K) (rows tags : ℕ → ℤ) (work : ℕ → ℕ → K) :
    KernelState K :=
  { F := F, rows := rows, tags := tags, W := work, k := first, forced := fun _ => none,
    res := { maxGrowth := 0 } }

/-- `ldlt_factor_front`; `none` would be a read past the end of `rows`. -/
def ldltFactorFront (first : ℕ) (F : ℕ → ℕ → K) (rows tags : ℕ → ℤ) (work : ℕ → ℕ → K) :
    Option (KernelState K) :=
  let s := KernelState.init first F rows tags work
  let out :=
    if h : f - first < prm.blockedMinFront ∨ prm.nb ≤ 1 then
      some (unblocked prm f numElig ⟨false, f, false, 0⟩ s)
    else blocked prm f numElig (by omega) first s
  out.map KernelState.finish

/-- `ldlt_factor_small_front`: the unblocked loop on the small-front layout. -/
def ldltFactorSmallFront (F : ℕ → ℕ → K) (rows tags : ℕ → ℤ) (work : ℕ → ℕ → K) : KernelState K :=
  (unblocked prm f numElig ⟨true, f, false, 0⟩ (KernelState.init 0 F rows tags work)).finish

end Loops

end SmfSolver.Kernel
