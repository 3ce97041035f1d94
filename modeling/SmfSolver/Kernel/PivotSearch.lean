/-
Pivot selection of the LDL kernel (`select_pivot`, `two_by_two_ok`, `force_static_pivot` of
`ldlt_kernel.cpp`) and the inertia of the pivots (`dense_indef.cpp`).

Values are elements of an ordered field, so the tests for a finite value always pass.  The
results say what an accepted pivot satisfies: `selectPivot_one` and `selectPivot_two` are the
threshold tests read over all the rows of the front.
-/
import SmfSolver.Kernel.DenseFront
import Mathlib.Algebra.Order.Field.Rat
import Mathlib.Tactic.NormNum

namespace SmfSolver.Kernel

/-- The positions `[a, b)`. -/
def positions (a b : ℕ) : List ℕ := List.range' a (b - a)

@[simp] theorem mem_positions {a b i : ℕ} : i ∈ positions a b ↔ a ≤ i ∧ i < b := by
  rw [positions, List.mem_range'_1]
  omega

structure LdltKernelParams (K : Type*) where
  u : K
  effSmall : K
  smallPivot : K
  nb : ℕ
  blockedMinFront : ℕ
  posdef : Bool
  staticPivot : K
  staticPivotsAsZero : Bool
  staticZeroStaysZero : Bool
  minAbsPivot : K

/-- The defaults of the parameters. -/
def defaultParams : LdltKernelParams ℚ where
  u := 1 / 100
  effSmall := 1 / 10 ^ 20
  smallPivot := 1 / 10 ^ 20
  nb := 32
  blockedMinFront := 96
  posdef := false
  staticPivot := 0
  staticPivotsAsZero := false
  staticZeroStaysZero := false
  minAbsPivot := 0

/-- The pivot taken: a 1x1 at `a`, or a 2x2 at `(a, b)`. -/
inductive PivotChoice where
  | one (a : ℕ)
  | two (a b : ℕ)
deriving DecidableEq, Repr

structure InertiaCounts where
  positive : ℕ := 0
  negative : ℕ := 0
  zero : ℕ := 0
deriving DecidableEq, Repr

section Definitions

variable {K : Type*} [Field K] [LinearOrder K]

/-- `std::max` folded over the positions of a list. -/
def maxOver (m : K) (l : List ℕ) (v : ℕ → K) : K := l.foldl (fun m i => max m (v i)) m

/-- Below this fraction of its column's largest entry a 1x1 pivot is weak. -/
def kWeakPivotRatio : K := 1 / 1000000

/-- Largest and second largest entry of a column so far, and the row of the largest. -/
structure Scan (K : Type*) where
  m1 : K
  m2 : K
  rBest : Option ℕ

def Scan.visit (v : ℕ → K) (s : Scan K) (i : ℕ) : Scan K :=
  if s.m1 < v i then ⟨v i, s.m1, some i⟩
  else if s.m2 < v i then ⟨s.m1, v i, s.rBest⟩
  else s

/-- One pass over the eligible rows of column `cand`. -/
def scanColumn (F : ℕ → ℕ → K) (k numElig cand : ℕ) : Scan K :=
  (positions k cand ++ positions (cand + 1) numElig).foldl (Scan.visit fun i => |symAt F i cand|)
    ⟨0, 0, none⟩

/-- The threshold test of a 1x1 pivot: it fails, passes, or passes as a weak pivot of the given
growth. -/
inductive DiagonalTest (K : Type*) where
  | fails
  | strong
  | weak (growth : K)

variable (prm : LdltKernelParams K) (F : ℕ → ℕ → K) (f : ℕ)

/-- 1x1 on `cand`: `m1` bounds the eligible rows, rows from `ext0` on are the others. -/
def testDiagonal (cand ext0 : ℕ) (m1 : K) : DiagonalTest K :=
  let aCand := |F cand cand|
  if prm.effSmall ≤ aCand ∧ ¬ aCand < prm.u * m1 then
    if ∀ i ∈ positions ext0 f, ¬ aCand < prm.u * |F i cand| then
      let colmax := maxOver m1 (positions ext0 f) fun i => |F i cand|
      if aCand < kWeakPivotRatio * colmax then .weak (colmax / aCand) else .strong
    else .fails
  else .fails

/-- Threshold test of the 2x2 pivot `(cand, r)`; its growth bound on success. -/
def twoByTwoOk (cand r : ℕ) (m2 off1 : K) (ext0 : ℕ) : Option K :=
  let d00 := F cand cand
  let d10 := symAt F r cand
  let d11 := F r r
  let s2 := max (max |d00| |d10|) |d11|
  if prm.effSmall ≤ s2 then
    -- scaled by the largest entry, so that no product overflows
    let a := d00 / s2
    let b := d10 / s2
    let c := d11 / s2
    let detS := a * c - b * b
    if prm.smallPivot < |detS| then
      let off0 := maxOver m2 (positions ext0 f) fun i => |F i cand|
      if 0 < off0 ∨ 0 < off1 then
        -- the growth of the two columns, as `|D^-1|` times their largest entries
        let bound0 := (|c| * off0 + |b| * off1) / s2
        let bound1 := (|b| * off0 + |a| * off1) / s2
        if |detS| < prm.u * max bound0 bound1 then none
        else some (max bound0 bound1 / |detS|)
      else some 0
    else none
  else none

/-- The 2x2 partner of the scanned column, when it lies in the columns searched. -/
def partnerOf (k limit : ℕ) (s : Scan K) : Option ℕ :=
  match s.rBest with
  | none => none
  | some r => if r < k ∨ limit ≤ r ∨ s.m1 ≤ 0 then none else some r

/-- Largest entry of column `r` over the rows from `k` on, without `r` itself. -/
def offMax (k r : ℕ) : K := maxOver 0 (positions k r ++ positions (r + 1) f) fun i => |symAt F i r|

/-- The same without row `cand` too. -/
def offMaxBut (k r cand : ℕ) : K :=
  maxOver 0 ((positions k r ++ positions (r + 1) f).filter (· ≠ cand)) fun i => |symAt F i r|

/-- The 2x2 of column `cand` with its partner, for at least two columns. -/
def testPair (k numElig limit cand r : ℕ) : Option K :=
  if k + 1 < limit then
    twoByTwoOk prm F f cand r (scanColumn F k numElig cand).m2 (offMaxBut F f k r cand)
      (max numElig (cand + 1))
  else none

/-- 1x1 on the partner, whose column has just been read. -/
def partnerPasses (k r : ℕ) : Prop :=
  prm.effSmall ≤ |F r r| ∧ (offMax F f k r = 0 ∨ prm.u * offMax F f k r ≤ |F r r|)

instance (k r : ℕ) : Decidable (partnerPasses prm F f k r) := by
  unfold partnerPasses
  infer_instance

/-- One column of the search: its 1x1, the 2x2 with its largest entry, the partner's 1x1. -/
def tryColumn (k numElig limit cand : ℕ) : Option PivotChoice :=
  let s := scanColumn F k numElig cand
  match testDiagonal prm F f cand (max numElig (cand + 1)) s.m1, partnerOf k limit s with
  | .strong, _ => some (.one cand)
  | .weak _, none => some (.one cand)
  | .weak g, some r =>
    match testPair prm F f k numElig limit cand r with
    | none => some (.one cand)
    -- a weak 1x1 gives way to the 2x2 when that pivot grows less
    | some g2 => if g2 < g then some (.two cand r) else some (.one cand)
  | .fails, none => none
  | .fails, some r =>
    match testPair prm F f k numElig limit cand r with
    | some _ => some (.two cand r)
    | none => if partnerPasses prm F f k r then some (.one r) else none

/-- Threshold pivot selection over candidates `[k, limit)`. -/
def selectPivot (k numElig limit : ℕ) : Option PivotChoice :=
  if prm.posdef = true then
    if 0 < F k k then some (.one k) else none
  else if 0 < prm.minAbsPivot then
    -- in order, no search
    if prm.minAbsPivot ≤ |F k k| then some (.one k) else none
  else (positions k limit).findSome? (tryColumn prm F f k numElig limit)

/-- Best column of the static search so far: its position, ratio and largest entry. -/
structure StaticBest (K : Type*) where
  best : ℕ
  ratio : K
  colmax : K

def StaticBest.visit (k : ℕ) (s : StaticBest K) (cand : ℕ) : StaticBest K :=
  let colmax := offMax F f k cand
  let a := |F cand cand|
  let ratio := if 0 < colmax then a / colmax else a
  if s.ratio < ratio then ⟨cand, ratio, colmax⟩ else s

/-- The column `force_static_pivot` takes: the one with the largest relative diagonal. -/
def staticBest (k numElig : ℕ) : StaticBest K :=
  (positions k (if 0 < prm.minAbsPivot then k else numElig)).foldl
    (StaticBest.visit F f k) ⟨k, -1, 0⟩

/-- `raised`: 0 = taken as it is, 1 = raised from a nonzero value, 2 = from an exact zero. -/
def raisedOf (d : K) : ℕ :=
  if prm.staticPivot ≤ |d| then 0 else if prm.effSmall ≤ |d| then 1 else 2

/-- The diagonal the forced pivot is taken with. -/
def staticValue (d : K) : K :=
  if prm.staticPivot ≤ |d| then d else if d < 0 then -prm.staticPivot else prm.staticPivot

/-- Whether a forced pivot counts as a zero eigenvalue. -/
def staticCountsAsZero (raised : ℕ) : Bool :=
  if raised = 0 then false else prm.staticPivotsAsZero || (raised = 2 && prm.staticZeroStaysZero)

def addInertia1x1 (d small : K) (out : InertiaCounts) : InertiaCounts :=
  if |d| < small then { out with zero := out.zero + 1 }
  else if 0 < d then { out with positive := out.positive + 1 }
  else { out with negative := out.negative + 1 }

/-- Scale-normalized sign classification of the eigenvalues of a 2x2 pivot. -/
def addInertia2x2 (d00 d10 d11 small : K) (out : InertiaCounts) : InertiaCounts :=
  if d10 = 0 then addInertia1x1 d11 small (addInertia1x1 d00 small out)
  else
    let s := max (max |d00| |d10|) |d11|
    let detS := d00 / s * (d11 / s) - d10 / s * (d10 / s)
    if s = 0 then { out with zero := out.zero + 2 }
    else
      let trS := d00 / s + d11 / s
      -- the determinant tells the signs apart; near zero the trace tells which is left
      if detS < -small then
        { out with positive := out.positive + 1, negative := out.negative + 1 }
      else if |detS| ≤ small then
        if small < trS then { out with zero := out.zero + 1, positive := out.positive + 1 }
        else if trS < -small then { out with zero := out.zero + 1, negative := out.negative + 1 }
        else { out with zero := out.zero + 2 }
      else if 0 < trS then { out with positive := out.positive + 2 }
      else if trS < 0 then { out with negative := out.negative + 2 }
      else { out with zero := out.zero + 2 }

end Definitions

section Maxima

variable {K : Type*} [LinearOrder K] {m x : K} {l : List ℕ} {v : ℕ → K}

theorem maxOver_le_iff : maxOver m l v ≤ x ↔ m ≤ x ∧ ∀ i ∈ l, v i ≤ x := by
  induction l generalizing m with
  | nil => simp [maxOver]
  | cons a l ih =>
    rw [show maxOver m (a :: l) v = maxOver (max m (v a)) l v from rfl, ih, max_le_iff]
    simp only [List.mem_cons, forall_eq_or_imp]
    tauto

theorem le_maxOver : m ≤ maxOver m l v := (maxOver_le_iff.mp le_rfl).1

theorem le_maxOver_of_mem (v : ℕ → K) {i : ℕ} (h : i ∈ l) : v i ≤ maxOver m l v :=
  (maxOver_le_iff.mp le_rfl).2 i h

variable [Field K]

/-- What the scan knows after the positions of `l`. -/
structure ScanOk (v : ℕ → K) (l : List ℕ) (s : Scan K) : Prop where
  le_m1 : ∀ i ∈ l, v i ≤ s.m1
  le_m2 : ∀ i ∈ l, s.rBest ≠ some i → v i ≤ s.m2
  best : ∀ r, s.rBest = some r → r ∈ l ∧ v r = s.m1
  m1_nonneg : 0 ≤ s.m1
  m2_nonneg : 0 ≤ s.m2
  m2_le : s.m2 ≤ s.m1
  none_le : s.rBest = none → s.m1 = 0

theorem ScanOk.visit {s : Scan K} (h : ScanOk v l s) (i : ℕ) :
    ScanOk v (l ++ [i]) (s.visit v i) := by
  unfold Scan.visit
  -- a new maximum, a new runner-up, or neither
  split_ifs with h1 h2
  · refine ⟨?_, ?_, ?_, h.m1_nonneg.trans h1.le, h.m1_nonneg, h1.le, by simp⟩
    · simp only [List.mem_append, List.mem_singleton]
      rintro j (hj | rfl)
      · exact (h.le_m1 j hj).trans h1.le
      · exact le_rfl
    · simp only [List.mem_append, List.mem_singleton]
      rintro j (hj | rfl) hne
      · exact h.le_m1 j hj
      · exact absurd rfl hne
    · simp
  · refine ⟨?_, ?_, ?_, h.m1_nonneg, h.m2_nonneg.trans h2.le, not_lt.mp h1, h.none_le⟩
    · simp only [List.mem_append, List.mem_singleton]
      rintro j (hj | rfl)
      · exact h.le_m1 j hj
      · exact not_lt.mp h1
    · simp only [List.mem_append, List.mem_singleton]
      rintro j (hj | rfl) hne
      · exact (h.le_m2 j hj hne).trans h2.le
      · exact le_rfl
    · intro r hr
      exact ⟨List.mem_append_left _ (h.best r hr).1, (h.best r hr).2⟩
  · refine ⟨?_, ?_, ?_, h.m1_nonneg, h.m2_nonneg, h.m2_le, h.none_le⟩
    · simp only [List.mem_append, List.mem_singleton]
      rintro j (hj | rfl)
      · exact h.le_m1 j hj
      · exact not_lt.mp h1
    · simp only [List.mem_append, List.mem_singleton]
      rintro j (hj | rfl) hne
      · exact h.le_m2 j hj hne
      · exact not_lt.mp h2
    · intro r hr
      exact ⟨List.mem_append_left _ (h.best r hr).1, (h.best r hr).2⟩

theorem scanOk (v : ℕ → K) (l : List ℕ) : ScanOk v l (l.foldl (Scan.visit v) ⟨0, 0, none⟩) := by
  induction l using List.reverseRecOn with
  | nil => exact ⟨by simp, by simp, by simp, le_rfl, le_rfl, le_rfl, fun _ => rfl⟩
  | append_singleton l i ih =>
    rw [List.foldl_append]
    exact ih.visit i

end Maxima

section Spec

variable {K : Type*} [Field K] [LinearOrder K] {prm : LdltKernelParams K}
  {F : ℕ → ℕ → K} {f k numElig limit cand r : ℕ}

/-- Threshold pivoting with growth control: neither SPD nor in-order mode. -/
def LdltKernelParams.Threshold (prm : LdltKernelParams K) : Prop :=
  prm.posdef = false ∧ prm.minAbsPivot ≤ 0

/-- The thresholds are those of a zero pivot: an accepted 1x1 pivot of the search is not zero,
and an accepted 2x2 pivot is not singular. -/
structure LdltKernelParams.Zeros (prm : LdltKernelParams K) : Prop where
  effSmall_pos : prm.posdef = false → prm.minAbsPivot ≤ 0 → 0 < prm.effSmall
  smallPivot_nonneg : 0 ≤ prm.smallPivot

/-- The 1x1 pivot at `a` bounds its column. -/
def Bounds1 (prm : LdltKernelParams K) (F : ℕ → ℕ → K) (f k a : ℕ) : Prop :=
  ∀ i, k ≤ i → i < f → i ≠ a → prm.u * |symAt F i a| ≤ |F a a|

/-- The 2x2 pivot at `(a, b)` bounds its columns: `off0` and `off1` are their largest entries. -/
def Bounds2 (prm : LdltKernelParams K) (F : ℕ → ℕ → K) (f k a b : ℕ) : Prop :=
  let inv := inverse2x2 (F a a) (symAt F b a) (F b b)
  ∀ i, k ≤ i → i < f → i ≠ a → i ≠ b →
    prm.u * |inv.1 * symAt F i a + inv.2.1 * symAt F i b| ≤ 1 ∧
      prm.u * |inv.2.1 * symAt F i a + inv.2.2 * symAt F i b| ≤ 1

/-- The determinant of the 2x2 pivot at `(a, b)`. -/
def pivotDet (F : ℕ → ℕ → K) (a b : ℕ) : K := F a a * F b b - symAt F b a * symAt F b a

theorem scanColumn_ok (F : ℕ → ℕ → K) (k numElig cand : ℕ) :
    ScanOk (fun i => |symAt F i cand|) (positions k cand ++ positions (cand + 1) numElig)
      (scanColumn F k numElig cand) := scanOk _ _

theorem mem_others {i n : ℕ} (hk : k ≤ cand) (hc : cand < n) :
    i ∈ positions k cand ++ positions (cand + 1) n ↔ k ≤ i ∧ i < n ∧ i ≠ cand := by
  rw [List.mem_append, mem_positions, mem_positions]
  omega

theorem le_offMax {i : ℕ} (hk : k ≤ r) (hr : r < f) (h1 : k ≤ i) (h2 : i < f) (h3 : i ≠ r) :
    |symAt F i r| ≤ offMax F f k r :=
  le_maxOver_of_mem (fun i => |symAt F i r|) ((mem_others hk hr).mpr ⟨h1, h2, h3⟩)

theorem le_offMaxBut {i : ℕ} (hk : k ≤ r) (hr : r < f) (h1 : k ≤ i) (h2 : i < f) (h3 : i ≠ r)
    (h4 : i ≠ cand) : |symAt F i r| ≤ offMaxBut F f k r cand :=
  le_maxOver_of_mem (fun i => |symAt F i r|)
    (List.mem_filter.mpr ⟨(mem_others hk hr).mpr ⟨h1, h2, h3⟩, decide_eq_true h4⟩)

theorem offMaxBut_le {x : K} (hk : k ≤ r) (hr : r < f) (hx : 0 ≤ x)
    (h : ∀ i, k ≤ i → i < f → i ≠ r → |symAt F i r| ≤ x) : offMaxBut F f k r cand ≤ x := by
  refine maxOver_le_iff.mpr ⟨hx, fun i hi => ?_⟩
  obtain ⟨h1, h2, h3⟩ := (mem_others hk hr).mp (List.mem_filter.mp hi).1
  exact h i h1 h2 h3

variable [IsStrictOrderedRing K]

/-- A diagonal that passes, weak or not, bounds its whole column. -/
theorem testDiagonal_bounds (hk : k ≤ cand) (hc : cand < numElig)
    (h : testDiagonal prm F f cand (max numElig (cand + 1)) (scanColumn F k numElig cand).m1 ≠
      .fails) :
    prm.effSmall ≤ |F cand cand| ∧ (0 ≤ prm.u → Bounds1 prm F f k cand) := by
  have hs := scanColumn_ok F k numElig cand
  have hpass : (prm.effSmall ≤ |F cand cand| ∧
        ¬ |F cand cand| < prm.u * (scanColumn F k numElig cand).m1) ∧
      ∀ i ∈ positions (max numElig (cand + 1)) f, ¬ |F cand cand| < prm.u * |F i cand| := by
    by_contra hno
    refine h ?_
    rw [not_and_or] at hno
    unfold testDiagonal
    rcases hno with hno | hno
    · exact if_neg hno
    · dsimp only
      rw [if_neg hno, ite_self]
  refine ⟨hpass.1.1, fun hu i hki hif hne => ?_⟩
  rcases Nat.lt_or_ge i numElig with hlt | hge
  · -- an eligible row, below the largest one
    have hle := hs.le_m1 i ((mem_others hk hc).mpr ⟨hki, hlt, hne⟩)
    exact (mul_le_mul_of_nonneg_left hle hu).trans (not_lt.mp hpass.1.2)
  · have hrow : i ∈ positions (max numElig (cand + 1)) f := mem_positions.mpr (by omega)
    rw [symAt_of_le (by omega)]
    exact not_lt.mp (hpass.2 i hrow)

theorem partnerPasses_bounds (hk : k ≤ r) (hr : r < f) (h : partnerPasses prm F f k r) :
    prm.effSmall ≤ |F r r| ∧ (0 ≤ prm.u → Bounds1 prm F f k r) := by
  refine ⟨h.1, fun hu i hki hif hne => ?_⟩
  have hle : |symAt F i r| ≤ offMax F f k r := le_offMax hk hr hki hif hne
  rcases h.2 with h0 | h0
  · rw [h0] at hle
    rw [le_antisymm hle (abs_nonneg (symAt F i r)), mul_zero]
    exact abs_nonneg (F r r)
  · exact (mul_le_mul_of_nonneg_left hle hu).trans h0

/-- The scaling of `inverse_2x2` cancels: it is the inverse by the determinant. -/
theorem inverse2x2_eq {d00 d10 d11 : K} (h : d00 * d11 - d10 * d10 ≠ 0) :
    inverse2x2 d00 d10 d11 =
      (d11 / (d00 * d11 - d10 * d10), -d10 / (d00 * d11 - d10 * d10),
        d00 / (d00 * d11 - d10 * d10)) := by
  have hs : max (max |d00| |d10|) |d11| ≠ 0 := by
    intro hs
    have hle : ∀ x ∈ ({d00, d10, d11} : Set K), x = 0 := by
      intro x hx
      have hx' : |x| ≤ max (max |d00| |d10|) |d11| := by
        rcases hx with rfl | rfl | rfl
        · exact (le_max_left _ _).trans (le_max_left _ _)
        · exact (le_max_right _ _).trans (le_max_left _ _)
        · exact le_max_right _ _
      rw [hs] at hx'
      exact abs_nonpos_iff.mp hx'
    refine h ?_
    rw [hle d00 (by simp), hle d10 (by simp)]
    ring
  unfold inverse2x2
  generalize max (max |d00| |d10|) |d11| = s at hs
  have hdet : (d00 / s * (d11 / s) - d10 / s * (d10 / s)) * s = (d00 * d11 - d10 * d10) / s := by
    field_simp
  dsimp only
  rw [hdet]
  refine Prod.ext ?_ (Prod.ext ?_ ?_) <;> dsimp only <;> field_simp

/-- A growth bound tested against the scaled determinant `D` bounds what a row of the inverse
makes of two entries. -/
theorem growth_le {p q x0 x1 off0 off1 D s u : K} (hs : 0 ≤ s) (hu : 0 ≤ u) (h0 : |x0| ≤ off0)
    (h1 : |x1| ≤ off1) (h : u * ((|p| * off0 + |q| * off1) / s) ≤ |D|) :
    u * |p * (1 / (D * s)) * x0 + q * (1 / (D * s)) * x1| ≤ 1 := by
  by_cases hz : D * s = 0
  · rw [hz]
    simp
  have hD : 0 < |D| := abs_pos.mpr (left_ne_zero_of_mul hz)
  have hspos : 0 < s := lt_of_le_of_ne hs (Ne.symm (right_ne_zero_of_mul hz))
  have hsum : |p * x0 + q * x1| ≤ |p| * off0 + |q| * off1 := by
    calc |p * x0 + q * x1| ≤ |p * x0| + |q * x1| := abs_add_le _ _
      _ = |p| * |x0| + |q| * |x1| := by rw [abs_mul, abs_mul]
      _ ≤ |p| * off0 + |q| * off1 :=
        add_le_add (mul_le_mul_of_nonneg_left h0 (abs_nonneg p))
          (mul_le_mul_of_nonneg_left h1 (abs_nonneg q))
  have hval : |p * (1 / (D * s)) * x0 + q * (1 / (D * s)) * x1| =
      |p * x0 + q * x1| / s / |D| := by
    rw [show p * (1 / (D * s)) * x0 + q * (1 / (D * s)) * x1 = (p * x0 + q * x1) / (D * s) by ring,
      abs_div, abs_mul, abs_of_pos hspos, div_div, mul_comm s]
  calc u * |p * (1 / (D * s)) * x0 + q * (1 / (D * s)) * x1|
      = u * (|p * x0 + q * x1| / s) / |D| := by rw [hval, mul_div_assoc]
    _ ≤ u * ((|p| * off0 + |q| * off1) / s) / |D| := by gcongr
    _ ≤ |D| / |D| := by gcongr
    _ = 1 := div_self hD.ne'

/-- The accepted 2x2 pivot is nonsingular, and its inverse bounds what it multiplies. -/
theorem twoByTwoOk_some {m2 off1 g : K} {ext0 : ℕ}
    (h : twoByTwoOk prm F f cand r m2 off1 ext0 = some g) :
    (0 ≤ prm.smallPivot → pivotDet F cand r ≠ 0) ∧
      ∀ x0 x1 : K, |x0| ≤ maxOver m2 (positions ext0 f) (fun i => |F i cand|) →
        |x1| ≤ off1 → 0 ≤ prm.u →
        let inv := inverse2x2 (F cand cand) (symAt F r cand) (F r r)
        prm.u * |inv.1 * x0 + inv.2.1 * x1| ≤ 1 ∧ prm.u * |inv.2.1 * x0 + inv.2.2 * x1| ≤ 1 := by
  unfold twoByTwoOk at h
  unfold inverse2x2 pivotDet
  dsimp only at h ⊢
  have hs : 0 ≤ max (max |F cand cand| |symAt F r cand|) |F r r| :=
    (abs_nonneg _).trans (le_max_right _ _)
  generalize max (max |F cand cand| |symAt F r cand|) |F r r| = s at h hs ⊢
  generalize maxOver m2 (positions ext0 f) (fun i => |F i cand|) = off0 at h ⊢
  -- the test for a small determinant was passed, or there were no result
  have hpass : prm.smallPivot <
        |F cand cand / s * (F r r / s) - symAt F r cand / s * (symAt F r cand / s)| := by
    by_contra hno
    rw [if_neg hno, ite_self] at h
    exact Option.some_ne_none g h.symm
  refine ⟨fun hsmall hdet => ?_, fun x0 x1 h0 h1 hu => ?_⟩
  · -- a scaled determinant above `small_pivot` is not zero
    have hz : F cand cand / s * (F r r / s) - symAt F r cand / s * (symAt F r cand / s) = 0 := by
      rw [show F cand cand / s * (F r r / s) - symAt F r cand / s * (symAt F r cand / s) =
        (F cand cand * F r r - symAt F r cand * symAt F r cand) / (s * s) by ring, hdet, zero_div]
    rw [hz, abs_zero] at hpass
    exact absurd hpass (not_lt.mpr hsmall)
  · generalize F cand cand / s * (F r r / s) - symAt F r cand / s * (symAt F r cand / s) = D at *
    generalize F cand cand / s = a at *
    generalize symAt F r cand / s = b at *
    generalize F r r / s = c at *
    have hbound : prm.u * max ((|c| * off0 + |b| * off1) / s) ((|b| * off0 + |a| * off1) / s) ≤
        |D| := by
      by_cases hoff : 0 < off0 ∨ 0 < off1
      · refine not_lt.mp fun hlt => ?_
        simp only [if_pos hpass, if_pos hoff, if_pos hlt, ite_self] at h
        exact Option.some_ne_none g h.symm
      · -- no other entry at all
        rw [not_or] at hoff
        have h00 : off0 = 0 := le_antisymm (not_lt.mp hoff.1) ((abs_nonneg x0).trans h0)
        have h10 : off1 = 0 := le_antisymm (not_lt.mp hoff.2) ((abs_nonneg x1).trans h1)
        simp [h00, h10]
    have hneg : |-b| = |b| := abs_neg b
    constructor
    · refine growth_le hs hu h0 h1 ?_
      rw [hneg]
      exact (mul_le_mul_of_nonneg_left (le_max_left _ _) hu).trans hbound
    · refine growth_le hs hu h0 h1 ?_
      rw [hneg]
      exact (mul_le_mul_of_nonneg_left (le_max_right _ _) hu).trans hbound

omit [IsStrictOrderedRing K] in
theorem partnerOf_some {s : Scan K} (h : partnerOf k limit s = some r) :
    s.rBest = some r ∧ k ≤ r ∧ r < limit ∧ 0 < s.m1 := by
  unfold partnerOf at h
  cases hb : s.rBest with
  | none =>
    rw [hb] at h
    cases h
  | some r' =>
    rw [hb] at h
    dsimp only at h
    split_ifs at h with hno
    obtain rfl := Option.some.inj h
    rw [not_or, not_or, not_lt, not_le, not_le] at hno
    exact ⟨rfl, hno.1, hno.2.1, hno.2.2⟩

/-- What is true of the choice for column `cand`. -/
def ColumnChoice (prm : LdltKernelParams K) (F : ℕ → ℕ → K) (f k limit : ℕ) : PivotChoice → Prop
  | .one a => k ≤ a ∧ a < limit ∧ prm.effSmall ≤ |F a a| ∧ (0 ≤ prm.u → Bounds1 prm F f k a)
  | .two a b => k ≤ a ∧ a < limit ∧ k ≤ b ∧ b < limit ∧ a ≠ b ∧
      (0 ≤ prm.smallPivot → pivotDet F a b ≠ 0) ∧ (0 ≤ prm.u → Bounds2 prm F f k a b)

theorem testPair_choice {g : K} (hk : k ≤ cand) (hc : cand < limit) (hl : limit ≤ numElig)
    (hf : numElig ≤ f) (hr : partnerOf k limit (scanColumn F k numElig cand) = some r)
    (h : testPair prm F f k numElig limit cand r = some g) :
    ColumnChoice prm F f k limit (.two cand r) := by
  obtain ⟨hbest, hkr, hrl, -⟩ := partnerOf_some hr
  have hs := scanColumn_ok F k numElig cand
  have hne : r ≠ cand := ((mem_others hk (by omega)).mp (hs.best r hbest).1).2.2
  unfold testPair at h
  split_ifs at h with h1
  obtain ⟨hdet, hgrow⟩ := twoByTwoOk_some h
  refine ⟨hk, hc, hkr, hrl, Ne.symm hne, hdet, fun hu i hki hif hia hib => ?_⟩
  refine hgrow _ _ ?_ (le_offMaxBut hkr (by omega) hki hif hib hia) hu
  rcases Nat.lt_or_ge i numElig with hlt | hge
  · -- the second largest eligible entry bounds it
    refine (hs.le_m2 i ((mem_others hk (by omega)).mpr ⟨hki, hlt, hia⟩) ?_).trans le_maxOver
    rw [hbest]
    exact fun he => hib (Option.some.inj he).symm
  · rw [symAt_of_le (by omega)]
    exact le_maxOver_of_mem (fun i => |F i cand|) (mem_positions.mpr (by omega))

theorem tryColumn_choice {pc : PivotChoice} (hk : k ≤ cand) (hc : cand < limit)
    (hl : limit ≤ numElig) (hf : numElig ≤ f)
    (h : tryColumn prm F f k numElig limit cand = some pc) : ColumnChoice prm F f k limit pc := by
  have hone : testDiagonal prm F f cand (max numElig (cand + 1)) (scanColumn F k numElig cand).m1 ≠
      .fails → ColumnChoice prm F f k limit (.one cand) := fun ht =>
    ⟨hk, hc, (testDiagonal_bounds hk (by omega) ht).1, (testDiagonal_bounds hk (by omega) ht).2⟩
  -- one case for each outcome of the two tests of the column
  unfold tryColumn at h
  dsimp only at h
  split at h
  case h_1 hstrong =>
    obtain rfl := Option.some.inj h
    exact hone (by rw [hstrong]; exact nofun)
  case h_2 hweak _ =>
    obtain rfl := Option.some.inj h
    exact hone (by rw [hweak]; exact nofun)
  case h_3 g r hweak hr =>
    have hpc := hone (by rw [hweak]; exact nofun)
    split at h
    case h_1 =>
      obtain rfl := Option.some.inj h
      exact hpc
    case h_2 g2 hg2 =>
      split_ifs at h
      · obtain rfl := Option.some.inj h
        exact testPair_choice hk hc hl hf hr hg2
      · obtain rfl := Option.some.inj h
        exact hpc
  case h_4 => cases h
  case h_5 r hfails hr =>
    split at h
    case h_1 g2 hg2 =>
      obtain rfl := Option.some.inj h
      exact testPair_choice hk hc hl hf hr hg2
    case h_2 =>
      split_ifs at h with hp
      obtain rfl := Option.some.inj h
      obtain ⟨-, hkr, hrl, -⟩ := partnerOf_some hr
      exact ⟨hkr, hrl, partnerPasses_bounds hkr (by omega) hp⟩

/-- What is true of the chosen pivot, in every mode. -/
def Chosen (prm : LdltKernelParams K) (F : ℕ → ℕ → K) (f k limit : ℕ) : PivotChoice → Prop
  | .one a => k ≤ a ∧ a < limit ∧ (prm.Zeros → F a a ≠ 0) ∧
      (prm.Threshold → 0 ≤ prm.u → Bounds1 prm F f k a)
  | .two a b => k ≤ a ∧ a < limit ∧ k ≤ b ∧ b < limit ∧ a ≠ b ∧
      (prm.Zeros → pivotDet F a b ≠ 0) ∧ (prm.Threshold → 0 ≤ prm.u → Bounds2 prm F f k a b)

theorem selectPivot_chosen {pc : PivotChoice} (hk : k < limit) (hl : limit ≤ numElig)
    (hf : numElig ≤ f) (h : selectPivot prm F f k numElig limit = some pc) :
    Chosen prm F f k limit pc := by
  unfold selectPivot at h
  split_ifs at h with hpos hd hmin hd
  · obtain rfl := Option.some.inj h
    exact ⟨le_rfl, hk, fun _ => hd.ne', fun ht => absurd ht.1 (by simp [hpos])⟩
  · obtain rfl := Option.some.inj h
    exact ⟨le_rfl, hk, fun _ => abs_pos.mp (hmin.trans_le hd), fun ht => absurd hmin
      (not_lt.mpr ht.2)⟩
  · obtain ⟨cand, hcand, htry⟩ := List.exists_of_findSome?_eq_some h
    rw [mem_positions] at hcand
    have hc := tryColumn_choice hcand.1 hcand.2 hl hf htry
    have hpos' : prm.posdef = false := Bool.eq_false_iff.mpr hpos
    cases pc with
    | one a =>
      obtain ⟨hka, hal, hsmall, hgrow⟩ := hc
      refine ⟨hka, hal, fun hz => ?_, fun _ => hgrow⟩
      exact abs_pos.mp ((hz.effSmall_pos hpos' (not_lt.mp hmin)).trans_le hsmall)
    | two a b =>
      obtain ⟨hka, hal, hkb, hbl, hne, hdet, hgrow⟩ := hc
      exact ⟨hka, hal, hkb, hbl, hne, fun hz => hdet hz.smallPivot_nonneg, fun _ => hgrow⟩

omit [IsStrictOrderedRing K] in
/-- The static search stays in the front. -/
theorem staticBest_mem (hk : k < numElig) :
    k ≤ (staticBest prm F f k numElig).best ∧ (staticBest prm F f k numElig).best < numElig := by
  have hkeep : ∀ (l : List ℕ) (s : StaticBest K), (∀ i ∈ l, k ≤ i ∧ i < numElig) →
      k ≤ s.best ∧ s.best < numElig → k ≤ (l.foldl (StaticBest.visit F f k) s).best ∧
        (l.foldl (StaticBest.visit F f k) s).best < numElig := by
    intro l
    induction l with
    | nil => exact fun s _ hs => hs
    | cons i l ih =>
      intro s hl hs
      refine ih _ (fun j hj => hl j (List.mem_cons_of_mem i hj)) ?_
      unfold StaticBest.visit
      dsimp only
      split_ifs
      · exact hl i List.mem_cons_self
      · exact hs
      · exact hl i List.mem_cons_self
      · exact hs
  refine hkeep _ _ (fun i hi => ?_) ⟨le_rfl, hk⟩
  rw [mem_positions] at hi
  split_ifs at hi <;> omega

theorem staticValue_ne_zero {d : K} (h : 0 < prm.staticPivot) : staticValue prm d ≠ 0 := by
  unfold staticValue
  split_ifs with h1 h2
  · exact abs_pos.mp (h.trans_le h1)
  · exact neg_ne_zero.mpr h.ne'
  · exact h.ne'

end Spec

end SmfSolver.Kernel
