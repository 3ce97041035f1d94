/-
  SmfSolver.Solve.PivotBlocks

  `D^-1` in its three forms: on the diagonal slots of a front (`apply_inline_d`), by the
  inverses that `build_inline_dinv` computes once (`apply_dinv`), and as a pass over the list
  of pivot blocks (`solve_diag`).

  1. `applyInlineD_eq`: what `apply_inline_d` leaves in each pivot.
  2. `dinvLoop_eq`: the built inverses leave the same (`buildInlineDinv_fits`).
  3. `solveDiag_at`: so does the pass over the entries that the factorization lists.
-/
import SmfSolver.Kernel.NumericFrontSpec
import SmfSolver.Multifrontal.ProcessFront
import SmfSolver.Solve.BackwardSweep

namespace SmfSolver
namespace Solve

open Lib
open Kernel (solve2x2Scaled scaledDet2x2 solve2x2Scaled_eq inverse2x2_eq)
open Multifrontal (DiagSolveEntry)
open Finset (range sum_congr)

variable {K : Type*} [Field K] [LinearOrder K]

/-! ## Definitions -/

/-- The entries of one 2x2 inverse: `solve_2x2_scaled`'s rule without the right-hand side. -/
def pairInverse (d00 d10 d11 : K) : K × K × K :=
  let (detS, sc) := scaledDet2x2 d00 d10 d11
  if sc = 0 ∨ detS = 0 then (0, 0, 0)
  else (d11 / sc / detS / sc, -(d10 / sc) / detS / sc, d00 / sc / detS / sc)

/-- The entries and kinds that `build_inline_dinv` makes of a front's pivots from `c` on. -/
def buildFrontDinv (L : ℕ → ℕ → K) (p : ℕ) : ℕ → ℕ → List ((K × K × K) × ℤ)
  | 0, _ => []
  | fuel + 1, c =>
    if p ≤ c then []
    else if c + 1 < p ∧ L c (c + 1) ≠ 0 then
      (pairInverse (L c c) (L c (c + 1)) (L (c + 1) (c + 1)), 2) :: ((0, 0, 0), 0) ::
        buildFrontDinv L p fuel (c + 2)
    else ((if L c c = 0 then 0 else 1 / L c c, 0, 0), 1) :: buildFrontDinv L p fuel (c + 1)

/-- Three values a pivot. -/
def flatTriples (es : List ((K × K × K) × ℤ)) : List K :=
  es.flatMap fun e => [e.1.1, e.1.2.1, e.1.2.2]

namespace BackwardKeep

variable (fk : BackwardKeep K)

/-- The entries of all steps. -/
def dinvPieces : List (List ((K × K × K) × ℤ)) :=
  (List.range fk.solveSteps.length).map fun k =>
    buildFrontDinv (fk.front k).L (fk.front k).p (fk.front k).p 0

/-- `build_inline_dinv`; the checks of the steps against the arrays' ends are left out. -/
def buildInlineDinv (usable : Bool) : BackwardKeep K :=
  if !usable || fk.isPosdef || !fk.inlineD || fk.solveSteps.isEmpty then
    { fk with dinvOffset := [], dinv := fun _ => 0, dinvKind := fun _ => 0 }
  else
    { fk with
      dinvOffset := (List.range fk.solveSteps.length).map (offset fk.dinvPieces)
      dinv := fun i => (flatTriples fk.dinvPieces.flatten).getD i 0
      dinvKind := fun i => (fk.dinvPieces.flatten.map Prod.snd).getD i 0 }

end BackwardKeep

/-- One entry of `solve_diag`. -/
def solveDiagEntry (x : ℕ → K) (e : DiagSolveEntry K) : ℕ → K :=
  if e.tag = 1 then
    Function.update x e.row0 (if e.d00 = 0 then 0 else x e.row0 / e.d00)
  else if e.tag = 2 then
    let y := solve2x2Scaled e.d00 e.d10 e.d11 (x e.row0) (x e.row1)
    Function.update (Function.update x e.row0 y.1) e.row1 y.2
  else x

/-- `solve_diag` of a factor with listed pivot blocks. -/
def solveDiag (posdef : Bool) (entries : List (DiagSolveEntry K)) (x : ℕ → K) : ℕ → K :=
  if posdef then x else entries.foldl solveDiagEntry x

/-- The blocks of a front's pivots from `c` on, as the factorization lists them.  A 2x2 block
    without an off-diagonal entry is nonsingular. -/
inductive FrontEntries (L : ℕ → ℕ → K) (rows : ℕ → ℕ) (p : ℕ) : ℕ → List (DiagSolveEntry K) → Prop
  | done {c} (hc : p ≤ c) : FrontEntries L rows p c []
  | single {c es zero r₁ a b} (hc : c < p) (hnext : c + 1 < p → L c (c + 1) = 0)
      (h : FrontEntries L rows p (c + 1) es) :
      FrontEntries L rows p c (⟨1, zero, rows c, r₁, L c c, a, b⟩ :: es)
  | pair {c es zero} (hc : c + 1 < p) (hnext : c + 2 < p → L (c + 1) (c + 2) = 0)
      (hdet : L c (c + 1) = 0 → L c c ≠ 0 ∧ L (c + 1) (c + 1) ≠ 0)
      (h : FrontEntries L rows p (c + 2) es) :
      FrontEntries L rows p c (⟨2, zero, rows c, rows (c + 1), L c c, L c (c + 1),
        L (c + 1) (c + 1)⟩ :: es)

/-- The inverses are those of the fronts' pivot blocks, if there are any. -/
def BackwardKeep.DinvFits (fk : BackwardKeep K) : Prop :=
  fk.dinvOffset.length = fk.solveSteps.length → ∀ k < fk.solveSteps.length, ∀ i e,
    (buildFrontDinv (fk.front k).L (fk.front k).p (fk.front k).p 0)[i]? = some e →
      fk.dinv (3 * (fk.dinvOffset.getD k 0 + i)) = e.1.1 ∧
      fk.dinv (3 * (fk.dinvOffset.getD k 0 + i) + 1) = e.1.2.1 ∧
      fk.dinv (3 * (fk.dinvOffset.getD k 0 + i) + 2) = e.1.2.2 ∧
      fk.dinvKind (fk.dinvOffset.getD k 0 + i) = e.2

/-! ## The pivots of a front -/

/-- Pivot `c` opens a 2x2 block. -/
def opens (L : ℕ → ℕ → K) (p : ℕ) : ℕ → Bool
  | 0 => decide (1 < p ∧ L 0 1 ≠ 0)
  | c + 1 => decide (c + 2 < p ∧ L (c + 1) (c + 2) ≠ 0) && !opens L p c

/-- Pivot `c` is the second of a 2x2 block. -/
def closes (L : ℕ → ℕ → K) (p : ℕ) : ℕ → Bool
  | 0 => false
  | c + 1 => opens L p c

/-- What `D^-1` leaves in pivot `i`. -/
def inlineEntry (L : ℕ → ℕ → K) (p : ℕ) (v : ℕ → K) (i : ℕ) : K :=
  if opens L p i then
    (solve2x2Scaled (L i i) (L i (i + 1)) (L (i + 1) (i + 1)) (v i) (v (i + 1))).1
  else if closes L p i then
    (solve2x2Scaled (L (i - 1) (i - 1)) (L (i - 1) i) (L i i) (v (i - 1)) (v i)).2
  else if L i i = 0 then 0 else v i / L i i

section Front

variable {L : ℕ → ℕ → K} {p c i : ℕ} {v v' : ℕ → K}

theorem opens_iff (h : closes L p c = false) :
    opens L p c = true ↔ c + 1 < p ∧ L c (c + 1) ≠ 0 := by
  cases c with
  | zero => exact decide_eq_true_iff
  | succ c =>
    have hc : opens L p c = false := h
    rw [opens, hc, Bool.not_false, Bool.and_true, decide_eq_true_iff]

/-- A 2x2 block is inside the pivots. -/
theorem opens_lt (h : opens L p c = true) : c + 1 < p := by
  cases c with
  | zero => exact (of_decide_eq_true h).1
  | succ c =>
    rw [opens, Bool.and_eq_true] at h
    exact (of_decide_eq_true h.1).1

/-- Blocks do not overlap. -/
theorem closes_succ_succ (h : opens L p c = true) : closes L p (c + 2) = false := by
  show opens L p (c + 1) = false
  rw [opens, h]
  exact Bool.and_false _

/-- A pivot's entry depends on the pivots of its block. -/
theorem inlineEntry_congr (hi : v i = v' i) (hnext : opens L p i = true → v (i + 1) = v' (i + 1))
    (hbefore : closes L p i = true → v (i - 1) = v' (i - 1)) :
    inlineEntry L p v i = inlineEntry L p v' i := by
  unfold inlineEntry
  split_ifs with h1 h2
  · rw [hi, hnext h1]
  · rw [hi, hbefore h2]
  · rfl
  · rw [hi]

/-- The entry of a 1x1 pivot. -/
theorem inlineEntry_single (ho : opens L p i = false) (hc : closes L p i = false) :
    inlineEntry L p v i = if L i i = 0 then 0 else v i / L i i := by
  simp [inlineEntry, ho, hc]

theorem inlineLoop_eq {fuel : ℕ} (hfuel : p ≤ c + fuel) (hc : closes L p c = false) :
    inlineLoop L p fuel c v i = if c ≤ i ∧ i < p then inlineEntry L p v i else v i := by
  induction fuel generalizing c v with
  | zero => exact (if_neg (by omega)).symm
  | succ fuel ih =>
    rw [inlineLoop]
    split
    · exact (if_neg (by omega)).symm
    next hlt =>
    split
    · next hpair =>
      have hopen := (opens_iff hc).mpr hpair
      have hclose : closes L p (c + 1) = true := hopen
      dsimp only
      rw [ih (by omega) (closes_succ_succ hopen)]
      by_cases hi : c + 2 ≤ i ∧ i < p
      · rw [if_pos hi, if_pos ⟨by omega, hi.2⟩]
        have hout : ∀ j, c + 2 ≤ j → ∀ a b : K,
            Function.update (Function.update v c a) (c + 1) b j = v j := fun j hj a b => by
          rw [Function.update_of_ne (by omega), Function.update_of_ne (by omega)]
        refine inlineEntry_congr (hout i hi.1 _ _) (fun _ => hout (i + 1) (by omega) _ _)
          fun hcl => hout (i - 1) ?_ _ _
        -- the first pivot behind the block opens a block of its own
        have hne : i ≠ c + 2 := by
          rintro rfl
          rw [closes_succ_succ hopen] at hcl
          cases hcl
        omega
      · -- in the block itself, or outside what the loop still visits
        rw [if_neg hi]
        by_cases h1 : i = c + 1
        · subst h1
          have hnot : opens L p (c + 1) = false := closes_succ_succ hopen
          rw [Function.update_self, if_pos ⟨by omega, by omega⟩, inlineEntry,
            if_neg (by simp [hnot]),
            if_pos hclose]
          rfl
        · rw [Function.update_of_ne h1]
          by_cases h0 : i = c
          · subst h0
            rw [Function.update_self, if_pos ⟨le_rfl, by omega⟩, inlineEntry, if_pos hopen]
          · rw [Function.update_of_ne h0, if_neg (by omega)]
    · next hpair =>
      have hnot : opens L p c = false := by
        rw [Bool.eq_false_iff]
        exact fun hopen => hpair ((opens_iff hc).mp hopen)
      have hclose : closes L p (c + 1) = false := hnot
      rw [ih (by omega) hclose]
      by_cases hi : c + 1 ≤ i ∧ i < p
      · have hin : c ≤ i ∧ i < p := ⟨by omega, hi.2⟩
        have hout : ∀ j, c < j → ∀ a : K, Function.update v c a j = v j := fun j hj a =>
          Function.update_of_ne (by omega) ..
        rw [if_pos hi, if_pos hin]
        refine inlineEntry_congr (hout i (by omega) _) (fun _ => hout (i + 1) (by omega) _)
          fun hcl => hout (i - 1) ?_ _
        have hne : i ≠ c + 1 := by
          rintro rfl
          rw [hclose] at hcl
          cases hcl
        omega
      · rw [if_neg hi]
        by_cases h0 : i = c
        · subst h0
          have hin : i ≤ i ∧ i < p := ⟨le_rfl, by omega⟩
          rw [Function.update_self, if_pos hin, inlineEntry_single hnot hc]
        · have hout : ¬(c ≤ i ∧ i < p) := by omega
          rw [Function.update_of_ne h0, if_neg hout]

theorem applyInlineD_eq : applyInlineD L p v i = if i < p then inlineEntry L p v i else v i := by
  rw [applyInlineD, inlineLoop_eq (Nat.zero_add p).ge rfl]
  exact if_congr (and_iff_right (Nat.zero_le i)) rfl rfl

theorem applyInlineD_local : PivotLocal p (applyInlineD L p) := by
  intro w w' hw i hi
  rw [applyInlineD_eq, applyInlineD_eq, if_pos hi, if_pos hi]
  refine inlineEntry_congr (hw i hi) (fun hopen => hw _ (opens_lt hopen)) fun _ => hw _ (by omega)

/-! ## The built inverses -/

/-- The entries at the pivots from `c` on are those of the list. -/
def DinvAt (e : ℕ → K) (kind : ℕ → ℤ) (c : ℕ) (es : List ((K × K × K) × ℤ)) : Prop :=
  ∀ i x, es[i]? = some x → e (3 * (c + i)) = x.1.1 ∧ e (3 * (c + i) + 1) = x.1.2.1 ∧
    e (3 * (c + i) + 2) = x.1.2.2 ∧ kind (c + i) = x.2

omit [LinearOrder K] in
omit [Field K] in
theorem DinvAt.tail {e : ℕ → K} {kind : ℕ → ℤ} {x : (K × K × K) × ℤ} {es : List ((K × K × K) × ℤ)}
    (h : DinvAt e kind c (x :: es)) : DinvAt e kind (c + 1) es := by
  intro i y hy
  have hnext := h (i + 1) y hy
  rwa [← add_assoc, add_right_comm] at hnext

variable [IsStrictOrderedRing K]

/-- The inverse of a block applied is the block solved. -/
theorem pairInverse_apply (d00 d10 d11 v₀ v₁ : K) : solve2x2Scaled d00 d10 d11 v₀ v₁ =
    ((pairInverse d00 d10 d11).1 * v₀ + (pairInverse d00 d10 d11).2.1 * v₁,
      (pairInverse d00 d10 d11).2.1 * v₀ + (pairInverse d00 d10 d11).2.2 * v₁) := by
  rw [solve2x2Scaled, pairInverse]
  obtain ⟨det, sc⟩ := scaledDet2x2 d00 d10 d11
  dsimp only
  split_ifs with hsing hzero
  · simp
  · -- a right-hand side of zeros stays as it is
    have h₀ : v₀ = 0 := abs_nonpos_iff.mp (hzero ▸ le_max_left |v₀| |v₁|)
    have h₁ : v₁ = 0 := abs_nonpos_iff.mp (hzero ▸ le_max_right |v₀| |v₁|)
    simp [h₀, h₁]
  · obtain ⟨hs, hd⟩ := not_or.mp hsing
    generalize max |v₀| |v₁| = t at hzero
    refine Prod.ext ?_ ?_ <;> dsimp only <;> field_simp
    ring

/-- `apply_dinv` with the built inverses takes the same steps as `apply_inline_d`. -/
theorem dinvLoop_eq {e : ℕ → K} {kind : ℕ → ℤ} {fuel : ℕ}
    (h : DinvAt e kind c (buildFrontDinv L p fuel c)) :
    dinvLoop e kind p fuel c v = inlineLoop L p fuel c v := by
  induction fuel generalizing c v with
  | zero => rfl
  | succ fuel ih =>
    rw [buildFrontDinv] at h
    rw [dinvLoop, inlineLoop]
    by_cases hp : p ≤ c
    · rw [if_pos hp, if_pos hp]
    rw [if_neg hp] at h ⊢
    rw [if_neg hp]
    by_cases hpair : c + 1 < p ∧ L c (c + 1) ≠ 0
    · rw [if_pos hpair] at h ⊢
      obtain ⟨h₀, h₁, h₂, hkind⟩ := h 0 _ rfl
      rw [add_zero] at h₀ h₁ h₂ hkind
      rw [if_pos hkind]
      dsimp only
      rw [h₀, h₁, h₂, pairInverse_apply]
      -- the slot of the block's second pivot is never read
      exact ih h.tail.tail
    · rw [if_neg hpair] at h ⊢
      obtain ⟨h₀, -, -, hkind⟩ := h 0 _ rfl
      rw [add_zero] at h₀ hkind
      have hone : kind c ≠ 2 := by
        rw [hkind]
        exact show (1 : ℤ) ≠ 2 by decide
      have hvalue : v c * e (3 * c) = if L c c = 0 then 0 else v c / L c c := by
        rw [h₀, mul_ite, mul_zero, mul_one_div]
      rw [if_neg hone, hvalue]
      exact ih h.tail

end Front

section Keep

variable [IsStrictOrderedRing K] {fk : BackwardKeep K} {applyDiag : Bool} {k : ℕ}

/-- `D^-1` of a step, whichever form the factor has it in. -/
theorem frontD_eq (h : fk.DinvFits) (hk : k < fk.solveSteps.length) :
    fk.frontD applyDiag k =
      if applyDiag && fk.appliesDiag then applyInlineD (fk.front k).L (fk.front k).p else id := by
  rw [BackwardKeep.frontD]
  refine if_congr Iff.rfl ?_ rfl
  split
  · next hbuilt =>
    funext v
    rw [applyDinv, applyInlineD]
    apply dinvLoop_eq
    intro i e hi
    have hfits := h hbuilt k hk i e hi
    rw [mul_add] at hfits
    rw [zero_add]
    exact hfits
  · rfl

theorem frontD_local (h : fk.DinvFits) (hk : k < fk.solveSteps.length) :
    PivotLocal (fk.front k).p (fk.frontD applyDiag k) := by
  rw [frontD_eq h hk]
  split
  · exact applyInlineD_local
  · exact fun w w' hw i hi => hw i hi

omit [IsStrictOrderedRing K] in
omit [LinearOrder K] in
/-- Three values an entry. -/
theorem flatTriples_get {es : List ((K × K × K) × ℤ)} {i : ℕ} {e : (K × K × K) × ℤ}
    (h : es[i]? = some e) : (flatTriples es).getD (3 * i) 0 = e.1.1 ∧
      (flatTriples es).getD (3 * i + 1) 0 = e.1.2.1 ∧
      (flatTriples es).getD (3 * i + 2) 0 = e.1.2.2 := by
  induction es generalizing i with
  | nil => cases h
  | cons x es ih =>
    have hcons : flatTriples (x :: es) = x.1.1 :: x.1.2.1 :: x.1.2.2 :: flatTriples es := rfl
    rw [hcons]
    cases i with
    | zero =>
      obtain rfl := Option.some.inj h
      exact ⟨rfl, rfl, rfl⟩
    | succ i => exact ih h

omit [IsStrictOrderedRing K] in
/-- What `build_inline_dinv` builds fits the factor. -/
theorem buildInlineDinv_fits (fk : BackwardKeep K) (usable : Bool) :
    (fk.buildInlineDinv usable).DinvFits := by
  rw [BackwardKeep.buildInlineDinv]
  split
  · next hno =>
    -- no steps, or no offset for a step
    intro hlen k hk
    rw [← hlen] at hk
    exact absurd hk (Nat.not_lt_zero k)
  · intro hlen k hk i e hi
    have hpiece : fk.dinvPieces[k]? =
        some (buildFrontDinv (fk.front k).L (fk.front k).p (fk.front k).p 0) := by
      rw [BackwardKeep.dinvPieces, List.getElem?_map, List.getElem?_range hk]
      rfl
    have hentry := getElem?_flatten hpiece hi
    have hoffset : ((List.range fk.solveSteps.length).map (offset fk.dinvPieces)).getD k 0 =
        offset fk.dinvPieces k := by
      rw [List.getD_eq_getElem?_getD, List.getElem?_map, List.getElem?_range hk]
      rfl
    dsimp only
    rw [hoffset]
    obtain ⟨h₀, h₁, h₂⟩ := flatTriples_get hentry
    refine ⟨h₀, h₁, h₂, ?_⟩
    rw [List.getD_eq_getElem?_getD, List.getElem?_map, hentry]
    rfl

end Keep

/-! ## The listed blocks -/

section Entries

variable [IsStrictOrderedRing K] {L : ℕ → ℕ → K} {rows : ℕ → ℕ} {p c i : ℕ} {v x : ℕ → K}
  {es : List (DiagSolveEntry K)}

/-- Both pivots of a listed 2x2 block, and none of the block behind it. -/
theorem inlineEntry_pair (hc : c + 1 < p) (hclose : closes L p c = false)
    (hnext : c + 2 < p → L (c + 1) (c + 2) = 0)
    (hdet : L c (c + 1) = 0 → L c c ≠ 0 ∧ L (c + 1) (c + 1) ≠ 0) :
    (inlineEntry L p v c, inlineEntry L p v (c + 1)) =
      solve2x2Scaled (L c c) (L c (c + 1)) (L (c + 1) (c + 1)) (v c) (v (c + 1)) ∧
    closes L p (c + 2) = false := by
  by_cases hoff : L c (c + 1) = 0
  · -- two 1x1 pivots
    obtain ⟨h₀, h₁⟩ := hdet hoff
    have hno : opens L p c = false := by
      rw [Bool.eq_false_iff]
      exact fun hopen => ((opens_iff hclose).mp hopen).2 hoff
    have hno' : opens L p (c + 1) = false := by
      rw [Bool.eq_false_iff]
      intro hopen
      obtain ⟨hlt, hne⟩ := (opens_iff (c := c + 1) hno).mp hopen
      exact hne (hnext hlt)
    refine ⟨?_, hno'⟩
    rw [inlineEntry_single hno hclose, inlineEntry_single hno' hno, if_neg h₀, if_neg h₁, hoff,
      solve2x2Scaled_eq (by simpa using ⟨h₀, h₁⟩), inverse2x2_eq (by simpa using ⟨h₀, h₁⟩)]
    refine Prod.ext ?_ ?_ <;> dsimp only <;> field_simp <;> ring
  · have hopen : opens L p c = true := (opens_iff hclose).mpr ⟨hc, hoff⟩
    have hclosed : closes L p (c + 1) = true := hopen
    have hno : opens L p (c + 1) = false := closes_succ_succ hopen
    refine ⟨?_, hno⟩
    simp [inlineEntry, hopen, hclosed, hno]

/-- The entries of a front from pivot `c` on. -/
theorem foldl_solveDiagEntry (hinj : ∀ i < p, ∀ j < p, rows i = rows j → i = j)
    (h : FrontEntries L rows p c es) (hclose : closes L p c = false) :
    (∀ i < p, c ≤ i →
      es.foldl solveDiagEntry x (rows i) = inlineEntry L p (fun j => x (rows j)) i) ∧
    ∀ r, (∀ i < p, c ≤ i → rows i ≠ r) → es.foldl solveDiagEntry x r = x r := by
  induction h generalizing x with
  | done hc => exact ⟨fun i hi hle => by omega, fun _ _ => rfl⟩
  | @single c es zero r₁ a b hc hnext _ ih =>
    have hno : opens L p c = false := by
      rw [Bool.eq_false_iff]
      intro hopen
      obtain ⟨hlt, hne⟩ := (opens_iff hclose).mp hopen
      exact hne (hnext hlt)
    rw [List.foldl_cons]
    have hstep : solveDiagEntry x ⟨1, zero, rows c, r₁, L c c, a, b⟩ =
        Function.update x (rows c) (inlineEntry L p (fun j => x (rows j)) c) := by
      rw [inlineEntry_single hno hclose]
      exact if_pos rfl
    rw [hstep]
    obtain ⟨hrows, hother⟩ := ih (x := Function.update x (rows c) _) hno
    -- the rows are distinct, so the later entries do not see this one
    have hkept : ∀ j < p, j ≠ c → ∀ a : K, Function.update x (rows c) a (rows j) = x (rows j) :=
      fun j hj hne a => Function.update_of_ne (fun he => hne (hinj j hj c hc he)) ..
    refine ⟨fun i hi hle => ?_, fun r hr => ?_⟩
    · rcases Nat.eq_or_lt_of_le hle with rfl | hlt
      · rw [hother _ fun j hj hle he => by have := hinj j hj c hc he; omega, Function.update_self]
      · rw [hrows i hi hlt]
        refine inlineEntry_congr (hkept i hi hlt.ne' _)
          (fun hopen => hkept _ (opens_lt hopen) (by omega) _) fun hcl => hkept _ (by omega) ?_ _
        rintro hic
        obtain rfl : i = c + 1 := by omega
        exact absurd (hno.symm.trans hcl) (by decide)
    · rw [hother r fun i hi hle => hr i hi (by omega), Function.update_of_ne (hr c hc le_rfl).symm]
  | @pair c es zero hc hnext hdet _ ih =>
    have hc' : c < p := Nat.lt_of_succ_lt hc
    -- both columns of a pair are solved from the values before it
    obtain ⟨hpair, hclosed⟩ := inlineEntry_pair (v := fun j => x (rows j)) hc hclose hnext hdet
    rw [List.foldl_cons]
    have hstep : solveDiagEntry x ⟨2, zero, rows c, rows (c + 1), L c c, L c (c + 1),
          L (c + 1) (c + 1)⟩ =
        Function.update (Function.update x (rows c) (inlineEntry L p (fun j => x (rows j)) c))
          (rows (c + 1)) (inlineEntry L p (fun j => x (rows j)) (c + 1)) := by
      have hsolved : solve2x2Scaled (L c c) (L c (c + 1)) (L (c + 1) (c + 1)) (x (rows c))
          (x (rows (c + 1))) = _ := hpair.symm
      simp [solveDiagEntry, hsolved]
    rw [hstep]
    obtain ⟨hrows, hother⟩ := ih (x := Function.update (Function.update x (rows c) _) _ _) hclosed
    have hkept : ∀ j < p, j ≠ c → j ≠ c + 1 → ∀ a b : K,
        Function.update (Function.update x (rows c) a) (rows (c + 1)) b (rows j) = x (rows j) :=
      fun j hj hne hne' a b => by
        rw [Function.update_of_ne fun he => hne' (hinj j hj _ hc he),
          Function.update_of_ne fun he => hne (hinj j hj c hc' he)]
    have hapart : rows c ≠ rows (c + 1) := fun he => by have := hinj c hc' _ hc he; omega
    refine ⟨fun i hi hle => ?_, fun r hr => ?_⟩
    · rcases Nat.lt_or_ge i (c + 2) with hlt | hge
      · rw [hother _ fun j hj hle he => by have := hinj j hj i hi he; omega]
        rcases Nat.eq_or_lt_of_le hle with rfl | hlt
        · rw [Function.update_of_ne hapart, Function.update_self]
        · obtain rfl : i = c + 1 := by omega
          rw [Function.update_self]
      · rw [hrows i hi hge]
        refine inlineEntry_congr (hkept i hi (by omega) (by omega) _ _)
          (fun hopen => hkept _ (opens_lt hopen) (by omega) (by omega) _ _)
          fun hcl => hkept _ (by omega) (by omega) ?_ _ _
        rintro hic
        obtain rfl : i = c + 2 := by omega
        exact absurd (hclosed.symm.trans hcl) (by decide)
    · rw [hother r fun i hi hle => hr i hi (by omega),
        Function.update_of_ne (hr _ hc (Nat.le_succ c)).symm,
        Function.update_of_ne (hr c hc' le_rfl).symm]

/-- The entries of several fronts. -/
theorem solveDiag_at {fr : ℕ → Front K} {blocks : ℕ → List (DiagSolveEntry K)} {ks : List ℕ}
    (hblocks : ∀ k ∈ ks, FrontEntries (fr k).L (fr k).rows (fr k).p 0 (blocks k))
    (hinj : ∀ k ∈ ks, ∀ i < (fr k).p, ∀ j < (fr k).p, (fr k).rows i = (fr k).rows j → i = j)
    (hapart : ks.Pairwise fun k l =>
      ∀ i < (fr k).p, ∀ j < (fr l).p, (fr l).rows j ≠ (fr k).rows i) :
    (∀ k ∈ ks, ∀ i < (fr k).p, solveDiag false (ks.flatMap blocks) x ((fr k).rows i) =
      applyInlineD (fr k).L (fr k).p (fun j => x ((fr k).rows j)) i) ∧
    ∀ r, (∀ k ∈ ks, ∀ i < (fr k).p, (fr k).rows i ≠ r) →
      solveDiag false (ks.flatMap blocks) x r = x r := by
  -- by induction on the fronts: a front's entries touch its own pivot rows only
  induction ks generalizing x with
  | nil => exact ⟨fun k hk => absurd hk List.not_mem_nil, fun _ _ => rfl⟩
  | cons k ks ih =>
    obtain ⟨hhead, htail⟩ := List.pairwise_cons.mp hapart
    have hfold : solveDiag false ((k :: ks).flatMap blocks) x =
        solveDiag false (ks.flatMap blocks) ((blocks k).foldl solveDiagEntry x) := by
      rw [List.flatMap_cons]
      exact List.foldl_append
    rw [hfold]
    obtain ⟨hown, hkept⟩ := foldl_solveDiagEntry (x := x) (hinj k List.mem_cons_self)
      (hblocks k List.mem_cons_self) rfl
    generalize (blocks k).foldl solveDiagEntry x = y at hown hkept
    obtain ⟨hrest, hother⟩ := ih (x := y) (fun l hl => hblocks l (List.mem_cons_of_mem k hl))
      (fun l hl => hinj l (List.mem_cons_of_mem k hl)) htail
    refine ⟨fun l hl i hi => ?_, fun r hr => ?_⟩
    -- the head's rows are not touched later; the tail reads rows the head has left alone
    · rcases List.mem_cons.mp hl with rfl | hl
      · rw [hother _ fun m hm j hj => hhead m hm i hi j hj, hown i hi (Nat.zero_le i),
          applyInlineD_eq, if_pos hi]
      · rw [hrest l hl i hi]
        refine applyInlineD_local _ _ (fun j hj => hkept _ fun a ha _ he => ?_) i hi
        exact hhead l hl a ha j hj he.symm
    · rw [hother r fun l hl => hr l (List.mem_cons_of_mem k hl)]
      exact hkept r fun i hi _ => hr k List.mem_cons_self i hi

end Entries

end Solve
end SmfSolver
