/-
Factors whose pivots stand among columns that are not eliminated.

While the kernel works on a view, failed columns stay where they are: the pivots are scattered,
and `L(q, p)` of a failed column `q` before the pivot `p` stands transposed at `(p, q)`.  Read
through `symAt` it is an entry like any other, so a view stands for the matrix `standsFor`
whatever the places of its pivots.  A block column adds its pivots to that matrix
(`standsFor_step`), and moving the pivots to the front in their order renames it
(`Gathered.standsFor`).
-/
import SmfSolver.Kernel.AptpRows
import SmfSolver.Kernel.PartialFactor
import Mathlib.Algebra.BigOperators.Group.Finset.Basic
import Mathlib.Data.Nat.Count

namespace SmfSolver.Kernel

open Finset

/-- The first `n` tags are those of failed columns, of 1x1 blocks and of adjacent 2x2 blocks. -/
def Scattered (tags : ℕ → ℤ) (n : ℕ) : Prop :=
  ∀ c < n, tags c = 0 ∨ tags c = 1 ∨ (tags c = 2 ∧ c + 1 < n ∧ tags (c + 1) = -1) ∨
    (tags c = -1 ∧ 0 < c ∧ tags (c - 1) = 2)

section Tags

variable {tags tags' : ℕ → ℤ} {n c : ℕ}

theorem Scattered.pair_lt (h : Scattered tags n) (hc : c < n) (h2 : tags c = 2) :
    c + 1 < n ∧ tags (c + 1) = -1 := by
  rcases h c hc with h1 | h1 | ⟨-, h3⟩ | ⟨h1, -⟩
  · omega
  · omega
  · exact h3
  · omega

theorem Scattered.closes (h : Scattered tags n) (hc : c < n) (h1 : tags c = -1) :
    0 < c ∧ tags (c - 1) = 2 := by
  rcases h c hc with h2 | h2 | ⟨h2, -⟩ | ⟨-, h2⟩
  · omega
  · omega
  · omega
  · exact h2

theorem Tagged.scattered (h : Tagged tags n) : Scattered tags n := fun c hc => Or.inr (h c hc)

theorem Tagged.ne_zero (h : Tagged tags n) (hc : c < n) : tags c ≠ 0 := by
  rcases h c hc with h1 | ⟨h1, -⟩ | ⟨h1, -⟩ <;> omega

/-- The tags `tags'` after a block column at `c0`: below it they are `tags`, in its tile of width
`w` they are the first `k` tags of the factored tile. -/
structure Joined (tags tags' tile : ℕ → ℤ) (c0 w k : ℕ) : Prop where
  low : ∀ c < c0, tags' c = tags c
  inside : ∀ a < w, tags' (c0 + a) = if a < k then tile a else 0

theorem Joined.scattered {tile : ℕ → ℤ} {c0 w k : ℕ} (h : Joined tags tags' tile c0 w k)
    (hs : Scattered tags c0) (hk : Tagged tile k) (hkw : k ≤ w) : Scattered tags' (c0 + w) := by
  intro c hc
  rcases Nat.lt_or_ge c c0 with hlt | hge
  · rw [h.low c hlt]
    rcases hs c hlt with h1 | h1 | ⟨h1, h2, h3⟩ | ⟨h1, h2, h3⟩
    · exact Or.inl h1
    · exact Or.inr (Or.inl h1)
    · exact Or.inr (Or.inr (Or.inl ⟨h1, by omega, by rw [h.low _ h2]; exact h3⟩))
    · exact Or.inr (Or.inr (Or.inr ⟨h1, h2, by rw [h.low _ (by omega)]; exact h3⟩))
  · obtain ⟨a, rfl⟩ : ∃ a, c = c0 + a := ⟨c - c0, by omega⟩
    have htag : ∀ a < k, tags' (c0 + a) = tile a := fun a ha =>
      (h.inside a (by omega)).trans (if_pos ha)
    rcases Nat.lt_or_ge a k with hak | hka
    · rw [htag a hak]
      rcases hk a hak with h1 | ⟨h1, h2, h3⟩ | ⟨h1, h2, h3⟩
      · exact Or.inr (Or.inl h1)
      · exact Or.inr (Or.inr (Or.inl ⟨h1, by omega, (htag (a + 1) h2).trans h3⟩))
      · refine Or.inr (Or.inr (Or.inr ⟨h1, by omega, ?_⟩))
        rw [show c0 + a - 1 = c0 + (a - 1) by omega, htag (a - 1) (by omega)]
        exact h3
    · exact Or.inl ((h.inside a (by omega)).trans (if_neg (by omega)))

/-- Behind columns that are all pivots, the pivots of the tile go on in whole blocks. -/
theorem Joined.tagged {tile : ℕ → ℤ} {c0 w k : ℕ} (h : Joined tags tags' tile c0 w k)
    (hs : Tagged tags c0) (hk : Tagged tile k) (hkw : k ≤ w) : Tagged tags' (c0 + k) := by
  have hcut : Joined tags tags' tile c0 k k :=
    ⟨h.low, fun a ha => (h.inside a (ha.trans_le hkw)).trans rfl⟩
  intro c hc
  rcases hcut.scattered hs.scattered hk le_rfl c hc with h0 | h1
  · rcases Nat.lt_or_ge c c0 with hlt | hge
    · exact absurd (h.low c hlt ▸ h0) (hs.ne_zero hlt)
    · obtain ⟨a, rfl⟩ : ∃ a, c = c0 + a := ⟨c - c0, by omega⟩
      rw [h.inside a (by omega), if_pos (by omega)] at h0
      exact absurd h0 (hk.ne_zero (by omega))
  · exact h1

/-- The pivots that a block column adds. -/
theorem Joined.count {tile : ℕ → ℤ} {c0 w k : ℕ} (h : Joined tags tags' tile c0 w k)
    (hk : Tagged tile k) (hkw : k ≤ w) : Nat.count (fun c => tags' c ≠ 0) (c0 + w) =
      Nat.count (fun c => tags c ≠ 0) c0 + k := by
  have hlow : Nat.count (fun c => tags' c ≠ 0) c0 = Nat.count (fun c => tags c ≠ 0) c0 := by
    rw [Nat.count_eq_card_filter_range, Nat.count_eq_card_filter_range]
    refine congrArg card (filter_congr fun c hc => ?_)
    rw [h.low c (mem_range.mp hc)]
  have hnew : Nat.count (fun a => tags' (c0 + a) ≠ 0) k = k := by
    refine Nat.count_iff_forall.mpr fun a ha => ?_
    rw [h.inside a (by omega), if_pos ha]
    exact hk.ne_zero ha
  have hfailed : Nat.count (fun a => tags' (c0 + (k + a)) ≠ 0) (w - k) = 0 := by
    refine Nat.count_iff_forall_not.mpr fun a ha => ?_
    rw [h.inside (k + a) (by omega), if_neg (by omega)]
    exact fun hne => hne rfl
  have htile : Nat.count (fun a => tags' (c0 + a) ≠ 0) w = k := by
    rw [show w = k + (w - k) by omega, Nat.count_add, hnew, hfailed, Nat.add_zero]
  rw [Nat.count_add, hlow, htile]

/-- Induction over the failed columns and the pivot blocks. -/
theorem Scattered.induct {P : ℕ → Prop} (h : Scattered tags n) (zero : P 0)
    (skip : ∀ c < n, tags c = 0 → P c → P (c + 1)) (one : ∀ c < n, tags c = 1 → P c → P (c + 1))
    (two : ∀ c, c + 1 < n → tags c = 2 → tags (c + 1) = -1 → P c → P (c + 2)) : P n := by
  -- a prefix that does not cut a block
  have hcut : ∀ c ≤ n, (c = 0 ∨ tags (c - 1) ≠ 2) → P c := by
    intro c
    induction c using Nat.strong_induction_on with
    | _ c ih =>
      intro hcn hcut
      rcases Nat.eq_zero_or_pos c with rfl | hpos
      · exact zero
      obtain ⟨e, rfl⟩ : ∃ e, c = e + 1 := ⟨c - 1, by omega⟩
      rw [Nat.add_sub_cancel] at hcut
      have hbefore : ∀ e < n, tags e ≠ -1 → e = 0 ∨ tags (e - 1) ≠ 2 := by
        intro e he hne
        by_contra hno
        rw [not_or, not_not] at hno
        have := (h.pair_lt (show e - 1 < n by omega) hno.2).2
        rw [show e - 1 + 1 = e by omega] at this
        exact hne this
      rcases h e hcn with h1 | h1 | ⟨h1, -⟩ | ⟨h1, hpos', h2⟩
      · exact skip e hcn h1 (ih e (by omega) (by omega) (hbefore e hcn (by omega)))
      · exact one e hcn h1 (ih e (by omega) (by omega) (hbefore e hcn (by omega)))
      · omega
      · obtain ⟨d, rfl⟩ : ∃ d, e = d + 1 := ⟨e - 1, by omega⟩
        rw [Nat.add_sub_cancel] at h2
        exact two d hcn h2 h1 (ih d (by omega) (by omega) (hbefore d (by omega) (by omega)))
  refine hcut n le_rfl ?_
  by_contra hno
  rw [not_or, not_not] at hno
  have := (h.pair_lt (show n - 1 < n by omega) hno.2).1
  omega

end Tags

section Product

variable {K : Type*} [Field K]

/-- Entry `(i, c)` of `L`, for a pivot column `c`. -/
def lAt (A : ℕ → ℕ → K) (tags : ℕ → ℤ) (i c : ℕ) : K :=
  if i = c then 1
  else if i < c ∧ tags i ≠ 0 then 0
  else if tags c = 2 ∧ i = c + 1 then 0
  else symAt A i c

/-- What pivot column `c` adds to `x D yᵀ`. -/
def pivotTerm (A : ℕ → ℕ → K) (tags : ℕ → ℤ) (x y : ℕ → K) (c : ℕ) : K :=
  if tags c = 0 then 0 else x c * rowTimesD A tags y c

/-- Entry `(i, j)` of `L D Lᵀ` over the pivots among the `n` columns from `a` on. -/
def partProduct (A : ℕ → ℕ → K) (tags : ℕ → ℤ) (a n i j : ℕ) : K :=
  ∑ t ∈ range n, pivotTerm A tags (lAt A tags i) (lAt A tags j) (a + t)

/-- The symmetric matrix a view with pivots among its first `n` columns stands for. -/
def standsFor (A : ℕ → ℕ → K) (tags : ℕ → ℤ) (n i j : ℕ) : K :=
  partProduct A tags 0 n i j + if tags i = 0 ∧ tags j = 0 then symAt A i j else 0

variable {A A' : ℕ → ℕ → K} {tags tags' : ℕ → ℤ} {x y x' y' : ℕ → K} {a n c i j m p : ℕ}

theorem rowTimesD_one (h : tags c = 1) : rowTimesD A tags x c = x c * A c c := by
  rw [rowTimesD, h, if_neg (by decide), if_neg (by decide)]

theorem rowTimesD_opens (h : tags c = 2) :
    rowTimesD A tags x c = x c * A c c + x (c + 1) * A (c + 1) c := if_pos h

theorem rowTimesD_closes (h : tags (c + 1) = -1) :
    rowTimesD A tags x (c + 1) = x c * A (c + 1) c + x (c + 1) * A (c + 1) (c + 1) := by
  rw [rowTimesD, h, if_neg (by decide), if_pos rfl, Nat.add_sub_cancel]

theorem pivotTerm_of_zero (h : tags c = 0) : pivotTerm A tags x y c = 0 := if_pos h

theorem pivotTerm_of_ne (h : tags c ≠ 0) :
    pivotTerm A tags x y c = x c * rowTimesD A tags y c := if_neg h

theorem partProduct_add (a n n' i j : ℕ) : partProduct A tags a (n + n') i j =
    partProduct A tags a n i j + partProduct A tags (a + n) n' i j := by
  rw [partProduct, sum_range_add]
  refine congrArg (partProduct A tags a n i j + ·) (sum_congr rfl fun t _ => ?_)
  rw [Nat.add_assoc]

/-- `D` is symmetric. -/
theorem sum_pivotTerm_comm (h : Scattered tags n) : ∑ c ∈ range n, pivotTerm A tags x y c =
    ∑ c ∈ range n, pivotTerm A tags y x c := by
  refine h.induct (P := fun n => ∑ c ∈ range n, pivotTerm A tags x y c =
    ∑ c ∈ range n, pivotTerm A tags y x c) rfl ?_ ?_ ?_
  · intro c _ h0 ih
    rw [sum_range_succ, sum_range_succ, ih, pivotTerm_of_zero h0, pivotTerm_of_zero h0]
  · intro c _ h1 ih
    have hne : tags c ≠ 0 := by omega
    rw [sum_range_succ, sum_range_succ, ih, pivotTerm_of_ne hne, pivotTerm_of_ne hne,
      rowTimesD_one h1, rowTimesD_one h1]
    ring
  · intro c _ h2 h1 ih
    have hopen : tags c ≠ 0 := by omega
    have hclose : tags (c + 1) ≠ 0 := by omega
    rw [sum_range_succ, sum_range_succ, sum_range_succ, sum_range_succ, ih, pivotTerm_of_ne hopen,
      pivotTerm_of_ne hopen, pivotTerm_of_ne hclose, pivotTerm_of_ne hclose, rowTimesD_opens h2,
      rowTimesD_opens h2, rowTimesD_closes h1, rowTimesD_closes h1]
    ring

/-- The pivots among the columns from `a` on form whole blocks. -/
theorem partProduct_comm (ha : Scattered tags a) (h : Scattered tags (a + n)) (i j : ℕ) :
    partProduct A tags a n i j = partProduct A tags a n j i := by
  have hall := sum_pivotTerm_comm (A := A) (x := lAt A tags i) (y := lAt A tags j) h
  have hlow := sum_pivotTerm_comm (A := A) (x := lAt A tags i) (y := lAt A tags j) ha
  rw [sum_range_add, sum_range_add, hlow] at hall
  exact add_left_cancel hall

/-- The entries that `rowTimesD` reads at a pivot column among the first `n`. -/
theorem rowTimesD_eq (h : Scattered tags n) (hc : c < n) (htags : ∀ c < n, tags' c = tags c)
    (hD : ∀ d ≤ c + 1, ∀ e ≤ d, c ≤ e + 1 → d < n → A' d e = A d e)
    (hx : ∀ d, c ≤ d + 1 → d ≤ c + 1 → d < n → x' d = x d) :
    rowTimesD A' tags' x' c = rowTimesD A tags x c := by
  unfold rowTimesD
  rw [htags c hc]
  split_ifs with h2 h1
  · have hlt := (h.pair_lt hc h2).1
    rw [hx c (by omega) (by omega) hc, hx (c + 1) (by omega) le_rfl hlt,
      hD c (by omega) c le_rfl (by omega) hc, hD (c + 1) le_rfl c (by omega) (by omega) hlt]
  · rw [hx c (by omega) (by omega) hc, hx (c - 1) (by omega) (by omega) (by omega),
      hD c (by omega) c le_rfl (by omega) hc, hD c (by omega) (c - 1) (by omega) (by omega) hc]
  · rw [hx c (by omega) (by omega) hc, hD c (by omega) c le_rfl (by omega) hc]

/-! ## Whole factors -/

theorem lAt_tagged (h : Tagged tags p) (hc : c < p) : lAt A tags i c = (ldlOf A tags).l i c := by
  unfold lAt BlockLdl.l
  have hpair : (ldlOf A tags).pair c = true ↔ tags c = 2 := decide_eq_true_iff
  by_cases hic : i = c
  · rw [if_pos hic, if_pos hic]
  rw [if_neg hic, if_neg hic]
  by_cases hlt : i < c
  · rw [if_pos hlt, if_pos ⟨hlt, h.ne_zero (hlt.trans hc)⟩]
  rw [if_neg hlt, if_neg fun hno => hlt hno.1]
  refine if_congr (and_congr hpair.symm Iff.rfl) rfl ?_
  rw [symAt_of_le (by omega)]
  rfl

theorem rowTimesD_tagged (h : Tagged tags p) (hc : c < p) :
    rowTimesD A tags (lAt A tags j) c = (ldlOf A tags).ld j c := by
  have hl : ∀ c < p, lAt A tags j c = (ldlOf A tags).l j c := fun c hc => lAt_tagged h hc
  rcases h c hc with h1 | ⟨h2, hlt, h1⟩ | ⟨h1, hpos, h2⟩
  · have hp : (ldlOf A tags).pair c = false := decide_eq_false (by omega)
    have hcl : (ldlOf A tags).closes c = false := by
      rw [BlockLdl.closes, Bool.and_eq_false_iff]
      by_cases hpos : 0 < c
      · refine Or.inr (decide_eq_false fun h2 => ?_)
        rcases h (c - 1) (by omega) with h3 | ⟨-, -, h3⟩ | ⟨h3, -⟩
        · omega
        · rw [show c - 1 + 1 = c by omega] at h3
          omega
        · omega
      · exact Or.inl (decide_eq_false hpos)
    rw [rowTimesD_one h1, hl c hc, BlockLdl.ld_single hp hcl]
    rfl
  · have hp : (ldlOf A tags).pair c = true := decide_eq_true h2
    rw [rowTimesD_opens h2, hl c hc, hl (c + 1) hlt, BlockLdl.ld_opens hp]
    rfl
  · obtain ⟨e, rfl⟩ : ∃ e, c = e + 1 := ⟨c - 1, by omega⟩
    rw [Nat.add_sub_cancel] at h2
    have hp : (ldlOf A tags).pair e = true := decide_eq_true h2
    have hn : (ldlOf A tags).pair (e + 1) = false := decide_eq_false (by omega)
    rw [rowTimesD_closes h1, hl e (by omega), hl (e + 1) hc, BlockLdl.ld_closes hp hn]
    rfl

/-- With the pivots in front the view stands for its partial factorization. -/
theorem standsFor_tagged (h : Tagged tags p) (hz : ∀ c, p ≤ c → tags c = 0) (i j : ℕ) :
    standsFor A tags p i j = represented A tags p i j := by
  have hpiv : ∀ i, tags i = 0 ↔ p ≤ i := fun i =>
    ⟨fun h0 => not_lt.mp fun hlt => h.ne_zero hlt h0, hz i⟩
  rw [represented_eq h, standsFor]
  refine congrArg₂ (· + ·) (sum_congr rfl fun c hc => ?_) (if_congr (and_congr (hpiv i) (hpiv j))
    rfl rfl)
  rw [mem_range] at hc
  rw [Nat.zero_add, pivotTerm_of_ne (h.ne_zero hc), lAt_tagged h hc, rowTimesD_tagged h hc]

end Product

/-! ## One block column -/

section Step

variable {K : Type*} [Field K] {A A' : ℕ → ℕ → K} {tags tags' : ℕ → ℤ} {c0 w m ne i j : ℕ}
  {ρ : ℕ → ℕ}

/-- A block column `[c0, c0 + w)` keeps the earlier pivots, rows renamed by `ρ`, and puts its own
beside them. -/
structure BlockMoves (A A' : ℕ → ℕ → K) (tags tags' : ℕ → ℤ) (c0 w m ne : ℕ) (ρ : ℕ → ℕ) :
    Prop where
  scattered : Scattered tags c0
  rest : ∀ c, c0 ≤ c → tags c = 0
  tags_eq : ∀ c < c0, tags' c = tags c
  fixed : ∀ i < c0, ρ i = i
  moved : ∀ i, c0 ≤ i → c0 ≤ ρ i
  lt : ∀ i < m, ρ i < m
  old : ∀ c < c0, tags c ≠ 0 → ∀ i < m, symAt A' i c = symAt A (ρ i) c
  new : ∀ i j, i < m → j < m → ¬(ne ≤ i ∧ ne ≤ j) → (tags' i = 0 ∨ c0 ≤ i) →
    (tags' j = 0 ∨ c0 ≤ j) → symAt A (ρ i) (ρ j) = partProduct A' tags' c0 w i j +
      if tags' i = 0 ∧ tags' j = 0 then symAt A' i j else 0

theorem BlockMoves.tags_old (h : BlockMoves A A' tags tags' c0 w m ne ρ) :
    Scattered tags' c0 := by
  intro c hc
  rw [h.tags_eq c hc]
  rcases h.scattered c hc with h1 | h1 | ⟨h1, h2, h3⟩ | ⟨h1, h2, h3⟩
  · exact Or.inl h1
  · exact Or.inr (Or.inl h1)
  · exact Or.inr (Or.inr (Or.inl ⟨h1, h2, by rw [h.tags_eq _ h2]; exact h3⟩))
  · exact Or.inr (Or.inr (Or.inr ⟨h1, h2, by rw [h.tags_eq _ (by omega)]; exact h3⟩))

/-- The earlier columns of `L`. -/
theorem BlockMoves.lAt_eq (h : BlockMoves A A' tags tags' c0 w m ne ρ) {c : ℕ} (hc : c < c0)
    (hp : tags c ≠ 0) (hi : i < m) : lAt A' tags' i c = lAt A tags (ρ i) c := by
  unfold lAt
  rcases Nat.lt_or_ge i c0 with hlt | hge
  · rw [h.old c hc hp i hi, h.fixed i hlt, h.tags_eq i hlt, h.tags_eq c hc]
  · have hρ := h.moved i hge
    have hpair : ∀ i, c0 ≤ i → ¬(tags c = 2 ∧ i = c + 1) := fun i hi h2 => by
      have := (h.scattered.pair_lt hc h2.1).1
      omega
    rw [if_neg (show i ≠ c by omega), if_neg (show ¬(i < c ∧ _) by omega),
      if_neg (show ρ i ≠ c by omega), if_neg (show ¬(ρ i < c ∧ _) by omega), h.tags_eq c hc,
      if_neg (hpair i hge), if_neg (hpair _ hρ), h.old c hc hp i hi]

/-- The earlier pivots stand for the same product, rows renamed. -/
theorem BlockMoves.old_eq (h : BlockMoves A A' tags tags' c0 w m ne ρ) (hm : c0 ≤ m) (hi : i < m)
    (hj : j < m) : partProduct A' tags' 0 c0 i j = partProduct A tags 0 c0 (ρ i) (ρ j) := by
  refine sum_congr rfl fun c hc => ?_
  rw [mem_range] at hc
  rw [Nat.zero_add]
  by_cases hp : tags c = 0
  · rw [pivotTerm_of_zero hp, pivotTerm_of_zero ((h.tags_eq c hc).trans hp)]
  have hp' : tags' c ≠ 0 := by rwa [h.tags_eq c hc]
  -- the columns that `rowTimesD` reads are those of the block of `c`
  have hblock : ∀ d, tags c = 2 ∧ d = c + 1 ∨ tags c = -1 ∧ d + 1 = c ∨ d = c → d < c0 →
      tags d ≠ 0 := by
    rintro d (⟨h2, rfl⟩ | ⟨h1, rfl⟩ | rfl) hd
    · have := (h.scattered.pair_lt hc h2).2
      omega
    · have := (h.scattered.closes hc h1).2
      rw [Nat.add_sub_cancel] at this
      omega
    · exact hp
  have hentry : ∀ d < c0, tags d ≠ 0 → ∀ e < c0, d ≤ e → A' e d = A e d := by
    intro d hd hpd e he hde
    have := h.old d hd hpd e (by omega)
    rwa [h.fixed e he, symAt_of_le hde, symAt_of_le hde] at this
  rw [pivotTerm_of_ne hp, pivotTerm_of_ne hp', h.lAt_eq hc hp hi]
  refine congrArg (lAt A tags (ρ i) c * ·) ?_
  unfold rowTimesD
  rw [h.tags_eq c hc]
  split_ifs with h2 h1
  · have hlt := (h.scattered.pair_lt hc h2).1
    rw [h.lAt_eq hc hp hj, h.lAt_eq hlt (hblock _ (Or.inl ⟨h2, rfl⟩) hlt) hj,
      hentry c hc hp c hc le_rfl, hentry c hc hp (c + 1) hlt (by omega)]
  · have hpos := (h.scattered.closes hc h1).1
    have hp1 := hblock (c - 1) (Or.inr (Or.inl ⟨h1, by omega⟩)) (by omega)
    rw [h.lAt_eq hc hp hj, h.lAt_eq (by omega) hp1 hj, hentry c hc hp c hc le_rfl,
      hentry (c - 1) (by omega) hp1 c hc (by omega)]
  · rw [h.lAt_eq hc hp hj, hentry c hc hp c hc le_rfl]

/-- An earlier pivot has no entries in the new columns. -/
theorem BlockMoves.no_entry (h : BlockMoves A A' tags tags' c0 w m ne ρ) (hi : i < c0)
    (hp : tags i ≠ 0) {c : ℕ} (hc : c0 ≤ c) : lAt A' tags' i c = 0 := by
  rw [lAt, if_neg (by omega), if_pos ⟨by omega, by rwa [h.tags_eq i hi]⟩]

theorem BlockMoves.new_left (h : BlockMoves A A' tags tags' c0 w m ne ρ) (hi : i < c0)
    (hp : tags i ≠ 0) : partProduct A' tags' c0 w i j = 0 := by
  refine sum_eq_zero fun t _ => ?_
  unfold pivotTerm
  rw [h.no_entry hi hp (Nat.le_add_right c0 t), zero_mul, ite_self]

/-- The block column keeps what the view stands for. -/
theorem standsFor_step (h : BlockMoves A A' tags tags' c0 w m ne ρ) (hm : c0 ≤ m)
    (hs : Scattered tags' (c0 + w)) (hi : i < m) (hj : j < m) (hne : ¬(ne ≤ i ∧ ne ≤ j)) :
    standsFor A tags c0 (ρ i) (ρ j) = standsFor A' tags' (c0 + w) i j := by
  -- what was no pivot before the step is none after it or lies in its columns
  have htags : ∀ i, tags (ρ i) = 0 ↔ tags' i = 0 ∨ c0 ≤ i := by
    intro i
    rcases Nat.lt_or_ge i c0 with hlt | hge
    · rw [h.fixed i hlt, h.tags_eq i hlt]
      exact ⟨Or.inl, fun ho => ho.resolve_right (by omega)⟩
    · exact ⟨fun _ => Or.inr hge, fun _ => h.rest _ (h.moved i hge)⟩
  unfold standsFor
  rw [partProduct_add, Nat.zero_add, h.old_eq hm hi hj, add_assoc]
  refine congrArg (partProduct A tags 0 c0 (ρ i) (ρ j) + ·) ?_
  by_cases hold : tags (ρ i) = 0 ∧ tags (ρ j) = 0
  · rw [if_pos hold]
    exact h.new i j hi hj hne ((htags i).mp hold.1) ((htags j).mp hold.2)
  · -- one of the two is an earlier pivot
    have hpiv : ∀ i, tags (ρ i) ≠ 0 → i < c0 ∧ tags i ≠ 0 := by
      intro i hi0
      have hlt : i < c0 := not_le.mp fun hge => hi0 ((htags i).mpr (Or.inr hge))
      exact ⟨hlt, by rwa [h.fixed i hlt] at hi0⟩
    have hzero : ∀ i j, tags (ρ i) ≠ 0 → partProduct A' tags' c0 w i j = 0 :=
      fun i j h0 => h.new_left (hpiv i h0).1 (hpiv i h0).2
    have hsum : partProduct A' tags' c0 w i j = 0 := by
      rcases not_and_or.mp hold with h0 | h0
      · exact hzero i j h0
      · rw [partProduct_comm h.tags_old hs]
        exact hzero j i h0
    have hnot : ¬(tags' i = 0 ∧ tags' j = 0) := fun hc =>
      hold ⟨(htags i).mpr (Or.inl hc.1), (htags j).mpr (Or.inl hc.2)⟩
    rw [if_neg hold, hsum, if_neg hnot, add_zero]

end Step

/-! ## Moving the pivots to the front -/

section Gather

variable {K : Type*} [Field K] {A A' : ℕ → ℕ → K} {tags : ℕ → ℤ} {n m p c i j : ℕ}
  {κ : Equiv.Perm ℕ}

/-- The permutation `κ` takes the first `p` places to the pivots among the first `n`, in order. -/
structure Gathered (tags : ℕ → ℤ) (n p : ℕ) (κ : Equiv.Perm ℕ) : Prop where
  mono : ∀ i j, i < j → j < p → κ i < κ j
  pivot : ∀ i < p, κ i < n ∧ tags (κ i) ≠ 0
  covers : ∀ c < n, tags c ≠ 0 → ∃ i < p, κ i = c

theorem Gathered.lt_iff (h : Gathered tags n p κ) (hi : i < p) (hj : j < p) :
    κ i < κ j ↔ i < j := by
  rcases lt_trichotomy i j with hlt | rfl | hgt
  · exact ⟨fun _ => hlt, fun _ => h.mono i j hlt hj⟩
  · exact ⟨fun hc => absurd hc (lt_irrefl _), fun hc => absurd hc (lt_irrefl _)⟩
  · have := h.mono j i hgt hi
    exact ⟨fun hc => absurd (hc.trans this) (lt_irrefl _), fun hc => by omega⟩

/-- The second column of a block stands next to the first. -/
theorem Gathered.succ (h : Gathered tags n p κ) (hs : Scattered tags n) (hi : i < p)
    (h2 : tags (κ i) = 2) : i + 1 < p ∧ κ (i + 1) = κ i + 1 := by
  obtain ⟨hlt, h1⟩ := hs.pair_lt (h.pivot i hi).1 h2
  obtain ⟨j, hj, hκ⟩ := h.covers (κ i + 1) hlt (by omega)
  have hij : i < j := (h.lt_iff hi hj).mp (by omega)
  have hj1 : j = i + 1 := by
    by_contra hne
    have hmid := h.mono i (i + 1) (Nat.lt_succ_self i) (by omega)
    have hmid' := h.mono (i + 1) j (by omega) hj
    omega
  exact ⟨by omega, by rw [← hj1, hκ]⟩

theorem Gathered.tagged (h : Gathered tags n p κ) (hs : Scattered tags n) :
    Tagged (fun i => tags (κ i)) p := by
  intro i hi
  obtain ⟨hlt, hne⟩ := h.pivot i hi
  rcases hs _ hlt with h0 | h1 | ⟨h2, -, h1⟩ | ⟨h1, hpos, h2⟩
  · exact absurd h0 hne
  · exact Or.inl h1
  · obtain ⟨hip, hκ⟩ := h.succ hs hi h2
    exact Or.inr (Or.inl ⟨h2, hip, (congrArg tags hκ).trans h1⟩)
  · obtain ⟨e, he, hκ⟩ := h.covers (κ i - 1) (by omega) (by omega)
    obtain ⟨hep, hnext⟩ := h.succ hs he (by rw [hκ]; exact h2)
    have hie : i = e + 1 := κ.injective (by rw [hnext, hκ]; omega)
    subst hie
    exact Or.inr (Or.inr ⟨h1, Nat.succ_pos e, (congrArg tags hκ).trans h2⟩)

theorem Gathered.zero_of_ge (h : Gathered tags n p κ) (hz : ∀ c, n ≤ c → tags c = 0) (hi : p ≤ i) :
    tags (κ i) = 0 := by
  by_contra hne
  have hlt : κ i < n := not_le.mp fun hge => hne (hz _ hge)
  obtain ⟨e, he, hκ⟩ := h.covers _ hlt hne
  have := κ.injective hκ
  omega

variable (hA : ∀ i j, i < m → j < m → symAt A' i j = symAt A (κ i) (κ j))
include hA

theorem Gathered.lAt_eq (h : Gathered tags n p κ) (hs : Scattered tags n)
    (hz : ∀ c, n ≤ c → tags c = 0) (hpm : p ≤ m) (hc : c < p) (hi : i < m) :
    lAt A' (fun i => tags (κ i)) i c = lAt A tags (κ i) (κ c) := by
  unfold lAt
  have hbefore : i < c ∧ tags (κ i) ≠ 0 ↔ κ i < κ c ∧ tags (κ i) ≠ 0 := by
    refine and_congr_left fun hne => ?_
    have hip : i < p := not_le.mp fun hge => hne (h.zero_of_ge hz hge)
    exact (h.lt_iff hip hc).symm
  have hpair : tags (κ c) = 2 ∧ i = c + 1 ↔ tags (κ c) = 2 ∧ κ i = κ c + 1 := by
    refine and_congr_right fun h2 => ?_
    rw [← (h.succ hs hc h2).2]
    exact κ.injective.eq_iff.symm
  rw [hA i c hi (by omega)]
  exact if_congr κ.injective.eq_iff.symm rfl (if_congr hbefore rfl (if_congr hpair rfl rfl))

/-- Moved to the front, the pivots stand for the same matrix, renamed. -/
theorem Gathered.standsFor (h : Gathered tags n p κ) (hs : Scattered tags n)
    (hz : ∀ c, n ≤ c → tags c = 0) (hpm : p ≤ m) (hi : i < m) (hj : j < m) :
    standsFor A' (fun i => tags (κ i)) p i j = Kernel.standsFor A tags n (κ i) (κ j) := by
  have hterm : ∀ c < p, pivotTerm A' (fun i => tags (κ i)) (lAt A' (fun i => tags (κ i)) i)
      (lAt A' (fun i => tags (κ i)) j) c =
        pivotTerm A tags (lAt A tags (κ i)) (lAt A tags (κ j)) (κ c) := by
    intro c hc
    have hD : ∀ d e, d < p → e < p → symAt A' d e = symAt A (κ d) (κ e) := fun d e hd he =>
      hA d e (by omega) (by omega)
    have hdiag : ∀ d < p, A' d d = A (κ d) (κ d) := fun d hd => by
      have := hD d d hd hd
      rwa [symAt_self, symAt_self] at this
    have hsub : ∀ d < p, tags (κ d) = 2 → A' (d + 1) d = A (κ d + 1) (κ d) := fun d hd h2 => by
      obtain ⟨hlt, hκ⟩ := h.succ hs hd h2
      have := hD (d + 1) d hlt hd
      rwa [hκ, symAt_of_le (Nat.le_succ d), symAt_of_le (Nat.le_succ _)] at this
    have hl : ∀ d < p, ∀ i < m, lAt A' (fun i => tags (κ i)) i d = lAt A tags (κ i) (κ d) :=
      fun d hd i hi => h.lAt_eq hA hs hz hpm hd hi
    have hne := (h.pivot c hc).2
    have hterm : pivotTerm A' (fun i => tags (κ i)) (lAt A' (fun i => tags (κ i)) i)
        (lAt A' (fun i => tags (κ i)) j) c = _ := pivotTerm_of_ne hne
    rw [hterm, pivotTerm_of_ne hne, hl c hc i hi]
    refine congrArg (lAt A tags (κ i) (κ c) * ·) ?_
    unfold rowTimesD
    dsimp only
    split_ifs with h2 h1
    · obtain ⟨hlt, hκ⟩ := h.succ hs hc h2
      rw [hl c hc j hj, hl (c + 1) hlt j hj, hdiag c hc, hsub c hc h2, hκ]
    · obtain ⟨hpos, h2⟩ := hs.closes (h.pivot c hc).1 h1
      obtain ⟨e, he, hκe⟩ := h.covers (κ c - 1) (by have := (h.pivot c hc).1; omega) (by omega)
      have h2e : tags (κ e) = 2 := by rw [hκe]; exact h2
      obtain ⟨hlt, hκ⟩ := h.succ hs he h2e
      obtain rfl : c = e + 1 := κ.injective (by rw [hκ, hκe]; omega)
      rw [Nat.add_sub_cancel, hl _ hc j hj, hl e he j hj, hdiag _ hc, hsub e he h2e, hκ,
        Nat.add_sub_cancel]
    · rw [hl c hc j hj, hdiag c hc]
  unfold Kernel.standsFor
  refine congrArg₂ (· + ·) ?_ ?_
  · unfold partProduct
    simp only [Nat.zero_add]
    rw [sum_congr rfl fun c hc => hterm c (mem_range.mp hc)]
    -- the columns that are no pivots add nothing
    have himage : (range p).image κ ⊆ range n := by
      intro c hc
      obtain ⟨e, he, rfl⟩ := mem_image.mp hc
      exact mem_range.mpr (h.pivot e (mem_range.mp he)).1
    rw [← sum_image (f := fun c => pivotTerm A tags (lAt A tags (κ i)) (lAt A tags (κ j)) c)
      κ.injective.injOn]
    refine sum_subset himage fun c hc hno => pivotTerm_of_zero ?_
    by_contra hne
    obtain ⟨e, he, hκ⟩ := h.covers c (mem_range.mp hc) hne
    exact hno (mem_image.mpr ⟨e, mem_range.mpr he, hκ⟩)
  · rw [hA i j hi hj]

end Gather

end SmfSolver.Kernel
