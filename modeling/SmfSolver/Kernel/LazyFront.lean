/-
What a front stands for while the LDL kernel works on it.

The columns before `k` hold `L` and `D`.  A later column `j` has received the updates of the
pivots before `base j` only: all of them when `j` lies before `pl`, those before `ps` when it is
another eligible column, those before `first` below the eligible block.  `Step` lists what the
kernel does to such a front, with the guards under which it does it; `Core` says that the front
stands for a fixed symmetric matrix, and every step keeps it, up to the permutation and the
raised diagonal of the step.
-/
import SmfSolver.Kernel.LdltKernel

namespace SmfSolver.Kernel

open Finset

variable {K : Type*}

/-- The factor in the columns of `F`, blocks by their tags. -/
def ldlOf (F : ℕ → ℕ → K) (tags : ℕ → ℤ) : BlockLdl K where
  pair c := decide (tags c = 2)
  diag c := F c c
  sub c := F (c + 1) c
  col := F

/-- The first `k` tags describe 1x1 blocks and disjoint adjacent 2x2 blocks. -/
def Tagged (tags : ℕ → ℤ) (k : ℕ) : Prop :=
  ∀ c < k, tags c = 1 ∨ (tags c = 2 ∧ c + 1 < k ∧ tags (c + 1) = -1) ∨
    (tags c = -1 ∧ 0 < c ∧ tags (c - 1) = 2)

theorem Tagged.whole {F : ℕ → ℕ → K} {tags : ℕ → ℤ} {k : ℕ} (h : Tagged tags k) :
    (ldlOf F tags).Whole k := by
  intro c hc hp
  have hp : tags c = 2 := of_decide_eq_true hp
  rcases h c hc with h1 | ⟨-, h2, h3⟩ | ⟨h1, -⟩
  · omega
  · exact ⟨h2, decide_eq_false (by omega)⟩
  · omega

theorem Tagged.pair_lt {tags : ℕ → ℤ} {k c : ℕ} (h : Tagged tags k) (hc : c < k)
    (hp : tags c = 2) : c + 1 < k := by
  rcases h c hc with h1 | ⟨-, h2, -⟩ | ⟨h1, -⟩ <;> omega

theorem Tagged.congr {tags tags' : ℕ → ℤ} {k : ℕ} (h : Tagged tags k)
    (heq : ∀ c < k, tags' c = tags c) : Tagged tags' k := by
  intro c hc
  rcases h c hc with h1 | ⟨h1, h2, h3⟩ | ⟨h1, h2, h3⟩
  · exact Or.inl ((heq c hc).trans h1)
  · exact Or.inr (Or.inl ⟨(heq c hc).trans h1, h2, (heq _ h2).trans h3⟩)
  · exact Or.inr (Or.inr ⟨(heq c hc).trans h1, h2, (heq _ (by omega)).trans h3⟩)

theorem Tagged.one {tags : ℕ → ℤ} {k : ℕ} (h : Tagged tags k) :
    Tagged (Function.update tags k 1) (k + 1) := by
  intro c hc
  rcases Nat.lt_or_ge c k with hlt | hge
  · rw [Function.update_of_ne hlt.ne]
    rcases h c hlt with h1 | ⟨h1, h2, h3⟩ | ⟨h1, h2, h3⟩
    · exact Or.inl h1
    · exact Or.inr (Or.inl ⟨h1, by omega, by rw [Function.update_of_ne (by omega)]; exact h3⟩)
    · exact Or.inr (Or.inr ⟨h1, h2, by rw [Function.update_of_ne (by omega)]; exact h3⟩)
  · obtain rfl : c = k := by omega
    exact Or.inl (Function.update_self _ _ _)

theorem Tagged.two {tags : ℕ → ℤ} {k : ℕ} (h : Tagged tags k) :
    Tagged (Function.update (Function.update tags k 2) (k + 1) (-1)) (k + 2) := by
  have hk : Function.update (Function.update tags k 2) (k + 1) (-1) k = 2 := by
    rw [Function.update_of_ne (by omega), Function.update_self]
  have hk1 : Function.update (Function.update tags k 2) (k + 1) (-1) (k + 1) = -1 :=
    Function.update_self _ _ _
  have hold : ∀ c < k, Function.update (Function.update tags k 2) (k + 1) (-1) c = tags c :=
    fun c hc => by rw [Function.update_of_ne (by omega), Function.update_of_ne (by omega)]
  intro c hc
  rcases Nat.lt_or_ge c k with hlt | hge
  · rw [hold c hlt]
    rcases h c hlt with h1 | ⟨h1, h2, h3⟩ | ⟨h1, h2, h3⟩
    · exact Or.inl h1
    · exact Or.inr (Or.inl ⟨h1, by omega, by rw [hold _ h2]; exact h3⟩)
    · exact Or.inr (Or.inr ⟨h1, h2, by rw [hold _ (by omega)]; exact h3⟩)
  · rcases Nat.lt_or_ge c (k + 1) with hlt | hge1
    · obtain rfl : c = k := by omega
      exact Or.inr (Or.inl ⟨hk, by omega, hk1⟩)
    · obtain rfl : c = k + 1 := by omega
      exact Or.inr (Or.inr ⟨hk1, by omega, hk⟩)

section Frame

variable [CommRing K] {F F' : ℕ → ℕ → K} {tags tags' : ℕ → ℤ} {f k b c i j : ℕ}

/-- Below the eliminated columns `L` is stored as it is. -/
theorem Tagged.l_eq (h : Tagged tags k) (hc : c < k) (hj : k ≤ j) :
    (ldlOf F tags).l j c = F j c := by
  refine BlockLdl.l_below (by omega) ?_
  by_cases hp : tags c = 2
  · have := h.pair_lt hc hp
    exact Or.inr (by omega)
  · exact Or.inl (decide_eq_false hp)

/-- `F'` is `F` on the columns before `k`, up to the renaming `ρ` of the rows from `k` on. -/
structure RowFrame (F F' : ℕ → ℕ → K) (tags tags' : ℕ → ℤ) (f k : ℕ) (ρ : ℕ → ℕ) : Prop where
  tags_eq : ∀ c < k, tags' c = tags c
  fixed : ∀ i < k, ρ i = i
  moved : ∀ i, k ≤ i → i < f → k ≤ ρ i ∧ ρ i < f
  col_eq : ∀ c < k, ∀ i, c ≤ i → i < f → F' i c = F (ρ i) c

variable {ρ : ℕ → ℕ}

theorem RowFrame.l_eq (h : RowFrame F F' tags tags' f k ρ) (ht : Tagged tags k) (hc : c < k)
    (hi : i < f) : (ldlOf F' tags').l i c = (ldlOf F tags).l (ρ i) c := by
  have hpair : (ldlOf F' tags').pair c = (ldlOf F tags).pair c := by
    simp only [ldlOf, h.tags_eq c hc]
  rcases lt_trichotomy i c with hlt | heq | hgt
  · rw [h.fixed i (by omega), BlockLdl.l_of_lt hlt, BlockLdl.l_of_lt hlt]
  · rw [heq, h.fixed c hc, BlockLdl.l_self, BlockLdl.l_self]
  by_cases hp : (ldlOf F tags).pair c = true
  · have hck : c + 1 < k := (ht.whole c hc hp).1
    by_cases hi1 : i = c + 1
    · rw [hi1, h.fixed _ hck, BlockLdl.l_in_block (hpair.trans hp), BlockLdl.l_in_block hp]
    · have hρ : c < ρ i ∧ ρ i ≠ c + 1 := by
        rcases Nat.lt_or_ge i k with hlt | hge
        · rw [h.fixed i hlt]
          exact ⟨hgt, hi1⟩
        · have := h.moved i hge hi
          omega
      rw [BlockLdl.l_below hgt (Or.inr hi1), BlockLdl.l_below hρ.1 (Or.inr hρ.2)]
      exact h.col_eq c hc i hgt.le hi
  · have hp' : (ldlOf F tags).pair c = false := Bool.eq_false_iff.mpr hp
    have hρ : c < ρ i := by
      rcases Nat.lt_or_ge i k with hlt | hge
      · rw [h.fixed i hlt]
        exact hgt
      · exact hc.trans_le (h.moved i hge hi).1
    rw [BlockLdl.l_below hgt (Or.inl (hpair.trans hp')), BlockLdl.l_below hρ (Or.inl hp')]
    exact h.col_eq c hc i hgt.le hi

theorem RowFrame.ld_eq (h : RowFrame F F' tags tags' f k ρ) (ht : Tagged tags k) (hk : k ≤ f)
    (hc : c < k) (hj : j < f) : (ldlOf F' tags').ld j c = (ldlOf F tags).ld (ρ j) c := by
  have hpair : ∀ c < k, (ldlOf F' tags').pair c = (ldlOf F tags).pair c := fun c hc => by
    simp only [ldlOf, h.tags_eq c hc]
  have hdiag : ∀ c < k, (ldlOf F' tags').diag c = (ldlOf F tags).diag c := by
    intro c hc
    change F' c c = F c c
    rw [h.col_eq c hc c le_rfl (by omega), h.fixed c hc]
  have hsub : ∀ c, c + 1 < k → (ldlOf F' tags').sub c = (ldlOf F tags).sub c := by
    intro c hc
    change F' (c + 1) c = F (c + 1) c
    rw [h.col_eq c (by omega) (c + 1) (by omega) (by omega), h.fixed (c + 1) hc]
  by_cases hp : (ldlOf F tags).pair c = true
  · have hck : c + 1 < k := (ht.whole c hc hp).1
    rw [BlockLdl.ld_opens hp, BlockLdl.ld_opens ((hpair c hc).trans hp), hdiag c hc, hsub c hck,
      h.l_eq ht hc hj, h.l_eq ht hck hj]
  have hp' : (ldlOf F tags).pair c = false := Bool.eq_false_iff.mpr hp
  have hcl : (ldlOf F' tags').closes c = (ldlOf F tags).closes c := by
    rw [BlockLdl.closes, BlockLdl.closes, hpair (c - 1) (by omega)]
  rw [BlockLdl.ld, BlockLdl.ld, hpair c hc, hp', hcl, if_neg Bool.false_ne_true,
    if_neg Bool.false_ne_true]
  by_cases hcl' : (ldlOf F tags).closes c = true
  · have hpos : 0 < c := of_decide_eq_true (Bool.and_eq_true_iff.mp hcl').1
    rw [if_pos hcl', if_pos hcl', h.l_eq ht (by omega) hj, h.l_eq ht hc hj,
      hsub (c - 1) (by omega), hdiag c hc]
  · rw [if_neg hcl', if_neg hcl', h.l_eq ht hc hj, hdiag c hc]

/-- The columns before `k` stand for the same product, rows renamed. -/
theorem RowFrame.product_eq (h : RowFrame F F' tags tags' f k ρ) (ht : Tagged tags k) (hk : k ≤ f)
    (hb : b ≤ k) (hi : i < f) (hj : j < f) :
    (ldlOf F' tags').product b i j = (ldlOf F tags).product b (ρ i) (ρ j) :=
  BlockLdl.product_congr (fun _ hc => h.l_eq ht (hc.trans_le hb) hi)
    fun _ hc => h.ld_eq ht hk (hc.trans_le hb) hj

end Frame

/-- A front with the columns that are current (before `pl`) and the pivots the other eligible
columns have received (before `ps`). -/
structure Lazy (K : Type*) extends Front K where
  pl : ℕ
  ps : ℕ

/-- Column `j` has received the updates of the pivots before this one. -/
def Lazy.base (numElig first : ℕ) (l : Lazy K) (j : ℕ) : ℕ :=
  if j < l.pl then l.k else if j < numElig then l.ps else first

section Core

variable [Field K] {T : ℕ → ℕ → K} {f numElig first p q w i j : ℕ} {l : Lazy K}

/-- The front stands for the symmetric matrix `T`. -/
structure Core (T : ℕ → ℕ → K) (f numElig first : ℕ) (l : Lazy K) : Prop where
  symm : ∀ i j, T i j = T j i
  tagged : Tagged l.tags l.k
  tagged_first : Tagged l.tags first
  first_le : first ≤ l.k
  ps_le : l.ps ≤ l.k
  k_le : l.k ≤ numElig
  elig_le : numElig ≤ f
  done : ∀ i j, j < l.k → j ≤ i → i < f → T i j = (ldlOf l.F l.tags).product l.k i j
  live : ∀ i j, l.k ≤ j → j ≤ i → i < f →
    T i j = (ldlOf l.F l.tags).product (l.base numElig first j) i j + l.F i j
  saved : l.pl < numElig → ∀ c j, l.ps ≤ c → c < l.k → l.k ≤ j → j < f →
    l.W j (c - l.ps) = (ldlOf l.F l.tags).ld j c

theorem Core.base_le (h : Core T f numElig first l) : l.base numElig first j ≤ l.k := by
  have := h.first_le
  have := h.ps_le
  unfold Lazy.base
  split_ifs <;> omega

/-- Columns `p` and `q` and those between are current: they trade places in `T` too. -/
theorem Core.swap (h : Core T f numElig first l) (hkp : l.k ≤ p) (hkq : l.k ≤ q)
    (hp : p < numElig) (hq : q < numElig)
    (hcur : ∀ j, l.k ≤ j → j ≤ max p q → l.base numElig first j = l.k)
    (hw : l.pl < numElig → w = l.k - l.ps) :
    Core (fun i j => T (Equiv.swap p q i) (Equiv.swap p q j)) f numElig first
      { l with toFront := l.toFront.swap f p q w } := by
  have hf := h.elig_le
  by_cases hpq : p = q
  · subst hpq
    rw [show l.toFront.swap f p p w = l.toFront from if_pos rfl, Equiv.swap_self]
    exact h
  have hfix : ∀ i, i ≠ p → i ≠ q → Equiv.swap p q i = i := fun i => Equiv.swap_apply_of_ne_of_ne
  have hleft : Equiv.swap p q p = q := Equiv.swap_apply_left p q
  have hright : Equiv.swap p q q = p := Equiv.swap_apply_right p q
  have hmoved : ∀ i, l.k ≤ i → i < f → l.k ≤ Equiv.swap p q i ∧ Equiv.swap p q i < f :=
    fun i hki hif => swap_maps ⟨hkp, by omega⟩ ⟨hkq, by omega⟩ ⟨hki, hif⟩
  have hbelow : ∀ i < l.k, Equiv.swap p q i = i := fun i hi => hfix i (by omega) (by omega)
  have hsw : l.toFront.swap f p q w =
      { l.toFront with
        F := symSwap l.F f p q
        rows := fun i => l.rows (Equiv.swap p q i)
        W := fun i c => if c < w then l.W (Equiv.swap p q i) c else l.W i c } := if_neg hpq
  -- the eliminated columns keep their place; their rows trade theirs
  have hframe : RowFrame l.F (symSwap l.F f p q) l.tags l.tags f l.k (Equiv.swap p q) := by
    refine ⟨fun _ _ => rfl, hbelow, hmoved, fun c hc i hci hif => ?_⟩
    have hle : c ≤ Equiv.swap p q i := by
      rcases Nat.lt_or_ge i l.k with hlt | hge
      · rw [hbelow i hlt]
        exact hci
      · exact hc.le.trans (hmoved i hge hif).1
    have := symAt_symSwap (F := l.F) (p := p) (q := q) hif (show c < f by omega)
    rwa [symAt_of_le hci, hbelow c hc, symAt_of_le hle] at this
  have hkf : l.k ≤ f := h.k_le.trans hf
  rw [hsw]
  refine ⟨fun i j => h.symm _ _, h.tagged, h.tagged_first, h.first_le, h.ps_le, h.k_le, hf, ?_, ?_,
    ?_⟩
  · intro i j hjk hji hif
    have hle : j ≤ Equiv.swap p q i := by
      rcases Nat.lt_or_ge i l.k with hlt | hge
      · rw [hbelow i hlt]
        exact hji
      · exact hjk.le.trans (hmoved i hge hif).1
    have hif' : Equiv.swap p q i < f := by
      rcases Nat.lt_or_ge i l.k with hlt | hge
      · rw [hbelow i hlt]
        exact hif
      · exact (hmoved i hge hif).2
    change T _ _ = (ldlOf (symSwap l.F f p q) l.tags).product l.k i j
    rw [hframe.product_eq h.tagged hkf le_rfl hif (by omega), hbelow j hjk]
    exact h.done _ _ hjk hle hif'
  · intro i j hkj hji hif
    have hki : l.k ≤ i := hkj.trans hji
    have hjf : j < f := hji.trans_lt hif
    obtain ⟨hki', hif'⟩ := hmoved i hki hif
    obtain ⟨hkj', hjf'⟩ := hmoved j hkj hjf
    change T _ _ = (ldlOf (symSwap l.F f p q) l.tags).product (l.base numElig first j) i j +
      symSwap l.F f p q i j
    rw [hframe.product_eq h.tagged hkf h.base_le hif hjf,
      show symSwap l.F f p q i j = symAt (symSwap l.F f p q) i j from (symAt_of_le hji).symm,
      symAt_symSwap hif hjf]
    rcases Nat.lt_or_ge (Equiv.swap p q i) (Equiv.swap p q j) with hlt | hle
    swap
    · -- column `τ j` has the updates column `j` has
      have hbase : l.base numElig first (Equiv.swap p q j) = l.base numElig first j := by
        by_cases hjp : j = p
        · rw [hjp, hleft, hcur q hkq (le_max_right p q), hcur p hkp (le_max_left p q)]
        by_cases hjq : j = q
        · rw [hjq, hright, hcur q hkq (le_max_right p q), hcur p hkp (le_max_left p q)]
        rw [hfix j hjp hjq]
      rw [symAt_of_le hle, ← hbase]
      exact h.live _ _ hkj' hle hif'
    · -- the two trade order: both columns are current
      have hmax : j ≤ max p q ∧ Equiv.swap p q i ≤ max p q := by
        by_cases hip : i = p
        · rw [hip, hleft]
          omega
        by_cases hiq : i = q
        · rw [hiq, hright]
          omega
        rw [hfix i hip hiq] at hlt ⊢
        by_cases hjp : j = p
        · rw [hjp, hleft] at hlt
          omega
        by_cases hjq : j = q
        · rw [hjq, hright] at hlt
          omega
        rw [hfix j hjp hjq] at hlt
        omega
      rw [h.symm, symAt_comm, symAt_of_le hlt.le, hcur j hkj hmax.1,
        BlockLdl.product_symm h.tagged.whole, ← hcur _ hki' hmax.2]
      exact h.live _ _ hki' hlt.le hjf'
  · intro hpl c j (hpc : l.ps ≤ c) (hck : c < l.k) hkj hjf
    have hcw : c - l.ps < w := by
      rw [hw hpl]
      omega
    change (if c - l.ps < w then _ else _) = (ldlOf (symSwap l.F f p q) l.tags).ld j c
    rw [if_pos hcw, hframe.ld_eq h.tagged hkf hck hjf]
    exact h.saved hpl c _ hpc hck (hmoved j hkj hjf).1 (hmoved j hkj hjf).2

/-- The diagonal of a current column moves by what it moves in the front. -/
theorem Core.raise (h : Core T f numElig first l) {best : ℕ} (v : K) (hb : l.k ≤ best) :
    Core (fun i j => T i j + if i = best ∧ j = best then v - l.F best best else 0) f numElig first
      { l with toFront := l.toFront.raise best v } := by
  have hkf : l.k ≤ f := h.k_le.trans h.elig_le
  have hframe : RowFrame l.F (l.toFront.raise best v).F l.tags l.tags f l.k id := by
    refine ⟨fun _ _ => rfl, fun _ _ => rfl, fun i hk hf => ⟨hk, hf⟩, fun c hc i _ _ => ?_⟩
    exact if_neg (by omega)
  refine ⟨fun i j => ?_, h.tagged, h.tagged_first, h.first_le, h.ps_le, h.k_le, h.elig_le, ?_, ?_,
    ?_⟩
  · exact congrArg₂ (· + ·) (h.symm i j) (if_congr and_comm rfl rfl)
  · intro i j (hjk : j < l.k) hji hif
    change _ = (ldlOf (l.toFront.raise best v).F l.tags).product l.k i j
    rw [hframe.product_eq h.tagged hkf le_rfl hif (by omega), if_neg (by omega), add_zero]
    exact h.done i j hjk hji hif
  · intro i j hkj hji hif
    change _ = (ldlOf (l.toFront.raise best v).F l.tags).product (l.base numElig first j) i j +
      (if i = best ∧ j = best then v else l.F i j)
    rw [hframe.product_eq h.tagged hkf h.base_le hif (by omega), h.live i j hkj hji hif]
    by_cases hij : i = best ∧ j = best
    · rw [if_pos hij, if_pos hij, hij.1, hij.2]
      simp only [id]
      ring
    · rw [if_neg hij, if_neg hij, add_zero]
      rfl
  · intro hpl c j hpc hck hkj hjf
    change l.W j (c - l.ps) = (ldlOf (l.toFront.raise best v).F l.tags).ld j c
    rw [hframe.ld_eq h.tagged hkf hck hjf]
    exact h.saved hpl c j hpc hck hkj hjf

/-- The eligible columns from `pl` on receive the pivots saved since `ps`. -/
theorem Core.deferred (h : Core T f numElig first l) (hpl : l.pl ≤ numElig) :
    Core T f numElig first
      { l with toFront := l.toFront.deferred f l.ps (max l.pl l.k) numElig, pl := numElig } := by
  have hkf : l.k ≤ f := h.k_le.trans h.elig_le
  have hps := h.ps_le
  have hframe : RowFrame l.F (deferredUpdate l.F l.W f l.ps l.k (max l.pl l.k) numElig) l.tags
      l.tags f l.k id := by
    refine ⟨fun _ _ => rfl, fun _ _ => rfl, fun i hk hf => ⟨hk, hf⟩, fun c hc i _ _ => ?_⟩
    exact if_neg (by omega)
  refine ⟨h.symm, h.tagged, h.tagged_first, h.first_le, h.ps_le, h.k_le, h.elig_le, ?_, ?_, ?_⟩
  · intro i j (hjk : j < l.k) hji hif
    change _ = (ldlOf (deferredUpdate l.F l.W f l.ps l.k (max l.pl l.k) numElig) l.tags).product
      l.k i j
    rw [hframe.product_eq h.tagged hkf le_rfl hif (by omega)]
    exact h.done i j hjk hji hif
  · intro i j (hkj : l.k ≤ j) hji hif
    have hlive := h.live i j hkj hji hif
    have hprod : ∀ b ≤ l.k,
        (ldlOf (deferredUpdate l.F l.W f l.ps l.k (max l.pl l.k) numElig) l.tags).product b i j =
          (ldlOf l.F l.tags).product b i j := fun b hb =>
      hframe.product_eq h.tagged hkf hb hif (by omega)
    change T i j = (ldlOf (deferredUpdate l.F l.W f l.ps l.k (max l.pl l.k) numElig)
      l.tags).product (if j < numElig then l.k else if j < numElig then l.ps else first) i j +
        deferredUpdate l.F l.W f l.ps l.k (max l.pl l.k) numElig i j
    unfold Lazy.base at hlive
    by_cases hj : j < numElig
    · rw [if_pos hj, hprod _ le_rfl]
      by_cases hjpl : j < l.pl
      · -- current already
        rw [if_pos hjpl] at hlive
        rw [show deferredUpdate l.F l.W f l.ps l.k (max l.pl l.k) numElig i j = l.F i j from
          if_neg (by omega)]
        exact hlive
      · rw [if_neg hjpl, if_pos hj] at hlive
        have hupd : deferredUpdate l.F l.W f l.ps l.k (max l.pl l.k) numElig i j =
            l.F i j - ∑ t ∈ range (l.k - l.ps), l.F i (l.ps + t) * l.W j t := if_pos (by omega)
        -- the saved rows are those of `L D` for the pivots since `ps`
        have hsum : ∑ t ∈ range (l.k - l.ps), l.F i (l.ps + t) * l.W j t =
            ∑ t ∈ range (l.k - l.ps),
              (ldlOf l.F l.tags).l i (l.ps + t) * (ldlOf l.F l.tags).ld j (l.ps + t) := by
          refine sum_congr rfl fun t ht => ?_
          have ht := mem_range.mp ht
          rw [h.tagged.l_eq (by omega) (by omega : l.k ≤ i), ← h.saved (by omega) (l.ps + t) j
            (by omega) (by omega) hkj (by omega),
            Nat.add_sub_cancel_left]
        have hadd := (ldlOf l.F l.tags).product_add l.ps (l.k - l.ps) i j
        rw [Nat.add_sub_cancel' hps] at hadd
        rw [hlive, hupd, hsum, hadd]
        ring
    -- the columns that are not eligible wait for the Schur update
    · rw [if_neg hj, if_neg hj, hprod _ h.first_le, show deferredUpdate l.F l.W f l.ps l.k
        (max l.pl l.k) numElig i j = l.F i j from if_neg (by omega)]
      rw [if_neg (show ¬ j < l.pl by omega), if_neg hj] at hlive
      exact hlive
  · intro hlt
    exact absurd hlt (lt_irrefl numElig)

/-- All eligible columns are current: a panel of any width starts at `k`. -/
theorem Core.panel (h : Core T f numElig first l) (hpl : l.pl = numElig) {pl : ℕ}
    (hle : pl ≤ numElig) : Core T f numElig first { l with pl := pl, ps := l.k } := by
  refine ⟨h.symm, h.tagged, h.tagged_first, h.first_le, le_rfl, h.k_le, h.elig_le, h.done, ?_, ?_⟩
  · intro i j hkj hji hif
    have hlive := h.live i j hkj hji hif
    unfold Lazy.base at hlive ⊢
    dsimp only at hkj ⊢
    rw [hpl] at hlive
    by_cases hj : j < numElig
    · rw [if_pos hj] at hlive
      rw [if_pos hj, ite_self]
      exact hlive
    · rw [if_neg hj, if_neg hj] at hlive
      rw [if_neg (by omega), if_neg hj]
      exact hlive
  · intro _ c j (hpc : l.k ≤ c) (hck : c < l.k)
    omega

/-- Row `c` of the formed `L D` is row `c` of `L D`, and nothing below the diagonal changes. -/
theorem formLd_spec {F : ℕ → ℕ → K} {tags : ℕ → ℤ} {e k c : ℕ} (ht : Tagged tags k) (hk : k ≤ e)
    (hke : k ≤ f) (hc : c < k → tags c ≠ -1) (i j : ℕ) :
    formLd f e tags c k F i j =
      if c ≤ i ∧ i < k ∧ e ≤ j ∧ j < f then (ldlOf F tags).ld j i else F i j := by
  -- writing row `c` right of column `e` leaves the factor as it is
  have hframe : ∀ (F : ℕ → ℕ → K) (c : ℕ) (v : ℕ → K),
      RowFrame F (writeRow F f e c v) tags tags f k id := fun F c v =>
    ⟨fun _ _ => rfl, fun _ _ => rfl, fun i hi hif => ⟨hi, hif⟩, fun c' hc' i _ _ =>
      if_neg (by omega)⟩
  fun_induction formLd f e tags c k F generalizing i j with
  | case1 c F hck htag F1 ih =>
    obtain ⟨hc1, htag1⟩ : c + 1 < k ∧ tags (c + 1) = -1 := by
      rcases ht c hck with h1 | ⟨-, h2, h3⟩ | ⟨h1, -⟩
      · omega
      · exact ⟨h2, h3⟩
      · omega
    have hnext : c + 2 < k → tags (c + 2) ≠ -1 := by
      intro hlt hneg
      rcases ht (c + 2) hlt with h1 | ⟨h1, -⟩ | ⟨-, -, h3⟩
      · omega
      · omega
      · exact absurd (htag1.symm.trans h3) (by decide)
    have hpair : (ldlOf F tags).pair c = true := decide_eq_true htag
    have hpair1 : (ldlOf F tags).pair (c + 1) = false := decide_eq_false (by omega)
    rw [ih hnext]
    by_cases hin : e ≤ j ∧ j < f
    · have hl : ∀ d < k, (ldlOf F tags).l j d = F j d := fun d hd => ht.l_eq hd (by omega)
      rcases Nat.lt_trichotomy i c with hlt | heq | hgt
      · rw [if_neg (by omega), if_neg (by omega), writeRow, if_neg (by omega)]
        exact if_neg (by omega)
      · subst heq
        rw [if_neg (by omega), if_pos (by omega), writeRow, if_neg (by omega),
          BlockLdl.ld_opens hpair, hl i hck, hl (i + 1) hc1]
        exact if_pos ⟨rfl, hin⟩
      rcases Nat.lt_or_ge i (c + 2) with hlt2 | hge2
      · obtain rfl : i = c + 1 := by omega
        rw [if_neg (by omega), if_pos (by omega), BlockLdl.ld_closes hpair hpair1, hl c hck,
          hl (c + 1) hc1]
        exact if_pos ⟨rfl, hin⟩
      by_cases hik : i < k
      · rw [if_pos (by omega), if_pos (by omega), (hframe F1 (c + 1) _).ld_eq ht hke hik hin.2]
        exact (hframe F c _).ld_eq ht hke hik hin.2
      · rw [if_neg (by omega), if_neg (by omega), writeRow, if_neg (by omega)]
        exact if_neg (by omega)
    · rw [if_neg (by omega), if_neg (by omega), writeRow, if_neg (by omega)]
      exact if_neg (by omega)
  | case2 c F hck htag ih =>
    have htag1 : tags c = 1 := by
      have := hc hck
      rcases ht c hck with h1 | ⟨h1, -⟩ | ⟨h1, -⟩
      · exact h1
      · exact absurd h1 htag
      · exact absurd h1 this
    have hnext : c + 1 < k → tags (c + 1) ≠ -1 := by
      intro hlt hneg
      rcases ht (c + 1) hlt with h1 | ⟨h1, -⟩ | ⟨-, -, h3⟩
      · omega
      · omega
      · exact htag h3
    have hcl : (ldlOf F tags).closes c = false := by
      rw [BlockLdl.closes, Bool.and_eq_false_iff]
      by_cases hpos : 0 < c
      · refine Or.inr (decide_eq_false fun hp => ?_)
        have := ht (c - 1) (by omega)
        rw [hp, Nat.sub_add_cancel hpos, htag1] at this
        omega
      · exact Or.inl (decide_eq_false hpos)
    rw [ih hnext]
    by_cases hin : e ≤ j ∧ j < f
    · rcases Nat.lt_trichotomy i c with hlt | heq | hgt
      · rw [if_neg (by omega), if_neg (by omega)]
        exact if_neg (by omega)
      · subst heq
        rw [if_neg (by omega), if_pos (by omega), BlockLdl.ld_single (decide_eq_false htag) hcl,
          ht.l_eq hck (by omega)]
        exact if_pos ⟨rfl, hin⟩
      by_cases hik : i < k
      · rw [if_pos (by omega), if_pos (by omega)]
        exact (hframe F c _).ld_eq ht hke hik hin.2
      · rw [if_neg (by omega), if_neg (by omega)]
        exact if_neg (by omega)
    · rw [if_neg (by omega), if_neg (by omega)]
      exact if_neg (by omega)
  | case3 c F hck => rw [if_neg (by omega)]

/-- The rows below the eligible block receive all pivots since `first`. -/
theorem Core.schur (h : Core T f numElig first l) (hpl : l.pl = numElig) :
    Core T f numElig first
      { l with toFront := l.toFront.schur f first numElig, pl := f } := by
  have hkf : l.k ≤ f := h.k_le.trans h.elig_le
  have hfirst := h.first_le
  have hkn := h.k_le
  -- what the update leaves in the lower triangle
  have hupd : ∀ i j, j ≤ i → i < f → schurUpdate l.F f first l.k numElig l.tags i j =
      if numElig ≤ j then l.F i j - ∑ t ∈ range (l.k - first),
        l.F i (first + t) * (ldlOf l.F l.tags).ld j (first + t) else l.F i j := by
    intro i j hji hif
    unfold schurUpdate
    have hbound : first < l.k → l.tags first ≠ -1 := by
      intro hlt hneg
      rcases h.tagged first hlt with h1 | ⟨h1, -⟩ | ⟨-, h2, h3⟩
      · omega
      · omega
      · have := h.tagged_first.pair_lt (show first - 1 < first by omega) h3
        omega
    have hform := formLd_spec (F := l.F) h.tagged hkn hkf hbound
    split_ifs with hno hj hj
    · rcases hno with hno | hno
      · rw [Nat.sub_eq_zero_of_le hno, range_zero, sum_empty, sub_zero]
      · omega
    · rfl
    · dsimp only
      rw [if_pos ⟨hj, hji, hif⟩, hform, if_neg (by omega)]
      refine congrArg (l.F i j - ·) (sum_congr rfl fun t ht => ?_)
      have ht := mem_range.mp ht
      rw [hform, if_neg (by omega), hform, if_pos (by omega)]
    · dsimp only
      rw [if_neg (fun hc => hj hc.1), hform, if_neg (by omega)]
  have hframe : RowFrame l.F (schurUpdate l.F f first l.k numElig l.tags) l.tags l.tags f l.k id :=
    ⟨fun _ _ => rfl, fun _ _ => rfl, fun i hi hif => ⟨hi, hif⟩, fun c hc i hci hif => by
      rw [hupd i c hci hif, if_neg (by omega)]
      rfl⟩
  have hprod : ∀ i j b, b ≤ l.k → j ≤ i → i < f →
      (ldlOf (schurUpdate l.F f first l.k numElig l.tags) l.tags).product b i j =
        (ldlOf l.F l.tags).product b i j := fun i j b hb hji hif =>
    hframe.product_eq h.tagged hkf hb hif (by omega)
  refine ⟨h.symm, h.tagged, h.tagged_first, h.first_le, h.ps_le, h.k_le, h.elig_le, ?_, ?_, ?_⟩
  · intro i j (hjk : j < l.k) hji hif
    exact (h.done i j hjk hji hif).trans (hprod i j _ le_rfl hji hif).symm
  · intro i j (hkj : l.k ≤ j) hji hif
    have hlive := h.live i j hkj hji hif
    change T i j = (ldlOf (schurUpdate l.F f first l.k numElig l.tags) l.tags).product
      (if j < f then l.k else if j < numElig then l.ps else first) i j +
        schurUpdate l.F f first l.k numElig l.tags i j
    rw [if_pos (by omega), hprod i j _ le_rfl hji hif, hupd i j hji hif]
    unfold Lazy.base at hlive
    rw [hpl] at hlive
    by_cases hj : numElig ≤ j
    · rw [if_neg (by omega), if_neg (by omega)] at hlive
      have hadd := (ldlOf l.F l.tags).product_add first (l.k - first) i j
      have hsum : ∑ t ∈ range (l.k - first),
            l.F i (first + t) * (ldlOf l.F l.tags).ld j (first + t) =
          ∑ t ∈ range (l.k - first),
            (ldlOf l.F l.tags).l i (first + t) * (ldlOf l.F l.tags).ld j (first + t) := by
        refine sum_congr rfl fun t ht => ?_
        have ht := mem_range.mp ht
        rw [h.tagged.l_eq (by omega) (by omega : l.k ≤ i)]
      rw [Nat.add_sub_cancel' hfirst] at hadd
      rw [if_pos hj, hlive, hsum, hadd]
      ring
    · rw [if_pos (by omega)] at hlive
      rw [if_neg hj]
      exact hlive
  · intro (hlt : f < numElig)
    have := h.elig_le
    omega

end Core

section Pivots

variable [Field K] [LinearOrder K] {T : ℕ → ℕ → K} {f numElig first i j : ℕ} {l : Lazy K}
  {m : PivotMode}

/-- The update reaches the columns before `pl`, and the pivot columns are saved for the rest. -/
structure Updates (f numElig : ℕ) (m : PivotMode) (l : Lazy K) : Prop where
  reach : m.small = true ∧ f ≤ l.pl ∨ m.small = false ∧ m.ucolEnd = l.pl
  save : l.pl < numElig → m.save = true ∧ m.wCols = l.k - l.ps

omit [LinearOrder K] in
/-- Both layouts make the same update of the lower triangle. -/
theorem takeOne_F (hm : Updates f numElig m l) (hji : j ≤ i) (hi : i < f) :
    (l.toFront.takeOne m f).F i j = eliminate1x1 l.F f l.k l.pl i j := by
  have hpad := le_paddedRows f
  have hrow := blockRow_le j
  unfold Front.takeOne
  dsimp only
  rcases hm.reach with ⟨hs, hpl⟩ | ⟨hs, hpl⟩
  · rw [if_pos hs]
    unfold smallEliminate1x1 eliminate1x1
    exact if_congr (by omega) rfl (if_congr (by omega) rfl rfl)
  · rw [hs, if_neg Bool.false_ne_true, hpl]

theorem takeTwo_F (hm : Updates f numElig m l) (hji : j ≤ i) (hi : i < f) :
    (l.toFront.takeTwo m f).F i j = eliminate2x2 l.F f l.k l.pl i j := by
  have hpad := le_paddedRows f
  have hrow := blockRow_le j
  unfold Front.takeTwo
  dsimp only
  rcases hm.reach with ⟨hs, hpl⟩ | ⟨hs, hpl⟩
  · rw [if_pos hs]
    unfold smallEliminate2x2 eliminate2x2
    exact if_congr (by omega) rfl (if_congr (by omega) rfl (if_congr (by omega) rfl rfl))
  · rw [hs, if_neg Bool.false_ne_true, hpl]

omit [Field K] [LinearOrder K] in
theorem Tagged.closes_eq_false {F : ℕ → ℕ → K} {tags : ℕ → ℤ} {k : ℕ} (h : Tagged tags k)
    {tags' : ℕ → ℤ} (heq : ∀ c < k, tags' c = tags c) : (ldlOf F tags').closes k = false := by
  rw [BlockLdl.closes, Bool.and_eq_false_iff]
  by_cases hpos : 0 < k
  · refine Or.inr (decide_eq_false fun hp => ?_)
    rw [heq (k - 1) (by omega)] at hp
    have := h.pair_lt (show k - 1 < k by omega) hp
    omega
  · exact Or.inl (decide_eq_false hpos)

omit [LinearOrder K] in
/-- A nonzero 1x1 pivot at `k` adds its column to the factor. -/
theorem Core.takeOne (h : Core T f numElig first l) (hk : l.k < numElig)
    (hbase : l.base numElig first l.k = l.k) (hd : l.F l.k l.k ≠ 0) (hm : Updates f numElig m l) :
    Core T f numElig first { l with toFront := l.toFront.takeOne m f } := by
  have hkf : l.k ≤ f := h.k_le.trans h.elig_le
  have hps := h.ps_le
  have helig := h.elig_le
  obtain ⟨F', hF'⟩ : ∃ F', F' = (l.toFront.takeOne m f).F := ⟨_, rfl⟩
  obtain ⟨tags', htags'⟩ : ∃ t, t = Function.update l.tags l.k 1 := ⟨_, rfl⟩
  have hF : ∀ i j, j ≤ i → i < f → F' i j = eliminate1x1 l.F f l.k l.pl i j := by
    rw [hF']
    exact fun i j hji hi => takeOne_F hm hji hi
  have htag : ∀ c < l.k, tags' c = l.tags c := fun c hc => by
    rw [htags', Function.update_of_ne hc.ne]
  have hframe : RowFrame l.F F' l.tags tags' f l.k id := by
    refine ⟨htag, fun _ _ => rfl, fun i hk hf => ⟨hk, hf⟩, fun c hc i hci hi => ?_⟩
    rw [hF i c hci hi]
    exact eliminate1x1_other (Or.inl hc)
  have hcol : ∀ i, l.k < i → i < f → F' i l.k = l.F i l.k * (1 / l.F l.k l.k) := fun i hki hif => by
    rw [hF i l.k hki.le hif, eliminate1x1_col hki hif]
  have hdiag : F' l.k l.k = l.F l.k l.k := by
    rw [hF l.k l.k le_rfl (by omega), eliminate1x1_other (Or.inr (Or.inl le_rfl))]
  -- the new column of `L` and of `L D`
  have hpair : (ldlOf F' tags').pair l.k = false := by
    refine decide_eq_false ?_
    rw [htags', Function.update_self]
    decide
  have hsucc : ∀ i j, (ldlOf F' tags').product (l.k + 1) i j = (ldlOf F' tags').product l.k i j +
      (ldlOf F' tags').l i l.k * ((ldlOf F' tags').l j l.k * l.F l.k l.k) := fun i j => by
    rw [BlockLdl.product_single hpair (h.tagged.closes_eq_false htag),
      show (ldlOf F' tags').diag l.k = l.F l.k l.k from hdiag]
  have hl : ∀ i, l.k < i → i < f → (ldlOf F' tags').l i l.k = l.F i l.k / l.F l.k l.k :=
    fun i hki hif => by
      rw [BlockLdl.l_below hki (Or.inl hpair), show (ldlOf F' tags').col i l.k = F' i l.k from rfl,
        hcol i hki hif, mul_one_div]
  have hprod : ∀ i j b, b ≤ l.k → j ≤ i → i < f →
      (ldlOf F' tags').product b i j = (ldlOf l.F l.tags).product b i j := fun i j b hb hji hif =>
    hframe.product_eq h.tagged hkf hb hif (by omega)
  have htagged : Tagged tags' (l.k + 1) := htags' ▸ h.tagged.one
  have hstate : ({ l with toFront := l.toFront.takeOne m f } : Lazy K) =
      { F := F', rows := l.rows, tags := tags', W := (l.toFront.takeOne m f).W, k := l.k + 1,
        forced := l.forced, pl := l.pl, ps := l.ps } := by
    rw [hF', htags']
    rfl
  rw [hstate]
  refine ⟨h.symm, htagged, h.tagged_first.congr fun c hc => htag c (hc.trans_le h.first_le),
    h.first_le.trans (Nat.le_succ _), hps.trans (Nat.le_succ _), hk, h.elig_le, ?_, ?_, ?_⟩
  · intro i j (hjk : j < l.k + 1) hji hif
    change T i j = (ldlOf F' tags').product (l.k + 1) i j
    rw [hsucc, hprod i j _ le_rfl hji hif]
    rcases Nat.lt_or_ge j l.k with hlt | hge
    · rw [BlockLdl.l_of_lt hlt, zero_mul, mul_zero, add_zero]
      exact h.done i j hlt hji hif
    · obtain rfl : j = l.k := by omega
      rw [h.live i l.k le_rfl hji hif, hbase, BlockLdl.l_self, one_mul]
      rcases hji.eq_or_lt with heq | hlt
      · rw [← heq, BlockLdl.l_self, one_mul]
      · rw [hl i hlt hif, div_mul_cancel₀ _ hd]
  · intro i j (hkj : l.k + 1 ≤ j) hji hif
    have hlive := h.live i j (by omega) hji hif
    unfold Lazy.base at hlive ⊢
    dsimp only
    by_cases hj : j < l.pl
    · -- an updated column
      rw [if_pos hj] at hlive ⊢
      rw [hsucc, hprod i j _ le_rfl hji hif, hl i (by omega) hif, hl j (by omega) (by omega),
        hF i j hji hif, hlive, eliminate1x1_updated (by omega) hj hji hif]
      field_simp
      ring
    · rw [if_neg hj] at hlive ⊢
      have hb : (if j < numElig then l.ps else first) ≤ l.k := by
        have := h.first_le
        split_ifs <;> omega
      rw [hprod i j _ hb hji hif, hF i j hji hif, hlive, eliminate1x1_other (by omega)]
  · intro hpl c j (hpc : l.ps ≤ c) (hck : c < l.k + 1) (hkj : l.k + 1 ≤ j) hjf
    obtain ⟨hsave, hw⟩ := hm.save hpl
    change (if m.save = true then saveColumn l.F l.W f l.k (l.k + 1) m.wCols else l.W) j
      (c - l.ps) =
      (ldlOf F' tags').ld j c
    rw [if_pos hsave, hw]
    rcases Nat.lt_or_ge c l.k with hlt | hge
    · rw [saveColumn_of_ne (by omega), hframe.ld_eq h.tagged hkf hlt hjf]
      exact h.saved hpl c j hpc hlt (by omega) hjf
    · obtain rfl : c = l.k := by omega
      rw [saveColumn_self hkj hjf, BlockLdl.ld_single hpair (h.tagged.closes_eq_false htag),
        hl j (by omega) hjf, show (ldlOf F' tags').diag l.k = l.F l.k l.k from hdiag,
        div_mul_cancel₀ _ hd]

/-- The pivot inverse turns the two pivot columns into the rows of `L`. -/
theorem pivotInverse_mul {F : ℕ → ℕ → K} {k : ℕ} [IsStrictOrderedRing K]
    (hd : pivotDet F k (k + 1) ≠ 0) (x0 x1 : K) :
    let inv := pivotInverse F k
    (inv.1 * x0 + inv.2.1 * x1) * F k k + (inv.2.1 * x0 + inv.2.2 * x1) * F (k + 1) k = x0 ∧
      (inv.1 * x0 + inv.2.1 * x1) * F (k + 1) k +
        (inv.2.1 * x0 + inv.2.2 * x1) * F (k + 1) (k + 1) = x1 := by
  have hdet : F k k * F (k + 1) (k + 1) - F (k + 1) k * F (k + 1) k ≠ 0 := by
    rwa [pivotDet, symAt_of_le (by omega)] at hd
  unfold pivotInverse
  rw [inverse2x2_eq hdet]
  dsimp only
  generalize F k k = a at *
  generalize F (k + 1) (k + 1) = c at *
  generalize F (k + 1) k = b at *
  constructor
  · calc _ = (a * c - b * b) * x0 / (a * c - b * b) := by ring
      _ = x0 := mul_div_cancel_left₀ x0 hdet
  · calc _ = (a * c - b * b) * x1 / (a * c - b * b) := by ring
      _ = x1 := mul_div_cancel_left₀ x1 hdet

/-- A nonsingular 2x2 pivot at `(k, k + 1)` adds its columns to the factor. -/
theorem Core.takeTwo [IsStrictOrderedRing K] (h : Core T f numElig first l)
    (hk : l.k + 1 < numElig) (hbase : l.base numElig first l.k = l.k)
    (hbase1 : l.base numElig first (l.k + 1) = l.k) (hd : pivotDet l.F l.k (l.k + 1) ≠ 0)
    (hm : Updates f numElig m l) :
    Core T f numElig first { l with toFront := l.toFront.takeTwo m f } := by
  have hkf : l.k ≤ f := h.k_le.trans h.elig_le
  have hps := h.ps_le
  have helig := h.elig_le
  obtain ⟨F', hF'⟩ : ∃ F', F' = (l.toFront.takeTwo m f).F := ⟨_, rfl⟩
  obtain ⟨tags', htags'⟩ : ∃ t,
      t = Function.update (Function.update l.tags l.k 2) (l.k + 1) (-1) := ⟨_, rfl⟩
  have hF : ∀ i j, j ≤ i → i < f → F' i j = eliminate2x2 l.F f l.k l.pl i j := by
    rw [hF']
    exact fun i j hji hi => takeTwo_F hm hji hi
  have htag : ∀ c < l.k, tags' c = l.tags c := fun c hc => by
    rw [htags', Function.update_of_ne (by omega), Function.update_of_ne hc.ne]
  have hframe : RowFrame l.F F' l.tags tags' f l.k id := by
    refine ⟨htag, fun _ _ => rfl, fun i hk hf => ⟨hk, hf⟩, fun c hc i hci hi => ?_⟩
    rw [hF i c hci hi]
    exact eliminate2x2_other (Or.inl hc)
  have hpivot : ∀ i j, j ≤ i → i ≤ l.k + 1 → F' i j = l.F i j := fun i j hji hi => by
    rw [hF i j hji (by omega)]
    exact eliminate2x2_other (Or.inr (Or.inl hi))
  obtain ⟨inv, hinv⟩ : ∃ inv, inv = pivotInverse l.F l.k := ⟨_, rfl⟩
  have hmul := pivotInverse_mul hd
  rw [← hinv] at hmul
  -- the new columns of `L` and of `L D`
  have hpair : (ldlOf F' tags').pair l.k = true := by
    refine decide_eq_true ?_
    rw [htags', Function.update_of_ne (by omega), Function.update_self]
  have hpair1 : (ldlOf F' tags').pair (l.k + 1) = false := by
    refine decide_eq_false ?_
    rw [htags', Function.update_self]
    decide
  have hl0 : ∀ i, l.k + 1 < i → i < f →
      (ldlOf F' tags').l i l.k = inv.1 * l.F i l.k + inv.2.1 * l.F i (l.k + 1) :=
    fun i hki hif => by
      rw [BlockLdl.l_below (by omega) (Or.inr hki.ne'),
        show (ldlOf F' tags').col i l.k = F' i l.k from rfl, hF i l.k (by omega) hif,
        eliminate2x2_col0 hki hif, hinv]
  have hl1 : ∀ i, l.k + 1 < i → i < f →
      (ldlOf F' tags').l i (l.k + 1) = inv.2.1 * l.F i l.k + inv.2.2 * l.F i (l.k + 1) :=
    fun i hki hif => by
      rw [BlockLdl.l_below hki (Or.inl hpair1),
        show (ldlOf F' tags').col i (l.k + 1) = F' i (l.k + 1) from rfl, hF i _ hki.le hif,
        eliminate2x2_col1 hki hif, hinv]
  have hld0 : ∀ j, (ldlOf F' tags').ld j l.k = (ldlOf F' tags').l j l.k * l.F l.k l.k +
      (ldlOf F' tags').l j (l.k + 1) * l.F (l.k + 1) l.k := fun j => by
    rw [BlockLdl.ld_opens hpair, show (ldlOf F' tags').diag l.k = F' l.k l.k from rfl,
      show (ldlOf F' tags').sub l.k = F' (l.k + 1) l.k from rfl, hpivot _ _ le_rfl (by omega),
      hpivot _ _ (by omega) le_rfl]
  have hld1 : ∀ j, (ldlOf F' tags').ld j (l.k + 1) =
      (ldlOf F' tags').l j l.k * l.F (l.k + 1) l.k +
        (ldlOf F' tags').l j (l.k + 1) * l.F (l.k + 1) (l.k + 1) := fun j => by
    rw [BlockLdl.ld_closes hpair hpair1,
      show (ldlOf F' tags').diag (l.k + 1) = F' (l.k + 1) (l.k + 1) from rfl,
      show (ldlOf F' tags').sub l.k = F' (l.k + 1) l.k from rfl, hpivot _ _ le_rfl le_rfl,
      hpivot _ _ (by omega) le_rfl]
  -- below the pivot, `L D` is the pivot columns as they were
  have hlow0 : ∀ j, l.k + 1 < j → j < f → (ldlOf F' tags').ld j l.k = l.F j l.k :=
    fun j hkj hjf => by
      rw [hld0, hl0 j hkj hjf, hl1 j hkj hjf]
      exact (hmul _ _).1
  have hlow1 : ∀ j, l.k + 1 < j → j < f → (ldlOf F' tags').ld j (l.k + 1) = l.F j (l.k + 1) :=
    fun j hkj hjf => by
      rw [hld1, hl0 j hkj hjf, hl1 j hkj hjf]
      exact (hmul _ _).2
  have hsucc : ∀ i j, (ldlOf F' tags').product (l.k + 2) i j = (ldlOf F' tags').product l.k i j +
      ((ldlOf F' tags').l i l.k * (ldlOf F' tags').ld j l.k +
        (ldlOf F' tags').l i (l.k + 1) * (ldlOf F' tags').ld j (l.k + 1)) := fun i j => by
    rw [BlockLdl.product_succ, BlockLdl.product_succ, add_assoc]
  have hprod : ∀ i j b, b ≤ l.k → j ≤ i → i < f →
      (ldlOf F' tags').product b i j = (ldlOf l.F l.tags).product b i j := fun i j b hb hji hif =>
    hframe.product_eq h.tagged hkf hb hif (by omega)
  have htagged : Tagged tags' (l.k + 2) := htags' ▸ h.tagged.two
  have hstate : ({ l with toFront := l.toFront.takeTwo m f } : Lazy K) =
      { F := F', rows := l.rows, tags := tags', W := (l.toFront.takeTwo m f).W, k := l.k + 2,
        forced := l.forced, pl := l.pl, ps := l.ps } := by
    rw [hF', htags']
    rfl
  rw [hstate]
  refine ⟨h.symm, htagged, h.tagged_first.congr fun c hc => htag c (hc.trans_le h.first_le),
    h.first_le.trans (Nat.le_add_right _ 2), hps.trans (Nat.le_add_right _ 2), hk, h.elig_le, ?_,
    ?_, ?_⟩
  · intro i j (hjk : j < l.k + 2) hji hif
    change T i j = (ldlOf F' tags').product (l.k + 2) i j
    rw [hsucc, hprod i j _ le_rfl hji hif]
    rcases Nat.lt_or_ge j l.k with hlt | hge
    · rw [hld0, hld1, BlockLdl.l_of_lt hlt, BlockLdl.l_of_lt (show j < l.k + 1 by omega)]
      simp only [zero_mul, add_zero, mul_zero]
      exact h.done i j hlt hji hif
    rcases Nat.lt_or_ge j (l.k + 1) with hlt1 | hge1
    · -- the first pivot column
      obtain rfl : j = l.k := by omega
      rw [h.live i l.k le_rfl hji hif, hbase, hld0, hld1, BlockLdl.l_self,
        BlockLdl.l_of_lt (show l.k < l.k + 1 by omega)]
      simp only [one_mul, zero_mul, add_zero]
      rcases Nat.lt_or_ge (l.k + 1) i with hlt2 | hge2
      · rw [← hld0, hlow0 i hlt2 hif]
      · rcases hji.eq_or_lt with heq | hlt2
        · rw [← heq, BlockLdl.l_self, BlockLdl.l_of_lt (show l.k < l.k + 1 by omega)]
          ring
        · obtain rfl : i = l.k + 1 := by omega
          rw [BlockLdl.l_self, BlockLdl.l_in_block hpair]
          ring
    · -- the second pivot column
      obtain rfl : j = l.k + 1 := by omega
      rw [h.live i (l.k + 1) (by omega) hji hif, hbase1, hld0, hld1, BlockLdl.l_self,
        BlockLdl.l_in_block hpair]
      simp only [one_mul, zero_mul, zero_add]
      rcases hji.eq_or_lt with heq | hlt2
      · rw [← heq, BlockLdl.l_self, BlockLdl.l_in_block hpair]
        ring
      · rw [← hld1, hlow1 i hlt2 hif]
  · intro i j (hkj : l.k + 2 ≤ j) hji hif
    have hlive := h.live i j (by omega) hji hif
    unfold Lazy.base at hlive ⊢
    dsimp only
    by_cases hj : j < l.pl
    · -- an updated column
      rw [if_pos hj] at hlive ⊢
      rw [hsucc, hprod i j _ le_rfl hji hif, hlow0 j (by omega) (by omega),
        hlow1 j (by omega) (by omega), hl0 i (by omega) hif, hl1 i (by omega) hif,
        hF i j hji hif, hlive, eliminate2x2_updated (by omega) hj hji hif, ← hinv]
      ring
    · rw [if_neg hj] at hlive ⊢
      have hb : (if j < numElig then l.ps else first) ≤ l.k := by
        have := h.first_le
        split_ifs <;> omega
      rw [hprod i j _ hb hji hif, hF i j hji hif, hlive, eliminate2x2_other (by omega)]
  · intro hpl c j (hpc : l.ps ≤ c) (hck : c < l.k + 2) (hkj : l.k + 2 ≤ j) hjf
    obtain ⟨hsave, hw⟩ := hm.save hpl
    change (if m.save = true then
      saveColumn l.F (saveColumn l.F l.W f l.k (l.k + 2) m.wCols) f (l.k + 1) (l.k + 2)
        (m.wCols + 1) else l.W) j (c - l.ps) = (ldlOf F' tags').ld j c
    rw [if_pos hsave, hw]
    rcases Nat.lt_or_ge c l.k with hlt | hge
    · rw [saveColumn_of_ne (by omega), saveColumn_of_ne (by omega),
        hframe.ld_eq h.tagged hkf hlt hjf]
      exact h.saved hpl c j hpc hlt (by omega) hjf
    rcases Nat.lt_or_ge c (l.k + 1) with hlt1 | hge1
    · obtain rfl : c = l.k := by omega
      rw [saveColumn_of_ne (by omega), saveColumn_self hkj hjf, hlow0 j hkj hjf]
    · obtain rfl : c = l.k + 1 := by omega
      rw [show l.k + 1 - l.ps = l.k - l.ps + 1 by omega, saveColumn_self hkj hjf, hlow1 j hkj hjf]

end Pivots

end SmfSolver.Kernel
