/-
  SmfSolver.Factor.ColumnFlow

  Which front takes which column.  A front is eligible to pivot on the columns its
  children delayed and on its own; it takes some of them, as 1x1 and 2x2 pivots, and
  delays the others to its parent.  At a root nothing is delayed: the columns no pivot
  took are zero pivots.

  * `pivotsOf`: a front's pivots, read off its row ids and pivot tags.
  * `FlowOf.pivots_perm`: over the whole tree every column is in one pivot, once.
-/
import SmfSolver.Multifrontal.AssemblyTree
import SmfSolver.Kernel.LazyFront

namespace SmfSolver
namespace Factor

open Multifrontal Kernel

/-! ## Pivots -/

/-- A pivot and its columns, in the analysis order.  A `zero` is a column that a root's
    kernel left unaccepted. -/
inductive Pivot where
  | one (c : ℤ)
  | two (a b : ℤ)
  | zero (c : ℤ)
  deriving DecidableEq, Repr

namespace Pivot

def columns : Pivot → List ℤ
  | one c => [c]
  | two a b => [a, b]
  | zero c => [c]

def isZero : Pivot → Bool
  | zero _ => true
  | _ => false

/-- The columns of a 2x2 pivot. -/
def pairColumns : Pivot → List ℤ
  | two a b => [a, b]
  | _ => []

end Pivot

/-- The pivot that starts at column `c` of a front, if one does: tag 1 is a 1x1 pivot, 2 and
    -1 are the columns of a 2x2 pivot, and 0 is a column no pivot took. -/
def pivotAt (rows : ℕ → ℤ) (tags : ℕ → ℤ) (c : ℕ) : Option Pivot :=
  if tags c = 0 then some (.zero (rows c))
  else if tags c = 2 then some (.two (rows c) (rows (c + 1)))
  else if tags c = 1 then some (.one (rows c))
  else none

/-- The pivots of a front's first `count` columns. -/
def pivotsOf (rows : ℕ → ℤ) (tags : ℕ → ℤ) (count : ℕ) : List Pivot :=
  (List.range count).filterMap (pivotAt rows tags)

section Columns

variable {rows tags : ℕ → ℤ} {k count : ℕ}

theorem pivotAt_columns_of_single (rows : ℕ → ℤ) {c : ℕ}
    (h : tags c = 0 ∨ tags c = 1) :
    ∃ p, pivotAt rows tags c = some p ∧ p.columns = [rows c] := by
  rcases h with h | h
  · exact ⟨.zero (rows c), by rw [pivotAt, if_pos h], rfl⟩
  · refine ⟨.one (rows c), ?_, rfl⟩
    rw [pivotAt, if_neg (by omega), if_neg (by omega), if_pos h]

/-- The tags of whole pivots: the accepted columns, then columns no pivot took. -/
structure WholePivots (tags : ℕ → ℤ) (k count : ℕ) : Prop where
  le : k ≤ count
  tagged : Tagged tags k
  rest : ∀ c, k ≤ c → c < count → tags c = 0

/-- Every column of a front is in one of its pivots, in order. -/
theorem WholePivots.columns (h : WholePivots tags k count) :
    (pivotsOf rows tags count).flatMap Pivot.columns = (List.range count).map rows := by
  -- from a column that is not the second of a pair on
  have key : ∀ n i, i + n = count → (i = 0 ∨ tags (i - 1) ≠ 2 ∨ k ≤ i) →
      ((List.range' i n).filterMap (pivotAt rows tags)).flatMap Pivot.columns =
        (List.range' i n).map rows := by
    intro n
    induction n using Nat.strong_induction_on with
    | _ n ih =>
      intro i hi hstart
      rcases n with _ | n
      · rfl
      have hstep : ∀ p, pivotAt rows tags i = some p → p.columns = [rows i] → tags i ≠ 2 →
          ((List.range' i (n + 1)).filterMap (pivotAt rows tags)).flatMap Pivot.columns =
            (List.range' i (n + 1)).map rows := by
        intro p hp hcols hne
        have hrest := ih n (Nat.lt_succ_self n) (i + 1) (by omega) (.inr (.inl hne))
        rw [List.range'_succ, List.filterMap_cons, hp, List.flatMap_cons, hrest, hcols,
          List.map_cons]
        rfl
      by_cases hik : k ≤ i
      · have h0 := h.rest i hik (by omega)
        obtain ⟨p, hp, hcols⟩ := pivotAt_columns_of_single rows (.inl h0)
        exact hstep p hp hcols (by omega)
      · rcases h.tagged i (by omega) with h1 | ⟨h2, hlt, hneg⟩ | ⟨hneg, hpos, h2⟩
        · obtain ⟨p, hp, hcols⟩ := pivotAt_columns_of_single rows (.inr h1)
          exact hstep p hp hcols (by omega)
        · -- a pair takes two columns
          obtain ⟨m, rfl⟩ : ∃ m, n = m + 1 := ⟨n - 1, by have := h.le; omega⟩
          have hfirst : pivotAt rows tags i = some (.two (rows i) (rows (i + 1))) := by
            rw [pivotAt, if_neg (by omega), if_pos h2]
          have hsecond : pivotAt rows tags (i + 1) = none := by
            rw [pivotAt, if_neg (by omega), if_neg (by omega), if_neg (by omega)]
          have hne : tags (i + 1) ≠ 2 := by omega
          have hrest := ih m (by omega) (i + 2) (by omega) (.inr (.inl hne))
          rw [List.range'_succ, List.filterMap_cons, hfirst, List.flatMap_cons, List.range'_succ,
            List.filterMap_cons, hsecond, hrest]
          rfl
        · rcases hstart with rfl | hno | hki
          · exact absurd hpos (lt_irrefl 0)
          · exact absurd h2 hno
          · exact absurd hki hik
  rw [pivotsOf, List.range_eq_range']
  exact key count 0 (Nat.zero_add count) (.inl rfl)

theorem pivotsOf_noZero (h : Tagged tags k) : ∀ p ∈ pivotsOf rows tags k, p.isZero = false := by
  intro p hp
  obtain ⟨c, hc, hcp⟩ := List.mem_filterMap.mp hp
  have hne : tags c ≠ 0 := by
    rcases h c (List.mem_range.mp hc) with h | ⟨h, -⟩ | ⟨h, -⟩ <;> omega
  rw [pivotAt, if_neg hne] at hcp
  split_ifs at hcp <;> exact Option.some.inj hcp ▸ rfl

end Columns

/-! ## The flow of the columns through the tree -/

/-- The columns of a supernode are the first of its rows. -/
def ownColumns (T : AssemblyTree) (s : ℕ) : List ℤ :=
  ((T.frontRows s).take (T.supernodes s).width).map (↑)

/-- What the analysis promises: the parents are in the tree, and the supernodes share out the
    columns. -/
structure Covers (T : AssemblyTree) (n : ℕ) : Prop where
  parent_lt : ∀ s < T.ns, ∀ t, T.parent s = some t → t < T.ns
  columns : ((List.range T.ns).flatMap (ownColumns T)).Perm ((List.range n).map (↑))

/-- The pivots and the delayed columns of the fronts. -/
structure FlowOf (T : AssemblyTree) (pivots : ℕ → List Pivot) (delayed : ℕ → List ℤ) : Prop where
  /-- A front whose eligible columns are distinct takes or delays each of them. -/
  takes : ∀ s < T.ns, ((T.children s).flatMap delayed ++ ownColumns T s).Nodup →
    ((pivots s).flatMap Pivot.columns ++ delayed s).Perm
      ((T.children s).flatMap delayed ++ ownColumns T s)
  root : ∀ s < T.ns, T.parent s = none → delayed s = []

section Flow

variable {T : AssemblyTree} {n : ℕ} {pivots : ℕ → List Pivot} {delayed : ℕ → List ℤ}

/-- The fronts before `m` took or hold back the columns of the supernodes before `m`. -/
theorem FlowOf.flows (h : FlowOf T pivots delayed) (hT : Covers T n) {m : ℕ} (hm : m ≤ T.ns) :
    ((List.range m).flatMap (fun s => (pivots s).flatMap Pivot.columns) ++
      (openNodes T.parent (List.range m)).flatMap delayed).Perm
        ((List.range m).flatMap (ownColumns T)) := by
  induction m with
  | zero => exact .refl _
  | succ m ih =>
    have ih := ih (by omega)
    have hpost : Postorder T.parent (List.range m ++ m :: List.range' (m + 1) (T.ns - (m + 1))) :=
      AssemblyTree.range_split (show m < T.ns by omega) ▸ T.postorder
    obtain ⟨low, kids, hopen, hkids, hopen'⟩ := hpost.openNodes_split
    have hperm : kids.Perm (T.children m) := by
      have hnodup : (low ++ kids).Nodup := hopen ▸ List.nodup_range.filter _
      refine (List.perm_ext_iff_of_nodup (List.nodup_append.mp hnodup).2.1
        (T.children_nodup m)).mpr fun c => ?_
      rw [hkids, T.mem_children]
    rw [hopen, List.flatMap_append] at ih
    rw [List.range_succ, hopen', List.flatMap_append, List.flatMap_append, List.flatMap_append,
      List.flatMap_singleton, List.flatMap_singleton, List.flatMap_singleton]
    -- the eligible columns of the front are among those of the tree
    have hsplit : ((List.range m).flatMap (fun s => (pivots s).flatMap Pivot.columns) ++
        low.flatMap delayed ++ ((T.children m).flatMap delayed ++ ownColumns T m)).Perm
          ((List.range m).flatMap (ownColumns T) ++ ownColumns T m) := by
      have hkid : (kids.flatMap delayed).Perm ((T.children m).flatMap delayed) :=
        hperm.flatMap_right delayed
      rw [← List.append_assoc]
      refine .append_right _ (.trans ?_ ih)
      rw [List.append_assoc]
      exact .append_left _ (.append_left _ hkid.symm)
    have hnodup : ((T.children m).flatMap delayed ++ ownColumns T m).Nodup := by
      have hall : ((List.range (m + 1)).flatMap (ownColumns T)).Nodup := by
        have hsub : ((List.range (m + 1)).flatMap (ownColumns T)).Sublist
            ((List.range T.ns).flatMap (ownColumns T)) :=
          (List.range_sublist.mpr hm).flatMap _
        refine hsub.nodup (hT.columns.nodup_iff.mpr ?_)
        exact List.nodup_range.map Nat.cast_injective
      rw [List.range_succ, List.flatMap_append, List.flatMap_singleton] at hall
      exact (List.nodup_append.mp (hsplit.nodup_iff.mpr hall)).2.1
    refine .trans ?_ hsplit
    rw [List.append_assoc, List.append_assoc]
    refine .append_left _ ?_
    have hswap : ((pivots m).flatMap Pivot.columns ++ (low.flatMap delayed ++ delayed m)).Perm
        (low.flatMap delayed ++ ((pivots m).flatMap Pivot.columns ++ delayed m)) := by
      rw [← List.append_assoc, ← List.append_assoc]
      exact .append_right _ List.perm_append_comm
    exact hswap.trans (.append_left _ (h.takes m (by omega) hnodup))

/-- Every column is in one pivot, once. -/
theorem FlowOf.pivots_perm (h : FlowOf T pivots delayed) (hT : Covers T n) :
    (((List.range T.ns).flatMap pivots).flatMap Pivot.columns).Perm ((List.range n).map (↑)) := by
  have hroots : (openNodes T.parent (List.range T.ns)).flatMap delayed = [] := by
    refine List.flatMap_eq_nil_iff.mpr fun s hs => ?_
    obtain ⟨hmem, hopen⟩ := mem_openNodes.mp hs
    rw [List.mem_range] at hmem
    cases hp : T.parent s with
    | none => exact h.root s hmem hp
    | some t => exact absurd (List.mem_range.mpr (hT.parent_lt s hmem t hp)) (hopen t hp)
  have hall := h.flows hT (le_refl T.ns)
  rw [hroots, List.append_nil] at hall
  rw [List.flatMap_assoc]
  exact hall.trans hT.columns

end Flow

end Factor
end SmfSolver
