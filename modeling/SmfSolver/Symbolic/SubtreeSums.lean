/-
  SmfSolver.Symbolic.SubtreeSums

  Sums over the subtrees of a forest whose parents are larger than their children, and
  where the subtrees lie in a postorder.

  * `sumUp_eq`: the upward pass leaves at every vertex the sum over its subtree.
  * `PostIndex`: a subtree fills the positions from its first descendant to its root.
-/
import SmfSolver.Symbolic.ColumnCounts
import SmfSolver.Symbolic.EtreeSpec
import Mathlib.Algebra.BigOperators.Group.Finset.Basic
import Mathlib.Algebra.BigOperators.Ring.Finset

namespace SmfSolver
namespace Symbolic

open Lib
open scoped BigOperators

/-- `s` is `c` or above `c`. -/
abbrev Up (parent : ℕ → Option ℕ) : ℕ → ℕ → Prop :=
  Relation.ReflTransGen fun c s => parent c = some s

section Up

variable {n u v w j p : ℕ} {parent : ℕ → Option ℕ}

theorem Upward.up_lt (h : Upward n parent) (hup : Up parent u v) (hu : u < n) : u ≤ v ∧ v < n := by
  induction hup with
  | refl => exact ⟨le_rfl, hu⟩
  | tail _ hstep ih =>
    obtain ⟨hlt, hn⟩ := h _ ih.2 _ hstep
    exact ⟨ih.1.trans hlt.le, hn⟩

/-- What lies above one vertex lies on one path. -/
theorem Upward.up_total (h : Upward n parent) (hv : Up parent u v) (hw : Up parent u w) :
    Up parent v w ∨ Up parent w v :=
  RootedForest.Up.total (T := forestOf n parent h) hv hw

theorem up_eq_or (h : Up parent u v) : u = v ∨ ∃ p, parent u = some p ∧ Up parent p v :=
  Relation.ReflTransGen.cases_head h

theorem Upward.up_antisymm (h : Upward n parent) (hu : u < n) (huv : Up parent u v)
    (hvu : Up parent v u) : u = v :=
  le_antisymm (h.up_lt huv hu).1 (h.up_lt hvu (h.up_lt huv hu).2).1

/-! ## Sums -/

open Classical in
/-- The sum of the weights in the subtree at `v`. -/
noncomputable def subtreeSum (n : ℕ) (parent : ℕ → Option ℕ) (weight : ℕ → ℤ) (v : ℕ) : ℤ :=
  ∑ u ∈ Finset.range n, if Up parent u v then weight u else 0

open Classical in
/-- A change of one weight changes the sums above it. -/
theorem subtreeSum_update (weight : ℕ → ℤ) (c : ℤ) (hj : j < n) :
    subtreeSum n parent (Function.update weight j (weight j + c)) v
      = subtreeSum n parent weight v + if Up parent j v then c else 0 := by
  unfold subtreeSum
  have hpoint : ∀ u ∈ Finset.range n,
      (if Up parent u v then Function.update weight j (weight j + c) u else 0)
        = (if Up parent u v then weight u else 0)
          + if u = j then (if Up parent j v then c else 0) else 0 := by
    intro u _
    by_cases hu : u = j
    · subst hu
      rw [Function.update_self, if_pos rfl]
      split_ifs <;> simp
    · rw [Function.update_of_ne hu, if_neg hu, add_zero]
  rw [Finset.sum_congr rfl hpoint, Finset.sum_add_distrib, Finset.sum_ite_eq',
    if_pos (Finset.mem_range.mpr hj)]

/-- Paths along the links of the vertices below `m`. -/
abbrev UpBelow (parent : ℕ → Option ℕ) (m : ℕ) : ℕ → ℕ → Prop :=
  Relation.ReflTransGen fun c s => parent c = some s ∧ c < m

theorem UpBelow.up {m : ℕ} (h : UpBelow parent m u v) : Up parent u v :=
  Relation.ReflTransGen.mono (fun _ _ hs => hs.1) _ _ h

/-- With the links of `m` there are the paths through `m` to its parent, and no others. -/
theorem upBelow_succ (h : Upward n parent) (hu : u < n) {m : ℕ} :
    UpBelow parent (m + 1) u v ↔ UpBelow parent m u v ∨ parent m = some v ∧
      UpBelow parent m u m := by
  constructor
  · intro hup
    induction hup with
    | refl => exact .inl .refl
    | @tail y z _ hstep ih =>
      obtain ⟨hz, hym⟩ := hstep
      rcases ih with ih | ⟨hy, hum⟩
      · rcases Nat.lt_succ_iff_lt_or_eq.mp hym with hlt | rfl
        · exact .inl (ih.tail ⟨hz, hlt⟩)
        · exact .inr ⟨hz, ih⟩
      · have hmn := (h.up_lt hum.up hu).2
        have := (h m hmn y hy).1
        omega
  · have hmono : ∀ {w}, UpBelow parent m u w → UpBelow parent (m + 1) u w :=
      fun hw => Relation.ReflTransGen.mono (fun _ _ hs => ⟨hs.1, Nat.lt_succ_of_lt hs.2⟩) _ _ hw
    rintro (hup | ⟨hv, hup⟩)
    · exact hmono hup
    · exact (hmono hup).tail ⟨hv, Nat.lt_succ_self m⟩

theorem upBelow_disjoint (h : Upward n parent) (hu : u < n) {m : ℕ} (hv : parent m = some v)
    (hum : UpBelow parent m u m) : ¬UpBelow parent m u v := by
  intro huv
  have hmn := (h.up_lt hum.up hu).2
  have hlt := (h m hmn v hv).1
  rcases Relation.ReflTransGen.cases_tail huv with heq | ⟨y, huy, hyv, hym⟩
  · have := (h.up_lt hum.up hu).1
    omega
  · -- `y` is another vertex below `v` on the way up from `u`, and comes before `m`
    rcases h.up_total (UpBelow.up huy) hum.up with hup | hup
    · rcases up_eq_or hup with heq | ⟨p, hp, hpm⟩
      · omega
      · rw [hyv] at hp
        obtain rfl := Option.some.inj hp
        have := (h.up_lt hpm (h m hmn _ hv).2).1
        omega
    · have := (h.up_lt hup hmn).1
      omega

open Classical in
/-- The upward pass sums over the subtrees. -/
theorem sumUp_eq (h : Upward n parent) (weight : ℕ → ℤ) (v : ℕ) (hv : v < n) :
    sumUp n parent weight v = subtreeSum n parent weight v := by
  -- after `m` vertices a sum has what reaches it over vertices below `m`
  have hfold : ∀ m ≤ n, ∀ v < n, sumUp m parent weight v
        = ∑ u ∈ Finset.range n, if UpBelow parent m u v then weight u else 0 := by
    intro m
    induction m with
    | zero =>
      intro _ v hv
      have hpath : ∀ u, UpBelow parent 0 u v ↔ u = v := by
        refine fun u => ⟨fun hup => ?_, fun heq => heq ▸ .refl⟩
        rcases Relation.ReflTransGen.cases_tail hup with heq | ⟨y, -, -, hy⟩
        · exact heq.symm
        · exact absurd hy (Nat.not_lt_zero y)
      simp only [hpath]
      rw [Finset.sum_ite_eq', if_pos (Finset.mem_range.mpr hv)]
      rfl
    | succ m ih =>
      intro hm v hv
      rw [sumUp, List.range_succ, List.foldl_append, List.foldl_cons, List.foldl_nil, ← sumUp]
      have ih' := ih (by omega)
      -- one vertex more opens the way from its subtree to its parent
      have hsum : ∀ w, (∑ u ∈ Finset.range n, if UpBelow parent (m + 1) u w then weight u else 0)
          = (∑ u ∈ Finset.range n, if UpBelow parent m u w then weight u else 0)
            + ∑ u ∈ Finset.range n,
              if parent m = some w ∧ UpBelow parent m u m then weight u else 0 := by
        intro w
        rw [← Finset.sum_add_distrib]
        refine Finset.sum_congr rfl fun u hu => ?_
        have hpath := upBelow_succ (v := w) (m := m) h (Finset.mem_range.mp hu)
        by_cases hnew : parent m = some w ∧ UpBelow parent m u m
        · rw [if_pos (hpath.mpr (.inr hnew)), if_pos hnew,
            if_neg (upBelow_disjoint h (Finset.mem_range.mp hu) hnew.1 hnew.2), zero_add]
        · rw [if_neg hnew, add_zero]
          exact if_congr (hpath.trans ⟨fun hc => hc.resolve_right hnew, .inl⟩) rfl rfl
      rw [hsum v, ← ih' v hv]
      cases hp : parent m with
      | none => simp
      | some p =>
        have hpn := (h m (by omega) p hp).2
        by_cases hvp : v = p
        · subst hvp
          dsimp only
          rw [Function.update_self, ih' m (by omega)]
          simp
        · dsimp only
          rw [Function.update_of_ne hvp]
          simp [Ne.symm hvp]
  refine (hfold n le_rfl v hv).trans ?_
  refine Finset.sum_congr rfl fun u hu => if_congr ⟨UpBelow.up, fun hup => ?_⟩ rfl rfl
  clear hv
  induction hup with
  | refl => exact .refl
  | tail hy hstep ih => exact ih.tail ⟨hstep, (h.up_lt hy (Finset.mem_range.mp hu)).2⟩

end Up

/-! ## Positions in a postorder -/

section Position

variable {n u v : ℕ} {parent : ℕ → Option ℕ} {pos low : ℕ → ℕ} {post : List ℕ}

/-- The positions of a postorder: the subtree at `v` fills those from `low v` to that of `v`. -/
structure PostIndex (n : ℕ) (parent : ℕ → Option ℕ) (pos low : ℕ → ℕ) : Prop where
  pos_inj : ∀ u < n, ∀ v < n, pos u = pos v → u = v
  block : ∀ v < n, ∀ u < n, Up parent u v ↔ low v ≤ pos u ∧ pos u ≤ pos v
  low_pos : ∀ v < n, ∃ w < n, pos w = low v

/-- The links of the vertices. -/
abbrev vertexParent (n : ℕ) (parent : ℕ → Option ℕ) (j : ℕ) : Option ℕ :=
  if j < n then parent j else none

theorem vertexParent_of_lt (hu : u < n) : vertexParent n parent u = parent u := if_pos hu

theorem Upward.below_iff (h : Upward n parent) (hu : u < n) :
    Multifrontal.Below (vertexParent n parent) u v ↔ Up parent u v ∧ u ≠ v := by
  constructor
  · intro hbelow
    induction hbelow with
    | @single y hstep =>
      rw [vertexParent_of_lt hu] at hstep
      exact ⟨.single hstep, (h u hu y hstep).1.ne⟩
    | @tail y z _ hstep ih =>
      obtain ⟨hle, hy⟩ := h.up_lt ih.1 hu
      rw [vertexParent_of_lt hy] at hstep
      have := (h y hy z hstep).1
      exact ⟨ih.1.tail hstep, by omega⟩
  · rintro ⟨hup, hne⟩
    induction hup with
    | refl => exact absurd rfl hne
    | @tail y z huy hstep ih =>
      have hy := (h.up_lt huy hu).2
      have hstep' : vertexParent n parent y = some z := by rw [vertexParent_of_lt hy]; exact hstep
      by_cases huy' : u = y
      · subst huy'
        exact .single hstep'
      · exact (ih huy').tail hstep'

theorem exists_postIndex (h : Upward n parent) (hperm : post.Perm (List.range n))
    (hpost : Multifrontal.Postorder (vertexParent n parent) post) :
    ∃ low, PostIndex n parent post.idxOf low := by
  have hmem : ∀ {v}, v ∈ post ↔ v < n := hperm.mem_iff.trans List.mem_range
  have hblock : ∀ v, ∃ lo, v < n → (∀ u < n, Up parent u v ↔ lo ≤ post.idxOf u ∧
      post.idxOf u ≤ post.idxOf v) ∧ ∃ w < n, post.idxOf w = lo := by
    intro v
    by_cases hv : v < n
    · obtain ⟨pre, rest, hsplit⟩ := List.append_of_mem (hmem.mpr hv)
      obtain ⟨head, sub, hpre, hsub⟩ := hpost.block pre v rest hsplit
      rw [hpre] at hsplit
      have hnodup := hpost.nodup
      rw [hsplit] at hnodup
      -- where the vertices stand
      have hhead : ∀ u ∈ head, post.idxOf u < head.length := by
        intro u hu
        rw [hsplit, List.append_assoc, List.idxOf_append_of_mem hu]
        exact List.idxOf_lt_length_of_mem hu
      have hnot : ∀ u, u ∈ sub ∨ u = v → u ∉ head := by
        rintro u (hu | rfl) hmemh
        · exact (List.nodup_append.mp (List.nodup_append.mp hnodup).1).2.2 u hmemh u hu rfl
        · exact (List.nodup_append.mp hnodup).2.2 u (List.mem_append_left _ hmemh) u
            List.mem_cons_self rfl
      have hvsub : v ∉ sub := fun hvs => (List.nodup_append.mp hnodup).2.2 v
        (List.mem_append_right _ hvs) v List.mem_cons_self rfl
      have hin : ∀ u ∈ sub, head.length ≤ post.idxOf u ∧
          post.idxOf u < head.length + sub.length := by
        intro u hu
        rw [hsplit, List.append_assoc, List.idxOf_append_of_notMem (hnot u (.inl hu)),
          List.idxOf_append_of_mem hu]
        have := List.idxOf_lt_length_of_mem hu
        omega
      have hself : post.idxOf v = head.length + sub.length := by
        rw [hsplit, List.append_assoc, List.idxOf_append_of_notMem (hnot v (.inr rfl)),
          List.idxOf_append_of_notMem hvsub, List.idxOf_cons_self, Nat.add_zero]
      have hrest : ∀ u, u < n → u ∉ head → u ∉ sub → u ≠ v →
          head.length + sub.length < post.idxOf u := by
        intro u _ huh hus huv
        rw [hsplit, List.append_assoc, List.idxOf_append_of_notMem huh,
          List.idxOf_append_of_notMem hus, List.idxOf_cons_ne _ (Ne.symm huv)]
        omega
      refine ⟨head.length, fun _ => ⟨fun u hu => ?_, ?_⟩⟩
      · have hup : Up parent u v ↔ u ∈ sub ∨ u = v := by
          rw [hsub u, h.below_iff hu]
          constructor
          · intro hup
            by_cases huv : u = v
            · exact .inr huv
            · exact .inl ⟨hup, huv⟩
          · rintro (hup | rfl)
            · exact hup.1
            · exact .refl
        rw [hup, hself]
        constructor
        · rintro (hus | rfl)
          · have := hin u hus
            omega
          · omega
        · rintro ⟨hlo, hhi⟩
          by_contra hc
          rw [not_or] at hc
          by_cases huh : u ∈ head
          · have := hhead u huh
            omega
          · have := hrest u hu huh hc.1 hc.2
            omega
      · cases hs : sub with
        | nil =>
          refine ⟨v, hv, ?_⟩
          rw [hself, hs]
          rfl
        | cons w l =>
          have hw : w ∈ sub := by rw [hs]; exact List.mem_cons_self
          refine ⟨w, hmem.mp (hsplit ▸ List.mem_append_left _ (List.mem_append_right _ hw)), ?_⟩
          rw [hsplit, List.append_assoc, List.idxOf_append_of_notMem (hnot w (.inl hw)), hs,
            List.cons_append, List.idxOf_cons_self, Nat.add_zero]
    · exact ⟨0, fun hc => absurd hc hv⟩
  choose low hlow using hblock
  refine ⟨low, fun u hu v hv heq => ?_, fun v hv => (hlow v hv).1, fun v hv => (hlow v hv).2⟩
  exact (List.idxOf_inj (hmem.mpr hu)).mp heq

namespace PostIndex

variable (P : PostIndex n parent pos low)
include P

theorem low_le (hv : v < n) : low v ≤ pos v := ((P.block v hv v hv).mp .refl).1

theorem pos_le (hu : u < n) (hv : v < n) (hup : Up parent u v) : pos u ≤ pos v :=
  ((P.block v hv u hu).mp hup).2

/-- The first descendant of an ancestor comes no later. -/
theorem low_anti (hu : u < n) (hv : v < n) (hup : Up parent u v) : low v ≤ low u := by
  obtain ⟨w, hw, hpos⟩ := P.low_pos u hu
  have hle := P.low_le hu
  have hwu : Up parent w u := (P.block u hu w hw).mpr ⟨hpos.ge, by omega⟩
  rw [← hpos]
  exact ((P.block v hv w hw).mp (hwu.trans hup)).1

/-- A vertex that comes later and has an earlier first descendant is above. -/
theorem up_of_low_le (hu : u < n) (hv : v < n) (hle : pos u ≤ pos v) (hlow : low v ≤ pos u) :
    Up parent u v := (P.block v hv u hu).mpr ⟨hlow, hle⟩

/-- A vertex is its own first descendant when it has no child. -/
theorem low_eq_pos_iff (h : Upward n parent) (hv : v < n) :
    low v = pos v ↔ ∀ c < n, parent c ≠ some v := by
  constructor
  · intro heq c hc hcv
    have hb := (P.block v hv c hc).mp (.single hcv)
    have := P.pos_inj c hc v hv (by omega)
    have := (h c hc v hcv).1
    omega
  · intro hleaf
    obtain ⟨w, hw, hpos⟩ := P.low_pos v hv
    have hle := P.low_le hv
    have hwv : Up parent w v := (P.block v hv w hw).mpr ⟨hpos.ge, by omega⟩
    rcases Relation.ReflTransGen.cases_tail hwv with heq | ⟨c, hwc, hcv⟩
    · rw [← hpos, heq]
    · exact absurd hcv (hleaf c (h.up_lt hwc hw).2)

end PostIndex

end Position

end Symbolic
end SmfSolver
