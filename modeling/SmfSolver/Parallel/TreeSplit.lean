/-
  SmfSolver.Parallel.TreeSplit

  What `partition_subtrees` and `partition_tasks` make of a forest: a top part that is closed
  under taking parents, and ranges of whole subtrees under it.

  Both take the nodes heavier than the target as the top part, one by popping the heaviest
  subtree and one by a look at every node.  The subtrees that are left are the ranges between
  their first node and their root (`span_iff`); merged, they still are whole subtrees.
-/
import SmfSolver.Parallel.ThreadPlanSpec
import Mathlib.Tactic.Linarith

namespace SmfSolver
namespace Parallel

open Lib Multifrontal

variable {K : Type*} [Field K] [LinearOrder K]

namespace TreeView

variable {t : TreeView K} {s p c x : ℕ}

/-- A node's place in the postorder. -/
def place (t : TreeView K) (s : ℕ) : ℕ := t.postorder.idxOf s

/-- The node lies in the range. -/
def InRange (t : TreeView K) (r : ℕ × ℕ) (s : ℕ) : Prop := r.1 ≤ t.place s ∧ t.place s ≤ r.2

/-- What a partition is: ranges of the postorder that do not meet, each of whole subtrees
    whose roots have a parent in the top part or none, and the nodes in no range are the top
    part, which takes a node's parent with the node. -/
structure Splits (t : TreeView K) (ranges : List (ℕ × ℕ)) (top : ℕ → Bool) : Prop where
  topClosed : ∀ s p, t.parent s = some p → top s = true → top p = true
  bound : ∀ r ∈ ranges, r.1 ≤ r.2 ∧ r.2 < t.ns
  disjoint : ranges.Pairwise fun r r' => r.2 < r'.1 ∨ r'.2 < r.1
  whole : ∀ r ∈ ranges, ∀ s < t.ns, t.InRange r s → ∀ x, Below t.parent x s → t.InRange r x
  roots : ∀ r ∈ ranges, ∀ s < t.ns, t.InRange r s → ∀ p, t.parent s = some p →
    t.InRange r p ∨ top p = true
  cover : ∀ s < t.ns, top s = false ↔ ∃ r ∈ ranges, t.InRange r s

/-! ## Places -/

theorem getElem?_place (hs : s < t.ns) : t.postorder[t.place s]? = some s :=
  List.getElem?_idxOf (mem_postorder.mpr hs)

theorem place_lt (hs : s < t.ns) : t.place s < t.ns := by
  have hlt := List.idxOf_lt_length_iff.mpr (mem_postorder.mpr hs)
  rwa [t.perm.length_eq, List.length_range] at hlt

theorem place_inj (hs : s < t.ns) (hx : x < t.ns) (h : t.place s = t.place x) : s = x :=
  Option.some.inj ((getElem?_place hs).symm.trans (h ▸ getElem?_place hx))

theorem exists_place {k : ℕ} (hk : k < t.ns) : ∃ s < t.ns, t.place s = k := by
  have hlt : k < t.postorder.length := by rwa [t.perm.length_eq, List.length_range]
  exact ⟨t.postorder[k], mem_postorder.mp (List.getElem_mem hlt),
    nodup_postorder.idxOf_getElem k hlt⟩

theorem last_eq (hs : s < t.ns) : t.subtreeSums.last s = t.place s :=
  (subtreeSums_summed t).last _ s (getElem?_place hs)

/-- The descendants of a node lie right before it. -/
theorem exists_block (hs : s < t.ns) : ∃ b ≤ t.place s, ∀ x < t.ns,
    (x = s ∨ Below t.parent x s) ↔ b ≤ t.place x ∧ t.place x ≤ t.place s := by
  obtain ⟨pre, post, hsplit⟩ := List.append_of_mem (mem_postorder.mpr hs)
  obtain ⟨head, sub, hpre, hsub⟩ := t.isPostorder.block pre s post hsplit
  have hnodup : t.postorder.Nodup := nodup_postorder
  -- the postorder around `s`: its subtree right before it
  have hplace : t.place s = pre.length := by
    have hget := congrArg (·[pre.length]?) hsplit
    rw [List.getElem?_append_right le_rfl, Nat.sub_self] at hget
    obtain ⟨hlt, hval⟩ := List.getElem?_eq_some_iff.mp hget
    exact (congrArg t.place hval.symm).trans (hnodup.idxOf_getElem _ hlt)
  have hlen : pre.length = head.length + sub.length := by rw [hpre, List.length_append]
  refine ⟨head.length, by omega, fun x hx => ?_⟩
  rw [← hsub x]
  have hget := getElem?_place hx
  constructor
  · rintro (rfl | hmem)
    · omega
    · obtain ⟨i, hi, hval⟩ := List.getElem_of_mem hmem
      have hxi : t.postorder[head.length + i]? = some x := by
        rw [hsplit, hpre, List.append_assoc, List.getElem?_append_right (Nat.le_add_right ..),
          Nat.add_sub_cancel_left, List.getElem?_append_left hi, List.getElem?_eq_getElem hi, hval]
      obtain ⟨hlt, hval'⟩ := List.getElem?_eq_some_iff.mp hxi
      have hxplace : t.place x = head.length + i :=
        (congrArg t.place hval'.symm).trans (hnodup.idxOf_getElem _ hlt)
      omega
  · rintro ⟨hlo, hhi⟩
    rcases Nat.lt_or_ge (t.place x) (t.place s) with hlt | hge
    · right
      rw [hsplit, hpre, List.append_assoc, List.getElem?_append_right hlo,
        List.getElem?_append_left (by omega)] at hget
      exact List.mem_of_getElem? hget
    · exact Or.inl (place_inj hx hs (le_antisymm hhi hge))

theorem foldl_min_le {f : ℕ → ℕ} {l : List ℕ} {b : ℕ} :
    l.foldl (fun m c => min m (f c)) b ≤ b ∧ ∀ c ∈ l, l.foldl (fun m c => min m (f c)) b ≤ f c := by
  induction l generalizing b with
  | nil => exact ⟨le_rfl, fun c hc => absurd hc List.not_mem_nil⟩
  | cons a l ih =>
    obtain ⟨hb, hl⟩ := ih (b := min b (f a))
    refine ⟨hb.trans (min_le_left _ _), fun c hc => ?_⟩
    rcases List.mem_cons.mp hc with rfl | hc
    · exact hb.trans (min_le_right _ _)
    · exact hl c hc

theorem le_foldl_min {f : ℕ → ℕ} {l : List ℕ} {b m : ℕ} (hb : m ≤ b) (hl : ∀ c ∈ l, m ≤ f c) :
    m ≤ l.foldl (fun m c => min m (f c)) b := by
  induction l generalizing b with
  | nil => exact hb
  | cons a l ih =>
    exact ih (le_min hb (hl a (List.mem_cons_self ..))) fun c hc => hl c (List.mem_cons_of_mem _ hc)

/-- A node and its descendants are its range. -/
theorem span_iff (hs : s < t.ns) : ∀ x < t.ns, (x = s ∨ Below t.parent x s) ↔
    t.subtreeSums.first s ≤ t.place x ∧ t.place x ≤ t.place s := by
  refine induct (P := fun s => ∀ x < t.ns, (x = s ∨ Below t.parent x s) ↔
    t.subtreeSums.first s ≤ t.place x ∧ t.place x ≤ t.place s) (fun s hs ih => ?_) s hs
  -- the postorder has the subtree in one block; `first` is the least place of its nodes
  obtain ⟨b, hb, hblock⟩ := exists_block hs
  have hfirst : t.subtreeSums.first s = b := by
    rw [(subtreeSums_summed t).first s (mem_postorder.mpr hs), last_eq hs]
    refine le_antisymm ?_ (le_foldl_min hb fun c hc => ?_)
    · -- the node at `b` is `s`, or below a child
      obtain ⟨x, hx, hxb⟩ := exists_place (hb.trans_lt (place_lt hs))
      rcases (hblock x hx).mpr (by omega) with rfl | hbelow
      · exact hxb ▸ foldl_min_le.1
      · obtain ⟨c, hup, hc⟩ := Relation.TransGen.tail'_iff.mp hbelow
        have hxc : x = c ∨ Below t.parent x c := by
          rcases Relation.reflTransGen_iff_eq_or_transGen.mp hup with heq | hlt
          · exact Or.inl heq.symm
          · exact Or.inr hlt
        have hle := ((ih c hc x hx).mp hxc).1
        exact (foldl_min_le.2 c ((mem_kids hs).mpr hc)).trans (hle.trans_eq hxb)
    · have hc := (mem_kids hs).mp hc
      have hclt := lt_of_parent hc
      have hself := ((ih c hc c hclt).mp (Or.inl rfl)).1
      obtain ⟨y, hy, hyc⟩ := exists_place (hself.trans_lt (place_lt hclt))
      have hyc' : y = c ∨ Below t.parent y c := (ih c hc y hy).mpr ⟨hyc.ge, hyc ▸ hself⟩
      have hys : Below t.parent y s := by
        rcases hyc' with rfl | hbelow
        · exact .single hc
        · exact hbelow.tail hc
      exact hyc ▸ ((hblock y hy).mp (Or.inr hys)).1
  rw [hfirst]
  exact hblock

theorem first_le_place (hs : s < t.ns) : t.subtreeSums.first s ≤ t.place s :=
  ((span_iff hs s hs).mp (Or.inl rfl)).1

theorem lt_of_below (h : Below t.parent x s) : x < t.ns := by
  obtain ⟨y, hy, -⟩ := Relation.TransGen.head'_iff.mp h
  exact lt_of_parent hy

/-- What a node has when its parent has it. -/
theorem inductUp {P : ℕ → Prop} (h : ∀ s < t.ns, (∀ p, t.parent s = some p → P p) → P s) :
    ∀ s < t.ns, P s := by
  have hpost : ∀ post pre, t.postorder = pre ++ post → ∀ s ∈ post, P s := by
    intro post
    induction post with
    | nil => exact fun _ _ s hs => absurd hs List.not_mem_nil
    | cons s post ih =>
      intro pre hsplit
      have hrest := ih (pre ++ [s]) (by rw [hsplit, List.append_assoc]; rfl)
      intro s' hs'
      rcases List.mem_cons.mp hs' with rfl | hs'
      · have hlt : s' < t.ns :=
          mem_postorder.mp (hsplit ▸ List.mem_append_right _ (List.mem_cons_self ..))
        refine h s' hlt fun p hp => hrest p ?_
        have hmem : p ∈ pre ++ s' :: post := hsplit ▸ mem_postorder.mpr (t.parent_lt s' p hp)
        have hnot := (hsplit ▸ t.isPostorder : Postorder t.parent
          (pre ++ s' :: post)).parent_notMem hp
        rw [← List.singleton_append, ← List.append_assoc] at hmem
        exact (List.mem_append.mp hmem).resolve_left hnot
      · exact hrest s' hs'
  exact fun s hs => hpost t.postorder [] rfl s (mem_postorder.mpr hs)

/-! ## The subtrees under a target -/

section Target

variable [IsStrictOrderedRing K] {target : K}

omit [IsStrictOrderedRing K] in
theorem isSubtree_iff : t.isSubtree t.subtreeSums target s = true ↔
    heavy t.subtreeSums target s = false ∧
      ∀ p, t.parent s = some p → heavy t.subtreeSums target p = true := by
  unfold isSubtree
  cases hp : t.parent s <;> simp

theorem heavy_above (h : Below t.parent x s) (hx : heavy t.subtreeSums target x = true) :
    heavy t.subtreeSums target s = true := by
  induction h with
  | single h => exact heavy_parent target h hx
  | tail _ h ih => exact heavy_parent target h ih

/-- Under a target every node is heavy or in a subtree. -/
theorem light_iff (hx : x < t.ns) : heavy t.subtreeSums target x = false ↔
    ∃ s < t.ns, t.isSubtree t.subtreeSums target s = true ∧ (x = s ∨ Below t.parent x s) := by
  constructor
  · refine inductUp (P := fun x => heavy t.subtreeSums target x = false → ∃ s < t.ns,
      t.isSubtree t.subtreeSums target s = true ∧ (x = s ∨ Below t.parent x s))
      (fun x hx ih hlight => ?_) x hx
    by_cases hroot : ∀ p, t.parent x = some p → heavy t.subtreeSums target p = true
    · exact ⟨x, hx, isSubtree_iff.mpr ⟨hlight, hroot⟩, Or.inl rfl⟩
    · push Not at hroot
      obtain ⟨p, hp, hlight'⟩ := hroot
      obtain ⟨s, hs, hsub, hps⟩ := ih p hp (Bool.eq_false_iff.mpr hlight')
      refine ⟨s, hs, hsub, Or.inr ?_⟩
      rcases hps with rfl | hbelow
      · exact .single hp
      · exact .head hp hbelow
  · rintro ⟨s, -, hsub, hxs⟩
    refine Bool.eq_false_iff.mpr fun hheavy => ?_
    have hlight := (isSubtree_iff.mp hsub).1
    rcases hxs with rfl | hbelow
    · exact absurd hheavy (by rw [hlight]; exact Bool.false_ne_true)
    · exact absurd (heavy_above hbelow hheavy) (by rw [hlight]; exact Bool.false_ne_true)

/-- A subtree is not below another one. -/
theorem isSubtree_not_below (hs : t.isSubtree t.subtreeSums target s = true)
    (hx : t.isSubtree t.subtreeSums target x = true) : ¬Below t.parent x s := by
  intro hbelow
  obtain ⟨p, hp, hup⟩ := Relation.TransGen.head'_iff.mp hbelow
  have hheavy := (isSubtree_iff.mp hx).2 p hp
  have hlight := (isSubtree_iff.mp hs).1
  rcases Relation.reflTransGen_iff_eq_or_transGen.mp hup with heq | hlt
  · rw [heq, hheavy] at hlight
    cases hlight
  · rw [heavy_above hlt hheavy] at hlight
    cases hlight

/-- Of two subtrees the one that ends first lies before the other. -/
theorem place_lt_first (hs : s < t.ns) (hx : x < t.ns)
    (hsub : t.isSubtree t.subtreeSums target s = true)
    (hsub' : t.isSubtree t.subtreeSums target x = true) (h : t.place x < t.place s) :
    t.place x < t.subtreeSums.first s := by
  by_contra hle
  rcases (span_iff hs x hx).mpr ⟨not_lt.mp hle, h.le⟩ with rfl | hbelow
  · exact lt_irrefl _ h
  · exact isSubtree_not_below hsub hsub' hbelow

/-- Ranges put together from the subtrees of a target. -/
structure Merges (t : TreeView K) (target : K) (roots : List ℕ) (out : List (ℕ × ℕ)) : Prop where
  le : ∀ r ∈ out, r.1 ≤ r.2
  disjoint : out.Pairwise fun r r' => r.2 < r'.1 ∨ r'.2 < r.1
  covered : ∀ j, (∃ r ∈ out, r.1 ≤ j ∧ j ≤ r.2) ↔
    ∃ s ∈ roots, t.subtreeSums.first s ≤ j ∧ j ≤ t.place s
  whole : ∀ r ∈ out, ∀ s ∈ roots, ∀ j, r.1 ≤ j → j ≤ r.2 → t.subtreeSums.first s ≤ j →
    j ≤ t.place s → r.1 ≤ t.subtreeSums.first s ∧ t.place s ≤ r.2

/-- Any merger of all subtrees splits the tree. -/
theorem Merges.splits {roots : List ℕ} {out : List (ℕ × ℕ)} {top : ℕ → Bool}
    (h : Merges t target roots out)
    (hroots : ∀ s, s ∈ roots ↔ s < t.ns ∧ t.isSubtree t.subtreeSums target s = true)
    (htop : ∀ s, top s = true ↔ s < t.ns ∧ heavy t.subtreeSums target s = true) :
    t.Splits out top := by
  have htop' : ∀ s < t.ns, top s = false ↔ heavy t.subtreeSums target s = false := fun s hs => by
    rw [Bool.eq_false_iff, Bool.eq_false_iff, not_iff_not, htop s]
    exact and_iff_right hs
  -- the subtree that a node of a range is in
  have hfind : ∀ r ∈ out, ∀ s < t.ns, t.InRange r s → ∃ a < t.ns,
      t.isSubtree t.subtreeSums target a = true ∧ (s = a ∨ Below t.parent s a) ∧
        r.1 ≤ t.subtreeSums.first a ∧ t.place a ≤ r.2 := by
    intro r hr s hs hin
    obtain ⟨a, ha, hlo, hhi⟩ := (h.covered (t.place s)).mp ⟨r, hr, hin⟩
    obtain ⟨hlt, hsub⟩ := (hroots a).mp ha
    exact ⟨a, hlt, hsub, (span_iff hlt s hs).mpr ⟨hlo, hhi⟩,
      h.whole r hr a ha _ hin.1 hin.2 hlo hhi⟩
  refine ⟨fun s p hp hs => ?_, fun r hr => ⟨h.le r hr, ?_⟩, h.disjoint,
    fun r hr s hs hin x hx => ?_,
    fun r hr s hs hin p hp => ?_, fun s hs => ?_⟩
  · exact (htop p).mpr ⟨t.parent_lt s p hp, heavy_parent target hp ((htop s).mp hs).2⟩
  · obtain ⟨a, ha, -, hhi⟩ := (h.covered r.2).mp ⟨r, hr, h.le r hr, le_rfl⟩
    exact hhi.trans_lt (place_lt ((hroots a).mp ha).1)
  · obtain ⟨a, ha, hsub, hsa, hlo, hhi⟩ := hfind r hr s hs hin
    have hxa : Below t.parent x a := by
      rcases hsa with rfl | hbelow
      · exact hx
      · exact hx.trans hbelow
    have hspan := (span_iff ha x (lt_of_below hx)).mp (Or.inr hxa)
    exact ⟨hlo.trans hspan.1, hspan.2.trans hhi⟩
  · obtain ⟨a, ha, hsub, hsa, hlo, hhi⟩ := hfind r hr s hs hin
    rcases hsa with rfl | hbelow
    · exact Or.inr ((htop p).mpr ⟨t.parent_lt s p hp, (isSubtree_iff.mp hsub).2 p hp⟩)
    · left
      obtain ⟨q, hq, hup⟩ := Relation.TransGen.head'_iff.mp hbelow
      obtain rfl : q = p := Option.some.inj (hq.symm.trans hp)
      have hpa : q = a ∨ Below t.parent q a := by
        rcases Relation.reflTransGen_iff_eq_or_transGen.mp hup with heq | hlt
        · exact Or.inl heq.symm
        · exact Or.inr hlt
      have hspan := (span_iff ha q (t.parent_lt s q hp)).mp hpa
      exact ⟨hlo.trans hspan.1, hspan.2.trans hhi⟩
  · rw [htop' s hs, light_iff hs]
    constructor
    · rintro ⟨a, ha, hsub, hsa⟩
      exact (h.covered _).mpr ⟨a, (hroots a).mpr ⟨ha, hsub⟩, (span_iff ha s hs).mp hsa⟩
    · rintro ⟨r, hr, hin⟩
      obtain ⟨a, ha, hsub, hsa, -⟩ := hfind r hr s hs hin
      exact ⟨a, ha, hsub, hsa⟩

omit [IsStrictOrderedRing K] in
/-- The order of the ranges is no part of it. -/
theorem Merges.of_perm {roots roots' : List ℕ} {out out' : List (ℕ × ℕ)}
    (h : Merges t target roots out) (hout : out'.Perm out) (hroots : roots'.Perm roots) :
    Merges t target roots' out' where
  le := fun r hr => h.le r (hout.mem_iff.mp hr)
  disjoint := (hout.pairwise_iff fun h => h.symm).mpr h.disjoint
  covered := fun j => by
    simp only [hout.mem_iff, hroots.mem_iff]
    exact h.covered j
  whole := fun r hr s hs => h.whole r (hout.mem_iff.mp hr) s (hroots.mem_iff.mp hs)

/-- One subtree, one range. -/
theorem merges_map {roots : List ℕ} (hnodup : roots.Nodup)
    (hroots : ∀ s ∈ roots, s < t.ns ∧ t.isSubtree t.subtreeSums target s = true) :
    Merges t target roots (roots.map fun s => (t.subtreeSums.first s, t.place s)) := by
  -- of two subtrees one lies before the other
  have happart : ∀ s ∈ roots, ∀ x ∈ roots, s ≠ x →
      t.place s < t.subtreeSums.first x ∨ t.place x < t.subtreeSums.first s :=
        fun s hs x hx hne => by
    obtain ⟨hslt, hsub⟩ := hroots s hs
    obtain ⟨hxlt, hsub'⟩ := hroots x hx
    rcases Nat.lt_trichotomy (t.place s) (t.place x) with hlt | heq | hgt
    · exact Or.inl (place_lt_first hxlt hslt hsub' hsub hlt)
    · exact absurd (place_inj hslt hxlt heq) hne
    · exact Or.inr (place_lt_first hslt hxlt hsub hsub' hgt)
  refine ⟨fun r hr => ?_, ?_, fun j => ?_, fun r hr s hs j hlo hhi hlo' hhi' => ?_⟩
  · obtain ⟨s, hs, rfl⟩ := List.mem_map.mp hr
    exact first_le_place (hroots s hs).1
  · rw [List.pairwise_map]
    exact hnodup.pairwise_of_forall_ne fun s hs x hx hne => happart s hs x hx hne
  · constructor
    · rintro ⟨r, hr, hin⟩
      obtain ⟨s, hs, rfl⟩ := List.mem_map.mp hr
      exact ⟨s, hs, hin⟩
    · rintro ⟨s, hs, hin⟩
      exact ⟨_, List.mem_map_of_mem hs, hin⟩
  · obtain ⟨x, hx, rfl⟩ := List.mem_map.mp hr
    have heq : x = s := by
      by_contra hne
      have hx' := first_le_place (hroots x hx).1
      have hs' := first_le_place (hroots s hs).1
      have := happart x hx s hs hne
      omega
    exact heq ▸ ⟨le_rfl, le_rfl⟩

/-! ## Merging -/

section Merging

variable {roots : List ℕ} {out : List (ℕ × ℕ)} {b : ℕ × ℕ}

omit [IsStrictOrderedRing K] in
/-- A range that ends before a subtree ends before all its roots do. -/
theorem Merges.place_lt_first (h : Merges t target roots out) {m : ℕ}
    (hlast : ∀ r ∈ out, r.2 < m) (hroots : ∀ a ∈ roots, a < t.ns) : ∀ a ∈ roots, t.place a < m := by
  intro a ha
  obtain ⟨r, hr, -, hhi⟩ :=
    (h.covered (t.place a)).mpr ⟨a, ha, first_le_place (hroots a ha), le_rfl⟩
  exact hhi.trans_lt (hlast r hr)

omit [IsStrictOrderedRing K] in
/-- A subtree behind the others. -/
theorem Merges.push (h : Merges t target roots out) (hs : s < t.ns)
    (hroots : ∀ a ∈ roots, a < t.ns) (hlast : ∀ r ∈ out, r.2 < t.subtreeSums.first s) :
    Merges t target (roots ++ [s]) (out ++ [(t.subtreeSums.first s, t.place s)]) := by
  have hbefore := h.place_lt_first hlast hroots
  have hself := first_le_place hs
  refine ⟨fun r hr => ?_, ?_, fun j => ?_, fun r hr a ha j hlo hhi hlo' hhi' => ?_⟩
  · rcases List.mem_append.mp hr with hr | hr
    · exact h.le r hr
    · rw [List.mem_singleton.mp hr]
      exact hself
  · refine List.pairwise_append.mpr ⟨h.disjoint, List.pairwise_singleton .., fun r hr r' hr' => ?_⟩
    rw [List.mem_singleton.mp hr']
    exact Or.inl (hlast r hr)
  · simp only [List.mem_append, List.mem_singleton, or_and_right, exists_or, exists_eq_left,
      h.covered j]
  · rcases List.mem_append.mp hr with hold | hnew <;> rcases List.mem_append.mp ha
      with hold' | hnew'
    · exact h.whole r hold a hold' j hlo hhi hlo' hhi'
    · obtain rfl := List.mem_singleton.mp hnew'
      have := hlast r hold
      omega
    · obtain rfl := List.mem_singleton.mp hnew
      have := hbefore a hold'
      dsimp only at hlo
      omega
    · obtain rfl := List.mem_singleton.mp hnew
      obtain rfl := List.mem_singleton.mp hnew'
      exact ⟨le_rfl, le_rfl⟩

omit [IsStrictOrderedRing K] in
/-- A subtree that begins where the last range ends. -/
theorem Merges.extend (h : Merges t target roots (out ++ [b])) (hs : s < t.ns)
    (hroots : ∀ a ∈ roots, a < t.ns) (hlast : ∀ r ∈ out ++ [b], r.2 < t.subtreeSums.first s)
    (hadj : b.2 + 1 = t.subtreeSums.first s) :
    Merges t target (roots ++ [s]) (out ++ [(b.1, t.place s)]) := by
  have hbefore := h.place_lt_first hlast hroots
  have hself := first_le_place hs
  have hb : b ∈ out ++ [b] := List.mem_append_right _ (List.mem_singleton_self b)
  have hble := h.le b hb
  refine ⟨fun r hr => ?_, ?_, fun j => ?_, fun r hr a ha j hlo hhi hlo' hhi' => ?_⟩
  · rcases List.mem_append.mp hr with hr | hr
    · exact h.le r (List.mem_append_left _ hr)
    · rw [List.mem_singleton.mp hr]
      dsimp only
      omega
  -- only the last range grows, and by places that no range before it has
  · obtain ⟨hout, -, hcross⟩ := List.pairwise_append.mp h.disjoint
    refine List.pairwise_append.mpr ⟨hout, List.pairwise_singleton .., fun r hr r' hr' => ?_⟩
    rw [List.mem_singleton.mp hr']
    have hr₁ := h.le r (List.mem_append_left _ hr)
    have hr₂ := hlast r (List.mem_append_left _ hr)
    have hr₃ := hcross r hr b (List.mem_singleton_self b)
    dsimp only
    omega
  · have hold := h.covered j
    simp only [List.mem_append, List.mem_singleton, or_and_right, exists_or, exists_eq_left]
      at hold ⊢
    rw [← hold, or_assoc]
    refine or_congr_right ?_
    omega
  · rcases List.mem_append.mp hr with hold | hnew <;> rcases List.mem_append.mp ha
      with hold' | hnew'
    · exact h.whole r (List.mem_append_left _ hold) a hold' j hlo hhi hlo' hhi'
    · obtain rfl := List.mem_singleton.mp hnew'
      have := hlast r (List.mem_append_left _ hold)
      omega
    · obtain rfl := List.mem_singleton.mp hnew
      have hend := hbefore a hold'
      have hwhole := h.whole b hb a hold' j hlo (by omega) hlo' hhi'
      dsimp only
      omega
    · obtain rfl := List.mem_singleton.mp hnew
      obtain rfl := List.mem_singleton.mp hnew'
      dsimp only
      omega

end Merging

omit [IsStrictOrderedRing K] in
theorem mergeInto_eq (grain : K) (out : List (Range K)) (r : Range K) :
    mergeInto grain out r = out ++ [r] ∨
      ∃ init b, out = init ++ [b] ∧ b.hi + 1 = r.lo ∧
        mergeInto grain out r = init ++ [⟨b.lo, r.hi, b.work + r.work⟩] := by
  unfold mergeInto
  rcases List.eq_nil_or_concat out with rfl | ⟨init, b, rfl⟩
  · exact Or.inl rfl
  · rw [List.concat_eq_append, List.getLast?_concat, List.dropLast_concat]
    dsimp only
    split_ifs with h
    · exact Or.inr ⟨init, b, rfl, h.1, rfl⟩
    · exact Or.inl rfl

/-- The tasks are mergers of the subtrees. -/
theorem mergedTasks_merges (t : TreeView K) (target subTotal : K) (threads : ℤ) :
    Merges t target (t.postorder.filter fun s => t.isSubtree t.subtreeSums target s)
      ((t.mergedTasks t.subtreeSums target subTotal threads).map fun r => (r.lo, r.hi)) := by
  have hrun : ∀ pre post, t.postorder = pre ++ post →
      Merges t target (pre.filter fun s => t.isSubtree t.subtreeSums target s)
        ((pre.foldl (fun out s =>
          if t.isSubtree t.subtreeSums target s then
            mergeInto (taskGrain subTotal threads) out
              ⟨t.subtreeSums.first s, t.subtreeSums.last s, t.subtreeSums.work s⟩
          else out) []).map fun r => (r.lo, r.hi)) := by
    intro pre
    induction pre using List.reverseRecOn with
    | nil =>
      refine fun _ _ => ⟨fun r hr => absurd hr List.not_mem_nil, List.Pairwise.nil, fun j => ?_,
        fun r hr => absurd hr List.not_mem_nil⟩
      simp
    | append_singleton pre s ih =>
      intro post hsplit
      rw [List.append_assoc, List.singleton_append] at hsplit
      have hmerges := ih _ hsplit
      rw [List.filter_append, List.foldl_append, List.foldl_cons, List.foldl_nil]
      by_cases hsub : t.isSubtree t.subtreeSums target s = true
      · have hs : s < t.ns :=
          mem_postorder.mp (hsplit ▸ List.mem_append_right _ (List.mem_cons_self ..))
        have hroots : ∀ a ∈ pre.filter fun s => t.isSubtree t.subtreeSums target s, a < t.ns :=
          fun a ha => mem_postorder.mp (hsplit ▸ List.mem_append_left _ (List.mem_of_mem_filter ha))
        -- a range ends with a subtree, which lies before this one
        have hlast : ∀ r ∈ (pre.foldl (fun out s =>
            if t.isSubtree t.subtreeSums target s then
              mergeInto (taskGrain subTotal threads) out
                ⟨t.subtreeSums.first s, t.subtreeSums.last s, t.subtreeSums.work s⟩
            else out) []).map fun r => (r.lo, r.hi), r.2 < t.subtreeSums.first s := by
          intro r hr
          obtain ⟨a, ha, -, hhi⟩ := (hmerges.covered r.2).mp ⟨r, hr, hmerges.le r hr, le_rfl⟩
          obtain ⟨hapre, hasub⟩ := List.mem_filter.mp ha
          have hplace : t.place a < t.place s := by
            have hs' : s ∉ pre :=
              (hsplit ▸ t.isPostorder : Postorder t.parent (pre ++ s :: post)).notMem_pre
            unfold place
            rw [hsplit, List.idxOf_append_of_mem hapre, List.idxOf_append_of_notMem hs',
              List.idxOf_cons_self, Nat.add_zero]
            exact List.idxOf_lt_length_iff.mpr hapre
          exact hhi.trans_lt (TreeView.place_lt_first hs (hroots a ha) hsub hasub hplace)
        have hfilter : [s].filter (fun s => t.isSubtree t.subtreeSums target s) = [s] :=
          List.filter_eq_self.mpr fun a ha => by rw [List.mem_singleton.mp ha]; exact hsub
        rw [if_pos hsub, hfilter]
        rcases mergeInto_eq (taskGrain subTotal threads) _
          ⟨t.subtreeSums.first s, t.subtreeSums.last s, t.subtreeSums.work s⟩ with heq |
            ⟨init, b, hout, hadj, heq⟩
        · rw [heq, List.map_append, List.map_singleton, last_eq hs]
          exact hmerges.push hs hroots hlast
        · rw [heq]
          rw [hout, List.map_append, List.map_singleton] at hmerges hlast
          rw [List.map_append, List.map_singleton, last_eq hs]
          exact hmerges.extend hs hroots hlast hadj
      · have hfilter : [s].filter (fun s => t.isSubtree t.subtreeSums target s) = [] :=
          List.filter_eq_nil_iff.mpr fun a ha => by rw [List.mem_singleton.mp ha]; exact hsub
        rw [if_neg hsub, hfilter, List.append_nil]
        exact hmerges
  exact hrun t.postorder [] (List.append_nil _).symm

/-! ## The heap -/

omit [Field K] [IsStrictOrderedRing K] in
theorem heapTop_some {heap : List (K × ℕ)} {e : K × ℕ} (h : heapTop heap = some e) :
    e ∈ heap ∧ ∀ e' ∈ heap, e'.1 ≤ e.1 := by
  have hgreater : ∀ a b : K × ℕ, (greater a b = a ∨ greater a b = b) ∧ a.1 ≤ (greater a b).1 ∧
      b.1 ≤ (greater a b).1 := fun a b => by
    unfold greater
    split_ifs with hab
    · refine ⟨Or.inr rfl, ?_, le_rfl⟩
      rcases hab with hlt | heq
      · exact hlt.le
      · exact heq.1.le
    · rw [not_or] at hab
      exact ⟨Or.inl rfl, le_rfl, not_lt.mp hab.1⟩
  cases heap with
  | nil => cases h
  | cons a l =>
    obtain rfl := Option.some.inj h
    -- the fold keeps the greatest so far
    have hfold : ∀ (l : List (K × ℕ)) (a : K × ℕ), l.foldl greater a ∈ a :: l ∧
        ∀ e' ∈ a :: l, e'.1 ≤ (l.foldl greater a).1 := by
      intro l
      induction l with
      | nil =>
        exact fun a => ⟨List.mem_cons_self .., fun e' he' => by rw [List.mem_singleton.mp he']; rfl⟩
      | cons b l ih =>
        intro a
        obtain ⟨hmem, hmax⟩ := ih (greater a b)
        obtain ⟨hor, ha, hb⟩ := hgreater a b
        rw [List.foldl_cons]
        refine ⟨?_, fun e' he' => ?_⟩
        · rcases List.mem_cons.mp hmem with heq | hmem
          · rw [heq]
            rcases hor with h | h <;> rw [h] <;> simp
          · exact List.mem_cons_of_mem _ (List.mem_cons_of_mem _ hmem)
        · have htop := hmax (greater a b) (List.mem_cons_self ..)
          rcases List.mem_cons.mp he' with rfl | he'
          · exact ha.trans htop
          · rcases List.mem_cons.mp he' with rfl | he'
            · exact hb.trans htop
            · exact hmax e' (List.mem_cons_of_mem _ he')
    exact hfold l a

/-- The heap holds the nodes outside the top part whose parents are in it, and the top part
    is heavy and closed. -/
structure HeapInv (t : TreeView K) (target : K) (heap : List (K × ℕ)) (top : ℕ → Bool) : Prop where
  work : ∀ e ∈ heap, e.1 = t.subtreeSums.work e.2
  nodup : (heap.map Prod.snd).Nodup
  mem : ∀ s, s ∈ heap.map Prod.snd ↔
    s < t.ns ∧ top s = false ∧ ∀ p, t.parent s = some p → top p = true
  heavy : ∀ s, top s = true → s < t.ns ∧ TreeView.heavy t.subtreeSums target s = true
  closed : ∀ s p, t.parent s = some p → top s = true → top p = true

omit [IsStrictOrderedRing K] in
/-- The heaviest subtree's root goes to the top part. -/
theorem HeapInv.next {heap : List (K × ℕ)} {top : ℕ → Bool} {e : K × ℕ}
    (h : HeapInv t target heap top) (he : e ∈ heap) (hheavy : target < e.1) :
    HeapInv t target (heap.erase e ++ (t.subtreeSums.kids.slice e.2).map fun c =>
      (t.subtreeSums.work c, c)) (Function.update top e.2 true) := by
  have hkids : t.subtreeSums.kids = t.kids := (subtreeSums_summed t).kids
  obtain ⟨hlt, htop, hparent⟩ := (h.mem e.2).mp (List.mem_map_of_mem he)
  have hupdate : ∀ s, Function.update top e.2 true s = true ↔ s = e.2 ∨ top s = true := fun s => by
    by_cases hs : s = e.2
    · subst hs
      simp
    · rw [Function.update_of_ne hs]
      exact (or_iff_right hs).symm
  have hout : ∀ s, Function.update top e.2 true s = false ↔ s ≠ e.2 ∧ top s = false := fun s => by
    rw [← Bool.not_eq_true, hupdate, not_or, Bool.not_eq_true]
  -- the top part is closed upwards and this root was not in it, so no child of it is
  have hkidNot : ∀ c, t.parent c = some e.2 → top c = false := fun c hc => by
    by_contra hcontra
    rw [h.closed c e.2 hc (Bool.eq_true_of_not_eq_false hcontra)] at htop
    cases htop
  have hne : ∀ c, t.parent c = some e.2 → c ≠ e.2 := by
    rintro c hc rfl
    obtain ⟨pre, post, hsplit⟩ := List.append_of_mem (mem_postorder.mpr hlt)
    exact (hsplit ▸ t.isPostorder : Postorder t.parent (pre ++ e.2 :: post)).notMem_pre
      (mem_pre hsplit hc)
  have herase : ∀ s, s ∈ (heap.erase e).map Prod.snd ↔ s ∈ heap.map Prod.snd ∧ s ≠ e.2 := by
    intro s
    have hperm := (List.perm_cons_erase he).map Prod.snd
    have hnodup := hperm.nodup_iff.mp h.nodup
    rw [List.map_cons, List.nodup_cons] at hnodup
    rw [hperm.mem_iff, List.map_cons, List.mem_cons]
    constructor
    · exact fun hs => ⟨Or.inr hs, fun heq => hnodup.1 (heq ▸ hs)⟩
    · exact fun ⟨hor, hs⟩ => hor.resolve_left hs
  have hsnd : ((t.subtreeSums.kids.slice e.2).map fun c => (t.subtreeSums.work c, c)).map Prod.snd =
      t.kids.slice e.2 := by
    rw [hkids, List.map_map]
    exact List.map_id _
  -- the heap now: the other roots and the children of this one
  have hmem : ∀ s, s ∈ (heap.erase e ++ (t.subtreeSums.kids.slice e.2).map fun c =>
      (t.subtreeSums.work c, c)).map Prod.snd ↔
        (s ∈ heap.map Prod.snd ∧ s ≠ e.2) ∨ t.parent s = some e.2 := by
    intro s
    rw [List.map_append, List.mem_append, herase, hsnd, mem_kids hlt]
  refine ⟨fun e' he' => ?_, ?_, fun s => ?_, fun s hs => ?_, fun s p hp hs => ?_⟩
  · rcases List.mem_append.mp he' with he' | he'
    · exact h.work e' (List.mem_of_mem_erase he')
    · obtain ⟨c, -, rfl⟩ := List.mem_map.mp he'
      rfl
  · rw [List.map_append, hsnd, List.nodup_append]
    refine ⟨(List.erase_sublist.map _).nodup h.nodup, ?_, fun a ha b hb hab => ?_⟩
    · rw [kids_slice hlt]
      exact (List.nodup_reverse.mpr nodup_postorder).filter _
    -- a child in the heap already would have its parent in the top part
    · subst hab
      have hold := (h.mem a).mp ((herase a).mp ha).1
      rw [hold.2.2 e.2 ((mem_kids hlt).mp hb)] at htop
      cases htop
  · rw [hmem, h.mem, hout]
    constructor
    · rintro (⟨⟨hs, hs', hp⟩, hse⟩ | hs)
      · exact ⟨hs, ⟨hse, hs'⟩, fun p hp' => (hupdate p).mpr (Or.inr (hp p hp'))⟩
      · refine ⟨lt_of_parent hs, ⟨hne s hs, hkidNot s hs⟩, fun p hp => ?_⟩
        exact (hupdate p).mpr (Or.inl (Option.some.inj (hp.symm.trans hs)))
    · rintro ⟨hs, ⟨hse, hs'⟩, hp⟩
      by_cases hpe : t.parent s = some e.2
      · exact Or.inr hpe
      · refine Or.inl ⟨⟨hs, hs', fun p hp' => ?_⟩, hse⟩
        exact ((hupdate p).mp (hp p hp')).resolve_left fun heq => hpe (heq ▸ hp')
  · rcases (hupdate s).mp hs with rfl | hs
    · refine ⟨hlt, decide_eq_true ?_⟩
      rwa [← h.work e he]
    · exact h.heavy s hs
  · rcases (hupdate s).mp hs with rfl | hs
    · exact (hupdate p).mpr (Or.inr (hparent p hp))
    · exact (hupdate p).mpr (Or.inr (h.closed s p hp hs))

omit [IsStrictOrderedRing K] in
/-- The loop ends, with no heavy subtree left. -/
theorem splitLoop_returns : ∀ (fuel : ℕ) (heap : List (K × ℕ)) (top : ℕ → Bool),
    HeapInv t target heap top → ((List.range t.ns).countP fun s => !top s) < fuel →
    ∃ heap' top', splitLoop t.subtreeSums target fuel heap top = some (heap', top') ∧
      HeapInv t target heap' top' ∧ ∀ e ∈ heap', e.1 ≤ target := by
  intro fuel
  induction fuel with
  | zero => exact fun heap top _ h => absurd h (Nat.not_lt_zero _)
  | succ fuel ih =>
    intro heap top hinv hfuel
    rw [splitLoop]
    cases htop : heapTop heap with
    | none =>
      have hempty : heap = [] := by
        cases heap with
        | nil => rfl
        | cons a l => cases htop
      exact ⟨heap, top, rfl, hinv, fun e he => by rw [hempty] at he; cases he⟩
    | some e =>
      obtain ⟨he, hmax⟩ := heapTop_some htop
      dsimp only
      by_cases hheavy : target < e.1
      · rw [if_pos hheavy]
        refine ih _ _ (hinv.next he hheavy) (lt_of_lt_of_le ?_ (Nat.lt_succ_iff.mp hfuel))
        obtain ⟨hlt, hout, -⟩ := (hinv.mem e.2).mp (List.mem_map_of_mem he)
        -- one node fewer is outside the top part
        have hmono : ∀ s ∈ List.range t.ns, (!Function.update top e.2 true s) = true →
            (!top s) = true := fun s _ hs => by
          by_cases hse : s = e.2
          · rw [hse, Function.update_self] at hs
            cases hs
          · rwa [Function.update_of_ne hse] at hs
        have hsplit := AssemblyTree.range_split hlt
        rw [hsplit, List.countP_append, List.countP_append, List.countP_cons, List.countP_cons,
          Function.update_self, hout]
        have h₁ : ∀ l : List ℕ, l ⊆ List.range t.ns →
            (l.countP fun s => !Function.update top e.2 true s) ≤ l.countP fun s => !top s :=
          fun l hl => List.countP_mono_left fun s hs => hmono s (hl hs)
        have h₂ := h₁ (List.range e.2) (hsplit ▸ List.subset_append_left _ _)
        have h₃ := h₁ (List.range' (e.2 + 1) (t.ns - (e.2 + 1))) (by
          rw [hsplit]
          exact fun s hs => List.mem_append_right _ (List.mem_cons_of_mem _ hs))
        simp only [Bool.not_true, Bool.not_false, Bool.false_eq_true, if_false, if_true]
        omega
      · rw [if_neg hheavy]
        exact ⟨heap, top, rfl, hinv, fun e' he' => (hmax e' he').trans (not_lt.mp hheavy)⟩

omit [Field K] [IsStrictOrderedRing K] in
theorem popSubtrees_returns (u : SubtreeSums K) : ∀ (fuel : ℕ) (heap : List (K × ℕ)),
    heap.length < fuel → ∃ l, popSubtrees u fuel heap = some l ∧
      l.Perm (heap.map fun e => (u.first e.2, u.last e.2)) := by
  intro fuel
  induction fuel with
  | zero => exact fun heap h => absurd h (Nat.not_lt_zero _)
  | succ fuel ih =>
    intro heap hfuel
    rw [popSubtrees]
    cases htop : heapTop heap with
    | none =>
      have hempty : heap = [] := by
        cases heap with
        | nil => rfl
        | cons a l => cases htop
      exact ⟨[], rfl, by rw [hempty]; rfl⟩
    | some e =>
      obtain ⟨he, -⟩ := heapTop_some htop
      have hperm := List.perm_cons_erase he
      have hlen := hperm.length_eq
      rw [List.length_cons] at hlen
      obtain ⟨l, hl, hlperm⟩ := ih (heap.erase e) (by omega)
      refine ⟨_, by dsimp only; rw [hl]; rfl, ?_⟩
      exact (hlperm.cons _).trans (hperm.map fun e : K × ℕ => (u.first e.2, u.last e.2)).symm

omit [IsStrictOrderedRing K] in
theorem heapInv_roots (t : TreeView K) (target : K) : HeapInv t target
    (((List.range t.ns).filter fun s => (t.parent s).isNone).map fun s =>
      (t.subtreeSums.work s, s)) fun _ => false := by
  have hsnd : (((List.range t.ns).filter fun s => (t.parent s).isNone).map fun s =>
      (t.subtreeSums.work s, s)).map Prod.snd =
        (List.range t.ns).filter fun s => (t.parent s).isNone := by
    rw [List.map_map]
    exact List.map_id _
  refine ⟨fun e he => ?_, ?_, fun s => ?_, fun s hs => Bool.noConfusion hs,
    fun s p _ hs => Bool.noConfusion hs⟩
  · obtain ⟨s, -, rfl⟩ := List.mem_map.mp he
    rfl
  · rw [hsnd]
    exact List.nodup_range.filter _
  · rw [hsnd, List.mem_filter, List.mem_range, Option.isNone_iff_eq_none, eq_self, true_and,
      Option.eq_none_iff_forall_not_mem]
    refine and_congr_right fun _ => forall₂_congr fun p _ => ?_
    exact iff_of_false not_false Bool.false_ne_true

/-- With no heavy subtree in the heap the top part has all heavy nodes. -/
theorem HeapInv.top_iff {heap : List (K × ℕ)} {top : ℕ → Bool} (h : HeapInv t target heap top)
    (hlight : ∀ e ∈ heap, e.1 ≤ target) (s : ℕ) :
    top s = true ↔ s < t.ns ∧ TreeView.heavy t.subtreeSums target s = true := by
  refine ⟨h.heavy s, fun ⟨hs, hheavy⟩ => ?_⟩
  refine inductUp (P := fun s => TreeView.heavy t.subtreeSums target s = true → top s = true)
    (fun s hs ih hheavy => ?_) s hs hheavy
  by_contra hout
  have hmem := (h.mem s).mpr ⟨hs, Bool.eq_false_of_not_eq_true hout, fun p hp =>
    ih p hp (heavy_parent target hp hheavy)⟩
  obtain ⟨e, he, rfl⟩ := List.mem_map.mp hmem
  exact absurd (of_decide_eq_true hheavy) (not_lt.mpr (h.work e he ▸ hlight e he))

/-- What is left in the heap are the subtrees' roots. -/
theorem HeapInv.roots_iff {heap : List (K × ℕ)} {top : ℕ → Bool} (h : HeapInv t target heap top)
    (hlight : ∀ e ∈ heap, e.1 ≤ target) (s : ℕ) :
    s ∈ heap.map Prod.snd ↔ s < t.ns ∧ t.isSubtree t.subtreeSums target s = true := by
  rw [h.mem, isSubtree_iff]
  refine and_congr_right fun hs => and_congr ?_ (forall₂_congr fun p hp => ?_)
  · rw [Bool.eq_false_iff, Bool.eq_false_iff, not_iff_not, h.top_iff hlight]
    exact and_iff_right hs
  · rw [h.top_iff hlight]
    exact and_iff_right (t.parent_lt s p hp)

omit [IsStrictOrderedRing K] in
/-- `partition_tasks` marks what is heavy. -/
theorem markHeavy_iff {l : List ℕ} {top : ℕ → Bool} (s : ℕ) :
    l.foldl (fun top s => if heavy t.subtreeSums target s then Function.update top s true else top)
      top s = true ↔ top s = true ∨ s ∈ l ∧ heavy t.subtreeSums target s = true := by
  induction l generalizing top with
  | nil => simp
  | cons a l ih =>
    rw [List.foldl_cons, ih, List.mem_cons]
    split_ifs with ha
    · by_cases hsa : s = a
      · rw [hsa, Function.update_self]
        simp [ha]
      · rw [Function.update_of_ne hsa]
        simp [hsa]
    · by_cases hsa : s = a
      · rw [hsa]
        simp [ha]
      · simp [hsa]

end Target

end TreeView

open TreeView

variable [IsStrictOrderedRing K] {t : TreeView K} {minWork : K}

/-- `partition_subtrees` returns, with the heavy nodes on top. -/
theorem partitionSubtrees_splits (threads : ℤ) (h : minWork ≤ t.subtreeSums.total) : ∃ ranges top,
    t.partitionSubtrees threads minWork = some (ranges, top) ∧ t.Splits ranges top ∧
      ∀ s, top s = true ↔
        s < t.ns ∧ heavy t.subtreeSums (target t.subtreeSums threads) s = true := by
  have hfuel : ((List.range t.ns).countP fun _ => !false) < t.ns + 1 :=
    Nat.lt_succ_of_le (List.countP_le_length.trans_eq List.length_range)
  obtain ⟨heap, top, hrun, hinv, hlight⟩ := splitLoop_returns (t.ns + 1) _ _
    (heapInv_roots t (target t.subtreeSums threads)) hfuel
  have hroots := hinv.roots_iff hlight
  -- each entry of the heap is another node, so the fuel is enough
  have hlen : heap.length < t.ns + 1 := by
    have hsubset : heap.map Prod.snd ⊆ List.range t.ns := fun s hs =>
      List.mem_range.mpr ((hroots s).mp hs).1
    have hle := (List.subperm_of_subset hinv.nodup hsubset).length_le
    rw [List.length_map, List.length_range] at hle
    exact Nat.lt_succ_of_le hle
  obtain ⟨ranges, hpop, hperm⟩ := popSubtrees_returns t.subtreeSums (t.ns + 1) heap hlen
  have hmap : heap.map (fun e => (t.subtreeSums.first e.2, t.subtreeSums.last e.2)) =
      (heap.map Prod.snd).map fun s => (t.subtreeSums.first s, t.place s) := by
    rw [List.map_map]
    refine List.map_congr_left fun e he => ?_
    rw [last_eq ((hroots e.2).mp (List.mem_map_of_mem he)).1]
    rfl
  have hmerges := (merges_map hinv.nodup fun s hs => (hroots s).mp hs).of_perm
    (hmap ▸ hperm) (List.Perm.refl _)
  refine ⟨ranges, top, ?_, hmerges.splits hroots (hinv.top_iff hlight), hinv.top_iff hlight⟩
  rw [partitionSubtrees]
  dsimp only
  rw [if_neg (not_lt.mpr h), hrun, Option.bind_some]
  dsimp only
  rw [hpop]
  rfl

/-- `partition_tasks` makes the same of the tree, up to mergers. -/
theorem partitionTasks_splits (threads : ℤ) (h : minWork ≤ t.subtreeSums.total) : ∃ tasks top,
    t.partitionTasks threads minWork = (tasks, top) ∧ t.Splits tasks top ∧
      ∀ s, top s = true ↔
        s < t.ns ∧ heavy t.subtreeSums (target t.subtreeSums threads) s = true := by
  have htop : ∀ s, t.postorder.foldl (fun top s =>
      if heavy t.subtreeSums (target t.subtreeSums threads) s then Function.update top s true
      else top) (fun _ => false) s = true ↔
        s < t.ns ∧ heavy t.subtreeSums (target t.subtreeSums threads) s = true := fun s => by
    rw [markHeavy_iff, mem_postorder]
    exact or_iff_right Bool.false_ne_true
  have hmerges := mergedTasks_merges t (target t.subtreeSums threads)
    (t.subTotal t.subtreeSums (target t.subtreeSums threads)) threads
  have hsorted := hmerges.of_perm ((List.perm_insertionSort t.before
    (t.mergedTasks t.subtreeSums (target t.subtreeSums threads)
      (t.subTotal t.subtreeSums (target t.subtreeSums threads)) threads)).map _) (List.Perm.refl _)
  refine ⟨_, _, ?_, hsorted.splits (fun s => ?_) htop, htop⟩
  · rw [partitionTasks]
    dsimp only
    rw [if_neg (not_lt.mpr h)]
  · rw [List.mem_filter, mem_postorder]

end Parallel

open Parallel TreeView

/-- From a tree of at least the least work, both partitions return, for any thread count:
    they mark the same top part, and each splits the tree. -/
theorem partition_valid {K : Type*} [Field K] [LinearOrder K] [IsStrictOrderedRing K]
    (t : TreeView K) (threads : ℤ) (minWork : K) (h : minWork ≤ t.subtreeSums.total) :
    ∃ ranges tasks top,
      t.partitionSubtrees threads minWork = some (ranges, top) ∧
      t.partitionTasks threads minWork = (tasks, top) ∧
      t.Splits ranges top ∧ t.Splits tasks top := by
  obtain ⟨ranges, top, hrun, hsplits, htop⟩ := partitionSubtrees_splits threads h
  obtain ⟨tasks, top', hrun', hsplits', htop'⟩ := partitionTasks_splits threads h
  obtain rfl : top' = top := funext fun s => Bool.eq_iff_iff.mpr ((htop' s).trans (htop s).symm)
  exact ⟨ranges, tasks, top', hrun, hrun', hsplits, hsplits'⟩

/-- Two leaves of work 1 under a root of work 2, on one thread: the root is the top part. -/
theorem partition_valid_fork :
    let t := forkView fun s => if s = 2 then 2 else 1
    ((t.partitionSubtrees 1 1).map fun p => (p.1, (List.range 3).map p.2)) =
        some ([(1, 1), (0, 0)], [false, false, true]) ∧
      ∃ ranges tasks top, t.partitionSubtrees 1 1 = some (ranges, top) ∧
        t.partitionTasks 1 1 = (tasks, top) ∧ t.Splits ranges top ∧ t.Splits tasks top :=
  ⟨by decide +kernel, partition_valid _ 1 1 (by decide +kernel)⟩

end SmfSolver
