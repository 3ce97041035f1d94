/-
  SmfSolver.Parallel.TaskTreeWalk

  The loop over a stack of nodes walks subtrees in postorder: `walk_node` says what
  it does from one node, for any rest of the stack.

  `subtree` lists a node's descendants by recursion over the children; the subtrees of
  the roots are all the nodes, each once (`subtrees_perm`).
-/
import SmfSolver.Parallel.TaskTree
import Mathlib.Data.List.Perm.Subperm
import Mathlib.Data.List.Dedup

namespace SmfSolver
namespace Parallel
namespace CostedTree

open Multifrontal Lib.ForkJoin

/-- `x` is `v` or a descendant of it. -/
abbrev Under (T : CostedTree) : ℕ → ℕ → Prop :=
  Relation.ReflTransGen fun c s => T.parent c = some s

section Order

variable {T : CostedTree} {c s v x y : ℕ}

theorem child_lt (hs : s < T.ns) (hc : T.parent c = some s) : c < s := by
  have hsplit : List.range T.ns = List.range s ++ s :: List.range' (s + 1) (T.ns - (s + 1)) := by
    conv_lhs => rw [← Nat.add_sub_cancel' hs, List.range_eq_range', ← List.range'_append_1]
    rw [List.range'_1_concat, List.append_assoc, Nat.zero_add, Nat.zero_add,
      ← List.range_eq_range']
    rfl
  have hpost := T.postorder
  rw [hsplit] at hpost
  exact List.mem_range.mp (hpost.mem_of_below (.single hc))

theorem Under.le (h : T.Under x v) (hv : v < T.ns) : x ≤ v := by
  induction h using Relation.ReflTransGen.head_induction_on with
  | refl => exact le_rfl
  | head hc _ ih => exact (child_lt (ih.trans_lt hv) hc).le.trans ih

theorem Under.cases_child (h : T.Under x v) : x = v ∨ ∃ c ∈ T.children v, T.Under x c := by
  rcases h.cases_tail with h | ⟨c, hx, hc⟩
  · exact .inl h.symm
  · exact .inr ⟨c, (T.mem_children v c).mpr hc, hx⟩

theorem Under.of_child (hc : c ∈ T.children v) (h : T.Under x c) : T.Under x v :=
  h.tail ((T.mem_children v c).mp hc)

/-- The subtrees of two children have no node in common. -/
theorem Under.child_unique {c' : ℕ} (hv : v < T.ns) (hc : c ∈ T.children v)
    (hc' : c' ∈ T.children v) (hx : T.Under x c) (hx' : T.Under x c') : c = c' := by
  have hpar := (T.mem_children v c).mp hc
  have hpar' := (T.mem_children v c').mp hc'
  have key : ∀ {a b : ℕ}, T.parent a = some v → T.parent b = some v → T.Under a b → a = b := by
    intro a b ha hb hab
    rcases hab.cases_head with h | ⟨w, hw, hwb⟩
    · exact h
    · obtain rfl := Option.some.inj (ha.symm.trans hw)
      have hbv := child_lt hv hb
      exact absurd (Under.le hwb (hbv.trans hv)) (not_le.mpr hbv)
  have hright : Relator.RightUnique fun c s => T.parent c = some s :=
    fun _ _ _ h h' => Option.some.inj (h.symm.trans h')
  rcases hx.total_of_right_unique hright hx' with h | h
  · exact key hpar hpar' h
  · exact (key hpar' hpar h).symm

end Order

/-! ## Subtrees -/

section Subtree

variable (T : CostedTree)

/-- The subtree of `v` in postorder, of depth `k` at most. -/
def subtreeTo : ℕ → ℕ → List ℕ
  | 0, _ => []
  | k + 1, v => (T.children v).flatMap (subtreeTo k) ++ [v]

def subtree (v : ℕ) : List ℕ := T.subtreeTo (v + 1) v

variable {T} {v x : ℕ}

theorem lt_of_mem_children {c : ℕ} (hv : v < T.ns) (hc : c ∈ T.children v) : c < v :=
  child_lt hv ((T.mem_children v c).mp hc)

/-- Any depth above the node's number gives the whole subtree. -/
theorem subtreeTo_eq : ∀ {k k' v : ℕ}, v < T.ns → v < k → v < k' →
    T.subtreeTo k v = T.subtreeTo k' v
  | k + 1, k' + 1, v, hv, hk, hk' => by
    rw [subtreeTo, subtreeTo]
    refine congrArg (· ++ [v]) (List.flatMap_congr fun c hc => ?_)
    have hlt := lt_of_mem_children hv hc
    exact subtreeTo_eq (hlt.trans hv) (hlt.trans_le (Nat.lt_succ_iff.mp hk))
      (hlt.trans_le (Nat.lt_succ_iff.mp hk'))

theorem subtree_eq (hv : v < T.ns) :
    T.subtree v = (T.children v).flatMap T.subtree ++ [v] := by
  rw [subtree, subtreeTo]
  refine congrArg (· ++ [v]) (List.flatMap_congr fun c hc => ?_)
  have hlt := lt_of_mem_children hv hc
  exact subtreeTo_eq (hlt.trans hv) hlt (Nat.lt_succ_self c)

/-- Induction over the subtree of a node. -/
theorem subtree_induction {P : ℕ → Prop}
    (h : ∀ v < T.ns, (∀ c ∈ T.children v, P c) → P v) : ∀ v < T.ns, P v := by
  intro v
  induction v using Nat.strong_induction_on with
  | _ v ih =>
    intro hv
    refine h v hv fun c hc => ?_
    have hlt := lt_of_mem_children hv hc
    exact ih c hlt (hlt.trans hv)

theorem mem_subtree (hv : v < T.ns) : x ∈ T.subtree v ↔ T.Under x v := by
  refine subtree_induction (P := fun v => x ∈ T.subtree v ↔ T.Under x v) ?_ v hv
  intro v hv ih
  rw [subtree_eq hv, List.mem_append, List.mem_flatMap, List.mem_singleton]
  constructor
  · rintro (⟨c, hc, hx⟩ | rfl)
    · exact .of_child hc ((ih c hc).mp hx)
    · exact .refl
  · intro hx
    rcases hx.cases_child with rfl | ⟨c, hc, hx⟩
    · exact .inr rfl
    · exact .inl ⟨c, hc, (ih c hc).mpr hx⟩

theorem subtree_nodup (hv : v < T.ns) : (T.subtree v).Nodup := by
  refine subtree_induction (P := fun v => (T.subtree v).Nodup) ?_ v hv
  intro v hv ih
  have hlt : ∀ c ∈ T.children v, c < v := fun c hc => lt_of_mem_children hv hc
  rw [subtree_eq hv, List.nodup_append]
  refine ⟨List.nodup_flatMap.mpr ⟨ih, ?_⟩, List.nodup_singleton v, ?_⟩
  · refine List.Pairwise.imp_of_mem (fun {c c'} hc hc' hne => ?_) (T.children_nodup v)
    intro x hx hx'
    rw [mem_subtree ((hlt c hc).trans hv)] at hx
    rw [mem_subtree ((hlt c' hc').trans hv)] at hx'
    exact hne (Under.child_unique hv hc hc' hx hx')
  · intro x hx y hy hxy
    rw [List.mem_singleton] at hy
    obtain ⟨c, hc, hx⟩ := List.mem_flatMap.mp hx
    rw [mem_subtree ((hlt c hc).trans hv)] at hx
    have hle := hx.le ((hlt c hc).trans hv)
    have hcv := hlt c hc
    omega

theorem mem_roots : v ∈ T.roots ↔ v < T.ns ∧ T.parent v = none := by
  rw [roots, List.mem_filter, List.mem_range, Option.isNone_iff_eq_none]

/-- Every node is in the subtree of a root. -/
theorem exists_root (hx : x < T.ns) : ∃ r ∈ T.roots, T.Under x r := by
  induction hn : T.ns - x using Nat.strong_induction_on generalizing x with
  | _ n ih =>
    cases hp : T.parent x with
    | none => exact ⟨x, mem_roots.mpr ⟨hx, hp⟩, .refl⟩
    | some t =>
      have ht := T.parent_lt x t hp hx
      have hxt := child_lt ht hp
      obtain ⟨r, hr, htr⟩ := ih (T.ns - t) (by omega) ht rfl
      exact ⟨r, hr, htr.head hp⟩

theorem root_unique {r r' : ℕ} (hr : r ∈ T.roots) (hr' : r' ∈ T.roots) (hx : T.Under x r)
    (hx' : T.Under x r') : r = r' := by
  have key : ∀ {a b : ℕ}, T.parent a = none → T.Under a b → a = b := by
    intro a b ha hab
    rcases hab.cases_head with h | ⟨w, hw, -⟩
    · exact h
    · cases ha.symm.trans hw
  have hright : Relator.RightUnique fun c s => T.parent c = some s :=
    fun _ _ _ h h' => Option.some.inj (h.symm.trans h')
  rcases hx.total_of_right_unique hright hx' with h | h
  · exact key (mem_roots.mp hr).2 h
  · exact (key (mem_roots.mp hr').2 h).symm

/-- The subtrees of the roots are all the nodes, each once. -/
theorem subtrees_perm : (T.roots.flatMap T.subtree).Perm (List.range T.ns) := by
  have hlt : ∀ r ∈ T.roots, r < T.ns := fun r hr => (mem_roots.mp hr).1
  have hnodup : (T.roots.flatMap T.subtree).Nodup := by
    refine List.nodup_flatMap.mpr ⟨fun r hr => subtree_nodup (hlt r hr), ?_⟩
    refine List.Pairwise.imp_of_mem (fun {r r'} hr hr' hne => ?_)
      (List.nodup_range.filter _ : T.roots.Nodup)
    intro x hx hx'
    rw [mem_subtree (hlt r hr)] at hx
    rw [mem_subtree (hlt r' hr')] at hx'
    exact hne (root_unique hr hr' hx hx')
  refine (List.perm_ext_iff_of_nodup hnodup List.nodup_range).mpr fun x => ?_
  rw [List.mem_flatMap, List.mem_range]
  constructor
  · rintro ⟨r, hr, hx⟩
    exact (((mem_subtree (hlt r hr)).mp hx).le (hlt r hr)).trans_lt (hlt r hr)
  · intro hx
    obtain ⟨r, hr, hx⟩ := exists_root hx
    exact ⟨r, hr, (mem_subtree (hlt r hr)).mpr hx⟩

theorem length_subtree_le (hv : v < T.ns) : (T.subtree v).length ≤ T.ns := by
  have hsub : T.subtree v ⊆ List.range T.ns := fun x hx =>
    List.mem_range.mpr ((((mem_subtree hv).mp hx).le hv).trans_lt hv)
  have hlen := ((subtree_nodup hv).subperm hsub).length_le
  rwa [List.length_range] at hlen

/-! ## The walk -/

/-- From a node of which some children are left, the walk lists their subtrees and then
    the node. -/
theorem walk_node : ∀ v < T.ns, ∀ (ci fuel : ℕ) (stk : List (ℕ × ℕ)),
    T.walk (2 * (((T.children v).drop ci).flatMap T.subtree).length + 1 + fuel) ((v, ci) :: stk)
      = ((T.children v).drop ci).flatMap T.subtree ++ v :: T.walk fuel stk := by
  refine subtree_induction fun v hv ih ci fuel stk => ?_
  -- the children that are left, from the last one
  induction hn : (T.children v).length - ci generalizing ci fuel with
  | zero =>
    have hge : (T.children v).length ≤ ci := Nat.sub_eq_zero_iff_le.mp hn
    rw [List.drop_eq_nil_of_le hge, Nat.add_comm _ fuel]
    exact dif_neg (not_lt.mpr hge)
  | succ n ihn =>
    have hlt : ci < (T.children v).length := by omega
    have hc := List.getElem_mem hlt
    set c := (T.children v)[ci] with hcdef
    rw [List.drop_eq_getElem_cons hlt, List.flatMap_cons, ← hcdef]
    set later := ((T.children v).drop (ci + 1)).flatMap T.subtree with hlater
    have hsub := subtree_eq ((lt_of_mem_children hv hc).trans hv)
    set below := (T.children c).flatMap T.subtree with hbelow
    have hfuel : 2 * (T.subtree c ++ later).length + 1 + fuel
        = (2 * below.length + 1 + (2 * later.length + 1 + fuel)) + 1 := by
      rw [hsub]
      simp only [List.length_append, List.length_singleton]
      omega
    rw [hfuel, walk, dif_pos hlt]
    have hstep := ih c hc 0 (2 * later.length + 1 + fuel) ((v, ci + 1) :: stk)
    rw [List.drop_zero, ← hbelow] at hstep
    rw [hstep, ihn (ci + 1) fuel (by omega), hsub]
    simp only [List.append_assoc, List.cons_append, List.nil_append, ← hlater]

/-- Several nodes on the stack, and nothing else. -/
theorem walk_nodes (l : List ℕ) (hl : ∀ v ∈ l, v < T.ns) {fuel : ℕ}
    (hfuel : 2 * (l.flatMap T.subtree).length ≤ fuel) :
    T.walk fuel (l.map fun i => (i, 0)) = l.flatMap T.subtree := by
  induction l generalizing fuel with
  | nil => cases fuel <;> rfl
  | cons v l ih =>
    have hv := hl v (List.mem_cons_self ..)
    have hsub := subtree_eq hv
    rw [List.flatMap_cons, List.length_append, hsub, List.length_append,
      List.length_singleton] at hfuel
    have hstep := walk_node v hv 0
      (fuel - (2 * ((T.children v).flatMap T.subtree).length + 1)) (l.map fun i => (i, 0))
    rw [List.drop_zero, Nat.add_sub_cancel' (by omega),
      ih (fun u hu => hl u (List.mem_cons_of_mem _ hu)) (by omega)] at hstep
    rw [List.map_cons, hstep, List.flatMap_cons, hsub, List.append_assoc]
    rfl

theorem walk_subtree (hv : v < T.ns) : T.walk (2 * T.ns) [(v, 0)] = T.subtree v := by
  have hfuel : 2 * ([v].flatMap T.subtree).length ≤ 2 * T.ns := by
    rw [List.flatMap_singleton]
    exact Nat.mul_le_mul_left 2 (length_subtree_le hv)
  have h := walk_nodes [v] (fun u hu => List.mem_singleton.mp hu ▸ hv) hfuel
  rwa [List.flatMap_singleton] at h

theorem serialPostorder_eq : T.serialPostorder = T.roots.reverse.flatMap T.subtree := by
  have hperm : (T.roots.reverse.flatMap T.subtree).Perm (List.range T.ns) :=
    ((List.reverse_perm _).flatMap_right _).trans subtrees_perm
  refine walk_nodes _ (fun v hv => (mem_roots.mp (List.mem_reverse.mp hv)).1) ?_
  rw [hperm.length_eq, List.length_range]

theorem serialPostorder_perm : T.serialPostorder.Perm (List.range T.ns) := by
  rw [serialPostorder_eq]
  exact ((List.reverse_perm _).flatMap_right _).trans subtrees_perm

end Subtree

end CostedTree
end Parallel
end SmfSolver
