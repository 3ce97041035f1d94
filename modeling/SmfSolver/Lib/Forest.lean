/-
  SmfSolver.Lib.Forest

  Forests given by parent links and child lists, and their postorder.

  `Visits kids l out` is the postorder of the trees at the vertices of `l`; `dfs` is
  the iterative search with a stack of vertices and child cursors.

  * `dfs_visits`: the search emits the postorder, with two passes for each vertex.
  * `Visits.nodup`, `Visits.mem_iff`: it emits every vertex below `l` once.
  * `Visits.split`: a vertex stands right behind its proper descendants.
-/
import Mathlib.Data.List.Basic
import Mathlib.Data.List.Nodup
import Mathlib.Logic.Relation
import Mathlib.Order.Nat

namespace SmfSolver
namespace Lib

variable {ν : Type*}

/-- The postorder of the trees at the vertices of a list. -/
inductive Visits (kids : ν → List ν) : List ν → List ν → Prop
  | nil : Visits kids [] []
  | cons {v : ν} {l a b : List ν} : Visits kids (kids v) a → Visits kids l b →
      Visits kids (v :: l) (a ++ v :: b)

/-- Depth-first search with `child v i`, the `i`-th child of `v`: the stack of vertices with
    their next child, and the vertices emitted. -/
def dfs (child : ν → ℕ → Option ν) : ℕ → List (ν × ℕ) → List ν → Option (List ν)
  | 0, _, _ => none
  | _ + 1, [], out => some out
  | fuel + 1, (v, ci) :: stack, out =>
    match child v ci with
    | some c => dfs child fuel ((c, 0) :: (v, ci + 1) :: stack) out
    | none => dfs child fuel stack (out ++ [v])

namespace Visits

variable {kids : ν → List ν} {l a : List ν} {v x : ν}

theorem of_rank (rank : ν → ℕ) (h : ∀ v, ∀ c ∈ kids v, rank c < rank v) (l : List ν) :
    ∃ a, Visits kids l a := by
  have hone : ∀ k v, rank v < k → ∃ a, Visits kids (kids v) a := by
    intro k
    induction k with
    | zero => exact fun v hv => absurd hv (Nat.not_lt_zero _)
    | succ k ih =>
      intro v hv
      have hlist : ∀ l : List ν, (∀ c ∈ l, rank c < k) → ∃ a, Visits kids l a := by
        intro l
        induction l with
        | nil => exact fun _ => ⟨[], .nil⟩
        | cons c l ihl =>
          intro hl
          obtain ⟨b, hb⟩ := ihl fun c' hc' => hl c' (List.mem_cons_of_mem c hc')
          obtain ⟨a, ha⟩ := ih c (hl c List.mem_cons_self)
          exact ⟨_, .cons ha hb⟩
      exact hlist _ fun c hc => Nat.lt_of_lt_of_le (h v c hc) (Nat.lt_succ_iff.mp hv)
  induction l with
  | nil => exact ⟨[], .nil⟩
  | cons v l ih =>
    obtain ⟨b, hb⟩ := ih
    obtain ⟨a, ha⟩ := hone _ v (Nat.lt_succ_self _)
    exact ⟨_, .cons ha hb⟩

/-- The search from a vertex emits what is left of its subtrees, then the vertex. -/
theorem dfs_rest {child : ν → ℕ → Option ν} (hchild : ∀ v i, child v i = (kids v)[i]?)
    (h : Visits kids l a) : ∀ (v : ν) (ci fuel : ℕ) (stack : List (ν × ℕ)) (out : List ν),
      (kids v).drop ci = l →
        dfs child (fuel + (2 * a.length + 1)) ((v, ci) :: stack) out
          = dfs child fuel stack (out ++ a ++ [v]) := by
  -- on the visits: a child's subtree is emitted before the search goes on to the next child
  induction h with
  | nil =>
    intro v ci fuel stack out hl
    have hnone : child v ci = none := by
      rw [hchild]
      exact List.getElem?_eq_none (List.drop_eq_nil_iff.mp hl)
    change dfs child (fuel + 1) ((v, ci) :: stack) out = _
    rw [dfs, hnone, List.append_nil]
  | @cons c l a b _ _ iha ihb =>
    intro v ci fuel stack out hl
    have hsome : child v ci = some c := by
      rw [hchild]
      have hget := congrArg (·[0]?) hl
      simpa using hget
    have hrest : (kids v).drop (ci + 1) = l := by
      rw [← List.tail_drop, hl, List.tail_cons]
    have hfuel : fuel + (2 * (a ++ c :: b).length + 1)
        = (fuel + (2 * b.length + 1)) + (2 * a.length + 1) + 1 := by
      rw [List.length_append, List.length_cons]
      omega
    rw [hfuel, dfs, hsome]
    dsimp only
    rw [iha c 0 _ _ _ List.drop_zero, ihb v (ci + 1) _ _ _ hrest]
    congr 1
    simp

theorem length_le (h : Visits kids l a) : l.length ≤ a.length := by
  induction h with
  | nil => exact le_rfl
  | cons _ _ _ ihb =>
    rw [List.length_append, List.length_cons, List.length_cons]
    omega

/-- The search emits the postorder; it looks at every vertex twice, and at a vertex it starts
    from once. -/
theorem dfs_visits {child : ν → ℕ → Option ν} (hchild : ∀ v i, child v i = (kids v)[i]?)
    (h : Visits kids l a) (fuel : ℕ) (stack : List (ν × ℕ)) (out : List ν) :
    dfs child (fuel + (2 * a.length - l.length)) (l.map (·, 0) ++ stack) out
      = dfs child fuel stack (out ++ a) := by
  induction h generalizing fuel out with
  | nil =>
    rw [List.append_nil]
    rfl
  | @cons v l a b ha hb _ ihb =>
    have hle := hb.length_le
    have hfuel : fuel + (2 * (a ++ v :: b).length - (v :: l).length)
        = (fuel + (2 * b.length - l.length)) + (2 * a.length + 1) := by
      rw [List.length_append, List.length_cons, List.length_cons]
      omega
    rw [hfuel, List.map_cons, List.cons_append, ha.dfs_rest hchild v 0 _ _ _ List.drop_zero, ihb]
    congr 1
    simp

/-- From an empty output, with a pass to spare for every vertex, the search ends. -/
theorem dfs_eq {child : ν → ℕ → Option ν} (hchild : ∀ v i, child v i = (kids v)[i]?)
    (h : Visits kids l a) {fuel : ℕ} (hfuel : 2 * a.length < fuel) :
    dfs child fuel (l.map (·, 0)) [] = some a := by
  have hrun := h.dfs_visits hchild (fuel - 1 - (2 * a.length - l.length) + 1) [] []
  rw [List.append_nil, List.nil_append] at hrun
  have hle := h.length_le
  rw [show fuel = fuel - 1 - (2 * a.length - l.length) + 1 + (2 * a.length - l.length) by omega,
    hrun]
  rfl

/-- A vertex that is emitted comes right behind its subtrees. -/
theorem split (h : Visits kids l a) (hv : v ∈ a) :
    ∃ pre sub post, a = pre ++ sub ++ v :: post ∧ Visits kids (kids v) sub := by
  induction h with
  | nil => cases hv
  | @cons w l a b ha _ iha ihb =>
    rcases List.mem_append.mp hv with hva | hvb
    · obtain ⟨pre, sub, post, rfl, hsub⟩ := iha hva
      exact ⟨pre, sub, post ++ w :: b, by simp, hsub⟩
    · rcases List.mem_cons.mp hvb with rfl | hvb
      · exact ⟨[], a, b, by simp, ha⟩
      · obtain ⟨pre, sub, post, rfl, hsub⟩ := ihb hvb
        exact ⟨a ++ w :: pre, sub, post, by simp, hsub⟩

theorem mem_of_mem (h : Visits kids l a) (hv : v ∈ l) : v ∈ a := by
  induction h with
  | nil => cases hv
  | cons _ _ _ ihb =>
    rcases List.mem_cons.mp hv with rfl | hv
    · exact List.mem_append_right _ List.mem_cons_self
    · exact List.mem_append_right _ (List.mem_cons_of_mem _ (ihb hv))

end Visits

/-! ## Parent links -/

/-- A forest of the vertices that satisfy `isVertex`: a parent link each, and the list of those
    that have a vertex as their parent. -/
structure RootedForest (ν : Type*) where
  isVertex : ν → Prop
  parent : ν → Option ν
  kids : ν → List ν
  rank : ν → ℕ
  mem_kids : ∀ c v, c ∈ kids v ↔ isVertex c ∧ parent c = some v
  kids_nodup : ∀ v, (kids v).Nodup
  parent_vertex : ∀ c v, isVertex c → parent c = some v → isVertex v
  rank_lt : ∀ c v, isVertex c → parent c = some v → rank c < rank v

namespace RootedForest

variable {T : RootedForest ν} {x y v w : ν} {l a : List ν}

/-- `v` is `x` or an ancestor of `x`. -/
def Up (T : RootedForest ν) : ν → ν → Prop := Relation.ReflTransGen fun c v => T.parent c = some v

theorem Up.refl (x : ν) : T.Up x x := Relation.ReflTransGen.refl

theorem Up.trans (h : T.Up x y) (h' : T.Up y v) : T.Up x v := Relation.ReflTransGen.trans h h'

theorem Up.head (h : T.parent x = some y) (h' : T.Up y v) : T.Up x v :=
  Relation.ReflTransGen.head h h'

theorem Up.cases_head (h : T.Up x v) : x = v ∨ ∃ y, T.parent x = some y ∧ T.Up y v :=
  Relation.ReflTransGen.cases_head h

theorem Up.rank_le (h : T.Up x v) (hx : T.isVertex x) : T.isVertex v ∧ T.rank x ≤ T.rank v := by
  induction h with
  | refl => exact ⟨hx, le_rfl⟩
  | tail _ hstep ih =>
    exact ⟨T.parent_vertex _ _ ih.1 hstep, ih.2.trans (T.rank_lt _ _ ih.1 hstep).le⟩

/-- Ancestors of one vertex lie on one path. -/
theorem Up.total (h : T.Up x v) (h' : T.Up x w) : T.Up v w ∨ T.Up w v := by
  induction h with
  | refl => exact .inl h'
  | @tail y z _ hstep ih =>
    rcases ih with ih | ih
    · rcases ih.cases_head with rfl | ⟨z', hz', hup⟩
      · exact .inr (.head hstep (.refl _))
      · rw [hstep] at hz'
        obtain rfl := Option.some.inj hz'
        exact .inl hup
    · exact .inr (ih.trans (.head hstep (.refl _)))

theorem exists_visits (T : RootedForest ν) (l : List ν) : ∃ a, Visits T.kids l a :=
  Visits.of_rank T.rank (fun v c hc => T.rank_lt c v ((T.mem_kids c v).mp hc).1
    ((T.mem_kids c v).mp hc).2) l

/-- What is emitted are the vertices below the list. -/
theorem mem_visits (h : Visits T.kids l a) (hl : ∀ v ∈ l, T.isVertex v) :
    x ∈ a ↔ T.isVertex x ∧ ∃ r ∈ l, T.Up x r := by
  constructor
  · intro hx
    induction h with
    | nil => cases hx
    | @cons v l a b _ _ iha ihb =>
      rcases List.mem_append.mp hx with hxa | hxb
      · obtain ⟨hv, r, hr, hup⟩ := iha (fun c hc => ((T.mem_kids c v).mp hc).1) hxa
        have hstep : T.Up r v := .head ((T.mem_kids r v).mp hr).2 (.refl v)
        exact ⟨hv, v, List.mem_cons_self, hup.trans hstep⟩
      · rcases List.mem_cons.mp hxb with rfl | hxb
        · exact ⟨hl x List.mem_cons_self, x, List.mem_cons_self, .refl x⟩
        · obtain ⟨hv, r, hr, hup⟩ := ihb (fun r hr => hl r (List.mem_cons_of_mem _ hr)) hxb
          exact ⟨hv, r, List.mem_cons_of_mem _ hr, hup⟩
  · rintro ⟨hx, r, hr, hup⟩
    -- up the path from `r`: with a vertex its children are emitted
    induction hup using Relation.ReflTransGen.head_induction_on with
    | refl => exact h.mem_of_mem hr
    | @head y z hstep _ ih =>
      obtain ⟨pre, sub, post, rfl, hsub⟩ := h.split (ih (T.parent_vertex y z hx hstep))
      have hy : y ∈ sub := hsub.mem_of_mem ((T.mem_kids y z).mpr ⟨hx, hstep⟩)
      exact List.mem_append_left _ (List.mem_append_right _ hy)

/-- No vertex of the list is above another. -/
def Apart (T : RootedForest ν) (l : List ν) : Prop :=
  l.Nodup ∧ ∀ r ∈ l, ∀ r' ∈ l, T.Up r r' → r = r'

theorem apart_kids (T : RootedForest ν) (v : ν) : T.Apart (T.kids v) := by
  refine ⟨T.kids_nodup v, fun r hr r' hr' hup => ?_⟩
  obtain ⟨hrv, hrp⟩ := (T.mem_kids r v).mp hr
  obtain ⟨hrv', hrp'⟩ := (T.mem_kids r' v).mp hr'
  rcases hup.cases_head with heq | ⟨y, hy, hup'⟩
  · exact heq
  · rw [hrp] at hy
    obtain rfl := Option.some.inj hy
    have hle := (hup'.rank_le (T.parent_vertex _ _ hrv hrp)).2
    have hlt := T.rank_lt _ _ hrv' hrp'
    omega

/-- No vertex is emitted twice. -/
theorem visits_nodup (h : Visits T.kids l a) (hl : ∀ v ∈ l, T.isVertex v) (hapart : T.Apart l) :
    a.Nodup := by
  induction h with
  | nil => exact List.nodup_nil
  | @cons v l a b ha hb iha ihb =>
    have hkids : ∀ c ∈ T.kids v, T.isVertex c := fun c hc => ((T.mem_kids c v).mp hc).1
    have hl' : ∀ r ∈ l, T.isVertex r := fun r hr => hl r (List.mem_cons_of_mem v hr)
    have hvl : v ∉ l := (List.nodup_cons.mp hapart.1).1
    have hbelow : ∀ x ∈ a, T.isVertex x ∧ T.Up x v ∧ x ≠ v := by
      intro x hx
      obtain ⟨hxv, c, hc, hup⟩ := (mem_visits ha hkids).mp hx
      obtain ⟨hcv, hcp⟩ := (T.mem_kids c v).mp hc
      refine ⟨hxv, hup.trans (.head hcp (.refl v)), ?_⟩
      rintro rfl
      have hle := (hup.rank_le hxv).2
      have hlt := T.rank_lt _ _ hcv hcp
      omega
    -- what the later roots emit is not below `v`, or one of the roots would be below another
    have hother : ∀ x ∈ b, ¬T.Up x v := by
      intro x hx hup
      obtain ⟨hxv, r, hr, hup'⟩ := (mem_visits hb hl').mp hx
      have hrl : r ∈ v :: l := List.mem_cons_of_mem v hr
      rcases hup.total hup' with hvr | hrv
      · exact hvl (hapart.2 v List.mem_cons_self r hrl hvr ▸ hr)
      · exact hvl (hapart.2 r hrl v List.mem_cons_self hrv ▸ hr)
    rw [List.nodup_append, List.nodup_cons]
    refine ⟨iha hkids (T.apart_kids v), ⟨fun hvb => hother v hvb (.refl v), ihb hl' ?_⟩, ?_⟩
    · exact ⟨(List.nodup_cons.mp hapart.1).2, fun r hr r' hr' =>
        hapart.2 r (List.mem_cons_of_mem v hr) r' (List.mem_cons_of_mem v hr')⟩
    · intro x hxa y hyb hxy
      subst hxy
      obtain ⟨-, hup, hne⟩ := hbelow x hxa
      rcases List.mem_cons.mp hyb with rfl | hyb
      · exact hne rfl
      · exact hother x hyb hup

/-- Behind which vertices a vertex stands: right behind its proper descendants. -/
theorem visits_block (h : Visits T.kids l a) (hl : ∀ v ∈ l, T.isVertex v) (hapart : T.Apart l)
    {pre post : List ν} (hsplit : a = pre ++ v :: post) :
    ∃ head sub, pre = head ++ sub ∧ ∀ x, x ∈ sub ↔ T.isVertex x ∧ ∃ c, T.Up x c ∧
      T.parent c = some v := by
  have hnodup := visits_nodup h hl hapart
  have hv : v ∈ a := hsplit ▸ List.mem_append_right _ List.mem_cons_self
  obtain ⟨head, sub, post', heq, hsub⟩ := h.split hv
  have hkids : ∀ c ∈ T.kids v, T.isVertex c := fun c hc => ((T.mem_kids c v).mp hc).1
  have hpre : pre = head ++ sub := by
    rw [hsplit] at hnodup heq
    obtain ⟨-, hcons, hdisj⟩ := List.nodup_append.mp hnodup
    have hvpre : v ∉ pre := fun hm => hdisj v hm v List.mem_cons_self rfl
    exact ((List.append_cons_inj_of_notMem hvpre (List.nodup_cons.mp hcons).1).mp heq).1
  refine ⟨head, sub, hpre, fun x => (mem_visits hsub hkids).trans ?_⟩
  constructor
  · rintro ⟨hx, c, hc, hup⟩
    exact ⟨hx, c, hup, ((T.mem_kids c v).mp hc).2⟩
  · rintro ⟨hx, c, hup, hcp⟩
    exact ⟨hx, c, (T.mem_kids c v).mpr ⟨(hup.rank_le hx).1, hcp⟩, hup⟩

end RootedForest

end Lib
end SmfSolver
