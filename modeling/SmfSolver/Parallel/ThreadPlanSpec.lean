/-
  SmfSolver.Parallel.ThreadPlanSpec

  The subtree sums of a tree view, and the cost model's lower bound.

  * `subtreeSums_work`: a node's sum is its work and its children's sums.
  * `heavy_add_light`: the top part's work and the subtrees' make the total, whatever the
    target.
  * `plan_serial`: when the total alone says so, the plan is one thread.
-/
import SmfSolver.Parallel.ThreadPlan
import Mathlib.Algebra.Order.BigOperators.Group.Finset
import Mathlib.Data.Nat.SuccPred
import Mathlib.Tactic.Linarith
import Mathlib.Tactic.NormNum.OfScientific
import Mathlib.Tactic.Ring

namespace SmfSolver
namespace Parallel

open Lib Multifrontal
open scoped BigOperators

variable {K : Type*} [Field K] [LinearOrder K]

namespace TreeView

variable {t : TreeView K} {s p c : ℕ}

/-! ## The forest -/

theorem mem_postorder : s ∈ t.postorder ↔ s < t.ns := by
  rw [t.perm.mem_iff, List.mem_range]

theorem nodup_postorder : t.postorder.Nodup := t.isPostorder.nodup

/-- A child stands before its parent. -/
theorem mem_pre {pre post : List ℕ} (h : t.postorder = pre ++ s :: post)
    (hc : t.parent c = some s) : c ∈ pre :=
  (h ▸ t.isPostorder : Postorder t.parent (pre ++ s :: post)).mem_of_below (.single hc)

theorem lt_of_parent (h : t.parent c = some p) : c < t.ns := by
  obtain ⟨pre, post, hsplit⟩ := List.append_of_mem (mem_postorder.mpr (t.parent_lt c p h))
  exact mem_postorder.mp (hsplit ▸ List.mem_append_left _ (mem_pre hsplit h))

theorem mem_kidItems {l : List ℕ} {e : ℕ × ℕ} :
    e ∈ t.kidItems l ↔ e.2 ∈ l ∧ t.parent e.2 = some e.1 := by
  obtain ⟨p, c⟩ := e
  rw [kidItems, List.mem_filterMap]
  constructor
  · rintro ⟨s, hs, heq⟩
    obtain ⟨q, hq, heq⟩ := Option.map_eq_some_iff.mp heq
    obtain ⟨rfl, rfl⟩ := Prod.mk.inj heq
    exact ⟨hs, hq⟩
  · rintro ⟨hc, hp⟩
    exact ⟨c, hc, by rw [hp]; rfl⟩

/-- The children of a node, in descending postorder. -/
theorem kids_slice (hp : p < t.ns) :
    t.kids.slice p = t.postorder.reverse.filter fun c => t.parent c = some p := by
  have hperm : (t.kidItems t.postorder.reverse).Perm (t.kidItems (List.range t.ns)) :=
    ((List.reverse_perm _).trans t.perm).filterMap _
  have hcount : Csr.countKeys (t.kidItems (List.range t.ns)) =
      Csr.countKeys (t.kidItems t.postorder.reverse) := by
    funext k
    cases k with
    | zero => rw [Csr.countKeys_zero, Csr.countKeys_zero]
    | succ k => rw [Csr.countKeys_succ, Csr.countKeys_succ, hperm.countP_eq]
  have hkids : t.kids = Csr.ofItems t.ns (t.kidItems t.postorder.reverse) fun _ => 0 := by
    rw [kids, Csr.ofItems, hcount]
  have hlt : ∀ e ∈ t.kidItems t.postorder.reverse, e.1 < t.ns := fun e he =>
    t.parent_lt e.2 e.1 (mem_kidItems.mp he).2
  rw [hkids, Csr.ofItems_slice hlt hp, Csr.bucket, kidItems]
  induction t.postorder.reverse with
  | nil => rfl
  | cons c l ih =>
    rw [List.filterMap_cons, List.filter_cons]
    cases hc : t.parent c with
    | none => simpa [hc] using ih
    | some q =>
      by_cases hq : q = p
      · simp [hq, ih]
      · simp [hq, ih]

theorem mem_kids (hp : p < t.ns) : c ∈ t.kids.slice p ↔ t.parent c = some p := by
  rw [kids_slice hp, List.mem_filter, List.mem_reverse, mem_postorder, decide_eq_true_eq]
  exact and_iff_right_of_imp fun h => lt_of_parent h

/-! ## The sums -/

theorem foldl_values {β : Type*} (op : β → β → β) {f g : ℕ → β} {b : β} {l : List ℕ}
    (h : ∀ c ∈ l, f c = g c) :
      l.foldl (fun w c => op w (f c)) b = l.foldl (fun w c => op w (g c)) b :=
  List.foldl_ext _ _ _ fun w c hc => by rw [h c hc]

/-- After the nodes `pre`: each has its place, and its sum and first place made of its
    children's. -/
structure Summed (t : TreeView K) (pre : List ℕ) (u : SubtreeSums K) : Prop where
  kids : u.kids = t.kids
  work : ∀ s ∈ pre, u.work s = (t.kids.slice s).foldl (fun w c => w + u.work c) (t.work s)
  first : ∀ s ∈ pre, u.first s = (t.kids.slice s).foldl (fun f c => min f (u.first c)) (u.last s)
  last : ∀ k s, pre[k]? = some s → u.last s = k

theorem Summed.next {pre post : List ℕ} {u : SubtreeSums K} (h : Summed t pre u)
    (hsplit : t.postorder = pre ++ s :: post) :
      Summed t (pre ++ [s]) (t.sumNode u (s, pre.length)) := by
  have hs : s < t.ns := mem_postorder.mp (hsplit ▸ List.mem_append_right _ (List.mem_cons_self ..))
  have hnew : s ∉ pre := (hsplit ▸ t.isPostorder : Postorder t.parent (pre ++ s :: post)).notMem_pre
  have hkid : ∀ c ∈ t.kids.slice s, c ∈ pre := fun c hc => mem_pre hsplit ((mem_kids hs).mp hc)
  have hself : ∀ c ∈ t.kids.slice s, c ≠ s := fun c hc hcs => hnew (hcs ▸ hkid c hc)
  have hkid' : ∀ s' ∈ pre, ∀ c ∈ t.kids.slice s', c ≠ s := by
    intro s' hs' c hc hcs
    obtain ⟨a, b, hab⟩ := List.append_of_mem hs'
    have hsplit' : t.postorder = a ++ s' :: (b ++ s :: post) := by
      rw [hsplit, hab, List.append_assoc, List.cons_append]
    have hs'' : s' < t.ns :=
      mem_postorder.mp (hsplit' ▸ List.mem_append_right _ (List.mem_cons_self ..))
    have := mem_pre hsplit' ((mem_kids hs'').mp hc)
    exact hnew (hcs ▸ hab ▸ List.mem_append_left _ this)
  -- the sums of the children stand, and a node is written once
  refine ⟨h.kids, fun s' hs' => ?_, fun s' hs' => ?_, fun k s' hk => ?_⟩
  · rcases List.mem_append.mp hs' with hs' | hs'
    · have hne : s' ≠ s := fun heq => hnew (heq ▸ hs')
      change Function.update u.work s _ s' = _
      rw [Function.update_of_ne hne, h.work s' hs']
      exact foldl_values (· + ·) fun c hc => (Function.update_of_ne (hkid' s' hs' c hc) ..).symm
    · obtain rfl := List.mem_singleton.mp hs'
      change Function.update u.work s' _ s' = _
      rw [Function.update_self, h.kids]
      exact foldl_values (· + ·) fun c hc => (Function.update_of_ne (hself c hc) ..).symm
  · rcases List.mem_append.mp hs' with hs' | hs'
    · have hne : s' ≠ s := fun heq => hnew (heq ▸ hs')
      change Function.update u.first s _ s' = List.foldl _ (Function.update u.last s _ s') _
      rw [Function.update_of_ne hne, Function.update_of_ne hne, h.first s' hs']
      exact foldl_values min fun c hc => (Function.update_of_ne (hkid' s' hs' c hc) ..).symm
    · obtain rfl := List.mem_singleton.mp hs'
      change Function.update u.first s' _ s' = List.foldl _ (Function.update u.last s' _ s') _
      rw [Function.update_self, Function.update_self, h.kids]
      exact foldl_values min fun c hc => (Function.update_of_ne (hself c hc) ..).symm
  · change Function.update u.last s pre.length s' = k
    rcases Nat.lt_or_ge k pre.length with hlt | hge
    · rw [List.getElem?_append_left hlt] at hk
      have hne : s' ≠ s := fun heq => hnew (heq ▸ List.mem_of_getElem? hk)
      rw [Function.update_of_ne hne, h.last k s' hk]
    · rw [List.getElem?_append_right hge] at hk
      obtain ⟨hlt, hval⟩ := List.getElem?_eq_some_iff.mp hk
      rw [List.length_singleton] at hlt
      obtain rfl : k = pre.length := by omega
      have hs' : s = s' := by simpa using hval
      rw [← hs', Function.update_self]

theorem subtreeSums_summed (t : TreeView K) : Summed t t.postorder t.subtreeSums := by
  have hrun : ∀ pre post, t.postorder = pre ++ post →
      Summed t pre (pre.zipIdx.foldl t.sumNode ⟨t.kids, fun _ => 0, fun _ => 0,
        fun _ => 0, 0⟩) := by
    intro pre
    induction pre using List.reverseRecOn with
    | nil =>
      exact fun _ _ => ⟨rfl, fun s hs => absurd hs List.not_mem_nil,
        fun s hs => absurd hs List.not_mem_nil, fun k s hk => by cases hk⟩
    | append_singleton pre s ih =>
      intro post hsplit
      rw [List.append_assoc, List.singleton_append] at hsplit
      rw [List.zipIdx_append, List.foldl_append, List.zipIdx_singleton, Nat.zero_add]
      exact (ih _ hsplit).next hsplit
  have h := hrun t.postorder [] (List.append_nil _).symm
  exact ⟨h.kids, h.work, h.first, h.last⟩

/-- A node's sum: its work and its children's sums. -/
theorem subtreeSums_work (hs : s < t.ns) : t.subtreeSums.work s =
    t.work s + ∑ c ∈ Finset.range t.ns, if t.parent c = some s then t.subtreeSums.work c
      else 0 := by
  have hfold : ∀ (l : List ℕ) (w : K), l.foldl (fun w c => w + t.subtreeSums.work c) w =
      w + (l.map t.subtreeSums.work).sum := by
    intro l
    induction l with
    | nil => exact fun w => (add_zero w).symm
    | cons c l ih =>
      intro w
      rw [List.foldl_cons, ih, List.map_cons, List.sum_cons, add_assoc]
  have hnodup : (t.kids.slice s).Nodup := by
    rw [kids_slice hs]
    exact (List.nodup_reverse.mpr nodup_postorder).filter _
  have hset : (t.kids.slice s).toFinset = (Finset.range t.ns).filter fun c => t.parent c =
      some s := by
    ext c
    rw [List.mem_toFinset, mem_kids hs, Finset.mem_filter, Finset.mem_range]
    exact (and_iff_right_of_imp fun h => lt_of_parent h).symm
  rw [(subtreeSums_summed t).work s (mem_postorder.mpr hs), hfold,
    ← List.sum_toFinset _ hnodup, hset,
    Finset.sum_filter]

/-- What a node has when its children have it. -/
theorem induct {P : ℕ → Prop} (h : ∀ s < t.ns, (∀ c, t.parent c = some s → P c) → P s) :
    ∀ s < t.ns, P s := by
  have hpre : ∀ pre post, t.postorder = pre ++ post → ∀ s ∈ pre, P s := by
    intro pre
    induction pre using List.reverseRecOn with
    | nil => exact fun _ _ s hs => absurd hs List.not_mem_nil
    | append_singleton pre s ih =>
      intro post hsplit s' hs'
      rw [List.append_assoc, List.singleton_append] at hsplit
      rcases List.mem_append.mp hs' with hs' | hs'
      · exact ih _ hsplit s' hs'
      · obtain rfl := List.mem_singleton.mp hs'
        have hlt : s' < t.ns :=
          mem_postorder.mp (hsplit ▸ List.mem_append_right _ (List.mem_cons_self ..))
        exact h s' hlt fun c hc => ih _ hsplit c (mem_pre hsplit hc)
  exact fun s hs => hpre t.postorder [] (List.append_nil _).symm s (mem_postorder.mpr hs)

/-- A list's sum over the nodes that `P` picks. -/
theorem foldl_picked {l : List ℕ} (hl : l.Perm (List.range t.ns)) (P : ℕ → Bool) (f : ℕ → K) :
    l.foldl (fun w s => if P s then w + f s else w) 0 =
      ∑ s ∈ Finset.range t.ns, if P s then f s else 0 := by
  have hfold : ∀ (l : List ℕ) (w : K), l.foldl (fun w s => if P s then w + f s else w) w =
      w + (l.map fun s => if P s then f s else 0).sum := by
    intro l
    induction l with
    | nil => exact fun w => (add_zero w).symm
    | cons c l ih =>
      intro w
      rw [List.foldl_cons, ih, List.map_cons, List.sum_cons, ← add_assoc]
      split_ifs
      · rfl
      · rw [add_zero]
  rw [hfold, zero_add, (hl.map _).sum_eq, ← List.sum_toFinset _ List.nodup_range]
  refine Finset.sum_congr (Finset.ext fun s => ?_) fun _ _ => rfl
  rw [List.mem_toFinset, List.mem_range, Finset.mem_range]

theorem subtreeSums_total : t.subtreeSums.total =
    ∑ s ∈ Finset.range t.ns, if (t.parent s).isNone then t.subtreeSums.work s else 0 := by
  rw [← foldl_picked (List.Perm.refl _) (fun s => (t.parent s).isNone), ← List.foldl_filter]
  rfl

/-- What a closed top part leaves are subtrees: its nodes' works and their sums make the
    total. -/
theorem top_add_subtrees {H : ℕ → Bool} (hH : ∀ c p, t.parent c = some p → H c = true →
    H p = true) :
    (∑ s ∈ Finset.range t.ns, if H s then t.work s else 0) +
      (∑ s ∈ Finset.range t.ns, if !H s && (t.parent s).all H then t.subtreeSums.work s else 0) =
      t.subtreeSums.total := by
  have hwork : ∀ s ∈ Finset.range t.ns, (if H s then t.work s else 0) =
      (if H s then t.subtreeSums.work s else 0) -
        ∑ c ∈ Finset.range t.ns, if H s = true ∧ t.parent c = some s then t.subtreeSums.work c
          else 0 := by
    intro s hs
    by_cases h : H s
    · rw [if_pos h, if_pos h, subtreeSums_work (Finset.mem_range.mp hs)]
      simp only [h, true_and, add_sub_cancel_right]
    · simp [h]
  have hswap : ∀ c ∈ Finset.range t.ns, (∑ s ∈ Finset.range t.ns,
      if H s = true ∧ t.parent c = some s then t.subtreeSums.work c else 0) =
        if (t.parent c).any H then t.subtreeSums.work c else 0 := by
    intro c _
    cases hp : t.parent c with
    | none => simp
    | some p =>
      have hlt := Finset.mem_range.mpr (t.parent_lt c p hp)
      rw [Finset.sum_eq_single_of_mem p hlt fun s _ hne => if_neg fun h =>
        hne (Option.some.inj h.2).symm]
      simp
  rw [Finset.sum_congr rfl hwork, Finset.sum_sub_distrib, Finset.sum_comm,
    Finset.sum_congr rfl hswap,
    subtreeSums_total, ← Finset.sum_sub_distrib, ← Finset.sum_add_distrib]
  refine Finset.sum_congr rfl fun c _ => ?_
  -- a node that is in the top part has its parent there
  cases hp : t.parent c with
  | none => by_cases h : H c <;> simp [h]
  | some p =>
    by_cases h : H c
    · simp [h, hH c p hp h]
    · by_cases h' : H p <;> simp [h, h']

/-- All works together are the total. -/
theorem treeWork_eq : treeWork t = t.subtreeSums.total := by
  have hall := top_add_subtrees (t := t) (H := fun _ => true) fun _ _ _ _ => rfl
  have hzero : (∑ s ∈ Finset.range t.ns,
      if !true && (t.parent s).all (fun _ => true) then t.subtreeSums.work s else 0) = 0 :=
    Finset.sum_eq_zero fun s _ => rfl
  rw [hzero, add_zero] at hall
  rw [← hall, ← foldl_picked t.perm (fun _ => true)]
  rfl

variable [IsStrictOrderedRing K]

theorem subtreeSums_nonneg (hs : s < t.ns) : 0 ≤ t.subtreeSums.work s := by
  refine induct (P := fun s => 0 ≤ t.subtreeSums.work s) (fun s hs hkids => ?_) s hs
  rw [subtreeSums_work hs]
  refine add_nonneg (t.work_nonneg s) (Finset.sum_nonneg fun c _ => ?_)
  split_ifs with hc
  · exact hkids c hc
  · exact le_rfl

/-- Towards the root the sums do not fall. -/
theorem work_le_parent (h : t.parent c = some p) : t.subtreeSums.work c ≤ t.subtreeSums.work p := by
  rw [subtreeSums_work (t.parent_lt c p h)]
  have hnonneg : ∀ x ∈ Finset.range t.ns,
      0 ≤ if t.parent x = some p then t.subtreeSums.work x else 0 := fun x hx => by
    split_ifs
    · exact subtreeSums_nonneg (Finset.mem_range.mp hx)
    · exact le_rfl
  have hone := Finset.single_le_sum hnonneg (Finset.mem_range.mpr (lt_of_parent h))
  rw [if_pos h] at hone
  exact hone.trans (le_add_of_nonneg_left (t.work_nonneg p))

theorem heavy_parent (target : K) (h : t.parent c = some p)
    (hc : heavy t.subtreeSums target c = true) :
    heavy t.subtreeSums target p = true :=
  decide_eq_true ((of_decide_eq_true hc).trans_le (work_le_parent h))

/-! ## The phases -/

variable {target : K} {threads : ℤ}

omit [IsStrictOrderedRing K] in
theorem phaseNode_terms (target : K) (threads : ℤ) (u : SubtreeSums K)
    (st : PhaseTerms K × (ℕ → K)) (s : ℕ) :
    let pt := (t.phaseNode u target threads st s).1
    pt.topTotal = (if heavy u target s then st.1.topTotal + t.work s else st.1.topTotal) ∧
      pt.subTotal = (if t.isSubtree u target s then st.1.subTotal + u.work s else st.1.subTotal) ∧
      (pt.splitTopWork = st.1.splitTopWork ∨ pt.splitTopWork = st.1.splitTopWork + t.work s) := by
  unfold phaseNode isSubtree
  obtain ⟨pt, below⟩ := st
  dsimp only
  by_cases h : heavy u target s
  · rw [if_pos h, if_pos h]
    cases t.parent s <;> by_cases hsplit : t.split s = .tiles <;> simp [h, hsplit]
  · rw [if_neg h, if_neg h]
    by_cases hp : (t.parent s).all (heavy u target) <;> simp [h, hp]

theorem phaseTerms_eq (target : K) (threads : ℤ) :
    let pt := t.phaseTerms t.subtreeSums target threads
    pt.topTotal + pt.subTotal = t.subtreeSums.total ∧
      pt.subTotal = t.subTotal t.subtreeSums target ∧
      0 ≤ pt.splitTopWork := by
  -- by induction on the nodes to come, from any terms so far
  have hfold : ∀ (l : List ℕ) (st : PhaseTerms K × (ℕ → K)), 0 ≤ st.1.splitTopWork →
      let pt := (l.foldl (t.phaseNode t.subtreeSums target threads) st).1
      pt.topTotal = l.foldl (fun w s => if heavy t.subtreeSums target s then w + t.work s else w)
          st.1.topTotal ∧
        pt.subTotal = l.foldl (fun w s => if t.isSubtree t.subtreeSums target s then
          w + t.subtreeSums.work s else w) st.1.subTotal ∧
        0 ≤ pt.splitTopWork := by
    intro l
    induction l with
    | nil => exact fun st h => ⟨rfl, rfl, h⟩
    | cons s l ih =>
      intro st h
      obtain ⟨htop, hsub, hsplit⟩ := phaseNode_terms (t := t) target threads t.subtreeSums st s
      have hnonneg : 0 ≤ (t.phaseNode t.subtreeSums target threads st s).1.splitTopWork := by
        rcases hsplit with heq | heq
        · rw [heq]
          exact h
        · rw [heq]
          exact add_nonneg h (t.work_nonneg s)
      obtain ⟨htop', hsub', hsplit'⟩ := ih (t.phaseNode t.subtreeSums target threads st s) hnonneg
      exact ⟨by rw [List.foldl_cons, htop', htop, List.foldl_cons],
        by rw [List.foldl_cons, hsub', hsub, List.foldl_cons], hsplit'⟩
  obtain ⟨htop, hsub, hsplit⟩ := hfold t.postorder ({}, fun _ => 0) le_rfl
  refine ⟨?_, hsub, hsplit⟩
  have hparts := top_add_subtrees (H := heavy t.subtreeSums target) fun c p => heavy_parent target
  rw [← foldl_picked t.perm, ← foldl_picked t.perm] at hparts
  exact (congrArg₂ (· + ·) htop hsub).trans hparts

end TreeView

/-! ## The cost model -/

variable {t : TreeView K} {c : ThreadCosts K}

/-- No candidate is cheaper than the first. -/
theorem leastCostThreads_front [IsStrictOrderedRing K] {T : ℤ} {cost : K} {rest : List (ℤ × K)}
    (h0 : 0 ≤ cost) (hrest : ∀ k ∈ rest, k.2 < 0 ∨ cost ≤ k.2) :
    leastCostThreads ((T, cost) :: rest) = (T, cost) := by
  have hfold : ∀ l : List (ℤ × K), (∀ k ∈ l, k.2 < 0 ∨ cost ≤ k.2) →
      l.foldl (fun least k => if 0 ≤ k.2 then min least k.2 else least) cost = cost := by
    intro l
    induction l with
    | nil => exact fun _ => rfl
    | cons k l ih =>
      intro hl
      have hstep : (if 0 ≤ k.2 then min cost k.2 else cost) = cost := by
        split_ifs with hk
        · exact min_eq_left ((hl k (List.mem_cons_self ..)).resolve_left (not_lt.mpr hk))
        · rfl
      rw [List.foldl_cons, hstep]
      exact ih fun k' hk' => hl k' (List.mem_cons_of_mem _ hk')
  have hleast : ((T, cost) :: rest).foldl
      (fun least k => if 0 ≤ k.2 then min least k.2 else least) cost = cost :=
    hfold _ fun k hk => (List.mem_cons.mp hk).elim (fun heq => heq ▸ Or.inr le_rfl) (hrest k)
  have htie : cost ≤ cost * (102 / 100) := by linarith
  have hfind : ((T, cost) :: rest).find? (fun k => 0 ≤ k.2 ∧ k.2 ≤ cost * (102 / 100)) =
      some (T, cost) := List.find?_cons_of_pos (decide_eq_true ⟨h0, htie⟩)
  unfold leastCostThreads
  dsimp only [List.headD_cons]
  rw [hleast, hfind]
  rfl

theorem two_le_candidate {maxThreads T : ℤ} (h : T ∈ candidateThreads maxThreads) (h1 : T ≠ 1) :
    2 ≤ T := by
  unfold candidateThreads at h
  split_ifs at h with hmax
  · exact absurd (List.mem_singleton.mp h) h1
  · rcases List.mem_append.mp h with h | h
    · obtain h | h := List.mem_cons.mp h
      · exact absurd h h1
      · obtain ⟨k, -, rfl⟩ := List.mem_map.mp (List.takeWhile_sublist _ |>.subset h)
        have hpow : (1 : ℤ) ≤ 2 ^ k := one_le_pow₀ (by omega)
        rw [pow_succ]
        omega
    · rw [List.mem_singleton.mp h]
      omega

variable [IsStrictOrderedRing K]

/-- Every candidate past one thread costs its share of the total and its threads. -/
theorem factorPlanCost_ge {k : FactorPlanTerms K} (hT : 2 ≤ k.threads) (hok : k.ok = true)
    (hsplit : 0 ≤ k.splitTopWork) (hfront : 0 ≤ c.perTopFront) (hper : 0 ≤ c.perSplitFrontThread) :
    (k.subTotal + k.topTotal) / k.threads + k.threads * c.perThread ≤ factorPlanCost k c := by
  have hT0 : (0 : K) < k.threads := by exact_mod_cast (by omega : (0 : ℤ) < k.threads)
  have hcap : (0 : K) < ((min k.threads (max 1 c.splitCap) : ℤ) : K) := by
    exact_mod_cast (by omega : (0 : ℤ) < min k.threads (max 1 c.splitCap))
  have hcap' : ((min k.threads (max 1 c.splitCap) : ℤ) : K) ≤ k.threads := by
    exact_mod_cast min_le_left _ _
  -- split fronts' work is divided by no more than the threads
  have hshare : k.splitTopWork / k.threads ≤ k.splitTopWork /
    ((min k.threads (max 1 c.splitCap) : ℤ) : K) :=
    div_le_div_of_nonneg_left hsplit hcap hcap'
  have htop : k.topTotal / k.threads ≤ max k.cpTop ((k.topTotal - k.splitTopWork) / k.threads +
      k.splitTopWork / ((min k.threads (max 1 c.splitCap) : ℤ) : K)) := by
    refine le_max_of_le_right ?_
    rw [sub_div]
    linarith
  have hsub : k.subTotal / k.threads ≤ max k.maxSubtree (k.subTotal / k.threads) := le_max_right _ _
  have hfronts : (0 : K) ≤ k.topFronts * c.perTopFront := mul_nonneg (Nat.cast_nonneg _) hfront
  have hsplits : (0 : K) ≤ k.splitTopFronts * k.threads * c.perSplitFrontThread :=
    mul_nonneg (mul_nonneg (Nat.cast_nonneg _) hT0.le) hper
  unfold factorPlanCost
  rw [if_neg (by omega), hok, Bool.not_true, if_neg Bool.false_ne_true, add_div]
  dsimp only
  linarith

/-- A share of the total and the threads' cost come to the total, when a thread costs a
    quarter of it. -/
theorem total_le_share {total per : K} {T : K} (hT : 2 ≤ T) (h0 : 0 < total) (h : total ≤ 4 * per) :
    total ≤ total / T + T * per := by
  have hT0 : 0 < T := by linarith
  have hsquare : 0 ≤ total * (T - 2) ^ 2 := mul_nonneg h0.le (sq_nonneg _)
  have hshare : total ≤ total / T + T * (total / 4) := by
    rw [div_add' _ _ _ hT0.ne', le_div_iff₀ hT0]
    nlinarith
  have hper : T * (total / 4) ≤ T * per := mul_le_mul_of_nonneg_left (by linarith) hT0.le
  linarith

/-- The serial plan. -/
theorem planThreads_serial (h : planIsSerial t.subtreeSums.total c = true) (maxThreads : ℤ) :
    (planThreads t maxThreads c).threads = 1 := by
  -- the serial plan is the first of the list; it is enough that it is the cheapest
  have hfirst : ∀ terms : List (FactorPlanTerms K), factorPlanTerms t maxThreads = terms →
      leastCostThreads (terms.map fun k => (k.threads, factorPlanCost k c)) =
        (1, t.subtreeSums.total) →
      (planThreads t maxThreads c).threads = 1 := by
    rintro terms rfl hleast
    unfold planThreads
    dsimp only
    rw [hleast]
  by_cases hone : maxThreads < 2 ∨ t.subtreeSums.total < kTreeParallelMinWork ∨
    ¬0 < t.subtreeSums.total
  · refine hfirst [{ total := t.subtreeSums.total }] (if_pos hone) ?_
    have hcost : factorPlanCost { total := t.subtreeSums.total } c = t.subtreeSums.total :=
      if_pos le_rfl
    rw [List.map_singleton, hcost]
    unfold leastCostThreads
    dsimp only [List.headD_cons]
    cases hfind : List.find? _ _ with
    | none => rfl
    | some k => exact List.mem_singleton.mp (List.mem_of_find?_eq_some hfind)
  · have hterms : factorPlanTerms t maxThreads = _ := if_neg hone
    rw [not_or, not_or, not_not] at hone
    obtain ⟨-, hmin, hpos⟩ := hone
    -- the shortcut was taken for the costs: the work is worth no second thread
    have hcosts : (0 ≤ c.perThread ∧ 0 ≤ c.perTopFront ∧ 0 ≤ c.perSplitFrontThread) ∧
        t.subtreeSums.total ≤ 4 * c.perThread := by
      have hfour : (4.0 : K) = 4 := by norm_num
      unfold planIsSerial at h
      rw [if_neg (by rw [not_or, not_not]; exact ⟨hmin, hpos⟩), Bool.and_eq_true, hfour] at h
      exact ⟨of_decide_eq_true h.1, of_decide_eq_true h.2⟩
    obtain ⟨⟨hthread, hfront, hper⟩, htotal⟩ := hcosts
    refine hfirst _ hterms ?_
    have hcost : factorPlanCost { total := t.subtreeSums.total } c = t.subtreeSums.total :=
      if_pos le_rfl
    rw [List.map_cons, hcost]
    refine leastCostThreads_front hpos.le fun k hk => ?_
    obtain ⟨terms, hmem, rfl⟩ := List.mem_map.mp hk
    obtain ⟨T, hT, rfl⟩ := List.mem_map.mp hmem
    obtain ⟨hcand, hne⟩ := List.mem_filter.mp hT
    have hT2 := two_le_candidate hcand (of_decide_eq_true hne)
    obtain ⟨hsum, -, hsplit⟩ := TreeView.phaseTerms_eq (t := t)
      (TreeView.target t.subtreeSums T) T
    dsimp only
    by_cases hok : 2 ≤ (t.phaseTerms t.subtreeSums (TreeView.target t.subtreeSums T) T).tasks
    · refine Or.inr ?_
      refine le_trans ?_ (factorPlanCost_ge hT2 (decide_eq_true hok) hsplit hfront hper)
      dsimp only
      rw [add_comm (TreeView.PhaseTerms.subTotal _), hsum]
      exact total_le_share (by exact_mod_cast hT2) hpos htotal
    -- a plan without two tasks is priced at -1, which is no price
    · left
      unfold factorPlanCost
      rw [if_neg (by dsimp only; omega), decide_eq_false hok, Bool.not_false, if_pos rfl]
      exact neg_one_lt_zero

/-- Two nodes below a root. -/
def forkView (work : ℕ → ℕ) : TreeView ℚ where
  ns := 3
  postorder := List.range 3
  parent := fun s => if s < 2 then some 2 else none
  work s := work s
  split := fun s => if s < 2 then .serial else .tiles
  perm := List.Perm.refl _
  isPostorder := by
    refine postorder_of_first (fun s => if s = 2 then 0 else s) (by decide) fun s hs x => ?_
    have hroot : ∀ y s', ¬(if (y : ℕ) < 2 then some 2 else none) = some s' ∨ s' = 2 ∧ y < 2 := by
      intro y s'
      split_ifs with hy
      · by_cases hs' : s' = 2
        · exact Or.inr ⟨hs', hy⟩
        · exact Or.inl fun hc => hs' (Option.some.inj hc).symm
      · exact Or.inl fun hc => nomatch hc
    constructor
    · intro hbelow
      obtain ⟨b, hup, hb⟩ := Relation.TransGen.tail'_iff.mp hbelow
      obtain ⟨rfl, hlt⟩ := (hroot b s).resolve_left fun hc => hc hb
      rcases Relation.ReflTransGen.cases_tail hup with rfl | ⟨d, -, hd⟩
      · simpa using hlt
      · obtain ⟨rfl, -⟩ := (hroot d b).resolve_left fun hc => hc hd
        omega
    · intro hx
      split_ifs at hx with hs2
      · subst hs2
        exact .single (if_pos hx.2)
      · omega
  parent_lt := by
    intro s p h
    split_ifs at h
    obtain rfl := Option.some.inj h
    decide
  work_nonneg s := Nat.cast_nonneg _

end Parallel

open Parallel in
/-- Whatever the tree, its works and the costs: when `plan_is_serial` says so of the total
    work, the plan of any maximum is one thread, and the factorization wants as many threads
    with the shortcut as without. -/
theorem plan_serial {K : Type*} [Field K] [LinearOrder K] [IsStrictOrderedRing K] (t : TreeView K)
    (c : ThreadCosts K) (h : planIsSerial t.subtreeSums.total c = true) :
    (∀ maxThreads, (planThreads t maxThreads c).threads = 1) ∧
      ∀ autoThreads numThreads,
        wantThreads true t c autoThreads numThreads =
          wantThreads false t c autoThreads numThreads := by
  refine ⟨planThreads_serial h, fun autoThreads numThreads => ?_⟩
  have hplan := planThreads_serial h numThreads
  unfold wantThreads
  rw [TreeView.treeWork_eq, hplan]
  simp only [h, and_true, Bool.false_eq_true, and_false, if_false]
  split_ifs <;> rfl

open Parallel in
/-- Work enough to partition the tree, at four times a thread's cost exactly; at a lower
    cost the plan is to be made. -/
theorem plan_serial_fork :
    let t := forkView fun _ => 10000000
    ((∀ maxThreads, (planThreads t maxThreads ⟨7500000, 0, 0, 8⟩).threads = 1) ∧
      ∀ autoThreads numThreads, wantThreads true t ⟨7500000, 0, 0, 8⟩ autoThreads numThreads =
        wantThreads false t ⟨7500000, 0, 0, 8⟩ autoThreads numThreads) ∧
      planIsSerial t.subtreeSums.total ⟨7499999, 0, 0, 8⟩ = false :=
  ⟨plan_serial _ ⟨7500000, 0, 0, 8⟩ (by decide +kernel), by decide +kernel⟩

end SmfSolver
