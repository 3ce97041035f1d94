/-
  SmfSolver.Parallel.TaskTreeVisits

  Which nodes `run_costed_postorder` processes, in every schedule of its tasks.

  A task whose children's contribution blocks together exceed the memory budget
  processes these children itself, and them only: what is below them is left out
  (`skips`).  Where that does not happen every supernode is processed once, after its
  children (`visitsAll_iff`).
-/
import SmfSolver.Parallel.TaskTreeWalk

namespace SmfSolver
namespace Parallel
namespace CostedTree

open Multifrontal Lib Lib.ForkJoin

variable (T : CostedTree) (policy : ExecutionPolicy)

/-- A task at depth `32 - left` throttles the children it has tasks for, or one below it
    does, and one of these children has children. -/
def skips : ℕ → ℕ → Bool
  | 0, _ => false
  | left + 1, node =>
    if (T.children node).isEmpty ∨ T.isTiny policy node then false
    else if T.throttles policy (T.parChildren policy node) then
      (T.parChildren policy node).any fun c => !(T.children c).isEmpty
    else (T.parChildren policy node).any (skips left)

/-- The run throttles a task with a child that has children. -/
def skipsSubtree : Bool :=
  isParallel policy && T.roots.any fun r => !T.isTiny policy r && T.skips policy 32 r

/-- The nodes whose processing is begun. -/
def callOf : TaskAction → Option ℕ
  | .call s => some s
  | _ => none

def calls (l : List TaskAction) : List ℕ := l.filterMap callOf

/-- In every schedule every supernode is processed exactly once, when all its children
    have been; and no schedule gets stuck. -/
structure VisitsAll : Prop where
  once : ∀ {tr s}, (system (T.runCostedPostorder policy)).Run tr s → s.Finished →
    (calls (actions tr)).Perm (List.range T.ns)
  ordered : ∀ {tr s}, (system (T.runCostedPostorder policy)).Run tr s →
    ∀ pre v post, tr = pre ++ some (.call v) :: post → ∀ c ∈ T.children v, some (.ret c) ∈ pre
  ends : ∀ {tr s}, (system (T.runCostedPostorder policy)).Run tr s →
    ∃ tr' s', (system (T.runCostedPostorder policy)).Run (tr ++ tr') s' ∧ s'.Finished

variable {T policy}

/-! ## The calls of the program -/

section Calls

variable {v c x left : ℕ}

@[simp] theorem calls_nil : calls [] = [] := rfl

@[simp] theorem calls_append (l l' : List TaskAction) : calls (l ++ l') = calls l ++ calls l' :=
  List.filterMap_append

@[simp] theorem calls_cons_call (s : ℕ) (l : List TaskAction) :
    calls (.call s :: l) = s :: calls l := rfl

@[simp] theorem calls_cons_ret (s : ℕ) (l : List TaskAction) : calls (.ret s :: l) = calls l := rfl

@[simp] theorem calls_cons_complete (s : ℕ) (l : List TaskAction) :
    calls (.complete s :: l) = calls l := rfl

@[simp] theorem calls_cons_coarsened (k : ℕ) (l : List TaskAction) :
    calls (.coarsened k :: l) = calls l := rfl

@[simp] theorem calls_cons_spawned (l : List TaskAction) : calls (.spawned :: l) = calls l := rfl

@[simp] theorem calls_cons_throttledWait (l : List TaskAction) :
    calls (.throttledWait :: l) = calls l := rfl

@[simp] theorem calls_cons_raisePeak (k : ℕ) (l : List TaskAction) :
    calls (.raisePeak k :: l) = calls l := rfl

@[simp] theorem calls_process (s : ℕ) (p : Prog TaskAction) :
    calls (process s p).acts = s :: calls p.acts := rfl

theorem calls_flatMap {β : Type*} (f : β → List TaskAction) (l : List β) :
    calls (l.flatMap f) = l.flatMap fun b => calls (f b) := by
  induction l with
  | nil => rfl
  | cons b l ih => rw [List.flatMap_cons, List.flatMap_cons, calls_append, ih]

/-- A body for each node that calls it and no other. -/
theorem calls_forEach {f : ℕ → Prog TaskAction} (hf : ∀ s, calls (f s).acts = [s]) (l : List ℕ) :
    calls (Prog.forEach f l).acts = l := by
  rw [Prog.acts_forEach, calls_flatMap, List.flatMap_congr fun s _ => hf s]
  exact List.flatMap_singleton' l

theorem calls_executeSubtreeIterative (hv : v < T.ns) :
    calls (T.executeSubtreeIterative v).acts = T.subtree v := by
  rw [executeSubtreeIterative, walk_subtree hv]
  exact calls_forEach (fun _ => rfl) _

theorem calls_batchLoop (task : ℕ → Prog TaskAction) (par : List ℕ) (batch : ℕ) (todo : List ℕ) :
    calls (T.batchLoop policy task par batch todo).acts =
      if T.throttles policy par then if todo.isEmpty then [] else par
      else todo.flatMap fun c => calls (task c).acts := by
  induction todo generalizing batch with
  | nil => cases T.throttles policy par <;> rfl
  | cons c todo ih =>
    have hwait : ∀ (b : Bool) (p q : Prog TaskAction), calls p.acts = calls q.acts →
        calls (if b then Prog.act .throttledWait (.wait p) else q).acts = calls p.acts := by
      rintro (_ | _) p q hpq
      · exact hpq.symm
      · rfl
    rw [batchLoop]
    by_cases ht : T.throttles policy par = true
    · simp only [if_pos ht]
      refine (hwait _ _ _ rfl).trans ?_
      rw [throttledChildren, Prog.acts, calls_cons_throttledWait, Prog.acts_seq, calls_append,
        calls_forEach (fun _ => rfl) par]
      exact List.append_nil par
    · have hspawn : ∀ batch, calls (Prog.act .spawned (.spawn (task c)
          (T.batchLoop policy task par batch todo))).acts
          = (c :: todo).flatMap fun c => calls (task c).acts := by
        intro batch
        rw [Prog.acts, calls_cons_spawned, Prog.acts, calls_append, ih, if_neg ht,
          List.flatMap_cons]
      simp only [if_neg ht]
      exact (hwait _ _ _ ((hspawn _).trans (hspawn _).symm)).trans (hspawn _)

/-- The calls of a task that is not coarsened. -/
theorem calls_costedTaskImpl_succ (hv : v < T.ns) (hkids : (T.children v).isEmpty = false)
    (htiny : T.isTiny policy v = false) :
    calls (T.costedTaskImpl policy (left + 1) v).acts =
      (T.tinyChildren policy v).flatMap T.subtree ++
        ((if T.throttles policy (T.parChildren policy v) then T.parChildren policy v
          else (T.parChildren policy v).flatMap fun c =>
            calls (T.costedTaskImpl policy left c).acts) ++ [v]) := by
  have hinline : calls (Prog.forEach T.executeSubtreeIterative (T.tinyChildren policy v)).acts
      = (T.tinyChildren policy v).flatMap T.subtree := by
    rw [Prog.acts_forEach, calls_flatMap]
    refine List.flatMap_congr fun c hc => calls_executeSubtreeIterative ?_
    exact (lt_of_mem_children hv (List.mem_of_mem_filter hc)).trans hv
  rw [costedTaskImpl, if_neg (by simp [hkids, htiny])]
  dsimp only
  rw [Prog.acts_seq, Prog.acts_seq, calls_append, calls_append]
  refine congrArg₂ (· ++ ·) ?_ (congrArg₂ (· ++ ·) ?_ rfl)
  · by_cases he : (T.tinyChildren policy v).isEmpty = true
    · rw [if_pos he, List.isEmpty_iff.mp he]
      rfl
    · rw [if_neg he]
      exact hinline
  · by_cases he : (T.parChildren policy v).isEmpty = true
    · rw [if_pos he, List.isEmpty_iff.mp he]
      split_ifs <;> rfl
    · rw [if_neg he, Prog.acts_seq, calls_append, calls_batchLoop, if_neg he]
      exact List.append_nil _

/-- A task that walks its subtree itself. -/
theorem calls_costedTaskImpl_iterative (hv : v < T.ns)
    (h : left = 0 ∨ (T.children v).isEmpty = true ∨ T.isTiny policy v = true) :
    calls (T.costedTaskImpl policy left v).acts = T.subtree v := by
  have hit := calls_executeSubtreeIterative hv
  cases left with
  | zero =>
    rw [costedTaskImpl]
    split_ifs
    · exact hit
    · exact hit
  | succ left =>
    have hor := h.resolve_left (Nat.succ_ne_zero left)
    rw [costedTaskImpl, if_pos hor]
    split_ifs
    · exact hit
    · exact hit

variable (T policy) in
/-- The cases of a task, in the order of the code. -/
theorem cases_task (left v : ℕ) :
    (left = 0 ∨ (T.children v).isEmpty = true ∨ T.isTiny policy v = true) ∨
      ∃ left', left = left' + 1 ∧ (T.children v).isEmpty = false ∧ T.isTiny policy v = false := by
  rcases left with _ | left
  · exact .inl (.inl rfl)
  · cases hkids : (T.children v).isEmpty
    · cases htiny : T.isTiny policy v
      · exact .inr ⟨left, rfl, rfl, rfl⟩
      · exact .inl (.inr (.inr rfl))
    · exact .inl (.inr (.inl rfl))

theorem skips_succ (hkids : (T.children v).isEmpty = false) (htiny : T.isTiny policy v = false) :
    T.skips policy (left + 1) v =
      if T.throttles policy (T.parChildren policy v) then
        (T.parChildren policy v).any fun c => !(T.children c).isEmpty
      else (T.parChildren policy v).any (T.skips policy left) := by
  rw [skips, if_neg (by simp [hkids, htiny])]

theorem mem_parChildren : c ∈ T.parChildren policy v ↔
    c ∈ T.children v ∧ T.isTiny policy c = false := by
  rw [parChildren, List.mem_filter, Bool.not_eq_true']

theorem mem_tinyChildren : c ∈ T.tinyChildren policy v ↔
    c ∈ T.children v ∧ T.isTiny policy c = true := List.mem_filter

variable (policy) in
/-- The children's subtrees, the small ones first. -/
theorem children_perm (f : ℕ → List ℕ) :
    ((T.tinyChildren policy v).flatMap f ++ (T.parChildren policy v).flatMap f).Perm
      ((T.children v).flatMap f) := by
  rw [← List.flatMap_append]
  exact (List.filter_append_perm _ _).flatMap_right f

/-- A task calls nodes of its subtree only. -/
theorem under_of_mem_calls (hv : v < T.ns)
    (hx : x ∈ calls (T.costedTaskImpl policy left v).acts) : T.Under x v := by
  induction left using Nat.strong_induction_on generalizing v with
  | _ left ih =>
    rcases T.cases_task policy left v with h | ⟨left, rfl, hkids, htiny⟩
    · rw [calls_costedTaskImpl_iterative hv h] at hx
      exact (mem_subtree hv).mp hx
    · have hlt : ∀ {c}, c ∈ T.children v → c < T.ns := fun hc =>
        (lt_of_mem_children hv hc).trans hv
      rw [calls_costedTaskImpl_succ hv hkids htiny, List.mem_append, List.mem_append,
        List.mem_singleton] at hx
      rcases hx with hx | hx | rfl
      · obtain ⟨c, hc, hx⟩ := List.mem_flatMap.mp hx
        have hc := (mem_tinyChildren.mp hc).1
        exact .of_child hc ((mem_subtree (hlt hc)).mp hx)
      · split_ifs at hx
        · exact .of_child (mem_parChildren.mp hx).1 .refl
        · obtain ⟨c, hc, hx⟩ := List.mem_flatMap.mp hx
          have hc := (mem_parChildren.mp hc).1
          exact .of_child hc (ih left (Nat.lt_succ_self _) (hlt hc) hx)
      · exact .refl

/-- A task that skips nothing calls its subtree, each node once. -/
theorem calls_perm_subtree (hv : v < T.ns) (h : T.skips policy left v = false) :
    (calls (T.costedTaskImpl policy left v).acts).Perm (T.subtree v) := by
  induction left using Nat.strong_induction_on generalizing v with
  | _ left ih =>
    rcases T.cases_task policy left v with hit | ⟨left, rfl, hkids, htiny⟩
    · rw [calls_costedTaskImpl_iterative hv hit]
    · have hlt : ∀ {c}, c ∈ T.parChildren policy v → c < T.ns := fun hc =>
        (lt_of_mem_children hv (mem_parChildren.mp hc).1).trans hv
      rw [skips_succ hkids htiny] at h
      rw [calls_costedTaskImpl_succ hv hkids htiny, subtree_eq hv, ← List.append_assoc]
      refine List.Perm.append_right [v] (.trans (.append_left _ ?_) (children_perm policy _))
      split_ifs at h ⊢ with ht
      · -- the children called are leaves
        rw [List.any_eq_false] at h
        have hleaf : (T.parChildren policy v).flatMap T.subtree = T.parChildren policy v := by
          refine (List.flatMap_congr fun c hc => ?_).trans (List.flatMap_singleton' _)
          have hnil : T.children c = [] := by simpa using h c hc
          rw [subtree_eq (hlt hc), hnil]
          rfl
        rw [hleaf]
      · rw [List.any_eq_false] at h
        refine List.Perm.flatMap_left _ fun c hc => ?_
        exact ih left (Nat.lt_succ_self _) (hlt hc) (Bool.not_eq_true _ ▸ h c hc)

/-- A task that skips something leaves a node of its subtree out. -/
theorem exists_not_called (hv : v < T.ns) (h : T.skips policy left v = true) :
    ∃ g, T.Under g v ∧ g ∉ calls (T.costedTaskImpl policy left v).acts := by
  induction left using Nat.strong_induction_on generalizing v with
  | _ left ih =>
    rcases T.cases_task policy left v with hit | ⟨left, rfl, hkids, htiny⟩
    · rcases left with _ | left
      · cases h
      · rw [skips, if_pos (hit.resolve_left (Nat.succ_ne_zero left))] at h
        cases h
    · have hlt : ∀ {c}, c ∈ T.children v → c < v := fun hc => lt_of_mem_children hv hc
      rw [skips_succ hkids htiny] at h
      -- a node below child `c` is not below a small child, and it is not `v`
      have hother : ∀ {c g}, c ∈ T.parChildren policy v → T.Under g c →
          g ∉ (T.tinyChildren policy v).flatMap T.subtree ∧ g ≠ v := by
        intro c g hc hg
        obtain ⟨hc, hpar⟩ := mem_parChildren.mp hc
        refine ⟨fun hmem => ?_, ?_⟩
        · obtain ⟨c', hc', hg'⟩ := List.mem_flatMap.mp hmem
          obtain ⟨hc', htiny'⟩ := mem_tinyChildren.mp hc'
          rw [mem_subtree ((hlt hc').trans hv)] at hg'
          obtain rfl := Under.child_unique hv hc hc' hg hg'
          cases hpar.symm.trans htiny'
        · exact ((hg.le ((hlt hc).trans hv)).trans_lt (hlt hc)).ne
      have hnot : ∀ {c g}, c ∈ T.parChildren policy v → T.Under g c →
          g ∉ (if T.throttles policy (T.parChildren policy v) then T.parChildren policy v
            else (T.parChildren policy v).flatMap fun c =>
              calls (T.costedTaskImpl policy left c).acts) →
          g ∉ calls (T.costedTaskImpl policy (left + 1) v).acts := by
        intro c g hc hg hbatch
        obtain ⟨htinies, hne⟩ := hother hc hg
        rw [calls_costedTaskImpl_succ hv hkids htiny, List.mem_append, List.mem_append,
          List.mem_singleton]
        rintro (hmem | hmem | hmem)
        · exact htinies hmem
        · exact hbatch hmem
        · exact hne hmem
      split_ifs at h hnot with ht
      · obtain ⟨c, hc, hne⟩ := List.any_eq_true.mp h
        obtain ⟨g, hg⟩ : ∃ g, g ∈ T.children c := by
          cases hkids' : T.children c with
          | nil => simp [hkids'] at hne
          | cons g l => exact ⟨g, List.mem_cons_self ..⟩
        have hcv := (mem_parChildren.mp hc).1
        have hgc : T.Under g c := .of_child hg .refl
        refine ⟨g, .of_child hcv hgc, hnot hc hgc fun hmem => ?_⟩
        -- `g` is a child of `c`, so it is not another child of `v`
        have hgv := (mem_parChildren.mp hmem).1
        have hpar := (T.mem_children v g).mp hgv
        obtain rfl := Option.some.inj (hpar.symm.trans ((T.mem_children c g).mp hg))
        exact absurd (hlt hcv) (lt_irrefl _)
      · obtain ⟨c, hc, hskip⟩ := List.any_eq_true.mp h
        have hcv := (mem_parChildren.mp hc).1
        obtain ⟨g, hg, hgnot⟩ := ih left (Nat.lt_succ_self _) ((hlt hcv).trans hv) hskip
        refine ⟨g, .of_child hcv hg, hnot hc hg fun hmem => ?_⟩
        obtain ⟨c', hc', hg'⟩ := List.mem_flatMap.mp hmem
        have hcv' := (mem_parChildren.mp hc').1
        have hunder := under_of_mem_calls ((hlt hcv').trans hv) hg'
        obtain rfl := Under.child_unique hv hcv hcv' hg hunder
        exact hgnot hg'

end Calls

/-! ## The order of the calls -/

/-- A node is called when its children's calls have returned. -/
def needs (T : CostedTree) : TaskAction → Set TaskAction
  | .call s => {a | ∃ c ∈ T.children s, a = .ret c}
  | _ => ∅

/-- When the calls of the nodes of `pre` are known to have returned, the body passes the
    check, and it knows after it that those of `l` have. -/
def Visits (T : CostedTree) (pre : List ℕ) (p : Prog TaskAction) (l : List ℕ) : Prop :=
  ∀ k, (∀ x ∈ pre, .ret x ∈ k.1) → p.Ok T.needs k ∧ ∀ x ∈ l, .ret x ∈ (p.after k).1

section Order

variable {v c left : ℕ} {p q : Prog TaskAction} {pre l l' : List ℕ}

theorem Visits.mono (h : T.Visits pre p l) (hl : l' ⊆ l) : T.Visits pre p l' := fun k hk =>
  ⟨(h k hk).1, fun x hx => (h k hk).2 x (hl hx)⟩

theorem Visits.seq (hp : T.Visits pre p l) (hq : T.Visits (pre ++ l) q l') :
    T.Visits pre (p.seq q) (l ++ l') := by
  intro k hk
  obtain ⟨hokp, hretp⟩ := hp k hk
  have hpre : ∀ x ∈ pre ++ l, .ret x ∈ (p.after k).1 := by
    intro x hx
    rcases List.mem_append.mp hx with hx | hx
    · exact Prog.subset_after p k (hk x hx)
    · exact hretp x hx
  obtain ⟨hokq, hretq⟩ := hq (p.after k) hpre
  refine ⟨(Prog.ok_seq p q k).mpr ⟨hokp, hokq⟩, fun x hx => ?_⟩
  rw [Prog.after_seq]
  rcases List.mem_append.mp hx with hx | hx
  · exact Prog.subset_after q _ (hretp x hx)
  · exact hretq x hx

theorem Visits.weaken {pre' : List ℕ} (h : T.Visits pre p l) (hpre : pre ⊆ pre') :
    T.Visits pre' p l := fun k hk => h k fun x hx => hk x (hpre hx)

/-- An action that is no call changes nothing. -/
theorem Visits.act {a : TaskAction} (ha : T.needs a = ∅) (h : T.Visits pre p l) :
    T.Visits pre (.act a p) l := by
  intro k hk
  obtain ⟨hok, hret⟩ := h (insert a k.1, k.2) fun x hx => .inr (hk x hx)
  exact ⟨⟨ha ▸ Set.empty_subset _, hok⟩, hret⟩

theorem visits_call (v : ℕ) :
    T.Visits (T.children v) (.act (.call v) (.act (.ret v) .done)) [v] := by
  intro k hk
  refine ⟨⟨?_, Set.empty_subset _, trivial⟩, fun x hx => ?_⟩
  · rintro a ⟨c, hc, rfl⟩
    exact hk c hc
  · rw [List.mem_singleton.mp hx]
    exact .inl rfl

theorem visits_process (v : ℕ) : T.Visits (T.children v) (process v .done) [v] := by
  intro k hk
  refine ⟨⟨?_, Set.empty_subset _, Set.empty_subset _, trivial⟩, fun x hx => ?_⟩
  · rintro a ⟨c, hc, rfl⟩
    exact hk c hc
  · rw [List.mem_singleton.mp hx]
    exact .inr (.inl rfl)

theorem visits_serialNode (v : ℕ) : T.Visits (T.children v) (T.serialNode policy v) [v] := by
  unfold serialNode
  split_ifs
  · exact (visits_process v).act rfl
  · exact visits_process v

/-- Bodies in turn, each for the nodes of one list. -/
theorem Visits.forEach {f : ℕ → Prog TaskAction} {g : ℕ → List ℕ}
    (h : ∀ s ∈ l, T.Visits [] (f s) (g s)) : T.Visits [] (Prog.forEach f l) (l.flatMap g) := by
  induction l with
  | nil => exact fun k _ => ⟨trivial, fun x hx => (nomatch hx)⟩
  | cons s l ih =>
    exact (h s (List.mem_cons_self ..)).seq
      ((ih fun u hu => h u (List.mem_cons_of_mem _ hu)).weaken (List.nil_subset _))

/-- The nodes of several lists in turn, when that works for each. -/
theorem Visits.flatMap {f : ℕ → Prog TaskAction} {g : ℕ → List ℕ}
    (h : ∀ s ∈ l, T.Visits [] (Prog.forEach f (g s)) (g s)) :
    T.Visits [] (Prog.forEach f (l.flatMap g)) (l.flatMap g) := by
  induction l with
  | nil => exact fun k _ => ⟨trivial, fun x hx => (nomatch hx)⟩
  | cons s l ih =>
    rw [List.flatMap_cons, Prog.forEach_append]
    exact (h s (List.mem_cons_self ..)).seq
      ((ih fun u hu => h u (List.mem_cons_of_mem _ hu)).weaken (List.nil_subset _))

/-- A subtree in postorder. -/
theorem visits_subtree {f : ℕ → Prog TaskAction} (hf : ∀ s, T.Visits (T.children s) (f s) [s]) :
    ∀ v < T.ns, T.Visits [] (Prog.forEach f (T.subtree v)) (T.subtree v) := by
  refine subtree_induction fun v hv ih => ?_
  have hself : T.Visits (T.children v) (Prog.forEach f [v]) [v] := by
    have hdone : T.Visits (T.children v ++ [v]) .done [] :=
      fun k _ => ⟨trivial, fun x hx => (nomatch hx)⟩
    exact (hf v).seq hdone
  rw [subtree_eq hv, Prog.forEach_append]
  refine (Visits.flatMap ih).seq (hself.weaken fun c hc => ?_)
  have hlt := lt_of_mem_children hv hc
  exact List.mem_flatMap.mpr ⟨c, hc, (mem_subtree (hlt.trans hv)).mpr .refl⟩

theorem visits_executeSubtreeIterative (hv : v < T.ns) :
    T.Visits [] (T.executeSubtreeIterative v) (T.subtree v) := by
  rw [executeSubtreeIterative, walk_subtree hv]
  exact visits_subtree visits_process v hv

/-- The loop that starts the children's tasks: they have called their subtrees when the
    task has waited. -/
theorem batchLoop_spec {task : ℕ → Prog TaskAction} {par todo : List ℕ} {g : ℕ → List ℕ}
    (ht : T.throttles policy par = false) (htask : ∀ c ∈ todo, T.Visits [] (task c) (g c))
    (batch : ℕ) (k : Set TaskAction × Set TaskAction) :
    (T.batchLoop policy task par batch todo).Ok T.needs k ∧ ∀ c ∈ todo, ∀ x ∈ g c,
      .ret x ∈ ((T.batchLoop policy task par batch todo).after k).1 ∪
        ((T.batchLoop policy task par batch todo).after k).2 := by
  induction todo generalizing batch k with
  | nil => exact ⟨trivial, fun c hc => (nomatch hc)⟩
  | cons c todo ih =>
    have hrest := ih fun u hu => htask u (List.mem_cons_of_mem _ hu)
    -- the spawned task and the rest of the loop, whatever was waited for before
    have hspawn : ∀ (batch : ℕ) (k : Set TaskAction × Set TaskAction),
        (Prog.act .spawned
          (.spawn (task c) (T.batchLoop policy task par batch todo))).Ok T.needs k ∧
          ∀ u ∈ c :: todo, ∀ x ∈ g u, .ret x ∈
            ((Prog.act .spawned
              (.spawn (task c) (T.batchLoop policy task par batch todo))).after k).1 ∪
            ((Prog.act .spawned
              (.spawn (task c) (T.batchLoop policy task par batch todo))).after k).2 := by
      intro batch k
      set known : Set TaskAction := insert .spawned k.1
      obtain ⟨hok, hret⟩ := htask c (List.mem_cons_self ..) (known, ∅)
        fun x hx => (nomatch hx)
      have hknown : ∀ {x : ℕ}, TaskAction.ret x ∈ ((task c).after (known, ∅)).1 →
          TaskAction.ret x ∈ known ∪ (k.2 ∪ ((task c).after (known, ∅)).1) :=
        fun hx => .inr (.inr hx)
      obtain ⟨hokl, hretl⟩ := hrest batch (known, k.2 ∪ ((task c).after (known, ∅)).1)
      refine ⟨⟨Set.empty_subset _, hok, hokl⟩, fun u hu x hx => ?_⟩
      rcases List.mem_cons.mp hu with rfl | hu
      · exact Prog.union_subset_after _ (known, k.2 ∪ ((task u).after (known, ∅)).1)
          (hknown (hret x hx))
      · exact hretl u hu x hx
    rw [batchLoop]
    simp only [ht, Bool.false_eq_true, if_false]
    split_ifs
    -- the batch is full: the loop waits, and all that was spawned has returned
    · obtain ⟨hok, hret⟩ := hspawn (addBytes 0 (T.contribBytes c))
        (insert .throttledWait k.1 ∪ k.2, ∅)
      exact ⟨⟨Set.empty_subset _, hok⟩, hret⟩
    · exact hspawn _ k

/-- Waiting for the tasks started changes nothing of what is known. -/
theorem Visits.wait (h : T.Visits pre p l) : T.Visits pre (p.seq (.wait .done)) l := by
  have hwait : T.Visits (pre ++ l) (.wait .done) [] :=
    fun k _ => ⟨trivial, fun x hx => (nomatch hx)⟩
  exact List.append_nil l ▸ h.seq hwait

theorem visits_batch {task : ℕ → Prog TaskAction} {par : List ℕ} {g : ℕ → List ℕ}
    (ht : T.throttles policy par = false) (htask : ∀ c ∈ par, T.Visits [] (task c) (g c)) :
    T.Visits [] ((T.batchLoop policy task par 0 par).seq (.wait .done)) (par.flatMap g) := by
  intro k _
  obtain ⟨hok, hret⟩ := batchLoop_spec ht htask 0 k
  refine ⟨(Prog.ok_seq _ _ k).mpr ⟨hok, trivial⟩, fun x hx => ?_⟩
  obtain ⟨c, hc, hx⟩ := List.mem_flatMap.mp hx
  rw [Prog.after_seq]
  exact hret c hc x hx

theorem visits_throttledChildren {par : List ℕ} (hleaf : ∀ c ∈ par, T.children c = []) :
    T.Visits [] (T.throttledChildren policy par) par := by
  have hcalls : T.Visits []
      (Prog.forEach (fun sc => Prog.act (.call sc) (.act (.ret sc) .done)) par) par := by
    have h := Visits.forEach (T := T) (l := par) (g := fun s => [s])
      (f := fun sc => Prog.act (.call sc) (.act (.ret sc) .done)) fun s hs =>
        (visits_call s).weaken fun c hc => by rwa [hleaf s hs] at hc
    rwa [List.flatMap_singleton'] at h
  have hdone : T.Visits ([] ++ par) .done [] := fun k _ => ⟨trivial, fun x hx => (nomatch hx)⟩
  exact ((hcalls.seq (hdone.act rfl)).mono (List.subset_append_left ..)).act rfl

/-- The throttled loop ends at its first child. -/
theorem batchLoop_throttled {task : ℕ → Prog TaskAction} {par : List ℕ}
    (ht : T.throttles policy par = true) (hpar : par ≠ []) :
    T.batchLoop policy task par 0 par = T.throttledChildren policy par := by
  have hloop : ∀ todo, todo ≠ [] →
      T.batchLoop policy task par 0 todo = T.throttledChildren policy par := by
    rintro (_ | ⟨c, todo⟩) hne
    · exact absurd rfl hne
    · have hex : T.exceeds policy 0 c = false := by simp [exceeds]
      rw [batchLoop]
      simp only [ht, hex, if_true, Bool.false_eq_true, if_false]
  exact hloop par hpar

/-- The task calls its subtree unless it skips something. -/
theorem visits_costedTaskImpl (hv : v < T.ns) (h : T.skips policy left v = false) :
    T.Visits [] (T.costedTaskImpl policy left v) (T.subtree v) := by
  induction left using Nat.strong_induction_on generalizing v with
  | _ left ih =>
    have hwalk := visits_executeSubtreeIterative hv
    rcases T.cases_task policy left v with hit | ⟨left, rfl, hkids, htiny⟩
    · rcases left with _ | left
      · rw [costedTaskImpl]
        split_ifs
        · exact hwalk
        · exact hwalk.act rfl
      · rw [costedTaskImpl, if_pos (hit.resolve_left (Nat.succ_ne_zero left))]
        split_ifs
        · exact hwalk
        · exact hwalk.act rfl
    · have hlt : ∀ {c}, c ∈ T.children v → c < T.ns := fun hc =>
        (lt_of_mem_children hv hc).trans hv
      rw [skips_succ hkids htiny] at h
      -- the small children are run one after the other, subtree by subtree
      have hinline : T.Visits []
          (if (T.tinyChildren policy v).isEmpty then .done
            else .act (.coarsened (T.tinyChildren policy v).length)
              (.forEach T.executeSubtreeIterative (T.tinyChildren policy v)))
          ((T.tinyChildren policy v).flatMap T.subtree) := by
        have hall := Visits.forEach (T := T) (l := T.tinyChildren policy v) fun c hc =>
          visits_executeSubtreeIterative (hlt (mem_tinyChildren.mp hc).1)
        split_ifs with he
        · rw [List.isEmpty_iff.mp he]
          exact fun k _ => ⟨trivial, fun x hx => (nomatch hx)⟩
        · exact hall.act rfl
      -- the others get tasks
      have hbatch : T.Visits []
          (if (T.parChildren policy v).isEmpty then .done
            else (T.batchLoop policy (T.costedTaskImpl policy left) (T.parChildren policy v) 0
              (T.parChildren policy v)).seq (.wait .done))
          ((T.parChildren policy v).flatMap T.subtree) := by
        split_ifs with he
        · rw [List.isEmpty_iff.mp he]
          exact fun k _ => ⟨trivial, fun x hx => (nomatch hx)⟩
        · cases ht : T.throttles policy (T.parChildren policy v) with
          | true =>
            rw [ht, if_pos rfl, List.any_eq_false] at h
            -- throttled, a child's task runs the child alone: enough for a leaf
            have hleaf : ∀ c ∈ T.parChildren policy v, T.children c = [] := fun c hc => by
              simpa using h c hc
            have hself : (T.parChildren policy v).flatMap T.subtree = T.parChildren policy v := by
              refine (List.flatMap_congr fun c hc => ?_).trans (List.flatMap_singleton' _)
              rw [subtree_eq (hlt (mem_parChildren.mp hc).1), hleaf c hc]
              rfl
            rw [hself, batchLoop_throttled ht (fun hnil => he (List.isEmpty_iff.mpr hnil))]
            exact (visits_throttledChildren hleaf).wait
          | false =>
            rw [ht, if_neg Bool.false_ne_true, List.any_eq_false] at h
            exact visits_batch ht fun c hc => ih left (Nat.lt_succ_self _)
              (hlt (mem_parChildren.mp hc).1) (Bool.not_eq_true _ ▸ h c hc)
      have hkidsmem : ∀ x, x ∈ (T.children v).flatMap T.subtree →
          x ∈ (T.tinyChildren policy v).flatMap T.subtree ++
            (T.parChildren policy v).flatMap T.subtree := fun x hx =>
        (children_perm policy T.subtree).mem_iff.mpr hx
      -- the node itself comes after the join, with all of its children done
      rw [costedTaskImpl, if_neg (by simp [hkids, htiny])]
      refine (hinline.seq ((hbatch.weaken (List.nil_subset _)).seq
        ((visits_process v).weaken fun c hc => ?_))).mono fun x hx => ?_
      · exact hkidsmem c (List.mem_flatMap.mpr ⟨c, hc, (mem_subtree (hlt hc)).mpr .refl⟩)
      · rw [subtree_eq hv] at hx
        rw [← List.append_assoc]
        exact (List.mem_append.mp hx).elim (fun hx => List.mem_append_left _ (hkidsmem x hx))
          (List.mem_append_right _)

end Order

/-! ## The whole run -/

section Run

variable {v x : ℕ}

/-- The calls of the program: every supernode, unless the run skips something. -/
theorem calls_runCostedPostorder (h : T.skipsSubtree policy = false) :
    (calls (T.runCostedPostorder policy).acts).Perm (List.range T.ns) := by
  unfold runCostedPostorder
  split_ifs with hns hpar
  · rw [hns]
    exact .refl _
  · rw [Prog.acts_forEach, calls_flatMap]
    refine .trans (.flatMap_left _ fun r hr => ?_) subtrees_perm
    have hlt := (mem_roots.mp hr).1
    rw [skipsSubtree, hpar, Bool.true_and, List.any_eq_false] at h
    have hr' := h r hr
    unfold startRoot
    split_ifs with htiny
    · rw [Prog.acts, calls_cons_coarsened, calls_executeSubtreeIterative hlt]
    · rw [Bool.not_eq_true] at htiny
      rw [htiny, Bool.not_false, Bool.true_and, Bool.not_eq_true] at hr'
      rw [Prog.acts, calls_cons_spawned, Prog.acts, Prog.acts, List.append_nil]
      exact calls_perm_subtree hlt hr'
  · have hserial : calls (Prog.forEach (T.serialNode policy) T.serialPostorder).acts
        = T.serialPostorder := by
      refine calls_forEach (fun s => ?_) _
      unfold serialNode
      split_ifs <;> rfl
    rw [hserial]
    exact serialPostorder_perm

theorem ok_runCostedPostorder (h : T.skipsSubtree policy = false) :
    (T.runCostedPostorder policy).Ok T.needs (∅, ∅) := by
  unfold runCostedPostorder
  split_ifs with hns hpar
  · trivial
  · refine Prog.ok_forEach (fun r hr k => ?_) _
    have hlt := (mem_roots.mp hr).1
    rw [skipsSubtree, hpar, Bool.true_and, List.any_eq_false] at h
    have hr' := h r hr
    unfold startRoot
    split_ifs with htiny
    · exact (((visits_executeSubtreeIterative hlt).act rfl) k fun x hx => (nomatch hx)).1
    · rw [Bool.not_eq_true] at htiny
      rw [htiny, Bool.not_false, Bool.true_and, Bool.not_eq_true] at hr'
      exact ⟨Set.empty_subset _,
        (visits_costedTaskImpl hlt hr' (insert .spawned k.1, ∅) fun x hx => (nomatch hx)).1,
        trivial⟩
  · rw [serialPostorder_eq]
    refine (Visits.flatMap (fun r hr => ?_) (∅, ∅) fun x hx => (nomatch hx)).1
    exact visits_subtree visits_serialNode r (mem_roots.mp (List.mem_reverse.mp hr)).1

theorem visitsAll_of_not_skips (h : T.skipsSubtree policy = false) : T.VisitsAll policy where
  once := fun hrun hs =>
    ((Run.acts_perm_of_finished hrun hs).symm.filterMap callOf).trans (calls_runCostedPostorder h)
  ordered := fun hrun _ _ _ htr c hc =>
    Run.ordered (ok_runCostedPostorder h) hrun htr ⟨c, hc, rfl⟩
  ends := fun hrun => Run.exists_finished hrun

/-- A run that skips something leaves a supernode out, in every schedule. -/
theorem exists_not_called_run (h : T.skipsSubtree policy = true) :
    ∃ g < T.ns, g ∉ calls (T.runCostedPostorder policy).acts := by
  rw [skipsSubtree, Bool.and_eq_true, List.any_eq_true] at h
  obtain ⟨hpar, r, hr, hskip⟩ := h
  rw [Bool.and_eq_true, Bool.not_eq_true'] at hskip
  have hlt : ∀ {r}, r ∈ T.roots → r < T.ns := fun hr => (mem_roots.mp hr).1
  obtain ⟨g, hg, hnot⟩ := exists_not_called (hlt hr) hskip.2
  refine ⟨g, (hg.le (hlt hr)).trans_lt (hlt hr), fun hmem => ?_⟩
  rw [runCostedPostorder, if_neg (Nat.ne_zero_of_lt (hlt hr)), if_pos hpar, Prog.acts_forEach,
    calls_flatMap] at hmem
  obtain ⟨r', hr', hmem⟩ := List.mem_flatMap.mp hmem
  -- the task of another root calls nodes of its own subtree only
  have hunder : T.Under g r' := by
    unfold startRoot at hmem
    split_ifs at hmem
    · rw [Prog.acts, calls_cons_coarsened, calls_executeSubtreeIterative (hlt hr')] at hmem
      exact (mem_subtree (hlt hr')).mp hmem
    · rw [Prog.acts, calls_cons_spawned, Prog.acts, Prog.acts, List.append_nil] at hmem
      exact under_of_mem_calls (hlt hr') hmem
  obtain rfl := root_unique hr hr' hg hunder
  rw [startRoot, if_neg (by rw [hskip.1]; exact Bool.false_ne_true), Prog.acts,
    calls_cons_spawned, Prog.acts, Prog.acts, List.append_nil] at hmem
  exact hnot hmem

theorem not_visitsAll_of_skips (h : T.skipsSubtree policy = true) : ¬T.VisitsAll policy := by
  intro hall
  obtain ⟨g, hg, hnot⟩ := exists_not_called_run h
  obtain ⟨tr, s, hrun, hs⟩ := hall.ends .nil
  rw [List.nil_append] at hrun
  have hmem : g ∈ calls (actions tr) := (hall.once hrun hs).mem_iff.mpr (List.mem_range.mpr hg)
  exact hnot (((Run.acts_perm_of_finished hrun hs).filterMap callOf).mem_iff.mpr hmem)

end Run

/-- Every schedule of `run_costed_postorder` processes every supernode exactly once and
    after its children if and only if the run throttles no task whose children have
    children. -/
theorem visitsAll_iff (T : CostedTree) (policy : ExecutionPolicy) :
    T.VisitsAll policy ↔ T.skipsSubtree policy = false := by
  refine ⟨fun h => ?_, visitsAll_of_not_skips⟩
  by_contra hskip
  exact not_visitsAll_of_skips (Bool.not_eq_false _ ▸ hskip) h

/-- The counters of the statistics are sums over the actions. -/
theorem stats_counters (l : List TaskAction) :
    (T.stats l).tasksSpawned = l.count .spawned ∧
      (T.stats l).throttledWaits = l.count .throttledWait ∧
      (T.stats l).coarsenedSubtrees = (l.map TaskAction.coarse).sum := by
  have hfold : ∀ (l : List TaskAction) (tracker : Tracker),
      (l.foldl (Tracker.apply T) tracker).tasksSpawned
          = tracker.tasksSpawned + l.count .spawned ∧
        (l.foldl (Tracker.apply T) tracker).throttledWaits
          = tracker.throttledWaits + l.count .throttledWait ∧
        (l.foldl (Tracker.apply T) tracker).coarsenedSubtrees
          = tracker.coarsenedSubtrees + (l.map TaskAction.coarse).sum := by
    intro l
    induction l with
    | nil => exact fun _ => ⟨rfl, rfl, rfl⟩
    | cons a l ih =>
      intro tracker
      obtain ⟨hs, ht, hc⟩ := ih (tracker.apply T a)
      rw [List.foldl_cons, hs, ht, hc, List.map_cons, List.sum_cons, List.count_cons,
        List.count_cons]
      cases a <;>
        simp only [Tracker.apply, Tracker.onNodeComplete, TaskAction.coarse, beq_iff_eq,
          reduceCtorEq, if_true, if_false] <;> omega
  simpa [stats] using hfold l {}

/-- The counters of the statistics are the same in every schedule. -/
theorem stats_schedule {tr tr' : List (Option TaskAction)} {s s' : Forest TaskAction}
    (h : (system (T.runCostedPostorder policy)).Run tr s) (hs : s.Finished)
    (h' : (system (T.runCostedPostorder policy)).Run tr' s') (hs' : s'.Finished) :
    (T.stats (actions tr)).tasksSpawned = (T.stats (actions tr')).tasksSpawned ∧
      (T.stats (actions tr)).throttledWaits = (T.stats (actions tr')).throttledWaits ∧
      (T.stats (actions tr)).coarsenedSubtrees = (T.stats (actions tr')).coarsenedSubtrees := by
  have hperm : (actions tr).Perm (actions tr') :=
    (Run.acts_perm_of_finished h hs).symm.trans (Run.acts_perm_of_finished h' hs')
  obtain ⟨h₁, h₂, h₃⟩ := stats_counters (T := T) (actions tr)
  obtain ⟨h₁', h₂', h₃'⟩ := stats_counters (T := T) (actions tr')
  rw [h₁, h₂, h₃, h₁', h₂', h₃']
  exact ⟨hperm.count_eq _, hperm.count_eq _, (hperm.map _).sum_nat⟩

/-! ## Two children, one of them with a child -/

theorem forkTree_children (s c : ℕ) : (c ∈ if s = 1 then [0] else if s = 3 then [1, 2] else []) ↔
    (⟨c, c + 1, if c = 0 then some 1 else if c = 1 ∨ c = 2 then some 3 else none⟩ :
      Supernode).parent = some s := by
  by_cases h0 : c = 0
  · subst h0
    by_cases h1 : s = 1 <;> by_cases h3 : s = 3 <;> simp [h1, h3, eq_comm]
  · by_cases h12 : c = 1 ∨ c = 2
    · by_cases h1 : s = 1
      · subst h1
        simp [h0, h12]
      · by_cases h3 : s = 3 <;> simp [h0, h1, h3, h12, eq_comm]
    · have hc1 := not_or.mp h12
      by_cases h1 : s = 1 <;> by_cases h3 : s = 3 <;> simp [h0, h1, h3, hc1]

theorem forkTree_nodup (s : ℕ) :
    (if s = 1 then [0] else if s = 3 then [1, 2] else [] : List ℕ).Nodup := by
  by_cases h1 : s = 1 <;> by_cases h3 : s = 3 <;> simp [h1, h3]

theorem forkTree_postorder : Postorder
    (fun s => (⟨s, s + 1, if s = 0 then some 1 else if s = 1 ∨ s = 2 then some 3 else none⟩ :
      Supernode).parent) (List.range 4) := by
  refine postorder_of_first (fun s => if s = 1 ∨ s = 3 then 0 else s) (by decide) ?_
  intro s hs x
  dsimp only
  constructor
  · intro h
    induction h with
    | single h =>
      dsimp only at h
      split_ifs at h ⊢ <;> simp only [Option.some.injEq] at h <;> omega
    | tail _ h ih =>
      dsimp only at h
      split_ifs at h ih ⊢ <;> simp only [Option.some.injEq] at h <;> omega
  · intro h
    have h01 : Below (fun s => if s = 0 then some 1 else if s = 1 ∨ s = 2 then some 3 else none)
        0 1 := .single rfl
    obtain rfl | rfl | rfl | rfl : s = 0 ∨ s = 1 ∨ s = 2 ∨ s = 3 := by omega
    · exact absurd h.2 (Nat.not_lt_zero x)
    · obtain rfl : x = 0 := by omega
      exact h01
    · exact absurd h.2 (not_lt.mpr h.1)
    · obtain rfl | rfl | rfl : x = 0 ∨ x = 1 ∨ x = 2 := by omega
      · exact h01.tail rfl
      · exact .single rfl
      · exact .single rfl

theorem forkTree_parent_lt (s t : ℕ)
    (h : (⟨s, s + 1, if s = 0 then some 1 else if s = 1 ∨ s = 2 then some 3 else none⟩ :
      Supernode).parent = some t) (_ : s < 4) : t < 4 := by
  dsimp only at h
  split_ifs at h <;> obtain rfl := Option.some.inj h <;> decide

/-- Node 0 is below 1, and 1 and 2 are the children of the root 3. -/
def forkTree : CostedTree where
  ns := 4
  supernodes := fun s => ⟨s, s + 1, if s = 0 then some 1 else if s = 1 ∨
    s = 2 then some 3 else none⟩
  children := fun s => if s = 1 then [0] else if s = 3 then [1, 2] else []
  frontRows := fun s => if s = 0 then [0, 1] else if s = 1 ∨ s = 2 then [s, 3] else [s]
  mem_children := forkTree_children
  children_nodup := forkTree_nodup
  postorder := forkTree_postorder
  haveFronts := true
  parent_lt := forkTree_parent_lt

/-- Two threads, and a budget for one of the root's two contribution blocks. -/
def forkPolicy : ExecutionPolicy := ⟨2, 8, 0, false⟩

theorem forkTree_not_visitsAll : ¬forkTree.VisitsAll forkPolicy :=
  not_visitsAll_of_skips (by decide)

end CostedTree
end Parallel
end SmfSolver
