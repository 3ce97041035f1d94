/-
  SmfSolver.Lib.ForkJoin

  Fork-join programs: a task does actions, starts child tasks and waits for the
  children it has started.  A wait is for the bodies of the direct children only; a
  child may have ended with children of its own still running.

  Three rules for every schedule of the tasks:
    * `Run.acts_perm`: a run does the program's own actions, each as often as the
      program has it, and no more until all tasks have ended;
    * `Run.exists_finished`: no schedule gets stuck, and none is longer than the program;
    * `Run.ordered`: an action is done only after those it needs, if the program passes
      the check `Prog.Ok`, which knows of an action that it was done when the task did it
      itself, or when a child did and the task has waited since.
-/
import SmfSolver.Lib.Run
import Mathlib.Data.Set.Insert
import Mathlib.Data.List.Perm.Basic

namespace SmfSolver
namespace Lib
namespace ForkJoin

universe u

variable {α : Type u}

/-- The body of a task. -/
inductive Prog (α : Type u) where
  | done
  | act (a : α) (rest : Prog α)
  | spawn (body rest : Prog α)
  | wait (rest : Prog α)

namespace Prog

/-- One body after another, in one task. -/
def seq : Prog α → Prog α → Prog α
  | done, q => q
  | act a p, q => act a (p.seq q)
  | spawn b p, q => spawn b (p.seq q)
  | wait p, q => wait (p.seq q)

/-- One body for each element of a list, in turn. -/
def forEach {β : Type*} (f : β → Prog α) : List β → Prog α
  | [] => done
  | b :: l => (f b).seq (forEach f l)

/-- The actions of the task and of those it starts. -/
def acts : Prog α → List α
  | done => []
  | act a p => a :: p.acts
  | spawn b p => b.acts ++ p.acts
  | wait p => p.acts

/-- Steps until the task and those it starts have ended. -/
def size : Prog α → ℕ
  | done => 0
  | act _ p => p.size + 1
  | spawn b p => b.size + p.size + 1
  | wait p => p.size + 1

theorem seq_assoc (p q r : Prog α) : (p.seq q).seq r = p.seq (q.seq r) := by
  induction p with
  | done => rfl
  | act a p ih => exact congrArg (act a) ih
  | spawn b p _ ih => exact congrArg (spawn b) ih
  | wait p ih => exact congrArg wait ih

@[simp] theorem acts_seq (p q : Prog α) : (p.seq q).acts = p.acts ++ q.acts := by
  induction p with
  | done => rfl
  | act a p ih => simp [seq, acts, ih]
  | spawn b p _ ih => simp [seq, acts, ih]
  | wait p ih => simp [seq, acts, ih]

theorem forEach_append {β : Type*} (f : β → Prog α) (l l' : List β) :
    forEach f (l ++ l') = (forEach f l).seq (forEach f l') := by
  induction l with
  | nil => rfl
  | cons b l ih => rw [List.cons_append, forEach, forEach, ih, seq_assoc]

@[simp] theorem acts_forEach {β : Type*} (f : β → Prog α) (l : List β) :
    (forEach f l).acts = l.flatMap fun b => (f b).acts := by
  induction l with
  | nil => rfl
  | cons b l ih => simp [forEach, ih]

end Prog

/-- Running tasks: the first of them with what is left of its body and the tasks it
    started, then its siblings. -/
inductive Forest (α : Type u) where
  | nil
  | cons (rest : Prog α) (kids siblings : Forest α)

namespace Forest

/-- The bodies of the tasks have ended; their own children may still run. -/
def BodiesDone : Forest α → Prop
  | nil => True
  | cons rest _ siblings => rest = .done ∧ siblings.BodiesDone

/-- All tasks have ended. -/
def Finished : Forest α → Prop
  | nil => True
  | cons rest kids siblings => rest = .done ∧ kids.Finished ∧ siblings.Finished

def acts : Forest α → List α
  | nil => []
  | cons rest kids siblings => rest.acts ++ (kids.acts ++ siblings.acts)

def size : Forest α → ℕ
  | nil => 0
  | cons rest kids siblings => rest.size + (kids.size + siblings.size)

theorem Finished.bodiesDone {s : Forest α} (h : s.Finished) : s.BodiesDone := by
  induction s with
  | nil => trivial
  | cons rest kids siblings _ ih => exact ⟨h.1, ih h.2.2⟩

theorem Finished.acts_eq_nil {s : Forest α} (h : s.Finished) : s.acts = [] := by
  induction s with
  | nil => rfl
  | cons rest kids siblings ihk ihs =>
    obtain ⟨rfl, hk, hs⟩ := h
    rw [acts, ihk hk, ihs hs]
    rfl

end Forest

/-- One step of one task; the label is the action it did, if any. -/
inductive Step : Forest α → Option α → Forest α → Prop
  | act {a : α} {p : Prog α} {kids sibs : Forest α} :
      Step (.cons (.act a p) kids sibs) (some a) (.cons p kids sibs)
  | spawn {b p : Prog α} {kids sibs : Forest α} :
      Step (.cons (.spawn b p) kids sibs) none (.cons p (.cons b .nil kids) sibs)
  | wait {p : Prog α} {kids sibs : Forest α} (h : kids.BodiesDone) :
      Step (.cons (.wait p) kids sibs) none (.cons p kids sibs)
  | kid {p : Prog α} {kids kids' sibs : Forest α} {l : Option α} (h : Step kids l kids') :
      Step (.cons p kids sibs) l (.cons p kids' sibs)
  | sibling {p : Prog α} {kids sibs sibs' : Forest α} {l : Option α} (h : Step sibs l sibs') :
      Step (.cons p kids sibs) l (.cons p kids sibs')

/-- The runs of one program, as the body of the first task. -/
def system (p : Prog α) : Lts (Forest α) (Option α) where
  init := .cons p .nil .nil
  step := Step

/-- The actions of a run, oldest first. -/
def actions (tr : List (Option α)) : List α := tr.filterMap id

theorem actions_snoc (tr : List (Option α)) (l : Option α) :
    actions (tr ++ [l]) = actions tr ++ l.toList := by
  rw [actions, List.filterMap_append]
  cases l <;> rfl

/-! ## What a run does -/

/-- A step does one of the actions that are left, or none. -/
theorem Step.acts_perm {s s' : Forest α} {l : Option α} (h : Step s l s') :
    s.acts.Perm (l.toList ++ s'.acts) := by
  induction h with
  | act => exact .refl _
  | @spawn b p kids sibs =>
    change (b.acts ++ p.acts ++ (kids.acts ++ sibs.acts)).Perm
      (p.acts ++ (b.acts ++ ([] ++ kids.acts) ++ sibs.acts))
    rw [List.nil_append, List.append_assoc b.acts kids.acts, ← List.append_assoc p.acts]
    exact List.perm_append_comm.append_right _
  | wait => exact .refl _
  | @kid p kids kids' sibs l _ ih =>
    change (p.acts ++ (kids.acts ++ sibs.acts)).Perm
      (l.toList ++ (p.acts ++ (kids'.acts ++ sibs.acts)))
    refine ((ih.append_right sibs.acts).append_left p.acts).trans ?_
    rw [List.append_assoc, ← List.append_assoc, ← List.append_assoc l.toList]
    exact List.perm_append_comm.append_right _
  | @sibling p kids sibs sibs' l _ ih =>
    change (p.acts ++ (kids.acts ++ sibs.acts)).Perm
      (l.toList ++ (p.acts ++ (kids.acts ++ sibs'.acts)))
    refine ((ih.append_left kids.acts).append_left p.acts).trans ?_
    rw [← List.append_assoc, ← List.append_assoc, ← List.append_assoc, ← List.append_assoc,
      List.append_assoc l.toList]
    have hswap : (p.acts ++ kids.acts ++ l.toList).Perm (l.toList ++ (p.acts ++ kids.acts)) :=
      List.perm_append_comm
    exact hswap.append_right _

theorem Step.size_eq {s s' : Forest α} {l : Option α} (h : Step s l s') :
    s.size = s'.size + 1 := by
  induction h with
  | act => simp only [Forest.size, Prog.size]; omega
  | spawn => simp only [Forest.size, Prog.size]; omega
  | wait => simp only [Forest.size, Prog.size]; omega
  | kid _ ih => simp only [Forest.size]; omega
  | sibling _ ih => simp only [Forest.size]; omega

/-- A run has done a part of the program's actions, and what is left is the rest. -/
theorem Run.acts_perm {p : Prog α} {tr : List (Option α)} {s : Forest α}
    (h : (system p).Run tr s) : p.acts.Perm (actions tr ++ s.acts) := by
  refine h.invariant (P := fun tr s => p.acts.Perm (actions tr ++ s.acts)) ?_ ?_
  · change p.acts.Perm ([] ++ (p.acts ++ ([] ++ [])))
    rw [List.append_nil, List.append_nil]
    exact .refl _
  · intro tr s l s' _ ih hs
    rw [actions_snoc, List.append_assoc]
    exact ih.trans (hs.acts_perm.append_left _)

/-- When all tasks have ended, the run has done exactly the program's actions. -/
theorem Run.acts_perm_of_finished {p : Prog α} {tr : List (Option α)} {s : Forest α}
    (h : (system p).Run tr s) (hs : s.Finished) : p.acts.Perm (actions tr) := by
  have hperm := Run.acts_perm h
  rwa [hs.acts_eq_nil, List.append_nil] at hperm

/-! ## No schedule gets stuck -/

/-- Some task can take a step unless all have ended: a task that waits does so for
    children that can. -/
theorem Step.exists_of_not_finished {s : Forest α} (h : ¬s.Finished) :
    ∃ l s', Step s l s' := by
  induction s with
  | nil => exact absurd trivial h
  | cons rest kids siblings ihk ihs =>
    by_cases hk : kids.Finished
    · cases rest with
      | done =>
        obtain ⟨l, s', hs⟩ := ihs fun hs => h ⟨rfl, hk, hs⟩
        exact ⟨l, _, .sibling hs⟩
      | act a p => exact ⟨_, _, .act⟩
      | spawn b p => exact ⟨_, _, .spawn⟩
      | wait p => exact ⟨_, _, .wait hk.bodiesDone⟩
    · obtain ⟨l, s', hs⟩ := ihk hk
      exact ⟨l, _, .kid hs⟩

/-- Every run goes on to one in which all tasks have ended. -/
theorem Run.exists_finished {p : Prog α} {tr : List (Option α)} {s : Forest α}
    (h : (system p).Run tr s) :
    ∃ tr' s', (system p).Run (tr ++ tr') s' ∧ s'.Finished := by
  induction hn : s.size using Nat.strong_induction_on generalizing tr s with
  | _ n ih =>
    by_cases hs : s.Finished
    · exact ⟨[], s, (List.append_nil tr).symm ▸ h, hs⟩
    · obtain ⟨l, s', hstep⟩ := Step.exists_of_not_finished hs
      have hsize := hstep.size_eq
      obtain ⟨tr', s'', hrun, hdone⟩ := ih s'.size (by omega) (h.snoc hstep) rfl
      exact ⟨l :: tr', s'', by rwa [List.append_assoc] at hrun, hdone⟩

/-! ## What is done before an action -/

namespace Prog

/-- What the task knows to be done, and what its children will have done when it has
    waited for them: at the end of the body, from what they are before it. -/
def after : Prog α → Set α × Set α → Set α × Set α
  | done, k => k
  | act a p, k => p.after (insert a k.1, k.2)
  | spawn b p, k => p.after (k.1, k.2 ∪ (b.after (k.1, ∅)).1)
  | wait p, k => p.after (k.1 ∪ k.2, ∅)

/-- Each action comes when those it needs are known to be done. -/
def Ok (needs : α → Set α) : Prog α → Set α × Set α → Prop
  | done, _ => True
  | act a p, k => needs a ⊆ k.1 ∧ Ok needs p (insert a k.1, k.2)
  | spawn b p, k => Ok needs b (k.1, ∅) ∧ Ok needs p (k.1, k.2 ∪ (b.after (k.1, ∅)).1)
  | wait p, k => Ok needs p (k.1 ∪ k.2, ∅)

theorem after_seq (p q : Prog α) (k : Set α × Set α) :
    (p.seq q).after k = q.after (p.after k) := by
  induction p generalizing k with
  | done => rfl
  | act a p ih => exact ih _
  | spawn b p _ ih => exact ih _
  | wait p ih => exact ih _

theorem ok_seq {needs : α → Set α} (p q : Prog α) (k : Set α × Set α) :
    Ok needs (p.seq q) k ↔ Ok needs p k ∧ Ok needs q (p.after k) := by
  induction p generalizing k with
  | done => exact (and_iff_right trivial).symm
  | act a p ih => simp only [seq, Ok, after, ih, and_assoc]
  | spawn b p _ ih => simp only [seq, Ok, after, ih, and_assoc]
  | wait p ih => simp only [seq, Ok, after, ih]

/-- What is known stays known. -/
theorem subset_after (p : Prog α) (k : Set α × Set α) : k.1 ⊆ (p.after k).1 := by
  induction p generalizing k with
  | done => exact subset_rfl
  | act a p ih => exact (Set.subset_insert a k.1).trans (ih (insert a k.1, k.2))
  | spawn b p _ ih => exact ih (k.1, k.2 ∪ (b.after (k.1, ∅)).1)
  | wait p ih => exact Set.subset_union_left.trans (ih (k.1 ∪ k.2, ∅))

/-- What a task knows or waits for stays so. -/
theorem union_subset_after (p : Prog α) (k : Set α × Set α) :
    k.1 ∪ k.2 ⊆ (p.after k).1 ∪ (p.after k).2 := by
  induction p generalizing k with
  | done => exact subset_rfl
  | act a p ih =>
    exact (Set.union_subset_union_left _ (Set.subset_insert a k.1)).trans (ih (insert a k.1, k.2))
  | spawn b p _ ih =>
    exact (Set.union_subset_union_right _ Set.subset_union_left).trans
      (ih (k.1, k.2 ∪ (b.after (k.1, ∅)).1))
  | wait p ih => exact Set.subset_union_left.trans (ih (k.1 ∪ k.2, ∅))

theorem ok_forEach {β : Type*} {needs : α → Set α} {f : β → Prog α} {l : List β}
    (h : ∀ b ∈ l, ∀ k, Ok needs (f b) k) (k : Set α × Set α) : Ok needs (forEach f l) k := by
  induction l generalizing k with
  | nil => trivial
  | cons b l ih =>
    exact (ok_seq _ _ k).mpr ⟨h b (List.mem_cons_self ..) k,
      ih (fun c hc => h c (List.mem_cons_of_mem _ hc)) _⟩

end Prog

/-- Every task of the forest passes the check from what it knows, and that is done;
    what it waits for is done, or its children will have done it.  `R` is what all
    tasks of the forest will know. -/
inductive Forest.Sound (needs : α → Set α) (done : Set α) : Forest α → Set α → Prop
  | nil : Sound needs done .nil ∅
  | cons {rest : Prog α} {kids sibs : Forest α} {k : Set α × Set α} {R S : Set α}
      (hknown : k.1 ⊆ done) (hok : rest.Ok needs k) (hkids : Sound needs done kids R)
      (hpending : k.2 ⊆ done ∪ R) (hsibs : Sound needs done sibs S) :
      Sound needs done (.cons rest kids sibs) ((rest.after k).1 ∪ S)

section Sound

variable {needs : α → Set α} {done : Set α} {s s' : Forest α} {R : Set α} {l : Option α}

theorem Forest.Sound.mono {done' : Set α} (h : s.Sound needs done R) (hd : done ⊆ done') :
    s.Sound needs done' R := by
  induction h with
  | nil => exact .nil
  | cons hknown hok _ hpending _ ihk ihs =>
    exact .cons (hknown.trans hd) hok ihk
      (hpending.trans (Set.union_subset_union_left _ hd)) ihs

/-- What the tasks will know is done when their bodies have ended. -/
theorem Forest.Sound.subset_done (h : s.Sound needs done R) (hs : s.BodiesDone) :
    R ⊆ done := by
  induction h with
  | nil => exact Set.empty_subset _
  | cons hknown _ _ _ _ _ ihs =>
    obtain ⟨rfl, hs⟩ := hs
    exact Set.union_subset hknown (ihs hs)

/-- A step keeps every task sound, and its action comes after those it needs. -/
theorem Forest.Sound.step (h : s.Sound needs done R) (hs : Step s l s') :
    (∀ a, l = some a → needs a ⊆ done) ∧ s'.Sound needs (done ∪ {a | l = some a}) R := by
  have hd : done ⊆ done ∪ {a | l = some a} := Set.subset_union_left
  induction hs generalizing R with
  | @act a p kids sibs =>
    obtain _ | ⟨hknown, hok, hkids, hpending, hsibs⟩ := h
    refine ⟨fun b hb => Option.some.inj hb ▸ hok.1.trans hknown, ?_⟩
    refine .cons (Set.insert_subset (.inr rfl) (hknown.trans hd)) hok.2 (hkids.mono hd)
      (hpending.trans (Set.union_subset_union_left _ hd)) (hsibs.mono hd)
  | @spawn b p kids sibs =>
    obtain _ | @⟨_, _, _, k, _, _, hknown, hok, hkids, hpending, hsibs⟩ := h
    refine ⟨fun b hb => (nomatch hb), ?_⟩
    have hchild := Forest.Sound.cons (k := (k.1, ∅)) (hknown.trans hd) hok.1 .nil
      (Set.empty_subset _) (hkids.mono hd)
    refine .cons (hknown.trans hd) hok.2 hchild (Set.union_subset ?_ ?_) (hsibs.mono hd)
    · exact hpending.trans (Set.union_subset_union hd Set.subset_union_right)
    · exact Set.subset_union_left.trans Set.subset_union_right
  | @wait p kids sibs hbodies =>
    obtain _ | ⟨hknown, hok, hkids, hpending, hsibs⟩ := h
    refine ⟨fun b hb => (nomatch hb), ?_⟩
    -- the children have ended, so what they were to do is done
    have hdone := hpending.trans (Set.union_subset subset_rfl (hkids.subset_done hbodies))
    exact .cons (Set.union_subset (hknown.trans hd) (hdone.trans hd)) hok (hkids.mono hd)
      (Set.empty_subset _) (hsibs.mono hd)
  | kid _ ih =>
    obtain _ | ⟨hknown, hok, hkids, hpending, hsibs⟩ := h
    obtain ⟨hneeds, hkids'⟩ := ih hkids hd
    exact ⟨hneeds, .cons (hknown.trans hd) hok hkids'
      (hpending.trans (Set.union_subset_union_left _ hd)) (hsibs.mono hd)⟩
  | sibling _ ih =>
    obtain _ | ⟨hknown, hok, hkids, hpending, hsibs⟩ := h
    obtain ⟨hneeds, hsibs'⟩ := ih hsibs hd
    exact ⟨hneeds, .cons (hknown.trans hd) hok (hkids.mono hd)
      (hpending.trans (Set.union_subset_union_left _ hd)) hsibs'⟩

/-- In every schedule of a program that passes the check, an action comes after all
    those it needs. -/
theorem Run.ordered {p : Prog α} (hp : p.Ok needs (∅, ∅)) {tr : List (Option α)}
    (h : (system p).Run tr s) {pre post : List (Option α)} {a : α}
    (htr : tr = pre ++ some a :: post) {b : α} (hb : b ∈ needs a) : some b ∈ pre := by
  have hsound : ∀ {tr s}, (system p).Run tr s →
      ∃ R, s.Sound needs {b | some b ∈ tr} R := by
    intro tr s h
    refine h.invariant (P := fun tr s => ∃ R, s.Sound needs {b | some b ∈ tr} R) ?_ ?_
    · exact ⟨_, .cons (Set.empty_subset _) hp .nil (Set.empty_subset _) .nil⟩
    · rintro tr s l s' _ ⟨R, ih⟩ hs
      refine ⟨R, (ih.step hs).2.mono ?_⟩
      rintro b (hb | hb)
      · exact List.mem_append_left _ hb
      · exact List.mem_append_right _ (List.mem_singleton.mpr (Eq.symm hb))
  subst htr
  obtain ⟨t, t', hrun, hstep, -⟩ := h.step_of_mem
  obtain ⟨R, ht⟩ := hsound hrun
  exact (ht.step hstep).1 a rfl hb

end Sound

end ForkJoin
end Lib
end SmfSolver
