/-
  SmfSolver.Lib.Run

  Labelled transition systems and their finite runs.  A run is recorded by the
  list of its labels, oldest first, so that a property of a concurrent program
  can speak about the order in which things happened and not only about the
  state they left behind.

  Everything here is over arbitrary states and labels.
-/
import Mathlib.Data.List.Induction

namespace SmfSolver
namespace Lib

universe u v

variable {σ : Type u} {ε : Type v}

/-- A labelled transition system: one initial state and a labelled step relation. -/
structure Lts (σ : Type u) (ε : Type v) where
  init : σ
  step : σ → ε → σ → Prop

namespace Lts

variable {L : Lts σ ε}

/-- `L.Run tr s`: the labels `tr`, oldest first, lead from the initial state to `s`. -/
inductive Run (L : Lts σ ε) : List ε → σ → Prop
  | nil : Run L [] L.init
  | snoc {tr : List ε} {s t : σ} {a : ε} : Run L tr s → L.step s a t → Run L (tr ++ [a]) t

/-- The invariant rule: what holds initially and is kept by every step of a run
    holds of every run.  The step may use that the state before it was reached. -/
theorem Run.invariant {P : List ε → σ → Prop} (hinit : P [] L.init)
    (hstep : ∀ {tr s a t}, Run L tr s → P tr s → L.step s a t → P (tr ++ [a]) t)
    {tr : List ε} {s : σ} (h : Run L tr s) : P tr s := by
  induction h with
  | nil => exact hinit
  | snoc hrun hs ih => exact hstep hrun ih hs

/-- Where a step has one outcome, so has a run. -/
theorem Run.unique (hstep : ∀ {s a t u}, L.step s a t → L.step s a u → t = u) {tr : List ε}
    {s t : σ}
    (h : Run L tr s) (h' : Run L tr t) : s = t := by
  induction h generalizing t with
  | nil =>
    generalize htr : [] = tr' at h'
    cases h' with
    | nil => rfl
    | snoc _ _ => simp at htr
  | @snoc tr s u a hrun hs ih =>
    generalize htr : tr ++ [a] = tr' at h'
    cases h' with
    | nil => simp at htr
    | snoc hrun' hs' =>
      obtain ⟨rfl, ha⟩ := List.append_inj' htr rfl
      cases ha
      obtain rfl := ih hrun'
      exact hstep hs hs'

/-- Every prefix of a run is a run. -/
theorem Run.prefix_run {pre post : List ε} {s : σ} (h : Run L (pre ++ post) s) :
    ∃ t, Run L pre t := by
  induction post using List.reverseRecOn generalizing s with
  | nil => exact ⟨s, by simpa using h⟩
  | append_singleton post a ih =>
    generalize htr : pre ++ (post ++ [a]) = tr at h
    cases h with
    | nil => simp at htr
    | snoc hrun _ =>
      rw [← List.append_assoc] at htr
      obtain ⟨rfl, -⟩ := List.append_inj' htr rfl
      exact ih hrun

/-- A run that contains a label took a step with it, from a state that the labels
    before it lead to. -/
theorem Run.step_of_mem {pre post : List ε} {a : ε} {s : σ}
    (h : Run L (pre ++ a :: post) s) :
    ∃ t u, Run L pre t ∧ L.step t a u ∧ Run L (pre ++ [a]) u := by
  have h' : Run L ((pre ++ [a]) ++ post) s := by simpa using h
  obtain ⟨u, hu⟩ := h'.prefix_run
  generalize htr : pre ++ [a] = tr at hu
  cases hu with
  | nil => simp at htr
  | snoc hrun hs =>
    obtain ⟨rfl, ha⟩ := List.append_inj' htr rfl
    cases ha
    exact ⟨_, _, hrun, hs, htr ▸ Run.snoc hrun hs⟩

/-- The system with only those steps that meet a condition. -/
def restrict (L : Lts σ ε) (P : σ → ε → Prop) : Lts σ ε where
  init := L.init
  step := fun s a t => P s a ∧ L.step s a t

theorem Run.of_restrict {P : σ → ε → Prop} {tr : List ε} {s : σ} (h : (L.restrict P).Run tr s) :
    L.Run tr s := by
  induction h with
  | nil => exact .nil
  | snoc _ hs ih => exact ih.snoc hs.2

end Lts

end Lib
end SmfSolver
