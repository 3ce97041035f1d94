/-
  SmfSolver.Lib.Progress

  When a run of several parties can be completed.  The parties share a supply that is used
  up, and each of them has a way of its own to go, however long.  A step that uses the supply
  may set a party back; every other step brings one party forward and sets none back.

  `Run.complete`: if such a step is possible in every state reached that is not final, every
  run can be continued to a final state.
-/
import SmfSolver.Lib.Run
import Mathlib.Algebra.Order.BigOperators.Group.Finset
import Mathlib.Data.Prod.Lex

namespace SmfSolver
namespace Lib

universe u v w

variable {σ : Type u} {ε : Type v} {ι : Type w} {shared : σ → ℕ} {own : σ → ι → ℕ} {s t : σ}

/-- From `s` to `t` the supply falls, or a party comes forward and none is set back. -/
def Advances (shared : σ → ℕ) (own : σ → ι → ℕ) (s t : σ) : Prop :=
  shared t < shared s ∨
    shared t = shared s ∧ (∀ i, own t i ≤ own s i) ∧ ∃ i, own t i < own s i

theorem Advances.of_shared (h : shared t < shared s) : Advances shared own s t :=
  .inl h

/-- Party `i` comes forward, and the supply does not grow. -/
theorem Advances.of_own {i : ι} (hshared : shared t ≤ shared s) (hlt : own t i < own s i)
    (hle : ∀ j, j ≠ i → own t j ≤ own s j) : Advances shared own s t := by
  rcases hshared.lt_or_eq with h | h
  · exact .inl h
  · refine .inr ⟨h, fun j => ?_, i, hlt⟩
    by_cases hj : j = i
    · rw [hj]
      exact hlt.le
    · exact hle j hj

/-- No run advances for ever: the supply falls, or all ways together get shorter. -/
theorem advances_wellFounded [Fintype ι] (shared : σ → ℕ) (own : σ → ι → ℕ) :
    WellFounded fun t s => Advances shared own s t := by
  have hlex : WellFounded (Prod.Lex (· < ·) (· < ·) : ℕ × ℕ → ℕ × ℕ → Prop) :=
    WellFounded.prod_lex wellFounded_lt wellFounded_lt
  refine Subrelation.wf (fun {t s} h => ?_)
    (InvImage.wf (fun s => (shared s, ∑ i, own s i)) hlex)
  rcases h with h | ⟨h, hle, i, hi⟩
  · exact Prod.Lex.left _ _ h
  · refine Prod.lex_def.mpr (.inr ⟨h, ?_⟩)
    exact Finset.sum_lt_sum (fun j _ => hle j) ⟨i, Finset.mem_univ i, hi⟩

namespace Lts

variable {L : Lts σ ε}

/-- Every run can be completed. -/
theorem Run.complete [Fintype ι] {Final : σ → Prop} (shared : σ → ℕ) (own : σ → ι → ℕ)
    (hstep : ∀ {tr s}, L.Run tr s → ¬Final s → ∃ a t, L.step s a t ∧ Advances shared own s t)
    {tr : List ε} {s : σ} (h : L.Run tr s) : ∃ tr' t, L.Run (tr ++ tr') t ∧ Final t := by
  induction s using (advances_wellFounded shared own).induction generalizing tr with
  | _ s ih =>
    by_cases hfinal : Final s
    · exact ⟨[], s, by rwa [List.append_nil], hfinal⟩
    · obtain ⟨a, t, hs, hadv⟩ := hstep h hfinal
      obtain ⟨tr', u, hrun, hu⟩ := ih t hadv (h.snoc hs)
      exact ⟨a :: tr', u, by rwa [List.append_assoc] at hrun, hu⟩

end Lts

end Lib
end SmfSolver
