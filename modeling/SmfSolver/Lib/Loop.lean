/-
  SmfSolver.Lib.Loop

  Loops as step functions.  One pass of the loop body is a function
  `step : σ → σ ⊕ β`: `inl` goes round again, `inr` leaves the loop with a result.
  A measure that every pass lowers makes the loop a total function, `Loop.run`,
  which recurses on a fuel taken from the measure and so evaluates.

  * `run_next`, `run_done`: one pass of the loop.
  * `run_induct`: what every pass keeps, the exit sees.
  * `run_resume`: a loop that may pause, and is entered again at the state it
    paused in, ends where the loop that never pauses ends.
-/
import Mathlib.Order.Nat

namespace SmfSolver
namespace Lib
namespace Loop

variable {σ β : Type*}

/-- Every pass that goes round again lowers the measure. -/
def Decreases (step : σ → σ ⊕ β) (m : σ → ℕ) : Prop :=
  ∀ s s', step s = .inl s' → m s' < m s

/-- The loop with `fuel` passes left; the measure says that they suffice. -/
def go (step : σ → σ ⊕ β) (m : σ → ℕ) (h : Decreases step m) :
    (fuel : ℕ) → (s : σ) → m s < fuel → β
  | 0, _, hf => absurd hf (Nat.not_lt_zero _)
  | fuel + 1, s, hf =>
    match hs : step s with
    | .inr b => b
    | .inl s' => go step m h fuel s' (Nat.lt_of_lt_of_le (h s s' hs) (Nat.lt_succ_iff.mp hf))

/-- The loop from `s`. -/
def run (step : σ → σ ⊕ β) (m : σ → ℕ) (h : Decreases step m) (s : σ) : β :=
  go step m h (m s + 1) s (Nat.lt_succ_self _)

variable {step : σ → σ ⊕ β} {m : σ → ℕ} {h : Decreases step m}

theorem go_done {fuel : ℕ} {s : σ} {b : β} (hf : m s < fuel) (hs : step s = .inr b) :
    go step m h fuel s hf = b := by
  cases fuel with
  | zero => exact absurd hf (Nat.not_lt_zero _)
  | succ fuel =>
    rw [go]
    split
    · rename_i b' hb
      rw [hs] at hb
      exact (Sum.inr.inj hb).symm
    · rename_i s' hb
      rw [hs] at hb
      cases hb

theorem go_next {fuel : ℕ} {s s' : σ} (hf : m s < fuel + 1) (hs : step s = .inl s') :
    go step m h (fuel + 1) s hf
      = go step m h fuel s' (Nat.lt_of_lt_of_le (h s s' hs) (Nat.lt_succ_iff.mp hf)) := by
  rw [go]
  split
  · rename_i b hb
    rw [hs] at hb
    cases hb
  · rename_i s'' hb
    have : s' = s'' := Sum.inl.inj (hs.symm.trans hb)
    subst this
    rfl

/-- More fuel than the measure asks for changes nothing. -/
theorem go_congr {fuel fuel' : ℕ} {s : σ} (hf : m s < fuel) (hf' : m s < fuel') :
    go step m h fuel s hf = go step m h fuel' s hf' := by
  induction fuel generalizing s fuel' with
  | zero => exact absurd hf (Nat.not_lt_zero _)
  | succ fuel ih =>
    cases fuel' with
    | zero => exact absurd hf' (Nat.not_lt_zero _)
    | succ fuel' =>
      cases hs : step s with
      | inr b => rw [go_done hf hs, go_done hf' hs]
      | inl s' =>
        rw [go_next hf hs, go_next hf' hs]
        exact ih _ _

theorem run_done {s : σ} {b : β} (hs : step s = .inr b) : run step m h s = b :=
  go_done _ hs

theorem run_next {s s' : σ} (hs : step s = .inl s') : run step m h s = run step m h s' := by
  unfold run
  rw [go_next _ hs]
  exact go_congr _ _

/-- Two states whose first passes agree have the same run. -/
theorem run_congr {s s' : σ} (hs : step s = step s') : run step m h s = run step m h s' := by
  cases h' : step s' with
  | inr b => rw [run_done (hs.trans h'), run_done h']
  | inl t => rw [run_next (hs.trans h'), run_next h']

/-- What every pass keeps holds where the loop is left. -/
theorem run_induct {P : σ → Prop} {Q : β → Prop}
    (next : ∀ s s', P s → step s = .inl s' → P s')
    (done : ∀ s b, P s → step s = .inr b → Q b) {s : σ} (hs : P s) :
    Q (run step m h s) := by
  generalize hk : m s = k
  induction k using Nat.strongRecOn generalizing s with
  | _ k ih =>
    cases hstep : step s with
    | inr b =>
      rw [run_done hstep]
      exact done s b hs hstep
    | inl s' =>
      rw [run_next hstep]
      have hlt : m s' < k := hk ▸ h s s' hstep
      exact ih _ hlt (next s s' hs hstep) rfl

/-- A loop that may pause.  Each pass of `step₁` is a pass of `step`, or it leaves
    the loop by `pause s'` at a state `s'` from which `step` goes on as from `s`.
    Then the run of `step₁` is the run of `step`, or it paused at a state whose run
    is the run of `step`. -/
theorem run_resume {step₁ : σ → σ ⊕ β} {m₁ : σ → ℕ} (h₁ : Decreases step₁ m₁)
    (pause : σ → β) {P Q : σ → Prop}
    (keep : ∀ s s', P s → step s = .inl s' → P s')
    (pass : ∀ s, P s → step₁ s = step s ∨
      ∃ s', step₁ s = .inr (pause s') ∧ step s' = step s ∧ Q s')
    {s : σ} (hs : P s) :
    run step₁ m₁ h₁ s = run step m h s ∨
      ∃ s', run step₁ m₁ h₁ s = pause s' ∧ run step m h s' = run step m h s ∧ Q s' := by
  generalize hk : m s = k
  induction k using Nat.strongRecOn generalizing s with
  | _ k ih =>
    rcases pass s hs with hpass | ⟨s', hpause, hsame, hQ⟩
    · cases hstep : step s with
      | inr b =>
        left
        rw [run_done (hpass.trans hstep), run_done hstep]
      | inl t =>
        rw [run_next (hpass.trans hstep), run_next hstep]
        exact ih _ (hk ▸ h s t hstep) (keep s t hs hstep) rfl
    · right
      exact ⟨s', run_done hpause, run_congr hsame, hQ⟩

end Loop
end Lib
end SmfSolver
