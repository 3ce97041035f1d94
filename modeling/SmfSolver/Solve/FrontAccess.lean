/-
  SmfSolver.Solve.FrontAccess

  `forward_front` access by access, as a thread of a parallel solve runs it: it reads its
  pivot rows, finds the pivots, writes them back, and updates every other row.  How a row is
  updated is the template parameter of the code: a load and a store, where a row that the
  top part pivots goes to the thread's own buffer instead (`SplitUpdate`), or one atomic
  subtraction (`AtomicUpdate`).
-/
import SmfSolver.Solve.FactorEntries

namespace SmfSolver
namespace Solve

open Finset (range sum_congr sum_range_succ)

variable {K : Type*} [Field K]

/-! ## The kernels between the accesses -/

/-- The pivots from the gathered pivot rows. -/
def pivotValues (posdef : Bool) (F : Front K) (b : ℕ → K) : ℕ → K :=
  if F.p = 1 then fun _ => if posdef then b 0 / F.L 0 0 else b 0
  else if F.p = 2 then
    let x₀ := if posdef then b 0 / F.L 0 0 else b 0
    let x₁ := b 1 - F.L 1 0 * x₀
    let x₁ := if posdef then x₁ / F.L 1 1 else x₁
    fun i => if i = 0 then x₀ else x₁
  else
    match F.inv with
    | some inv => dgemv inv F.p b
    | none => solveLower posdef F.L F.p b

/-- What row `k` is updated by. -/
def updateValue (F : Front K) (w : ℕ → K) (k : ℕ) : K :=
  if F.p = 1 then F.L k 0 * w 0
  else if F.p = 2 then F.L k 0 * w 0 + F.L k 1 * w 1
  else extended F w k

section Kernels

variable {posdef : Bool} {F : Front K} {b w : ℕ → K}

theorem pivotValues_pivot (hF : F.Good posdef) : ∀ i < F.p, pivotValues posdef F b i =
    (b i - ∑ j ∈ range i, F.L i j * pivotValues posdef F b j) / diagOf posdef F.L i := by
  intro i hi
  by_cases h1 : F.p = 1
  · obtain rfl : i = 0 := by omega
    rw [pivotValues, if_pos h1, Finset.range_zero, Finset.sum_empty, sub_zero]
    exact pivot_div (b 0) 0
  by_cases h2 : F.p = 2
  · rw [pivotValues, if_neg h1, if_pos h2]
    obtain rfl | rfl : i = 0 ∨ i = 1 := by omega
    · rw [Finset.range_zero, Finset.sum_empty, sub_zero]
      exact pivot_div (b 0) 0
    · rw [Finset.sum_range_one]
      exact pivot_div _ 1
  · rw [pivotValues, if_neg h1, if_neg h2]
    cases hinv : F.inv with
    | some inv => exact inverse_pivot hF hinv i hi
    | none => exact solveLower_pivot i hi

theorem updateValue_eq (hp : 0 < F.p) (k : ℕ) :
    updateValue F w k = ∑ j ∈ range F.p, F.L k j * w j := by
  rw [updateValue]
  split_ifs with h1 h2
  · rw [h1, Finset.sum_range_one]
  · rw [h2, sum_range_succ, Finset.sum_range_one]
  · exact extended_eq hp k

end Kernels

/-! ## Accesses -/

/-- `Update`. -/
inductive RowUpdate where
  | split (topSlot : ℕ → Option ℕ)
  | atomic

/-- The slots of the rows that go to the threads' buffers. -/
def RowUpdate.slots : RowUpdate → ℕ → Option ℕ
  | .split topSlot => topSlot
  | .atomic => fun _ => none

/-- The shared vector, and every thread's buffer for the rows of the top part. -/
structure Vectors (K : Type*) (T : ℕ) where
  x : ℕ → K
  top : Fin T → ℕ → K

/-- Where a thread is in `forward_front` of step `k`. -/
inductive Work (K : Type*) where
  | idle
  /-- `b_loc` has the pivot rows before `i`. -/
  | gather (k i : ℕ) (b : ℕ → K)
  /-- The pivots are `w`, and the rows before `i` are done. -/
  | store (k i : ℕ) (w : ℕ → K)
  /-- `x[rows[i]]` is loaded as `v`, and about to be stored. -/
  | loaded (k i : ℕ) (w : ℕ → K) (v : K)

def Work.front : Work K → Option ℕ
  | .idle => none
  | .gather k _ _ | .store k _ _ | .loaded k _ _ _ => some k

variable (posdef : Bool) (fr : ℕ → Front K) (upd : RowUpdate) {T : ℕ} (t : Fin T)

/-- One access of thread `t`. -/
inductive Access : Vectors K T → Work K → Vectors K T → Work K → Prop
  | read {m k i b} (hi : i < (fr k).p) :
      Access m (.gather k i b) m
        (.gather k (i + 1) (Function.update b i (m.x ((fr k).rows i))))
  | solve {m k b} :
      Access m (.gather k (fr k).p b) m (.store k 0 (pivotValues posdef (fr k) b))
  | pivot {m k i w} (hi : i < (fr k).p) :
      Access m (.store k i w) { m with x := Function.update m.x ((fr k).rows i) (w i) }
        (.store k (i + 1) w)
  | load {m k i w slots} (hlo : (fr k).p ≤ i) (hi : i < (fr k).f) (hupd : upd = .split slots)
      (hslot : slots ((fr k).rows i) = none) :
      Access m (.store k i w) m (.loaded k i w (m.x ((fr k).rows i)))
  | save {m k i w v} :
      Access m (.loaded k i w v)
        { m with x := Function.update m.x ((fr k).rows i) (v - updateValue (fr k) w i) }
        (.store k (i + 1) w)
  | buffer {m k i w slots s} (hlo : (fr k).p ≤ i) (hi : i < (fr k).f) (hupd : upd = .split slots)
      (hslot : slots ((fr k).rows i) = some s) :
      Access m (.store k i w)
        { m with
          top := Function.update m.top t
            (Function.update (m.top t) s (m.top t s + updateValue (fr k) w i)) }
        (.store k (i + 1) w)
  | subtract {m k i w} (hlo : (fr k).p ≤ i) (hi : i < (fr k).f) (hupd : upd = .atomic) :
      Access m (.store k i w)
        { m with
          x := Function.update m.x ((fr k).rows i)
            (m.x ((fr k).rows i) - updateValue (fr k) w i) }
        (.store k (i + 1) w)

section Buffers

variable {posdef : Bool} {fr : ℕ → Front K} {upd : RowUpdate} {T : ℕ} {t u : Fin T}
  {m m' : Vectors K T} {a a' : Work K}

/-- A thread leaves the others' buffers alone. -/
theorem Access.top_of_ne (h : Access posdef fr upd t m a m' a') (hu : u ≠ t) :
    m'.top u = m.top u := by
  cases h with
  | buffer => exact Function.update_of_ne hu ..
  | _ => rfl

/-- An access does not depend on the others' buffers. -/
theorem Access.frame (h : Access posdef fr upd t m a m' a') {top : Fin T → ℕ → K}
    (htop : top t = m.top t) : Access posdef fr upd t { m with top := top } a
      { m' with top := Function.update top t (m'.top t) } a' := by
  -- only `buffer` writes the thread's buffer, every other access leaves it as it was
  have hsame : Function.update top t (m.top t) = top := by
    rw [← htop, Function.update_eq_self]
  cases h with
  | buffer hlo hi hupd hslot =>
    dsimp only
    rw [Function.update_self, ← htop]
    exact .buffer (m := { m with top := top }) hlo hi hupd hslot
  | read hi =>
    rw [hsame]
    exact .read (m := { m with top := top }) hi
  | solve =>
    rw [hsame]
    exact .solve
  | pivot hi =>
    dsimp only
    rw [hsame]
    exact .pivot (m := { m with top := top }) hi
  | load hlo hi hupd hslot =>
    rw [hsame]
    exact .load (m := { m with top := top }) hlo hi hupd hslot
  | save =>
    dsimp only
    rw [hsame]
    exact .save (m := { m with top := top })
  | subtract hlo hi hupd =>
    dsimp only
    rw [hsame]
    exact .subtract (m := { m with top := top }) hlo hi hupd

end Buffers

end Solve
end SmfSolver
