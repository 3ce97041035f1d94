/-
  SmfSolver.Lib.Mutex

  A mutex and the program points of its users: it names its holder, and the holder is the
  one user at a point that has the lock.
-/
import Mathlib.Logic.Function.Basic

namespace SmfSolver
namespace Lib

variable {ι : Type*} [DecidableEq ι]

/-- The mutex is held by exactly the user that is where the lock is held. -/
def Guarded (mtx : Option ι) (holds : ι → Bool) : Prop := ∀ t, mtx = some t ↔ holds t = true

namespace Guarded

variable {mtx : Option ι} {holds : ι → Bool} {t u : ι}

theorem acquire (h : Guarded none holds) (t : ι) :
    Guarded (some t) (Function.update holds t true) := by
  intro u
  by_cases hu : u = t
  · rw [hu, Function.update_self]
    exact iff_of_true rfl rfl
  · rw [Function.update_of_ne hu, ← h u]
    exact iff_of_false (fun heq => hu (Option.some.inj heq).symm) nofun

theorem release (h : Guarded mtx holds) (ht : holds t = true) :
    Guarded none (Function.update holds t false) := by
  have hmtx := (h t).mpr ht
  intro u
  by_cases hu : u = t
  · rw [hu, Function.update_self]
    exact iff_of_false nofun Bool.noConfusion
  · rw [Function.update_of_ne hu, ← h u, hmtx]
    exact iff_of_false nofun fun heq => hu (Option.some.inj heq).symm

/-- A move between points of one kind. -/
theorem keep (h : Guarded mtx holds) {b : Bool} (hb : b = holds t) :
    Guarded mtx (Function.update holds t b) := by
  rw [hb, Function.update_eq_self]
  exact h

omit [DecidableEq ι] in
/-- One holder at a time. -/
theorem unique (h : Guarded mtx holds) (ht : holds t = true) (hu : holds u = true) : t = u :=
  Option.some.inj (((h t).mpr ht).symm.trans ((h u).mpr hu))

end Guarded

end Lib
end SmfSolver
