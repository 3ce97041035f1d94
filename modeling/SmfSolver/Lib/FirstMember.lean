/-
  SmfSolver.Lib.FirstMember

  The classes of an equivalence on the numbers, each known by its least member and numbered
  in the order of the least members.

  * `exists_isFirst`, `IsFirst.unique`: every class has one least member.
  * `count_isFirst_eq_iff`: two members have the same class number iff they are equivalent.
  * `exists_isFirst_count`: the class numbers are an initial segment.
-/
import Mathlib.Data.Nat.Count
import Mathlib.Data.Nat.Find

namespace SmfSolver
namespace Lib

/-- `r` is the least member of the class of `v`. -/
def IsFirst (R : ℕ → ℕ → Prop) (r v : ℕ) : Prop := R r v ∧ ∀ u < r, ¬R u v

variable {R : ℕ → ℕ → Prop} {r s u v : ℕ}

theorem exists_isFirst (hR : Equivalence R) (v : ℕ) : ∃ r ≤ v, IsFirst R r v := by
  classical
  have hex : ∃ r, R r v := ⟨v, hR.refl v⟩
  exact ⟨Nat.find hex, Nat.find_min' hex (hR.refl v), Nat.find_spec hex, fun u hu =>
    Nat.find_min hex hu⟩

theorem IsFirst.le (hR : Equivalence R) (h : IsFirst R r v) : r ≤ v :=
  Nat.le_of_not_lt fun hlt => h.2 v hlt (hR.refl v)

theorem IsFirst.unique (h : IsFirst R r v) (h' : IsFirst R s v) : r = s := by
  rcases Nat.lt_trichotomy r s with hlt | heq | hlt
  · exact absurd h.1 (h'.2 r hlt)
  · exact heq
  · exact absurd h'.1 (h.2 s hlt)

/-- Equivalent numbers have the same first member. -/
theorem IsFirst.of_rel (hR : Equivalence R) (h : IsFirst R r u) (huv : R u v) : IsFirst R r v :=
  ⟨hR.trans h.1 huv, fun w hw hwv => h.2 w hw (hR.trans hwv (hR.symm huv))⟩

theorem IsFirst.self (hR : Equivalence R) (h : IsFirst R r v) : IsFirst R r r :=
  h.of_rel hR (hR.symm h.1)

theorem isFirst_iff_rel (hR : Equivalence R) (h : IsFirst R r u) : IsFirst R r v ↔ R u v :=
  ⟨fun h' => hR.trans (hR.symm h.1) h'.1, h.of_rel hR⟩

/-! ## Numbering the classes -/

open Classical in
/-- Two members have the same class number iff they are equivalent. -/
theorem count_isFirst_eq_iff (hR : Equivalence R) (hu : IsFirst R r u) (hv : IsFirst R s v) :
    Nat.count (fun w => IsFirst R w w) r = Nat.count (fun w => IsFirst R w w) s ↔ R u v := by
  constructor
  · intro heq
    have hrs : r = s :=
      Nat.count_injective (p := fun w => IsFirst R w w) (hu.self hR) (hv.self hR) heq
    exact (isFirst_iff_rel hR hu).mp (hrs ▸ hv)
  · intro huv
    rw [(hu.of_rel hR huv).unique hv]

open Classical in
/-- Class numbers rise with the first members. -/
theorem count_isFirst_lt_iff (hR : Equivalence R) (hu : IsFirst R r u) :
    Nat.count (fun w => IsFirst R w w) r < Nat.count (fun w => IsFirst R w w) s ↔ r < s := by
  constructor
  · intro hlt
    refine Nat.lt_of_not_le fun hle => ?_
    exact absurd (Nat.count_monotone _ hle) (Nat.not_le.mpr hlt)
  · exact Nat.count_strict_mono (p := fun w => IsFirst R w w) (hu.self hR)

open Classical in
/-- Every smaller number is the number of a class. -/
theorem exists_isFirst_count {k n : ℕ} (hk : k < Nat.count (fun w => IsFirst R w w) n) :
    ∃ r < n, IsFirst R r r ∧ Nat.count (fun w => IsFirst R w w) r = k := by
  induction n with
  | zero => exact absurd hk (by rw [Nat.count_zero]; omega)
  | succ n ih =>
    rw [Nat.count_succ] at hk
    by_cases hn : IsFirst R n n
    · rw [if_pos hn] at hk
      rcases Nat.lt_succ_iff_lt_or_eq.mp hk with hlt | heq
      · obtain ⟨r, hr, hrest⟩ := ih hlt
        exact ⟨r, by omega, hrest⟩
      · exact ⟨n, by omega, hn, heq.symm⟩
    · rw [if_neg hn] at hk
      obtain ⟨r, hr, hrest⟩ := ih hk
      exact ⟨r, by omega, hrest⟩

end Lib
end SmfSolver
