/-
  SmfSolver.Solve.ForwardSweep

  What the accesses of any number of threads keep while they sweep over the fronts.

  `stage k` counts the rows of front `k` that are done.  Rows already pivoted hold the
  solution; every other row, with the threads' buffers counted in, holds the right-hand side
  less what the rows done so far have subtracted there (`Sweep`).  So a front that begins
  when all others that update its pivot rows are complete finds the solution's pivots,
  whatever the order of the accesses was.
-/
import SmfSolver.Solve.FrontAccess

namespace SmfSolver
namespace Solve

open Finset (range sum_congr sum_range_succ Ico)

variable {K : Type*} [Field K]

/-! ## The solution, row by row -/

/-- What the rows before `m` of front `F` subtract from row `r`. -/
def Front.part (F : Front K) (y : ℕ → K) (m r : ℕ) : K :=
  ∑ i ∈ Ico F.p m, if F.rows i = r then ∑ j ∈ range F.p, F.L i j * y (F.rows j) else 0

section Part

variable {posdef : Bool} {F : Front K} {x y : ℕ → K} {m r : ℕ}

theorem Front.part_succ (hm : F.p ≤ m) : F.part y (m + 1) r = F.part y m r +
    if F.rows m = r then ∑ j ∈ range F.p, F.L m j * y (F.rows j) else 0 :=
  Finset.sum_Ico_succ_top hm _

theorem Front.part_of_le (hm : m ≤ F.p) : F.part y m r = 0 := by
  rw [Front.part, Finset.Ico_eq_empty (not_lt.mpr hm), Finset.sum_empty]

theorem Front.part_other (h : ∀ i, F.p ≤ i → i < m → F.rows i ≠ r) : F.part y m r = 0 := by
  apply Finset.sum_eq_zero
  intro i hi
  obtain ⟨hlo, hhi⟩ := Finset.mem_Ico.mp hi
  exact if_neg (h i hlo hhi)

theorem Front.part_empty (hp : F.p = 0) : F.part y m r = 0 := by
  apply Finset.sum_eq_zero
  intro i _
  rw [hp, Finset.range_zero, Finset.sum_empty, ite_self]

/-- Past its pivot rows, a front's rows of `L y` are what it subtracts. -/
theorem Front.row_eq_part (hF : F.Good posdef) (hr : ∀ i < F.p, F.rows i ≠ r) :
    F.row posdef y r = F.part y F.f r := by
  have hzero : ∑ i ∈ range F.p, (if F.rows i = r then
      ∑ j ∈ range F.p, F.coef posdef i j * y (F.rows j) else 0) = 0 :=
    Finset.sum_eq_zero fun i hi => if_neg (hr i (Finset.mem_range.mp hi))
  rw [Front.row, ← Finset.sum_range_add_sum_Ico _ hF.p_le, hzero, zero_add, Front.part]
  refine sum_congr rfl fun i hi => ?_
  have hlo := (Finset.mem_Ico.mp hi).1
  congr 1
  refine sum_congr rfl fun j hj => ?_
  have hlt : j < i := (Finset.mem_range.mp hj).trans_le hlo
  rw [Front.coef, if_neg hlt.ne', if_pos hlt]

end Part

/-- `y` solves `L y = x₀` for the fronts `fr 0 .. fr (N - 1)`. -/
structure Solution (posdef : Bool) (fr : ℕ → Front K) (N n : ℕ) (x₀ y : ℕ → K) : Prop where
  ordered : WellOrdered posdef n ((List.range N).map fr)
  multiplies : Multiplies posdef ((List.range N).map fr) y x₀

namespace Solution

variable {posdef : Bool} {fr : ℕ → Front K} {N n : ℕ} {x₀ y : ℕ → K} {k k' i j r : ℕ}

theorem good (h : Solution posdef fr N n x₀ y) (hk : k < N) : (fr k).Good posdef :=
  h.ordered.good _ (List.mem_map_of_mem (List.mem_range.mpr hk))

/-- A front has no pivot row of a front before it. -/
theorem later (h : Solution posdef fr N n x₀ y) (hkk' : k < k') (hk' : k' < N)
    (hi : i < (fr k).p) (hj : j < (fr k').f) : (fr k').rows j ≠ (fr k).rows i := by
  have hpair := List.pairwise_iff_getElem.mp h.ordered.later k k'
    (by simpa using hkk'.trans hk') (by simpa using hk') hkk'
  simp only [List.getElem_map, List.getElem_range] at hpair
  exact hpair i hi j hj

/-- A row is a pivot of one front at most, and at one place. -/
theorem pivot_unique (h : Solution posdef fr N n x₀ y) (hk : k < N) (hk' : k' < N)
    (hi : i < (fr k).p) (hj : j < (fr k').p) (he : (fr k).rows i = (fr k').rows j) :
    k = k' ∧ i = j := by
  have hne := Nat.lt_trichotomy k k'
  rcases hne with hlt | rfl | hlt
  · exact absurd he.symm (h.later hlt hk' hi (hj.trans_le (h.good hk').p_le))
  · have hp := (h.good hk).p_le
    exact ⟨rfl, (h.good hk).inj i (hi.trans_le hp) j (hj.trans_le hp) he⟩
  · exact absurd he (h.later hlt hk hj (hi.trans_le (h.good hk).p_le))

theorem rowSum_eq : rowSum posdef ((List.range N).map fr) y r =
    ∑ k ∈ range N, (fr k).row posdef y r := by
  rw [rowSum, List.map_map]
  induction N with
  | zero => rfl
  | succ N ih =>
    rw [List.range_succ, List.map_append, List.sum_append, ih, sum_range_succ, List.map_cons,
      List.map_nil, List.sum_singleton]
    rfl

/-- The right-hand side of row `r` when all fronts have subtracted from it. -/
def full (fr : ℕ → Front K) (N : ℕ) (x₀ y : ℕ → K) (r : ℕ) : K :=
  x₀ r - ∑ k ∈ range N, (fr k).part y (fr k).f r

/-- A pivot row's equation. -/
theorem pivot_eq (h : Solution posdef fr N n x₀ y) (hk : k < N) (hi : i < (fr k).p) :
    y ((fr k).rows i) = (full fr N x₀ y ((fr k).rows i) -
      ∑ j ∈ range i, (fr k).L i j * y ((fr k).rows j)) / diagOf posdef (fr k).L i := by
  have hF := h.good hk
  have hpivot : Pivot ((List.range N).map fr) ((fr k).rows i) :=
    ⟨fr k, List.mem_map_of_mem (List.mem_range.mpr hk), i, hi, rfl⟩
  have hrow := (h.multiplies ((fr k).rows i)).1 hpivot
  have hmem : k ∈ range N := Finset.mem_range.mpr hk
  have hown : (fr k).part y (fr k).f ((fr k).rows i) = 0 := by
    apply Front.part_other
    intro j hlo hj he
    exact (hi.trans_le hlo).ne' (hF.inj j hj i (hi.trans_le hF.p_le) he)
  -- the other fronts have the row past their pivots, or not at all
  have hrest : ∑ k' ∈ (range N).erase k, (fr k').row posdef y ((fr k).rows i) =
      ∑ k' ∈ (range N).erase k, (fr k').part y (fr k').f ((fr k).rows i) := by
    refine sum_congr rfl fun k' hk' => ?_
    obtain ⟨hne, hk'⟩ := Finset.mem_erase.mp hk'
    have hk' := Finset.mem_range.mp hk'
    apply Front.row_eq_part (h.good hk')
    intro j hj he
    exact hne (h.pivot_unique hk' hk hj hi he).1
  rw [rowSum_eq, ← Finset.add_sum_erase _ _ hmem, Front.row_pivot hF hi, hrest] at hrow
  rw [full, ← Finset.add_sum_erase _ _ hmem, hown, zero_add, eq_div_iff (hF.diag_ne i hi), ← hrow]
  ring

/-- A row that no front pivots. -/
theorem other_eq (h : Solution posdef fr N n x₀ y)
    (hr : ∀ k < N, ∀ i < (fr k).p, (fr k).rows i ≠ r) : y r = full fr N x₀ y r := by
  have hnot : ¬Pivot ((List.range N).map fr) r := by
    rintro ⟨F, hF, i, hi, he⟩
    obtain ⟨k, hk, rfl⟩ := List.mem_map.mp hF
    exact hr k (List.mem_range.mp hk) i hi he
  have hrow := (h.multiplies r).2 hnot
  have hparts : ∑ k ∈ range N, (fr k).row posdef y r =
      ∑ k ∈ range N, (fr k).part y (fr k).f r := by
    refine sum_congr rfl fun k hk => ?_
    have hk := Finset.mem_range.mp hk
    exact Front.row_eq_part (h.good hk) (hr k hk)
  rw [rowSum_eq, hparts] at hrow
  rw [full, ← hrow]
  ring

/-- From the full right-hand sides of its pivot rows, a front finds the solution's pivots. -/
theorem pivotValues_eq (h : Solution posdef fr N n x₀ y) (hk : k < N) {b : ℕ → K}
    (hb : ∀ i < (fr k).p, b i = full fr N x₀ y ((fr k).rows i)) (hi : i < (fr k).p) :
    pivotValues posdef (fr k) b i = y ((fr k).rows i) := by
  induction i using Nat.strong_induction_on with
  | _ i ih =>
    have hsum : ∑ j ∈ range i, (fr k).L i j * pivotValues posdef (fr k) b j =
        ∑ j ∈ range i, (fr k).L i j * y ((fr k).rows j) :=
      sum_congr rfl fun j hj => by
        rw [ih j (Finset.mem_range.mp hj) ((Finset.mem_range.mp hj).trans hi)]
    rw [pivotValues_pivot (h.good hk) i hi, h.pivot_eq hk hi, hsum, hb i hi]

end Solution

/-! ## The sweep -/

/-- Row `r` with the threads' buffers counted in. -/
def Vectors.net {T : ℕ} (m : Vectors K T) (slot : ℕ → Option ℕ) (r : ℕ) : K :=
  m.x r - match slot r with
    | some s => ∑ t, m.top t s
    | none => 0

section Net

variable {T : ℕ} {m : Vectors K T} {slot : ℕ → Option ℕ} {r r' s : ℕ} {v : K} {t : Fin T}

theorem Vectors.net_of_none (h : slot r = none) : m.net slot r = m.x r := by
  rw [Vectors.net, h, sub_zero]

theorem Vectors.net_set_self (h : slot r = none) :
    Vectors.net { m with x := Function.update m.x r v } slot r = v :=
  (net_of_none h).trans (Function.update_self ..)

theorem Vectors.net_set_of_ne (h : r' ≠ r) :
    Vectors.net { m with x := Function.update m.x r v } slot r' = m.net slot r' := by
  unfold Vectors.net
  dsimp only
  rw [Function.update_of_ne h]

/-- An addition to a thread's buffer. -/
theorem Vectors.net_add : Vectors.net { m with
      top := Function.update m.top t (Function.update (m.top t) s (m.top t s + v)) } slot r =
    m.net slot r - if slot r = some s then v else 0 := by
  have hrest : ∀ s', ∑ u ∈ Finset.univ.erase t, Function.update m.top t
      (Function.update (m.top t) s (m.top t s + v)) u s' = ∑ u ∈ Finset.univ.erase t, m.top u s' :=
    fun s' => sum_congr rfl fun u hu => by
      rw [Function.update_of_ne (Finset.ne_of_mem_erase hu)]
  unfold Vectors.net
  cases slot r with
  | none => rw [if_neg (Option.some_ne_none s).symm, sub_zero (m.x r - 0)]
  | some s' =>
    dsimp only
    rw [← Finset.add_sum_erase _ _ (Finset.mem_univ t), Function.update_self, hrest,
      ← Finset.add_sum_erase _ (fun u => m.top u s') (Finset.mem_univ t)]
    by_cases hs : s' = s
    · rw [hs, Function.update_self, if_pos rfl]
      ring
    · rw [Function.update_of_ne hs, if_neg fun he => hs (Option.some.inj he), sub_zero]

end Net

section Sweep

variable (fr : ℕ → Front K) (N : ℕ) (x₀ y : ℕ → K) (slot : ℕ → Option ℕ) {T : ℕ}

/-- Front `k` is done; one without pivots has nothing to do. -/
def Complete (stage : ℕ → ℕ) (k : ℕ) : Prop := 0 < (fr k).p → stage k = (fr k).f

/-- All updates to the pivot rows of front `k` are in. -/
def Ready (stage : ℕ → ℕ) (k : ℕ) : Prop :=
  ∀ i < (fr k).p, slot ((fr k).rows i) = none ∧ ∀ k' < N, k' ≠ k →
    (∃ j, (fr k').p ≤ j ∧ j < (fr k').f ∧ (fr k').rows j = (fr k).rows i) → Complete fr stage k'

/-- What a thread in a front knows. -/
def WorkOk (stage : ℕ → ℕ) (m : Vectors K T) : Work K → Prop
  | .idle => True
  | .gather k i b => k < N ∧ i ≤ (fr k).p ∧ 0 < (fr k).p ∧ stage k = 0 ∧ Ready fr N slot stage k ∧
      ∀ j < i, b j = Solution.full fr N x₀ y ((fr k).rows j)
  | .store k i w => k < N ∧ 0 < (fr k).p ∧ stage k = i ∧ i ≤ (fr k).f ∧
      Ready fr N slot stage k ∧ ∀ j < (fr k).p, w j = y ((fr k).rows j)
  | .loaded k i w v => k < N ∧ 0 < (fr k).p ∧ stage k = i ∧ (fr k).p ≤ i ∧ i < (fr k).f ∧
      Ready fr N slot stage k ∧ (∀ j < (fr k).p, w j = y ((fr k).rows j)) ∧
      slot ((fr k).rows i) = none ∧ v = m.x ((fr k).rows i)

structure Sweep (stage : ℕ → ℕ) (m : Vectors K T) (work : Fin T → Work K) : Prop where
  written : ∀ k < N, ∀ i < (fr k).p, i < stage k → m.x ((fr k).rows i) = y ((fr k).rows i)
  net : ∀ r, (∀ k < N, ∀ i < (fr k).p, i < stage k → (fr k).rows i ≠ r) →
    m.net slot r = x₀ r - ∑ k ∈ range N, (fr k).part y (stage k) r
  busy : ∀ t, WorkOk fr N x₀ y slot stage m (work t)
  started : ∀ k < N, 0 < stage k → Ready fr N slot stage k
  le : ∀ k, stage k ≤ (fr k).f
  alone : ∀ t u k, (work t).front = some k → (work u).front = some k → t = u

end Sweep

section Access

variable {posdef : Bool} {fr : ℕ → Front K} {N n : ℕ} {x₀ y : ℕ → K} {slot : ℕ → Option ℕ} {T : ℕ}
  {stage stage' : ℕ → ℕ} {m m' : Vectors K T} {work : Fin T → Work K} {a : Work K} {t : Fin T}
  {k i : ℕ} {w : ℕ → K}

omit [Field K] in
theorem Ready.mono (h : Ready fr N slot stage k)
    (hc : ∀ j, Complete fr stage j → Complete fr stage' j) : Ready fr N slot stage' k := by
  intro i hi
  obtain ⟨hslot, hothers⟩ := h i hi
  exact ⟨hslot, fun k' hk' hne hrow => hc k' (hothers k' hk' hne hrow)⟩

omit [Field K] in
/-- Complete fronts stay so while a row of another one is done. -/
theorem complete_update (hstage : stage k = i) (hi : i < (fr k).f) {j : ℕ}
    (h : Complete fr stage j) : Complete fr (Function.update stage k (i + 1)) j := by
  intro hp
  by_cases hne : j = k
  · subst hne
    exact absurd ((h hp).symm.trans hstage) (Nat.ne_of_gt hi)
  · exact (Function.update_of_ne hne ..).trans (h hp)

/-- A thread keeps what it knows while others complete fronts and leave its row alone. -/
theorem WorkOk.keep (h : WorkOk fr N x₀ y slot stage m a)
    (hstage : ∀ k, a.front = some k → stage' k = stage k)
    (hc : ∀ j, Complete fr stage j → Complete fr stage' j)
    (hx : ∀ k i w v, a = .loaded k i w v → m'.x ((fr k).rows i) = m.x ((fr k).rows i)) :
    WorkOk fr N x₀ y slot stage' m' a := by
  cases a with
  | idle => trivial
  | gather k i b =>
    obtain ⟨hk, hi, hp, h0, hready, hb⟩ := h
    exact ⟨hk, hi, hp, (hstage k rfl).trans h0, hready.mono hc, hb⟩
  | store k i w =>
    obtain ⟨hk, hp, hi, hle, hready, hw⟩ := h
    exact ⟨hk, hp, (hstage k rfl).trans hi, hle, hready.mono hc, hw⟩
  | loaded k i w v =>
    obtain ⟨hk, hp, hi, hlo, hhi, hready, hw, hslot, hv⟩ := h
    exact ⟨hk, hp, (hstage k rfl).trans hi, hlo, hhi, hready.mono hc, hw, hslot,
      hv.trans (hx k i w v rfl).symm⟩

/-- A pivot row of a front that is ready holds its full right-hand side. -/
theorem Sweep.full_of_ready (h : Sweep fr N x₀ y slot stage m work)
    (sol : Solution posdef fr N n x₀ y) (hk : k < N) (h0 : stage k = 0)
    (hready : Ready fr N slot stage k) (hi : i < (fr k).p) :
    m.x ((fr k).rows i) = Solution.full fr N x₀ y ((fr k).rows i) := by
  obtain ⟨hslot, hothers⟩ := hready i hi
  have hF := sol.good hk
  -- no front has written the row as a pivot yet, so the net vector is what memory has
  have hunwritten : ∀ k' < N, ∀ j < (fr k').p, j < stage k' →
      (fr k').rows j ≠ (fr k).rows i := by
    intro k' hk' j hj hlt he
    obtain ⟨rfl, -⟩ := sol.pivot_unique hk' hk hj hi he
    rw [h0] at hlt
    exact Nat.not_lt_zero j hlt
  have hnet := h.net _ hunwritten
  rw [Vectors.net, hslot, sub_zero] at hnet
  rw [hnet, Solution.full]
  congr 1
  refine sum_congr rfl fun k' hk' => ?_
  have hk' := Finset.mem_range.mp hk'
  -- each front's share: none of its own, all of it from the others that hold the row
  by_cases hne : k' = k
  · subst hne
    rw [h0, Front.part_of_le (Nat.zero_le _), Front.part_other]
    intro j hlo hj he
    exact (hi.trans_le hlo).ne' (hF.inj j hj i (hi.trans_le hF.p_le) he)
  rcases Nat.eq_zero_or_pos (fr k').p with hp | hp
  · rw [Front.part_empty hp, Front.part_empty hp]
  by_cases hrow : ∃ j, (fr k').p ≤ j ∧ j < (fr k').f ∧ (fr k').rows j = (fr k).rows i
  · rw [hothers k' hk' hne hrow hp]
  · have hno : ∀ j, (fr k').p ≤ j → j < (fr k').f → (fr k').rows j ≠ (fr k).rows i :=
      fun j hlo hj he => hrow ⟨j, hlo, hj, he⟩
    rw [Front.part_other fun j hlo hj => hno j hlo (hj.trans_le (h.le k')),
      Front.part_other hno]

/-- A thread moves on and stores nothing. -/
theorem Sweep.move (h : Sweep fr N x₀ y slot stage m work) (hfront : a.front = (work t).front)
    (ha : WorkOk fr N x₀ y slot stage m a) :
    Sweep fr N x₀ y slot stage m (Function.update work t a) := by
  have hsame : ∀ u, (Function.update work t a u).front = (work u).front := by
    intro u
    by_cases hu : u = t
    · rw [hu, Function.update_self, hfront]
    · rw [Function.update_of_ne hu]
  refine ⟨h.written, h.net, fun u => ?_, h.started, h.le, fun u v k hu hv => ?_⟩
  · by_cases hu : u = t
    · rw [hu, Function.update_self]
      exact ha
    · rw [Function.update_of_ne hu]
      exact h.busy u
  · exact h.alone u v k ((hsame u).symm.trans hu) ((hsame v).symm.trans hv)

/-- Row `i` of front `k` is done: a pivot row holds the solution, any other row has its
    product subtracted. -/
theorem Sweep.store (h : Sweep fr N x₀ y slot stage m work) (sol : Solution posdef fr N n x₀ y)
    (hfront : (work t).front = some k) (hk : k < N) (hp : 0 < (fr k).p) (hstage : stage k = i)
    (hi : i < (fr k).f) (hready : Ready fr N slot stage k)
    (hw : ∀ j < (fr k).p, w j = y ((fr k).rows j))
    (hkeep : ∀ r, r ≠ (fr k).rows i → m'.x r = m.x r)
    (hpivot : i < (fr k).p → m'.x ((fr k).rows i) = y ((fr k).rows i) ∧
      ∀ r, r ≠ (fr k).rows i → m'.net slot r = m.net slot r)
    (hrest : (fr k).p ≤ i → ∀ r, m'.net slot r = m.net slot r - if (fr k).rows i = r then
      ∑ j ∈ range (fr k).p, (fr k).L i j * y ((fr k).rows j) else 0)
    (hload : ∀ u ≠ t, ∀ k' i' w v, work u = .loaded k' i' w v →
      (fr k').rows i' ≠ (fr k).rows i) :
    Sweep fr N x₀ y slot (Function.update stage k (i + 1)) m'
      (Function.update work t (.store k (i + 1) w)) := by
  have hF := sol.good hk
  have hold : ∀ k', k' ≠ k → Function.update stage k (i + 1) k' = stage k' := fun k' hne =>
    Function.update_of_ne hne ..
  have hnew : Function.update stage k (i + 1) k = i + 1 := Function.update_self ..
  have hc : ∀ j, Complete fr stage j → Complete fr (Function.update stage k (i + 1)) j :=
    fun j => complete_update hstage hi
  -- a row that is stored past the pivots is no pivot that is written already
  have hapart : (fr k).p ≤ i → ∀ k' < N, ∀ j < (fr k').p, j < stage k' →
      (fr k').rows j ≠ (fr k).rows i := by
    intro hlo k' hk' j hj hlt he
    by_cases hne : k' = k
    · subst hne
      exact (hj.trans_le hlo).ne (hF.inj j (hj.trans_le hF.p_le) i hi he)
    · obtain ⟨-, hothers⟩ := h.started k' hk' (Nat.zero_lt_of_lt hlt) j hj
      have hdone := hothers k hk (Ne.symm hne) ⟨i, hlo, hi, he.symm⟩ hp
      exact absurd (hdone.symm.trans hstage) (Nat.ne_of_gt hi)
  refine ⟨fun k' hk' j hj hlt => ?_, fun r hr => ?_, fun u => ?_, fun k' hk' hpos => ?_,
    fun k' => ?_, fun u v k' hu hv => ?_⟩
  · by_cases hthis : k' = k ∧ j = i
    · obtain ⟨rfl, rfl⟩ := hthis
      exact (hpivot hj).1
    have hlt' : j < stage k' := by
      by_cases hne : k' = k
      · subst hne
        have hji : j ≠ i := fun hji => hthis ⟨rfl, hji⟩
        rw [hnew] at hlt
        omega
      · rwa [hold k' hne] at hlt
    have hne : (fr k').rows j ≠ (fr k).rows i := by
      intro he
      rcases Nat.lt_or_ge i (fr k).p with hip | hlo
      · exact hthis (sol.pivot_unique hk' hk hj hip he)
      · exact hapart hlo k' hk' j hj hlt' he
    rw [hkeep _ hne]
    exact h.written k' hk' j hj hlt'
  · have hr' : ∀ k' < N, ∀ j < (fr k').p, j < stage k' → (fr k').rows j ≠ r := by
      intro k' hk' j hj hlt
      apply hr k' hk' j hj
      by_cases hne : k' = k
      · subst hne
        rw [hnew]
        omega
      · rwa [hold k' hne]
    have hnet := h.net r hr'
    have hmem : k ∈ range N := Finset.mem_range.mpr hk
    have hothers : ∑ k' ∈ (range N).erase k,
        (fr k').part y (Function.update stage k (i + 1) k') r =
        ∑ k' ∈ (range N).erase k, (fr k').part y (stage k') r :=
      sum_congr rfl fun k' hk' => by rw [hold k' (Finset.ne_of_mem_erase hk')]
    rw [← Finset.add_sum_erase _ _ hmem, hstage] at hnet
    rw [← Finset.add_sum_erase _ _ hmem, hothers, hnew]
    rcases Nat.lt_or_ge i (fr k).p with hip | hlo
    · have hne : r ≠ (fr k).rows i := fun he => hr k hk i hip (by rw [hnew]; omega) he.symm
      rw [Front.part_of_le hip, (hpivot hip).2 r hne, hnet, Front.part_of_le hip.le]
    · rw [Front.part_succ hlo, hrest hlo r, hnet]
      ring
  · by_cases hu : u = t
    · rw [hu, Function.update_self]
      exact ⟨hk, hp, hnew, hi, hready.mono hc, hw⟩
    · rw [Function.update_of_ne hu]
      refine (h.busy u).keep (fun k' hk' => hold k' ?_) hc fun k' i' w v hv => ?_
      · rintro rfl
        exact hu (h.alone u t k' hk' hfront)
      · exact hkeep _ (hload u hu k' i' w v hv)
  · by_cases hne : k' = k
    · subst hne
      exact hready.mono hc
    · rw [hold k' hne] at hpos
      exact (h.started k' hk' hpos).mono hc
  · by_cases hne : k' = k
    · subst hne
      rw [hnew]
      exact hi
    · rw [hold k' hne]
      exact h.le k'
  · have hsame : ∀ u, (Function.update work t (.store k (i + 1) w) u).front = (work u).front := by
      intro u
      by_cases hu : u = t
      · rw [hu, Function.update_self, hfront]
        rfl
      · rw [Function.update_of_ne hu]
    exact h.alone u v k' ((hsame u).symm.trans hu) ((hsame v).symm.trans hv)

theorem updateValue_of_pivots {F : Front K} (hp : 0 < F.p) (hw : ∀ j < F.p, w j = y (F.rows j)) :
    updateValue F w i = ∑ j ∈ range F.p, F.L i j * y (F.rows j) := by
  rw [updateValue_eq hp]
  exact sum_congr rfl fun j hj => by rw [hw j (Finset.mem_range.mp hj)]

/-- One access of one thread. -/
theorem Sweep.access (upd : RowUpdate) (h : Sweep fr N x₀ y upd.slots stage m work)
    (sol : Solution posdef fr N n x₀ y)
    (hslot : ∀ r r' s, upd.slots r = some s → upd.slots r' = some s → r = r')
    (hload : ∀ u ≠ t, ∀ k' i' w v, work u = .loaded k' i' w v → ∀ k, (work t).front = some k →
      ∀ i < (fr k).f, (fr k').rows i' ≠ (fr k).rows i)
    (hstep : Access posdef fr upd t m (work t) m' a) :
    a.front = (work t).front ∧ ∃ stage',
      Sweep fr N x₀ y upd.slots stage' m' (Function.update work t a) ∧
      (∀ k, (work t).front ≠ some k → stage' k = stage k) ∧
      ∀ k, Complete fr stage k → Complete fr stage' k := by
  have hbusy := h.busy t
  have hothers : ∀ k, (work t).front = some k → ∀ i < (fr k).f, ∀ u ≠ t, ∀ k' i' w v,
      work u = .loaded k' i' w v → (fr k').rows i' ≠ (fr k).rows i :=
    fun k hk i hi u hu k' i' w v hv => hload u hu k' i' w v hv k hk i hi
  have hbump : ∀ k i, (work t).front = some k → ∀ k', (work t).front ≠ some k' →
      Function.update stage k i k' = stage k' := by
    intro k i hk k' hne
    apply Function.update_of_ne
    rintro rfl
    exact hne hk
  have hkept : ∀ k i, stage k = i → i < (fr k).f → ∀ k', Complete fr stage k' →
      Complete fr (Function.update stage k (i + 1)) k' :=
    fun k i hk hi k' => complete_update hk hi
  generalize hwork : work t = b at hstep hbusy hothers hbump
  have hfront : (work t).front = b.front := by rw [hwork]
  cases hstep with
  -- the pivot rows are full: the children of `k` are done
  | @read k i b hi =>
    obtain ⟨hk, hle, hp, h0, hready, hb⟩ := hbusy
    refine ⟨rfl, stage, h.move hfront.symm ⟨hk, hi, hp, h0, hready, fun j hj => ?_⟩, fun _ _ => rfl,
      fun _ hc => hc⟩
    by_cases hji : j = i
    · rw [hji, Function.update_self]
      exact h.full_of_ready sol hk h0 hready hi
    · rw [Function.update_of_ne hji]
      exact hb j (by omega)
  | @solve k b =>
    obtain ⟨hk, hle, hp, h0, hready, hb⟩ := hbusy
    refine ⟨rfl, stage, h.move hfront.symm ⟨hk, hp, h0, Nat.zero_le _, hready, fun j hj => ?_⟩,
      fun _ _ => rfl, fun _ hc => hc⟩
    exact sol.pivotValues_eq hk hb hj
  -- a pivot row gets its value of the solution, and no update
  | @pivot k i w hi =>
    obtain ⟨hk, hp, hstage, hle, hready, hw⟩ := hbusy
    have hif := hi.trans_le (sol.good hk).p_le
    refine ⟨rfl, _, h.store sol hfront hk hp hstage hif hready hw (fun r hr => ?_) (fun _ => ?_)
      (fun hlo => absurd hi (not_lt.mpr hlo)) (hothers k rfl i hif), hbump k _ rfl,
      hkept k i hstage hif⟩
    · exact Function.update_of_ne hr ..
    · exact ⟨(Function.update_self ..).trans (hw i hi), fun r hr => Vectors.net_set_of_ne hr⟩
  | @load k i w slots hlo hi hupd hnone =>
    obtain ⟨hk, hp, hstage, hle, hready, hw⟩ := hbusy
    subst hupd
    exact ⟨rfl, stage, h.move hfront.symm ⟨hk, hp, hstage, hlo, hi, hready, hw, hnone, rfl⟩,
      fun _ _ => rfl, fun _ hc => hc⟩
  -- nobody stored to the row between the load and the store
  | @save k i w v =>
    obtain ⟨hk, hp, hstage, hlo, hi, hready, hw, hnone, rfl⟩ := hbusy
    refine ⟨rfl, _, h.store sol hfront hk hp hstage hi hready hw (fun r hr => ?_)
      (fun hc => absurd hc (not_lt.mpr hlo)) (fun _ r => ?_) (hothers k rfl i hi), hbump k _ rfl,
      hkept k i hstage hi⟩
    · exact Function.update_of_ne hr ..
    · by_cases hr : (fr k).rows i = r
      · subst hr
        rw [if_pos rfl, Vectors.net_set_self hnone, Vectors.net_of_none hnone,
          updateValue_of_pivots hp hw]
      · rw [if_neg hr, sub_zero, Vectors.net_set_of_ne (Ne.symm hr)]
  -- the row has a buffer slot: the thread adds to its own
  | @buffer k i w slots s hlo hi hupd hsome =>
    obtain ⟨hk, hp, hstage, hle, hready, hw⟩ := hbusy
    subst hupd
    refine ⟨rfl, _, h.store sol hfront hk hp hstage hi hready hw (fun r _ => rfl)
      (fun hc => absurd hc (not_lt.mpr hlo)) (fun _ r => ?_) (hothers k rfl i hi), hbump k _ rfl,
      hkept k i hstage hi⟩
    have hiff : slots r = some s ↔ (fr k).rows i = r :=
      ⟨fun hr => hslot _ _ _ hsome hr, fun hr => hr ▸ hsome⟩
    have hnet : _ = m.net slots r - if slots r = some s then updateValue (fr k) w i else 0 :=
      Vectors.net_add (t := t)
    refine hnet.trans ?_
    rw [updateValue_of_pivots hp hw, if_congr hiff rfl rfl]
    rfl
  | @subtract k i w hlo hi hupd =>
    obtain ⟨hk, hp, hstage, hle, hready, hw⟩ := hbusy
    subst hupd
    refine ⟨rfl, _, h.store sol hfront hk hp hstage hi hready hw (fun r hr => ?_)
      (fun hc => absurd hc (not_lt.mpr hlo)) (fun _ r => ?_) (hothers k rfl i hi), hbump k _ rfl,
      hkept k i hstage hi⟩
    · exact Function.update_of_ne hr ..
    · by_cases hr : (fr k).rows i = r
      · subst hr
        rw [if_pos rfl, Vectors.net_set_self rfl, Vectors.net_of_none rfl,
          updateValue_of_pivots hp hw]
      · rw [if_neg hr, sub_zero, Vectors.net_set_of_ne (Ne.symm hr)]

/-- A thread begins front `k`, whose rows nobody has touched. -/
theorem Sweep.begin (h : Sweep fr N x₀ y slot stage m work) (hk : k < N)
    (hp : 0 < (fr k).p) (h0 : stage k = 0) (hfree : ∀ u, (work u).front ≠ some k)
    (hready : Ready fr N slot stage k) (b : ℕ → K) :
    Sweep fr N x₀ y slot stage m (Function.update work t (.gather k 0 b)) := by
  refine ⟨h.written, h.net, fun u => ?_, h.started, h.le, fun u v k' hu hv => ?_⟩
  · by_cases hu : u = t
    · rw [hu, Function.update_self]
      exact ⟨hk, Nat.zero_le _, hp, h0, hready, fun j hj => absurd hj (Nat.not_lt_zero j)⟩
    · rw [Function.update_of_ne hu]
      exact h.busy u
  · by_cases hut : u = t
    · by_cases hvt : v = t
      · rw [hut, hvt]
      · rw [hut, Function.update_self] at hu
        rw [Function.update_of_ne hvt] at hv
        cases hu
        exact absurd hv (hfree v)
    · rw [Function.update_of_ne hut] at hu
      by_cases hvt : v = t
      · rw [hvt, Function.update_self] at hv
        cases hv
        exact absurd hu (hfree u)
      · rw [Function.update_of_ne hvt] at hv
        exact h.alone u v k' hu hv

/-- A thread is done with its front. -/
theorem Sweep.finish (h : Sweep fr N x₀ y slot stage m work)
    (hwork : work t = .store k (fr k).f w) :
    Sweep fr N x₀ y slot stage m (Function.update work t .idle) ∧ stage k = (fr k).f := by
  have hbusy := h.busy t
  rw [hwork] at hbusy
  refine ⟨⟨h.written, h.net, fun u => ?_, h.started, h.le, fun u v k' hu hv => ?_⟩, hbusy.2.2.1⟩
  · by_cases hu : u = t
    · rw [hu, Function.update_self]
      trivial
    · rw [Function.update_of_ne hu]
      exact h.busy u
  · by_cases hut : u = t
    · rw [hut, Function.update_self] at hu
      cases hu
    · by_cases hvt : v = t
      · rw [hvt, Function.update_self] at hv
        cases hv
      · rw [Function.update_of_ne hut] at hu
        rw [Function.update_of_ne hvt] at hv
        exact h.alone u v k' hu hv

/-- Nothing is done, and no thread is in a front. -/
theorem sweep_start (htop : ∀ r, slot r = none ∨ ∀ t s, m.top t s = 0) (hx : m.x = x₀) :
    Sweep fr N x₀ y slot (fun _ => 0) m fun _ => .idle where
  written _ _ _ _ hlt := absurd hlt (Nat.not_lt_zero _)
  net r _ := by
    have hparts : ∑ k ∈ range N, (fr k).part y 0 r = 0 :=
      Finset.sum_eq_zero fun k _ => Front.part_of_le (Nat.zero_le _)
    rw [hparts, sub_zero, Vectors.net, hx]
    rcases htop r with hnone | hzero
    · rw [hnone, sub_zero]
    · cases slot r with
      | none => exact sub_zero _
      | some s =>
        dsimp only
        rw [Finset.sum_eq_zero fun t _ => hzero t s, sub_zero]
  busy _ := trivial
  started _ _ hpos := absurd hpos (Nat.not_lt_zero 0)
  le _ := Nat.zero_le _
  alone _ _ _ hu _ := by cases hu

/-- The threads' buffers are added to the vector, and left out from then on. -/
theorem Sweep.reduce (h : Sweep fr N x₀ y slot stage m work)
    (hx : ∀ r, m'.x r = m.net slot r) :
    Sweep fr N x₀ y (fun _ => none) stage m' fun _ : Fin T => .idle where
  written k hk i hi hlt := by
    obtain ⟨hnone, -⟩ := h.started k hk (Nat.zero_lt_of_lt hlt) i hi
    rw [hx, Vectors.net_of_none hnone]
    exact h.written k hk i hi hlt
  net r hr := by
    rw [Vectors.net_of_none rfl, hx]
    exact h.net r hr
  busy _ := trivial
  started k hk hpos i hi := ⟨rfl, (h.started k hk hpos i hi).2⟩
  le := h.le
  alone _ _ _ hu _ := by cases hu

/-- All fronts are complete, and no buffer is left out: the vector is the solution. -/
theorem Sweep.solved (h : Sweep fr N x₀ y slot stage m work) (sol : Solution posdef fr N n x₀ y)
    (hnone : ∀ r, slot r = none) (hall : ∀ k < N, Complete fr stage k) : m.x = y := by
  funext r
  by_cases hr : ∃ k < N, ∃ i < (fr k).p, (fr k).rows i = r
  · obtain ⟨k, hk, i, hi, rfl⟩ := hr
    apply h.written k hk i hi
    rw [hall k hk (Nat.zero_lt_of_lt hi)]
    exact hi.trans_le (sol.good hk).p_le
  · have hno : ∀ k < N, ∀ i < (fr k).p, (fr k).rows i ≠ r :=
      fun k hk i hi he => hr ⟨k, hk, i, hi, he⟩
    have hnet := h.net r fun k hk i hi _ => hno k hk i hi
    rw [Vectors.net, hnone r, sub_zero] at hnet
    rw [hnet, sol.other_eq hno, Solution.full]
    congr 1
    refine sum_congr rfl fun k hk => ?_
    rcases Nat.eq_zero_or_pos (fr k).p with hp | hp
    · rw [Front.part_empty hp, Front.part_empty hp]
    · rw [hall k (Finset.mem_range.mp hk) hp]

end Access

end Solve
end SmfSolver
