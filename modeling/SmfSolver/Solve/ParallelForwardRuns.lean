/-
  SmfSolver.Solve.ParallelForwardRuns

  The runs of the parallel forward solve: what each of the three runs of the pool keeps
  (`SubtreeInv`, `SumInv`, `TopInv`), and from the three that the threads compute what the
  fronts, one after the other, compute (`parallelForward_eq`).
-/
import SmfSolver.Solve.ForwardSweep
import SmfSolver.Solve.ParallelForward
import SmfSolver.Solve.RunDagRuns

namespace SmfSolver
namespace Solve

open Lib
open Finset (range sum_congr)

variable {K : Type*} [Field K]

/-! ## The layout -/

/-- What a parallel solve relies on. -/
structure ParallelKeep.Layout (fk : ParallelKeep K) : Prop where
  ordered : WellOrdered fk.isPosdef fk.n ((List.range fk.solveSteps.length).map fk.front)
  top_le : fk.solveTopBegin ≤ fk.solveSteps.length
  /-- Every step before the top part is in one subtree. -/
  covers : (fk.solveSubtrees.flatMap rangeIndices).Perm (List.range fk.solveTopBegin)
  /-- A subtree has only its own pivot rows, and rows that the top part pivots. -/
  within : ∀ r ∈ fk.solveSubtrees, ∀ k, r.1 ≤ k → k < r.2 → ∀ i < (fk.front k).f,
    fk.topSlot ((fk.front k).rows i) = none →
      ∃ k', r.1 ≤ k' ∧ k' < r.2 ∧ ∃ j < (fk.front k').p, (fk.front k').rows j = (fk.front k).rows i
  slots : ∀ r s, fk.topSlot r = some s ↔ fk.solveTopRows[s]? = some r
  top_rows : ∀ r, r ∈ fk.solveTopRows ↔ ∃ k, fk.solveTopBegin ≤ k ∧ k < fk.solveSteps.length ∧
    ∃ i < (fk.front k).p, (fk.front k).rows i = r
  /-- A front of the top part has only pivot rows of its own and of ancestors. -/
  ancestors : ∀ i j : Fin fk.topSteps, i ≠ j →
    (∃ a < (fk.front (fk.solveTopBegin + i)).f, ∃ b < (fk.front (fk.solveTopBegin + j)).p,
      (fk.front (fk.solveTopBegin + i)).rows a = (fk.front (fk.solveTopBegin + j)).rows b) →
    Relation.TransGen fk.topDag.edge i j

namespace ParallelKeep.Layout

variable {fk : ParallelKeep K} {x₀ y : ℕ → K} {i i' k : ℕ} {r r' : ℕ × ℕ}

theorem lt_topBegin (h : fk.Layout) (hr : r ∈ fk.solveSubtrees) (hlo : r.1 ≤ k) (hhi : k < r.2) :
    k < fk.solveTopBegin := by
  have hmem : k ∈ fk.solveSubtrees.flatMap rangeIndices := by
    refine List.mem_flatMap.mpr ⟨r, hr, List.mem_range'_1.mpr ⟨hlo, ?_⟩⟩
    omega
  exact List.mem_range.mp (h.covers.mem_iff.mp hmem)

theorem exists_subtree (h : fk.Layout) (hk : k < fk.solveTopBegin) :
    ∃ (i : ℕ) (r : ℕ × ℕ), fk.solveSubtrees[i]? = some r ∧ r.1 ≤ k ∧ k < r.2 := by
  have hmem := h.covers.mem_iff.mpr (List.mem_range.mpr hk)
  obtain ⟨r, hr, hk⟩ := List.mem_flatMap.mp hmem
  obtain ⟨i, hi, rfl⟩ := List.getElem_of_mem hr
  obtain ⟨hlo, hhi⟩ := List.mem_range'_1.mp hk
  exact ⟨i, _, List.getElem?_eq_getElem hi, hlo, by omega⟩

/-- A step is in one subtree only. -/
theorem subtree_unique (h : fk.Layout) (hr : fk.solveSubtrees[i]? = some r)
    (hr' : fk.solveSubtrees[i']? = some r') (hlo : r.1 ≤ k) (hhi : k < r.2) (hlo' : r'.1 ≤ k)
    (hhi' : k < r'.2) : i = i' := by
  have hnodup : (fk.solveSubtrees.flatMap rangeIndices).Nodup :=
    h.covers.nodup_iff.mpr List.nodup_range
  have hpair := (List.nodup_flatMap.mp hnodup).2
  obtain ⟨hi, rfl⟩ := List.getElem?_eq_some_iff.mp hr
  obtain ⟨hi', rfl⟩ := List.getElem?_eq_some_iff.mp hr'
  have hmem : ∀ {r : ℕ × ℕ}, r.1 ≤ k → k < r.2 → k ∈ rangeIndices r := fun hlo hhi =>
    List.mem_range'_1.mpr ⟨hlo, by omega⟩
  rcases Nat.lt_trichotomy i i' with hlt | heq | hlt
  · have hdisj := List.pairwise_iff_getElem.mp hpair i i' hi hi' hlt
    exact absurd (hmem hlo' hhi') (List.disjoint_left.mp hdisj (hmem hlo hhi))
  · exact heq
  · have hdisj := List.pairwise_iff_getElem.mp hpair i' i hi' hi hlt
    exact absurd (hmem hlo hhi) (List.disjoint_left.mp hdisj (hmem hlo' hhi'))

theorem slot_inj (h : fk.Layout) {a b s : ℕ} (ha : fk.topSlot a = some s)
    (hb : fk.topSlot b = some s) : a = b :=
  Option.some.inj (((h.slots a s).mp ha).symm.trans ((h.slots b s).mp hb))

/-- The pivot rows before the top part have no slot. -/
theorem slot_none (h : fk.Layout)
    (sol : Solution fk.isPosdef fk.front fk.solveSteps.length fk.n x₀ y)
    (hk : k < fk.solveTopBegin) (hi : i < (fk.front k).p) :
    fk.topSlot ((fk.front k).rows i) = none := by
  cases hslot : fk.topSlot ((fk.front k).rows i) with
  | none => rfl
  | some s =>
    have hmem := List.mem_of_getElem? ((h.slots _ s).mp hslot)
    obtain ⟨k', hlo, hk', j, hj, he⟩ := (h.top_rows _).mp hmem
    obtain ⟨rfl, -⟩ := sol.pivot_unique hk' (hk.trans_le h.top_le) hj hi he
    omega

/-- Two subtrees share only rows that have a slot. -/
theorem apart (h : fk.Layout) (sol : Solution fk.isPosdef fk.front fk.solveSteps.length fk.n x₀ y)
    (hr : fk.solveSubtrees[i]? = some r) (hr' : fk.solveSubtrees[i']? = some r') (hne : i ≠ i')
    {k k' : ℕ} (hlo : r.1 ≤ k) (hhi : k < r.2) (hlo' : r'.1 ≤ k') (hhi' : k' < r'.2) {a b : ℕ}
    (ha : a < (fk.front k).f) (hb : b < (fk.front k').f)
    (hslot : fk.topSlot ((fk.front k).rows a) = none) :
    (fk.front k').rows b ≠ (fk.front k).rows a := by
  intro he
  have hmem := List.mem_of_getElem? hr
  have hmem' := List.mem_of_getElem? hr'
  obtain ⟨q, hqlo, hqhi, j, hj, hq⟩ := h.within r hmem k hlo hhi a ha hslot
  obtain ⟨q', hqlo', hqhi', j', hj', hq'⟩ := h.within r' hmem' k' hlo' hhi' b hb (he ▸ hslot)
  have hlt := (h.lt_topBegin hmem hqlo hqhi).trans_le h.top_le
  have hlt' := (h.lt_topBegin hmem' hqlo' hqhi').trans_le h.top_le
  obtain ⟨rfl, -⟩ := sol.pivot_unique hlt hlt' hj hj' (hq.trans (he.symm.trans hq'.symm))
  exact hne (h.subtree_unique hr hr' hqlo hqhi hqlo' hqhi')

end ParallelKeep.Layout

/-! ## The subtrees -/

section Subtrees

variable {fk : ParallelKeep K} {T : ℕ} {x₀ y : ℕ → K} {stage stage' : ℕ → ℕ}
  {s s' : SubtreeState K T} {t : Fin T}

/-- The vectors, with the buffers that are not cleared yet as cleared. -/
def SubtreeState.cleared (s : SubtreeState K T) : Vectors K T where
  x := s.mem.x
  top t :=
    match s.pc t with
    | .start => fun _ => 0
    | _ => s.mem.top t

theorem SubtreeState.cleared_top (h : s.pc t ≠ .start) : s.cleared.top t = s.mem.top t := by
  unfold cleared
  dsimp only
  cases hpc : s.pc t with
  | start => exact absurd hpc h
  | _ => rfl

theorem SubtreeState.cleared_start (h : s.pc t = .start) : s.cleared.top t = fun _ => 0 := by
  unfold cleared
  dsimp only
  rw [h]

/-- A thread whose buffer is cleared moves on. -/
theorem SubtreeState.cleared_goto (h : s.pc t ≠ .start) (hmem : s'.mem = s.mem) {a : SubtreePc K}
    (hpc : s'.pc = Function.update s.pc t a) (ha : a ≠ .start) : s'.cleared = s.cleared := by
  unfold cleared
  rw [hmem]
  congr 1
  funext u
  by_cases hu : u = t
  · have ha' : s'.pc u ≠ .start := by rwa [hpc, hu, Function.update_self]
    rw [← hu] at h
    cases hs : s.pc u <;> cases hs' : s'.pc u <;> first | rfl | contradiction
  · rw [hpc, Function.update_of_ne hu]

variable (fk x₀ y) in
/-- Subtrees not taken are untouched, those that a thread has left are done, and a thread
    inside one has done the fronts before its own. -/
structure SubtreeInv (stage : ℕ → ℕ) (s : SubtreeState K T) : Prop where
  sweep : Sweep fk.front fk.solveSteps.length x₀ y fk.topSlot stage s.cleared
    fun t => (s.pc t).work
  top : ∀ k, fk.solveTopBegin ≤ k → stage k = 0
  untaken : ∀ i r, fk.solveSubtrees[i]? = some r → s.next ≤ i → ∀ k, r.1 ≤ k → k < r.2 →
    stage k = 0
  swept : ∀ i r, fk.solveSubtrees[i]? = some r → i < s.next →
    (∀ t k a, s.pc t ≠ .inside i k a) → ∀ k, r.1 ≤ k → k < r.2 → Complete fk.front stage k
  inside : ∀ t i k a, s.pc t = .inside i k a → i < s.next ∧ ∃ r, fk.solveSubtrees[i]? = some r ∧
    r.1 ≤ k ∧ (∀ q, r.1 ≤ q → q < k → q < r.2 → Complete fk.front stage q) ∧
    (∀ q, k ≤ q → q < r.2 → a = .idle ∨ k < q → stage q = 0) ∧
    ∀ q, a.front = some q → q = k ∧ k < r.2
  alone : ∀ t u i k a k' a', s.pc t = .inside i k a → s.pc u = .inside i k' a' → t = u
  left : ∀ t, s.pc t = .exited → fk.solveSubtrees.length ≤ s.next

theorem subtreeInv_init (top : Fin T → ℕ → K) :
    SubtreeInv fk x₀ y (fun _ => 0) (subtreeSweep fk x₀ top).init where
  sweep := sweep_start (fun _ => .inr fun _ _ => rfl) rfl
  top _ _ := rfl
  untaken _ _ _ _ _ _ _ := rfl
  swept _ _ _ hlt := absurd hlt (Nat.not_lt_zero _)
  inside _ _ _ _ h := by cases h
  alone _ _ _ _ _ _ _ h _ := by cases h
  left _ h := by cases h

/-- A thread inside a subtree moves on in it. -/
theorem SubtreeInv.inside_step (h : SubtreeInv fk x₀ y stage s) (hl : fk.Layout)
    {i k k' : ℕ} {a a' : Work K} {r : ℕ × ℕ} (ht : s.pc t = .inside i k a)
    (hr : fk.solveSubtrees[i]? = some r) (hnext : s'.next = s.next)
    (hpc : s'.pc = Function.update s.pc t (.inside i k' a'))
    (hsweep : Sweep fk.front fk.solveSteps.length x₀ y fk.topSlot stage' s'.cleared
      fun t => (s'.pc t).work)
    (hkeep : ∀ q, a.front ≠ some q → stage' q = stage q)
    (hdone : ∀ q, Complete fk.front stage q → Complete fk.front stage' q) (hk : k ≤ k')
    (hnew : ∀ q, k ≤ q → q < k' → q < r.2 → Complete fk.front stage' q)
    (hrest : ∀ q, k' ≤ q → q < r.2 → a' = .idle ∨ k' < q → stage' q = 0)
    (hfront : ∀ q, a'.front = some q → q = k' ∧ k' < r.2) : SubtreeInv fk x₀ y stage' s' := by
  obtain ⟨hi, r₀, hr₀, hlo, hbefore, hafter, hin⟩ := h.inside t i k a ht
  obtain rfl := Option.some.inj (hr₀.symm.trans hr)
  have hself : s'.pc t = .inside i k' a' := by rw [hpc, Function.update_self]
  have hother : ∀ u, u ≠ t → s'.pc u = s.pc u := fun u hu => by rw [hpc, Function.update_of_ne hu]
  -- only a front of this subtree has changed
  have hout : ∀ q, ¬(r₀.1 ≤ q ∧ q < r₀.2) → stage' q = stage q := by
    intro q hq
    apply hkeep
    intro hf
    obtain ⟨rfl, hlt⟩ := hin q hf
    exact hq ⟨hlo, hlt⟩
  refine ⟨hsweep, fun q hq => ?_, fun i' r' hr' hle q hqlo hqhi => ?_,
    fun i' r' hr' hlt hno q hqlo hqhi => ?_, fun u i' q b hu => ?_,
    fun u v i' q b q' b' hu hv => ?_, fun u hu => ?_⟩
  · have hne : ¬(r₀.1 ≤ q ∧ q < r₀.2) := fun hc =>
      absurd (hl.lt_topBegin (List.mem_of_getElem? hr) hc.1 hc.2) (not_lt.mpr hq)
    exact (hout q hne).trans (h.top q hq)
  · rw [hnext] at hle
    have hne : ¬(r₀.1 ≤ q ∧ q < r₀.2) := by
      intro hc
      obtain rfl := hl.subtree_unique hr hr' hc.1 hc.2 hqlo hqhi
      omega
    exact (hout q hne).trans (h.untaken i' r' hr' hle q hqlo hqhi)
  · rw [hnext] at hlt
    refine hdone q (h.swept i' r' hr' hlt (fun u q b hu => ?_) q hqlo hqhi)
    by_cases hut : u = t
    · rw [hut, ht] at hu
      cases hu
      exact hno t k' a' hself
    · exact hno u q b ((hother u hut).trans hu)
  · by_cases hut : u = t
    · rw [hut, hself] at hu
      cases hu
      refine ⟨hnext ▸ hi, r₀, hr, hlo.trans hk, fun q hqlo hq hqhi => ?_, hrest, hfront⟩
      rcases Nat.lt_or_ge q k with hlt | hge
      · exact hdone q (hbefore q hqlo hlt hqhi)
      · exact hnew q hge hq hqhi
    · rw [hother u hut] at hu
      obtain ⟨hi', r', hr', hlo', hbefore', hafter', hin'⟩ := h.inside u i' q b hu
      have hii : i' ≠ i := by
        rintro rfl
        exact hut (h.alone u t i' q b k a hu ht)
      refine ⟨hnext ▸ hi', r', hr', hlo', fun q' hq₁ hq₂ hq₃ => hdone q' (hbefore' q' hq₁ hq₂ hq₃),
        fun q' hq₁ hq₂ hq₃ => ?_, hin'⟩
      have hne : ¬(r₀.1 ≤ q' ∧ q' < r₀.2) := fun hc =>
        hii (hl.subtree_unique hr' hr (hlo'.trans hq₁) hq₂ hc.1 hc.2)
      exact (hout q' hne).trans (hafter' q' hq₁ hq₂ hq₃)
  · by_cases hut : u = t
    · by_cases hvt : v = t
      · rw [hut, hvt]
      · rw [hut, hself] at hu
        cases hu
        rw [hother v hvt] at hv
        exact absurd (h.alone v t i q' b' k a hv ht) hvt
    · rw [hother u hut] at hu
      by_cases hvt : v = t
      · rw [hvt, hself] at hv
        cases hv
        exact absurd (h.alone u t i q b k a hu ht) hut
      · rw [hother v hvt] at hv
        exact h.alone u v i' q b q' b' hu hv
  · have hut : u ≠ t := by
      rintro rfl
      rw [hself] at hu
      cases hu
    rw [hother u hut] at hu
    rw [hnext]
    exact h.left u hu

/-- A thread outside the subtrees stays outside. -/
theorem SubtreeInv.outside_step (h : SubtreeInv fk x₀ y stage s) {a : SubtreePc K}
    (ht : ∀ i k b, s.pc t ≠ .inside i k b) (ha : ∀ i k b, a ≠ .inside i k b)
    (hpc : s'.pc = Function.update s.pc t a) (hcleared : s'.cleared = s.cleared)
    (hnext : s'.next = s.next ∨ fk.solveSubtrees.length ≤ s.next ∧ s'.next = s.next + 1)
    (hleft : a = .exited → fk.solveSubtrees.length ≤ s'.next) : SubtreeInv fk x₀ y stage s' := by
  have hwork : (fun u => (s'.pc u).work) = fun u => (s.pc u).work := by
    funext u
    by_cases hu : u = t
    · have hidle : ∀ b : SubtreePc K, (∀ i k c, b ≠ .inside i k c) → b.work = .idle := by
        intro b hb
        cases b with
        | inside i k c => exact absurd rfl (hb i k c)
        | _ => rfl
      rw [hu, hpc, Function.update_self, hidle a ha, hidle _ ht]
    · rw [hpc, Function.update_of_ne hu]
  -- the threads inside subtrees are the same ones before and after
  have hinside : ∀ u i k b, s'.pc u = .inside i k b → s.pc u = .inside i k b := by
    intro u i k b hu
    by_cases hut : u = t
    · rw [hut, hpc, Function.update_self] at hu
      exact absurd hu (ha i k b)
    · rwa [hpc, Function.update_of_ne hut] at hu
  have hge : s.next ≤ s'.next := by omega
  have hin : ∀ {i : ℕ} {r : ℕ × ℕ}, fk.solveSubtrees[i]? = some r → i < s'.next → i < s.next := by
    intro i r hr hi
    obtain ⟨hlen, -⟩ := List.getElem?_eq_some_iff.mp hr
    omega
  refine ⟨?_, h.top, fun i r hr hle => h.untaken i r hr (hge.trans hle),
    fun i r hr hlt hno => h.swept i r hr (hin hr hlt) fun u k b hu => ?_,
    fun u i k b hu => ?_, fun u v i k b k' b' hu hv => ?_, fun u hu => ?_⟩
  · rw [hcleared, hwork]
    exact h.sweep
  · by_cases hut : u = t
    · rw [hut] at hu
      exact ht i k b hu
    · apply hno u k b
      rw [hpc, Function.update_of_ne hut, hu]
  · obtain ⟨hi, hrest⟩ := h.inside u i k b (hinside u i k b hu)
    exact ⟨hi.trans_le hge, hrest⟩
  · exact h.alone u v i k b k' b' (hinside u i k b hu) (hinside v i k' b' hv)
  · by_cases hut : u = t
    · rw [hut, hpc, Function.update_self] at hu
      exact hleft hu
    · rw [hpc, Function.update_of_ne hut] at hu
      exact (h.left u hu).trans hge

/-- A thread leaves a subtree when it has been through its range. -/
theorem SubtreeInv.back (h : SubtreeInv fk x₀ y stage s) {i k : ℕ} {r : ℕ × ℕ}
    (ht : s.pc t = .inside i k .idle) (hr : fk.solveSubtrees[i]? = some r) (hk : r.2 ≤ k) :
    SubtreeInv fk x₀ y stage (s.goto t .claim) := by
  obtain ⟨hi, r₀, hr₀, hlo, hbefore, -, -⟩ := h.inside t i k _ ht
  obtain rfl := Option.some.inj (hr₀.symm.trans hr)
  have hstart : s.pc t ≠ .start := fun hc => by rw [ht] at hc; cases hc
  have hcleared : (s.goto t .claim).cleared = s.cleared :=
    SubtreeState.cleared_goto hstart rfl rfl fun hc => by cases hc
  have hwork : (fun u => ((s.goto t .claim).pc u).work) = fun u => (s.pc u).work := by
    funext u
    by_cases hu : u = t
    · rw [hu, ht, SubtreeState.goto_self]
      rfl
    · rw [SubtreeState.goto_of_ne s _ hu]
  -- who is still inside a subtree was there before, and is not `t`
  have hinside : ∀ u i k b, (s.goto t .claim).pc u = .inside i k b →
      u ≠ t ∧ s.pc u = .inside i k b := by
    intro u i k b hu
    by_cases hut : u = t
    · rw [hut, SubtreeState.goto_self] at hu
      cases hu
    · exact ⟨hut, (s.goto_of_ne _ hut).symm.trans hu⟩
  refine ⟨?_, h.top, h.untaken, fun i' r' hr' hlt hno q hqlo hqhi => ?_,
    fun u i' q b hu => h.inside u i' q b (hinside u i' q b hu).2,
    fun u v i' q b q' b' hu hv =>
      h.alone u v i' q b q' b' (hinside u i' q b hu).2 (hinside v i' q' b' hv).2, fun u hu => ?_⟩
  · rw [hcleared, hwork]
    exact h.sweep
  -- the subtree just left is swept up to its end, the others as before
  · by_cases hii : i' = i
    · subst hii
      obtain rfl := Option.some.inj (hr'.symm.trans hr)
      exact hbefore q hqlo (hqhi.trans_le hk) hqhi
    · refine h.swept i' r' hr' hlt (fun u q' b hu => ?_) q hqlo hqhi
      by_cases hut : u = t
      · rw [hut, ht] at hu
        cases hu
        exact hii rfl
      · exact hno u q' b ((s.goto_of_ne _ hut).trans hu)
  · by_cases hut : u = t
    · rw [hut, SubtreeState.goto_self] at hu
      cases hu
    · exact h.left u ((s.goto_of_ne _ hut).symm.trans hu)

/-- A thread takes the next subtree. -/
theorem SubtreeInv.take (h : SubtreeInv fk x₀ y stage s) {r : ℕ × ℕ} (ht : s.pc t = .claim)
    (hr : fk.solveSubtrees[s.next]? = some r) :
    SubtreeInv fk x₀ y stage
      ({ s with next := s.next + 1 }.goto t (.inside s.next r.1 .idle)) := by
  have hstart : s.pc t ≠ .start := fun hc => by rw [ht] at hc; cases hc
  let s' : SubtreeState K T := { s with next := s.next + 1 }.goto t (.inside s.next r.1 .idle)
  have hcleared : s'.cleared = s.cleared :=
    SubtreeState.cleared_goto hstart rfl rfl fun hc => by cases hc
  have hself : s'.pc t = .inside s.next r.1 .idle := Function.update_self ..
  have hother : ∀ u, u ≠ t → s'.pc u = s.pc u := fun u hu => Function.update_of_ne hu ..
  have hwork : (fun u => (s'.pc u).work) = fun u => (s.pc u).work := by
    funext u
    by_cases hu : u = t
    · rw [hu, hself, ht]
      rfl
    · rw [hother u hu]
  -- no thread was inside the subtree before it was taken
  have hfresh : ∀ u k b, s.pc u ≠ .inside s.next k b := fun u k b hu =>
    absurd (h.inside u _ k b hu).1 (lt_irrefl _)
  refine ⟨?_, h.top, fun i r' hr' hle => h.untaken i r' hr' (Nat.le_of_succ_le hle),
    fun i r' hr' hlt hno q hqlo hqhi => ?_, fun u i k b hu => ?_,
    fun u v i k b k' b' hu hv => ?_, fun u hu => ?_⟩
  · show Sweep _ _ _ _ _ _ s'.cleared fun u => (s'.pc u).work
    rw [hcleared, hwork]
    exact h.sweep
  · rcases Nat.lt_succ_iff_lt_or_eq.mp hlt with hlt | rfl
    · refine h.swept i r' hr' hlt (fun u k b hu => ?_) q hqlo hqhi
      have hut : u ≠ t := by
        rintro rfl
        rw [ht] at hu
        cases hu
      exact hno u k b ((hother u hut).trans hu)
    · exact absurd hself (hno t _ _)
  · by_cases hut : u = t
    · rw [hut] at hu
      obtain ⟨rfl, rfl, rfl⟩ := SubtreePc.inside.inj (hself.symm.trans hu)
      refine ⟨Nat.lt_succ_self _, r, hr, le_rfl, fun q hlo hlt _ => absurd hlt (not_lt.mpr hlo),
        fun q hlo hhi _ => h.untaken _ r hr le_rfl q hlo hhi, fun q hq => by cases hq⟩
    · obtain ⟨hi, hrest⟩ := h.inside u i k b ((hother u hut).symm.trans hu)
      exact ⟨Nat.lt_succ_of_lt hi, hrest⟩
  · by_cases hut : u = t
    · by_cases hvt : v = t
      · rw [hut, hvt]
      · rw [hut] at hu
        obtain ⟨rfl, -, -⟩ := SubtreePc.inside.inj (hself.symm.trans hu)
        exact absurd ((hother v hvt).symm.trans hv) (hfresh v k' b')
    · have hu' := (hother u hut).symm.trans hu
      by_cases hvt : v = t
      · rw [hvt] at hv
        obtain ⟨rfl, -, -⟩ := SubtreePc.inside.inj (hself.symm.trans hv)
        exact absurd hu' (hfresh u k b)
      · exact h.alone u v i k b k' b' hu' ((hother v hvt).symm.trans hv)
  · have hut : u ≠ t := by
      rintro rfl
      rw [hself] at hu
      cases hu
    exact (h.left u ((hother u hut).symm.trans hu)).trans (Nat.le_succ _)

/-- What a front of a subtree waits for is done when its thread comes to it. -/
theorem SubtreeInv.ready (h : SubtreeInv fk x₀ y stage s) (hl : fk.Layout)
    (sol : Solution fk.isPosdef fk.front fk.solveSteps.length fk.n x₀ y) {i k : ℕ} {a : Work K}
    {r : ℕ × ℕ} (ht : s.pc t = .inside i k a) (hr : fk.solveSubtrees[i]? = some r)
    (hk : k < r.2) : Ready fk.front fk.solveSteps.length fk.topSlot stage k := by
  obtain ⟨-, r₀, hr₀, hlo, hbefore, -, -⟩ := h.inside t i k a ht
  obtain rfl := Option.some.inj (hr₀.symm.trans hr)
  have hmem := List.mem_of_getElem? hr
  have hktop := hl.lt_topBegin hmem hlo hk
  intro b hb
  have hslot := hl.slot_none sol hktop hb
  refine ⟨hslot, fun k' hk' hne hrow => ?_⟩
  obtain ⟨j, hjlo, hjf, he⟩ := hrow
  -- a front after this one does not have its pivot rows
  have hlt : k' < k := by
    by_contra hge
    exact sol.later (lt_of_le_of_ne (not_lt.mp hge) (Ne.symm hne)) hk' hb hjf he
  obtain ⟨i', r', hr', hlo', hhi'⟩ := hl.exists_subtree (hlt.trans hktop)
  have hii : i' = i := by
    by_contra hii
    have hkf := hb.trans_le (sol.good (hktop.trans_le hl.top_le)).p_le
    exact hl.apart sol hr hr' (Ne.symm hii) hlo hk hlo' hhi' hkf hjf hslot he
  subst hii
  obtain rfl := Option.some.inj (hr'.symm.trans hr)
  exact hbefore k' hlo' hlt hhi'

/-- A thread inside the subtrees has cleared its buffer. -/
theorem SubtreeState.cleared_inside {i k : ℕ} {a b : Work K} (ht : s.pc t = .inside i k a)
    (i' k' : ℕ) : (s.goto t (.inside i' k' b)).cleared = s.cleared := by
  refine SubtreeState.cleared_goto (fun hc => ?_) rfl rfl fun hc => by cases hc
  rw [ht] at hc
  cases hc

theorem SubtreeInv.enter (h : SubtreeInv fk x₀ y stage s) (hl : fk.Layout)
    (sol : Solution fk.isPosdef fk.front fk.solveSteps.length fk.n x₀ y) {i k : ℕ} {r : ℕ × ℕ}
    (ht : s.pc t = .inside i k .idle) (hr : fk.solveSubtrees[i]? = some r) (hk : k < r.2)
    (hp : 0 < (fk.front k).p) (b : ℕ → K) :
    SubtreeInv fk x₀ y stage (s.goto t (.inside i k (.gather k 0 b))) := by
  obtain ⟨-, r₀, hr₀, hlo, -, hafter, -⟩ := h.inside t i k _ ht
  obtain rfl := Option.some.inj (hr₀.symm.trans hr)
  have hkN := (hl.lt_topBegin (List.mem_of_getElem? hr) hlo hk).trans_le hl.top_le
  -- a front has one subtree, and a subtree one thread
  have hfree : ∀ u, (s.pc u).work.front ≠ some k := by
    intro u hu
    cases hpc : s.pc u with
    | inside i' k' a =>
      rw [hpc] at hu
      obtain ⟨-, r', hr', hlo', -, -, hin⟩ := h.inside u i' k' a hpc
      obtain ⟨rfl, hk'⟩ := hin k hu
      obtain rfl := hl.subtree_unique hr hr' hlo hk hlo' hk'
      obtain rfl := h.alone u t i k a k .idle hpc ht
      rw [ht] at hpc
      cases hpc
      cases hu
    | _ =>
      rw [hpc] at hu
      cases hu
  have hsweep := h.sweep.begin (t := t) hkN hp (hafter k le_rfl hk (.inl rfl)) hfree
    (h.ready hl sol ht hr hk) b
  refine h.inside_step hl ht hr rfl rfl ?_ (fun _ _ => rfl) (fun _ hc => hc) le_rfl
    (fun q hlo hhi => absurd hhi (not_lt.mpr hlo)) (fun q hlo hhi hor => ?_) fun q hq => ?_
  · rw [SubtreeState.work_goto, SubtreeState.cleared_inside ht]
    exact hsweep
  · refine hafter q hlo hhi (.inr (hor.resolve_left fun hc => ?_))
    cases hc
  · cases hq
    exact ⟨rfl, hk⟩

theorem SubtreeInv.access (h : SubtreeInv fk x₀ y stage s) (hl : fk.Layout)
    (sol : Solution fk.isPosdef fk.front fk.solveSteps.length fk.n x₀ y) {i k : ℕ} {a a' : Work K}
    {m : Vectors K T} (ht : s.pc t = .inside i k a)
    (ha : Access fk.isPosdef fk.front (.split fk.topSlot) t s.mem a m a') :
    ∃ stage', SubtreeInv fk x₀ y stage' ({ s with mem := m }.goto t (.inside i k a')) := by
  obtain ⟨-, r, hr, hlo, -, hafter, hin⟩ := h.inside t i k a ht
  have hstart : s.pc t ≠ .start := fun hc => by rw [ht] at hc; cases hc
  have hframe := ha.frame (SubtreeState.cleared_top hstart)
  let s' : SubtreeState K T := { s with mem := m }.goto t (.inside i k a')
  -- a thread that has not started counts as having cleared its buffer
  have hcleared : s'.cleared =
      { m with top := Function.update s.cleared.top t (m.top t) } := by
    have hself : s'.pc t = .inside i k a' := SubtreeState.goto_self ..
    show Vectors.mk s'.cleared.x s'.cleared.top = _
    congr 1
    funext u
    by_cases hu : u = t
    · subst hu
      rw [Function.update_self, SubtreeState.cleared_top fun hc => by rw [hself] at hc; cases hc]
      rfl
    · have hother : s'.pc u = s.pc u := SubtreeState.goto_of_ne _ _ hu
      rw [Function.update_of_ne hu]
      by_cases hs : s.pc u = .start
      · rw [SubtreeState.cleared_start hs, SubtreeState.cleared_start (hother.trans hs)]
      · rw [SubtreeState.cleared_top hs, SubtreeState.cleared_top (hother.symm ▸ hs)]
        exact ha.top_of_ne hu
  -- two threads are in two subtrees, whose rows without a slot are apart
  have hload : ∀ u ≠ t, ∀ k' i' w v, (s.pc u).work = .loaded k' i' w v → ∀ k,
      (s.pc t).work.front = some k → ∀ i < (fk.front k).f,
        (fk.front k').rows i' ≠ (fk.front k).rows i := by
    intro u hu k' i' w v hv k₂ hk₂ i₂ hi₂
    have hbusy := h.sweep.busy u
    rw [hv] at hbusy
    obtain ⟨-, -, -, -, hi', -, -, hslot, -⟩ := hbusy
    cases hpc : s.pc u with
    | inside j q b =>
      rw [hpc] at hv
      obtain rfl : b = .loaded k' i' w v := hv
      obtain ⟨-, r', hr', hlo', -, -, hin'⟩ := h.inside u j q _ hpc
      obtain ⟨rfl, hq⟩ := hin' k' rfl
      rw [ht] at hk₂
      obtain ⟨rfl, hk⟩ := hin k₂ hk₂
      have hne : j ≠ i := by
        rintro rfl
        exact hu (h.alone u t j k' _ k₂ a hpc ht)
      exact (hl.apart sol hr' hr hne hlo' hq hlo hk hi' hi₂ hslot).symm
    | _ =>
      rw [hpc] at hv
      cases hv
  have hwork : (s.pc t).work = a := by rw [ht]; rfl
  obtain ⟨hfront, stage', hsweep, hkeep, hdone⟩ := h.sweep.access (t := t) (.split fk.topSlot)
    sol (fun _ _ _ hr hr' => hl.slot_inj hr hr') hload (hwork.symm ▸ hframe)
  rw [hwork] at hfront hkeep
  have hfull : ∃ q, a.front = some q := by
    cases a with
    | idle => cases ha
    | _ => exact ⟨_, rfl⟩
  obtain ⟨q₀, hq₀⟩ := hfull
  refine ⟨stage', h.inside_step hl ht hr rfl rfl ?_ hkeep hdone le_rfl
    (fun q hlo hhi => absurd hhi (not_lt.mpr hlo)) (fun q hlo hhi hor => ?_) fun q hq => ?_⟩
  · show Sweep _ _ _ _ _ _ s'.cleared fun u => (s'.pc u).work
    rw [hcleared]
    have hw : (fun u => (s'.pc u).work) = Function.update (fun u => (s.pc u).work) t a' :=
      SubtreeState.work_goto ..
    rw [hw]
    exact hsweep
  -- the fronts still to come are not the one under way
  · have hkq : k < q := by
      refine hor.resolve_left fun hc => ?_
      rw [hc, hq₀] at hfront
      cases hfront
    obtain ⟨rfl, -⟩ := hin q₀ hq₀
    have hne : a.front ≠ some q := fun hc => hkq.ne (Option.some.inj (hq₀.symm.trans hc))
    exact (hkeep q hne).trans (hafter q hlo hhi (.inr hkq))
  · exact hin q (hfront.symm.trans hq)

theorem SubtreeInv.step (h : SubtreeInv fk x₀ y stage s) (hl : fk.Layout)
    (sol : Solution fk.isPosdef fk.front fk.solveSteps.length fk.n x₀ y)
    (hstep : SubtreeState.Step fk s t s') : ∃ stage', SubtreeInv fk x₀ y stage' s' := by
  cases hstep with
  | assign ht =>
    refine ⟨stage, h.outside_step (fun i k b hc => ?_)
      (fun i k b hc => by cases hc) rfl ?_ (.inl rfl)
      fun hc => by cases hc⟩
    · rw [ht] at hc
      cases hc
    · -- clearing the buffer changes nothing that was counted
      unfold SubtreeState.cleared SubtreeState.goto
      congr 1
      funext u
      by_cases hu : u = t
      · subst hu
        simp only [Function.update_self, ht]
      · simp only [Function.update_of_ne hu]
  | take ht hr => exact ⟨stage, h.take ht hr⟩
  | none ht hend =>
    refine ⟨stage, h.outside_step (fun i k b hc => ?_) (fun i k b hc => by cases hc) rfl ?_
      (.inr ⟨hend, rfl⟩) fun _ => hend.trans (Nat.le_succ _)⟩
    · rw [ht] at hc
      cases hc
    · refine SubtreeState.cleared_goto (fun hc => ?_) rfl rfl fun hc => by cases hc
      rw [ht] at hc
      cases hc
  | back ht hr hk => exact ⟨stage, h.back ht hr hk⟩
  | @enter i k r ht hr hk hp b => exact ⟨stage, h.enter hl sol ht hr hk hp b⟩
  | @skip i k r ht hr hk hp =>
    obtain ⟨-, r₀, hr₀, -, -, hafter, -⟩ := h.inside t i k _ ht
    obtain rfl := Option.some.inj (hr₀.symm.trans hr)
    have hwork : (fun u => ((s.goto t (.inside i (k + 1) .idle)).pc u).work) =
        fun u => (s.pc u).work := by
      rw [SubtreeState.work_goto]
      exact Function.update_eq_self_iff.mpr (congrArg SubtreePc.work ht).symm
    refine ⟨stage, h.inside_step hl ht hr rfl rfl ?_ (fun _ _ => rfl) (fun _ hc => hc)
      (Nat.le_succ k) (fun q hlo hhi _ => ?_) (fun q hlo hhi _ => ?_) fun q hq => by cases hq⟩
    · rw [hwork, SubtreeState.cleared_inside ht]
      exact h.sweep
    · obtain rfl : q = k := by omega
      exact fun hpos => absurd hp (Nat.ne_of_gt hpos)
    · exact hafter q (Nat.le_of_succ_le hlo) hhi (.inr hlo)
  | @access i k a m a' ht ha => exact h.access hl sol ht ha
  | @leave i k w ht =>
    obtain ⟨-, r, hr, -, -, hafter, hin⟩ := h.inside t i k _ ht
    obtain ⟨-, hk⟩ := hin k rfl
    have hwork : (s.pc t).work = .store k (fk.front k).f w := by rw [ht]; rfl
    obtain ⟨hsweep, hstage⟩ := h.sweep.finish (t := t) hwork
    refine ⟨stage, h.inside_step hl ht hr rfl rfl ?_ (fun _ _ => rfl) (fun _ hc => hc)
      (Nat.le_succ k) (fun q hlo hhi _ => ?_) (fun q hlo hhi _ => ?_) fun q hq => by cases hq⟩
    · rw [SubtreeState.work_goto, SubtreeState.cleared_inside ht]
      exact hsweep
    · obtain rfl : q = k := by omega
      exact fun _ => hstage
    · exact hafter q (Nat.le_of_succ_le hlo) hhi (.inr hlo)

/-- When the threads have left, all subtrees are done and the top part is untouched. -/
theorem subtreeSweep_done (hl : fk.Layout)
    (sol : Solution fk.isPosdef fk.front fk.solveSteps.length fk.n x₀ y) (t : Fin T)
    {top : Fin T → ℕ → K} {tr : List (Fin T)} (h : (subtreeSweep fk x₀ top).Run tr s)
    (hall : ∀ t, s.pc t = .exited) :
    ∃ stage, Sweep fk.front fk.solveSteps.length x₀ y fk.topSlot stage s.mem
        (fun _ : Fin T => .idle) ∧
      (∀ k < fk.solveTopBegin, Complete fk.front stage k) ∧
      ∀ k, fk.solveTopBegin ≤ k → stage k = 0 := by
  obtain ⟨stage, hinv⟩ := h.invariant (P := fun _ s => ∃ stage, SubtreeInv fk x₀ y stage s)
    ⟨_, subtreeInv_init top⟩ fun _ ⟨_, hi⟩ hs => hi.step hl sol hs
  have hcleared : s.cleared = s.mem := by
    show Vectors.mk s.cleared.x s.cleared.top = _
    congr 1
    funext u
    exact SubtreeState.cleared_top fun hc => by rw [hall u] at hc; cases hc
  have hwork : (fun u => (s.pc u).work) = fun _ => .idle := funext fun u => by rw [hall u]; rfl
  have hsweep := hinv.sweep
  rw [hcleared, hwork] at hsweep
  refine ⟨stage, hsweep, fun k hk => ?_, hinv.top⟩
  obtain ⟨i, r, hr, hlo, hhi⟩ := hl.exists_subtree hk
  obtain ⟨hi, -⟩ := List.getElem?_eq_some_iff.mp hr
  refine hinv.swept i r hr (hi.trans_le (hinv.left t (hall t))) (fun u q a hu => ?_) k hlo hhi
  rw [hall u] at hu
  cases hu

end Subtrees

/-! ## The sums of the buffers -/

section Sums

variable {fk : ParallelKeep K} {T : ℕ} {m : Vectors K T} {a a' : SumState K T} {t : Fin T}

theorem sliceBegin_mono (ntop T : ℕ) : Monotone (sliceBegin ntop T) := fun _ _ h =>
  Nat.div_le_div_right (Nat.mul_le_mul_left ntop h)

/-- The slot that a thread has come to. -/
def SumPc.current (last : ℕ) : SumPc K → ℕ
  | .slot s | .sum s _ _ | .loaded s _ _ => s
  | .exited => last

/-- The buffers of the threads before `u`. -/
def Vectors.sumBefore (m : Vectors K T) (s u : ℕ) :
    K := ∑ w : Fin T, if w.1 < u then m.top w s else 0

theorem Vectors.sumBefore_zero (s : ℕ) : m.sumBefore s 0 = 0 :=
  Finset.sum_eq_zero fun _ _ => if_neg (Nat.not_lt_zero _)

theorem Vectors.sumBefore_succ (s : ℕ) {u : ℕ} (hu : u < T) :
    m.sumBefore s (u + 1) = m.sumBefore s u + m.top ⟨u, hu⟩ s := by
  have hone : m.top ⟨u, hu⟩ s = ∑ w : Fin T, if w = ⟨u, hu⟩ then m.top w s else 0 := by
    rw [Finset.sum_ite_eq' Finset.univ, if_pos (Finset.mem_univ _)]
  rw [sumBefore, sumBefore, hone, ← Finset.sum_add_distrib]
  refine sum_congr rfl fun w _ => ?_
  by_cases hw : w = ⟨u, hu⟩
  · subst hw
    rw [if_pos (Nat.lt_succ_self u), if_neg (lt_irrefl u), if_pos rfl, zero_add]
  · have hne : w.1 ≠ u := fun hc => hw (Fin.ext hc)
    rw [if_neg hw, add_zero]
    exact if_congr (by omega) rfl rfl

theorem Vectors.sumBefore_all (s : ℕ) : m.sumBefore s T = ∑ w, m.top w s :=
  sum_congr rfl fun w _ => if_pos w.2

variable (fk m) in
/-- A slot's row has the buffers added when its thread is past it. -/
structure SumInv (a : SumState K T) : Prop where
  other : ∀ r, fk.topSlot r = none → a.x r = m.x r
  row : ∀ t : Fin T, ∀ s, sliceBegin fk.solveTopRows.length T t ≤ s →
    s < sliceBegin fk.solveTopRows.length T (t + 1) →
      a.x (SumState.topRow fk s) = m.x (SumState.topRow fk s) -
        if s < (a.pc t).current (sliceBegin fk.solveTopRows.length T (t + 1)) then
          ∑ u, m.top u s else 0
  slot : ∀ t s, a.pc t = .slot s → sliceBegin fk.solveTopRows.length T t ≤ s
  sum : ∀ t s u v, a.pc t = .sum s u v → sliceBegin fk.solveTopRows.length T t ≤ s ∧
    s < sliceBegin fk.solveTopRows.length T (t + 1) ∧ v = m.sumBefore s u
  loaded : ∀ t s v old, a.pc t = .loaded s v old → sliceBegin fk.solveTopRows.length T t ≤ s ∧
    s < sliceBegin fk.solveTopRows.length T (t + 1) ∧ v = ∑ u, m.top u s ∧
      old = m.x (SumState.topRow fk s)

theorem sumInv_init : SumInv fk m (bufferSums fk m).init where
  other _ _ := rfl
  row t s hlo _ := by
    have hnot : ¬s < sliceBegin fk.solveTopRows.length T t := not_lt.mpr hlo
    show m.x _ = m.x _ - if s < sliceBegin fk.solveTopRows.length T t then _ else 0
    rw [if_neg hnot, sub_zero]
  slot t s h := by
    obtain rfl := SumPc.slot.inj h
    exact le_rfl
  sum _ _ _ _ h := by cases h
  loaded _ _ _ _ h := by cases h

/-- A thread that stays at its slot, or leaves at the end of its slice. -/
theorem SumInv.stay (h : SumInv fk m a) {b : SumPc K}
    (hb : b.current (sliceBegin fk.solveTopRows.length T (t + 1)) =
      (a.pc t).current (sliceBegin fk.solveTopRows.length T (t + 1)) ∨
      b = .exited ∧ sliceBegin fk.solveTopRows.length T (t + 1) ≤
        (a.pc t).current (sliceBegin fk.solveTopRows.length T (t + 1)))
    (hslot : ∀ s, b = .slot s → sliceBegin fk.solveTopRows.length T t ≤ s)
    (hsum : ∀ s u v, b = .sum s u v → sliceBegin fk.solveTopRows.length T t ≤ s ∧
      s < sliceBegin fk.solveTopRows.length T (t + 1) ∧ v = m.sumBefore s u)
    (hloaded : ∀ s v old, b = .loaded s v old → sliceBegin fk.solveTopRows.length T t ≤ s ∧
      s < sliceBegin fk.solveTopRows.length T (t + 1) ∧ v = ∑ u, m.top u s ∧
        old = m.x (SumState.topRow fk s)) :
    SumInv fk m (a.goto t b) := by
  -- for `t` each clause is a hypothesis, for another thread it is that of `h`
  refine ⟨h.other, fun u s hlo hhi => ?_, fun u s hu => ?_, fun u s v w hu => ?_,
    fun u s v old hu => ?_⟩
  · refine (h.row u s hlo hhi).trans ?_
    congr 1
    refine if_congr ?_ rfl rfl
    by_cases hut : u = t
    · subst hut
      rw [SumState.goto_self]
      rcases hb with hb | ⟨rfl, hb⟩
      · rw [hb]
      · exact iff_of_true (hhi.trans_le hb) hhi
    · rw [a.goto_of_ne b hut]
  · by_cases hut : u = t
    · subst hut
      exact hslot s ((a.goto_self u b).symm.trans hu)
    · exact h.slot u s ((a.goto_of_ne b hut).symm.trans hu)
  · by_cases hut : u = t
    · subst hut
      exact hsum s v w ((a.goto_self u b).symm.trans hu)
    · exact h.sum u s v w ((a.goto_of_ne b hut).symm.trans hu)
  · by_cases hut : u = t
    · subst hut
      exact hloaded s v old ((a.goto_self u b).symm.trans hu)
    · exact h.loaded u s v old ((a.goto_of_ne b hut).symm.trans hu)

theorem ParallelKeep.Layout.topRow_eq (hl : fk.Layout) {s : ℕ} (hs : s < fk.solveTopRows.length) :
    fk.topSlot (SumState.topRow fk s) = some s := by
  refine (hl.slots _ s).mpr ?_
  rw [SumState.topRow, List.getD_eq_getElem?_getD, List.getElem?_eq_getElem hs]
  rfl

theorem sliceBegin_le {ntop t : ℕ} (ht : t ≤ T) : sliceBegin ntop T t ≤ ntop := by
  rcases Nat.eq_zero_or_pos T with h0 | hpos
  · rw [sliceBegin, h0, Nat.div_zero]
    exact Nat.zero_le _
  · refine (sliceBegin_mono ntop T ht).trans ?_
    rw [sliceBegin, Nat.mul_div_cancel _ hpos]

theorem SumInv.step (h : SumInv fk m a) (hl : fk.Layout)
    (hstep : SumState.Step fk m.top a t a') : SumInv fk m a' := by
  cases hstep with
  | @first s ht hs =>
    have hlo := h.slot t s ht
    refine h.stay (.inl (by rw [ht]; rfl)) (fun _ hc => by cases hc) (fun s' u v hc => ?_)
      fun _ _ _ hc => by cases hc
    cases hc
    exact ⟨hlo, hs, m.sumBefore_zero s |>.symm⟩
  | @add s u v ht hu =>
    obtain ⟨hlo, hhi, hv⟩ := h.sum t s u v ht
    refine h.stay (.inl (by rw [ht]; rfl)) (fun _ hc => by cases hc) (fun s' u' v' hc => ?_)
      fun _ _ _ hc => by cases hc
    cases hc
    exact ⟨hlo, hhi, by rw [m.sumBefore_succ s hu, hv]⟩
  -- all buffers are summed, and the row still has its old value
  | @load s v ht =>
    obtain ⟨hlo, hhi, hv⟩ := h.sum t s T v ht
    refine h.stay (.inl (by rw [ht]; rfl)) (fun _ hc => by cases hc) (fun _ _ _ hc => by cases hc)
      fun s' v' old hc => ?_
    cases hc
    refine ⟨hlo, hhi, hv.trans (m.sumBefore_all s), ?_⟩
    rw [h.row t s hlo hhi, ht]
    have hnot : ¬s < (SumPc.sum s T v).current (sliceBegin fk.solveTopRows.length T (t + 1)) :=
      lt_irrefl s
    rw [if_neg hnot, sub_zero]
  | @leave s ht hs =>
    refine h.stay (.inr ⟨rfl, by rw [ht]; exact hs⟩) (fun _ hc => by cases hc)
      (fun _ _ _ hc => by cases hc) fun _ _ _ hc => by cases hc
  -- the row of the slot changes; the rows of other slots are other rows
  | @save s v old ht =>
    obtain ⟨hlo, hhi, hv, hold⟩ := h.loaded t s v old ht
    have hlen : s < fk.solveTopRows.length :=
      hhi.trans_le (sliceBegin_le (Nat.succ_le_of_lt t.2))
    let b : SumState K T :=
      { a with x := Function.update a.x (SumState.topRow fk s) (old - v) }.goto t (.slot (s + 1))
    have hother : ∀ u, u ≠ t → b.pc u = a.pc u := fun u hu => SumState.goto_of_ne _ _ hu
    have hself : b.pc t = .slot (s + 1) := SumState.goto_self ..
    have hx : ∀ r, r ≠ SumState.topRow fk s → b.x r = a.x r := fun r hr =>
      Function.update_of_ne hr ..
    refine ⟨fun r hr => ?_, fun u s' hlo' hhi' => ?_, fun u s' hu => ?_, fun u s' w v' hu => ?_,
      fun u s' v' old' hu => ?_⟩
    · refine (hx r ?_).trans (h.other r hr)
      rintro rfl
      rw [hl.topRow_eq hlen] at hr
      cases hr
    · by_cases hss : s' = s
      · -- the slot just done
        subst hss
        have hut : u = t :=
          Fin.ext (part_unique (sliceBegin_mono fk.solveTopRows.length T) hlo' hhi' hlo hhi)
        subst hut
        have hnew : b.x (SumState.topRow fk s') = old - v := Function.update_self ..
        refine hnew.trans ?_
        rw [hold, hv]
        congr 1
        refine (if_pos ?_).symm
        show s' < (b.pc u).current _
        rw [hself]
        exact Nat.lt_succ_self s'
      · have hlen' : s' < fk.solveTopRows.length :=
          hhi'.trans_le (sliceBegin_le (Nat.succ_le_of_lt u.2))
        have hne : SumState.topRow fk s' ≠ SumState.topRow fk s := by
          intro hc
          have hslot := hl.topRow_eq hlen'
          rw [hc, hl.topRow_eq hlen] at hslot
          exact hss (Option.some.inj hslot).symm
        refine (hx _ hne).trans ((h.row u s' hlo' hhi').trans ?_)
        congr 1
        refine if_congr ?_ rfl rfl
        show _ ↔ s' < (b.pc u).current _
        by_cases hut : u = t
        · subst hut
          rw [hself, ht]
          show s' < s ↔ s' < s + 1
          omega
        · rw [hother u hut]
    · by_cases hut : u = t
      · subst hut
        obtain rfl := SumPc.slot.inj (hself.symm.trans hu)
        exact hlo.trans (Nat.le_succ s)
      · exact h.slot u s' ((hother u hut).symm.trans hu)
    · by_cases hut : u = t
      · subst hut
        cases hself.symm.trans hu
      · exact h.sum u s' w v' ((hother u hut).symm.trans hu)
    · by_cases hut : u = t
      · subst hut
        cases hself.symm.trans hu
      · exact h.loaded u s' v' old' ((hother u hut).symm.trans hu)

/-- When the threads have left, the buffers are in the vector. -/
theorem bufferSums_done (hl : fk.Layout) (hT : 0 < T) {tr : List (Fin T)}
    (h : (bufferSums fk m).Run tr a) (hall : ∀ t, a.pc t = .exited) (r : ℕ) :
    a.x r = m.net fk.topSlot r := by
  have hinv : SumInv fk m a := h.invariant (P := fun _ a => SumInv fk m a) sumInv_init
    fun _ hi hs => hi.step hl hs
  cases hslot : fk.topSlot r with
  | none => rw [hinv.other r hslot, Vectors.net_of_none hslot]
  | some s =>
    have hrow := (hl.slots r s).mp hslot
    obtain ⟨hs, hr⟩ := List.getElem?_eq_some_iff.mp hrow
    have hend : sliceBegin fk.solveTopRows.length T T = fk.solveTopRows.length := by
      rw [sliceBegin, Nat.mul_div_cancel _ hT]
    obtain ⟨t, ht, hlo, hhi⟩ := @exists_part (sliceBegin fk.solveTopRows.length T)
      (by rw [sliceBegin, Nat.mul_zero, Nat.zero_div]) s T (hend.symm ▸ hs)
    have hx := hinv.row ⟨t, ht⟩ s hlo hhi
    have htop : SumState.topRow fk s = r := by
      rw [SumState.topRow, List.getD_eq_getElem?_getD, hrow]
      rfl
    rw [hall ⟨t, ht⟩, htop] at hx
    rw [hx, Vectors.net, hslot]
    congr 1
    exact if_pos hhi

end Sums

/-! ## The top of the tree -/

section Top

variable {fk : ParallelKeep K} {T : ℕ} {x₀ y : ℕ → K} {stage : ℕ → ℕ}
  {s s' : TopState K fk.topSteps T} {tr : List (Option (DagEvent fk.topSteps T))}
  {e : Option (DagEvent fk.topSteps T)}

/-- The events of `run_dag` in a run. -/
def dagTrace (tr : List (Option (DagEvent fk.topSteps T))) : List (DagEvent fk.topSteps T) :=
  tr.filterMap id

omit [Field K] in
theorem dagTrace_snoc : dagTrace (tr ++ [e]) = dagTrace tr ++ e.toList := by
  rw [dagTrace, List.filterMap_append]
  cases e <;> rfl

/-- A run of the top part is one of `run_dag`. -/
theorem dag_run {m : Vectors K T} (h : (topSweep fk m).Run tr s) :
    (runDag fk.topDag T fk.topReady).Run (dagTrace tr) s.dag := by
  induction h with
  | nil => exact .nil
  | snoc _ hs ih =>
    rw [dagTrace_snoc]
    cases hs with
    | dag h _ _ | begin h _ _ | skip h _ | done h _ => exact ih.snoc h
    | access h ha => exact (List.append_nil _).symm ▸ ih

omit [Field K] in
theorem topReady_iff (i : Fin fk.topSteps) : i ∈ fk.topReady ↔ ∀ j, ¬fk.topDag.edge j i := by
  rw [ParallelKeep.topReady, List.mem_filter, decide_eq_true_iff]
  exact and_iff_right (List.mem_finRange i)

omit [Field K] in
theorem topReady_nodup : fk.topReady.Nodup := (List.nodup_finRange _).filter _

variable (fk x₀ y) in
/-- A front is untouched before its work begins, and complete when it has ended. -/
structure TopInv (stage : ℕ → ℕ) (tr : List (DagEvent fk.topSteps T))
    (s : TopState K fk.topSteps T) : Prop where
  sweep : Sweep fk.front fk.solveSteps.length x₀ y (fun _ => none) stage s.mem s.work
  below : ∀ k < fk.solveTopBegin, Complete fk.front stage k
  fresh : ∀ i, i ∉ begun tr → stage (fk.solveTopBegin + i) = 0
  done : ∀ i, i ∈ ended tr → Complete fk.front stage (fk.solveTopBegin + i)
  body : ∀ t k, (s.work t).front = some k → ∃ i : Fin fk.topSteps, k = fk.solveTopBegin + i ∧
    s.dag.pc t = .body i
  /-- An atomic update loads and stores in one access. -/
  unloaded : ∀ t k i w v, s.work t ≠ .loaded k i w v

/-- A thread stays in a front's work until it ends. -/
theorem body_kept {n : ℕ} {D : Dag n} {d d' : DagState n T} {e : DagEvent n T} {t : Fin T}
    {i : Fin n} (h : DagState.Step D d e d') (ht : d.pc t = .body i) (he : e ≠ .ended t i) :
    d'.pc t = .body i := by
  have hkeep : ∀ (u : Fin T) (a : Pc n), d.pc u ≠ .body i → Function.update d.pc u a t =
      .body i := by
    intro u a hu
    rw [Function.update_of_ne, ht]
    rintro rfl
    exact hu ht
  cases h with
  | @done u i' todo hu hnodup htodo =>
    by_cases hut : t = u
    · subst hut
      obtain rfl := Pc.body.inj (ht.symm.trans hu)
      exact absurd rfl he
    · exact (Function.update_of_ne hut ..).trans ht
  | _ =>
    apply hkeep
    intro hc
    simp_all

/-- The fronts below a front whose work begins have all ended. -/
theorem ended_of_below {n : ℕ} {D : Dag n} {tr : List (DagEvent n T)} {d : DagState n T}
    (h : RunInv D tr d) {i j : Fin n} (hbelow : Relation.TransGen D.edge i j)
    (hj : j ∈ tokens tr d) : i ∈ ended tr := by
  induction hbelow with
  | single hedge => exact h.ended_of_held hj hedge
  | tail _ hedge ih =>
    have hended := h.ended_of_held hj hedge
    exact ih (Multiset.mem_add.mpr (.inr (h.calls.ended_begun _ hended)))

section Step

variable {d : DagState fk.topSteps T} {t : Fin T} {i : Fin fk.topSteps}
  {events : List (DagEvent fk.topSteps T)}

/-- What a front of the top part waits for is done when its work begins. -/
theorem TopInv.ready (h : TopInv fk x₀ y stage events s) (hl : fk.Layout)
    (sol : Solution fk.isPosdef fk.front fk.solveSteps.length fk.n x₀ y)
    (hrun : RunInv fk.topDag events s.dag) (hi : i ∈ tokens events s.dag) :
    Ready fk.front fk.solveSteps.length (fun _ => none) stage (fk.solveTopBegin + i) := by
  have hN : fk.solveTopBegin + i.1 < fk.solveSteps.length := Nat.add_lt_of_lt_sub' i.2
  intro b hb
  refine ⟨rfl, fun k hk hne hrow => ?_⟩
  obtain ⟨j, hjlo, hjf, he⟩ := hrow
  have hlt : k < fk.solveTopBegin + i := by
    by_contra hge
    exact sol.later (lt_of_le_of_ne (not_lt.mp hge) (Ne.symm hne)) hk hb hjf he
  rcases Nat.lt_or_ge k fk.solveTopBegin with hbelow | hge
  · exact h.below k hbelow
  · let c : Fin fk.topSteps := ⟨k - fk.solveTopBegin, Nat.sub_lt_sub_right hge hk⟩
    have hc : k = fk.solveTopBegin + c := (Nat.add_sub_cancel' hge).symm
    have hci : c ≠ i := by
      intro hci
      rw [hc, hci] at hlt
      exact lt_irrefl _ hlt
    have hrow : (fk.front (fk.solveTopBegin + c)).rows j =
        (fk.front (fk.solveTopBegin + i)).rows b := hc ▸ he
    have hbelow := hl.ancestors c i hci ⟨j, hc ▸ hjf, b, hb, hrow⟩
    rw [hc]
    exact h.done c (ended_of_below hrun hbelow hi)

/-- A thread in `process` is in a front that has begun and not ended. -/
theorem TopInv.not_in (h : TopInv fk x₀ y stage events s) (hrun : RunInv fk.topDag events s.dag)
    (hi : i ∉ begun events) (u : Fin T) : (s.work u).front ≠ some (fk.solveTopBegin + i) := by
  intro hu
  obtain ⟨i', he, hpc⟩ := h.body u _ hu
  obtain rfl : i = i' := Fin.ext (Nat.add_left_cancel he)
  exact hi (hrun.calls.body u i hpc).1

theorem TopInv.dag (h : TopInv fk x₀ y stage events s) {e : DagEvent fk.topSteps T}
    (hd : DagState.Step fk.topDag s.dag e d) (hb : e.begins = none) (he : e.ends = none) :
    TopInv fk x₀ y stage (events ++ [e]) { s with dag := d } where
  sweep := h.sweep
  below := h.below
  fresh i hi := by
    rw [begun_snoc, hb, Option.toList_none, List.append_nil] at hi
    exact h.fresh i hi
  done i hi := by
    rw [ended_snoc, he, Option.toList_none, List.append_nil] at hi
    exact h.done i hi
  body u k hu := by
    obtain ⟨i, hk, hpc⟩ := h.body u k hu
    refine ⟨i, hk, body_kept hd hpc ?_⟩
    rintro rfl
    cases he
  unloaded := h.unloaded

/-- A front's work begins; one without pivots has none. -/
theorem TopInv.begin (h : TopInv fk x₀ y stage events s) {work : Fin T → Work K}
    (hd : DagState.Step fk.topDag s.dag (.began t i) d)
    (hsweep : Sweep fk.front fk.solveSteps.length x₀ y (fun _ => none) stage s.mem work)
    (hother : ∀ u, u ≠ t → work u = s.work u)
    (hself : ∀ k, (work t).front = some k → k = fk.solveTopBegin + i)
    (hload : ∀ k i w v, work t ≠ .loaded k i w v) :
    TopInv fk x₀ y stage (events ++ [.began t i]) { s with dag := d, work := work } where
  sweep := hsweep
  below := h.below
  fresh j hj := by
    rw [begun_snoc] at hj
    exact h.fresh j fun hc => hj (List.mem_append_left _ hc)
  done j hj := by
    rw [ended_snoc] at hj
    exact h.done j (by simpa [DagEvent.ends] using hj)
  body u k hu := by
    by_cases hut : u = t
    · subst hut
      refine ⟨i, hself k hu, ?_⟩
      cases hd
      exact Function.update_self ..
    · obtain ⟨j, hk, hpc⟩ := h.body u k (hother u hut ▸ hu)
      exact ⟨j, hk, body_kept hd hpc fun hc => by cases hc⟩
  unloaded u k j w v hu := by
    by_cases hut : u = t
    · subst hut
      exact hload k j w v hu
    · exact h.unloaded u k j w v ((hother u hut).symm.trans hu)

/-- A front's work ends. -/
theorem TopInv.finish (h : TopInv fk x₀ y stage events s)
    (hd : DagState.Step fk.topDag s.dag (.ended t i) d)
    (hsweep : Sweep fk.front fk.solveSteps.length x₀ y (fun _ => none) stage s.mem
      (Function.update s.work t .idle))
    (hdone : Complete fk.front stage (fk.solveTopBegin + i)) :
    TopInv fk x₀ y stage (events ++ [.ended t i])
      { s with dag := d, work := Function.update s.work t .idle } where
  sweep := hsweep
  below := h.below
  fresh j hj := by
    rw [begun_snoc] at hj
    exact h.fresh j fun hc => hj (List.mem_append_left _ hc)
  done j hj := by
    rw [ended_snoc] at hj
    rcases List.mem_append.mp hj with hj | hj
    · exact h.done j hj
    · obtain rfl := List.mem_singleton.mp hj
      exact hdone
  body u k hu := by
    dsimp only at hu
    have hut : u ≠ t := by
      rintro rfl
      rw [Function.update_self] at hu
      cases hu
    rw [Function.update_of_ne hut] at hu
    obtain ⟨j, hk, hpc⟩ := h.body u k hu
    refine ⟨j, hk, body_kept hd hpc ?_⟩
    intro hc
    exact hut (DagEvent.ended.inj hc).1.symm
  unloaded u k j w v hu := by
    dsimp only at hu
    by_cases hut : u = t
    · subst hut
      rw [Function.update_self] at hu
      cases hu
    · rw [Function.update_of_ne hut] at hu
      exact h.unloaded u k j w v hu

/-- An access of a thread in a front of the top part. -/
theorem TopInv.access (h : TopInv fk x₀ y stage events s)
    (sol : Solution fk.isPosdef fk.front fk.solveSteps.length fk.n x₀ y)
    (hrun : RunInv fk.topDag events s.dag) {m : Vectors K T} {a : Work K}
    (ha : Access fk.isPosdef fk.front .atomic t s.mem (s.work t) m a) :
    ∃ stage', TopInv fk x₀ y stage' events
      { s with mem := m, work := Function.update s.work t a } := by
  obtain ⟨hfront, stage', hsweep, hkeep, hdone⟩ := h.sweep.access .atomic sol
    (fun _ _ _ hr => by cases hr) (fun u _ k i w v hu => absurd hu (h.unloaded u k i w v)) ha
  refine ⟨stage', hsweep, fun k hk => hdone k (h.below k hk), fun i hi => ?_,
    fun i hi => hdone _ (h.done i hi), fun u k hu => ?_, fun u k j w v hu => ?_⟩
  · exact (hkeep _ (h.not_in hrun hi t)).trans (h.fresh i hi)
  · dsimp only at hu
    by_cases hut : u = t
    · subst hut
      rw [Function.update_self, hfront] at hu
      exact h.body u k hu
    · rw [Function.update_of_ne hut] at hu
      exact h.body u k hu
  · dsimp only at hu
    by_cases hut : u = t
    · subst hut
      rw [Function.update_self] at hu
      subst hu
      -- only a load leaves a loaded row
      generalize s.work u = b at ha
      cases ha with
      | load hlo hi hupd hslot => cases hupd
    · rw [Function.update_of_ne hut] at hu
      exact h.unloaded u k j w v hu

theorem TopInv.step (h : TopInv fk x₀ y stage (dagTrace tr) s) (hl : fk.Layout)
    (sol : Solution fk.isPosdef fk.front fk.solveSteps.length fk.n x₀ y)
    (hrun : RunInv fk.topDag (dagTrace tr) s.dag) (hstep : TopState.Step fk s e s') :
    ∃ stage', TopInv fk x₀ y stage' (dagTrace (tr ++ [e])) s' := by
  rw [dagTrace_snoc]
  cases hstep with
  | dag hd hb he => exact ⟨stage, h.dag hd hb he⟩
  | @begin t i d hd hp b =>
    have hcall : s.dag.pc t = .call i := by cases hd; assumption
    have hheld : i ∈ (s.dag.pc t).held := by
      rw [hcall]
      exact Multiset.mem_singleton_self i
    have hnew := hrun.accounts.fresh hheld
    -- the caller holds the token of `i`, so the children of `i` are done
    have htoken : i ∈ tokens (dagTrace tr) s.dag :=
      Multiset.mem_add.mpr (.inl (Multiset.mem_add.mpr (.inr
        (Multiset.mem_sum.mpr ⟨t, Finset.mem_univ t, hheld⟩))))
    have hsweep := h.sweep.begin (t := t) (Nat.add_lt_of_lt_sub' i.2) hp (h.fresh i hnew)
      (h.not_in hrun hnew) (h.ready hl sol hrun htoken) b
    refine ⟨stage, h.begin hd hsweep (fun u hu => Function.update_of_ne hu ..) (fun k hk => ?_)
      fun k j w v hc => ?_⟩
    · rw [Function.update_self] at hk
      exact (Option.some.inj hk).symm
    · rw [Function.update_self] at hc
      cases hc
  | @skip t i d hd hp =>
    have hcall : s.dag.pc t = .call i := by cases hd; assumption
    refine ⟨stage, h.begin hd h.sweep (fun _ _ => rfl) (fun k hk => ?_) (h.unloaded t)⟩
    obtain ⟨j, -, hpc⟩ := h.body t k hk
    rw [hcall] at hpc
    cases hpc
  | @access t i m a hpc ha =>
    rw [Option.toList_none, List.append_nil]
    exact h.access sol hrun ha
  -- the work of the call is over: the front is done if it has pivots
  | @done t i d hd hwork =>
    have hbody : s.dag.pc t = .body i := by cases hd; assumption
    have hin : ∀ k, (s.work t).front = some k → k = fk.solveTopBegin + i := by
      intro k hk
      obtain ⟨j, hkj, hpc⟩ := h.body t k hk
      obtain rfl := Pc.body.inj (hbody.symm.trans hpc)
      exact hkj
    rcases Nat.eq_zero_or_pos (fk.front (fk.solveTopBegin + i)).p with hp | hp
    · -- nothing was begun
      have hidle : s.work t = .idle := by
        have hbusy := h.sweep.busy t
        cases hw : s.work t with
        | idle => rfl
        | gather k j b =>
          rw [hw] at hbusy hin
          obtain rfl := hin k rfl
          exact absurd hp (Nat.ne_of_gt hbusy.2.2.1)
        | store k j w =>
          rw [hw] at hbusy hin
          obtain rfl := hin k rfl
          exact absurd hp (Nat.ne_of_gt hbusy.2.1)
        | loaded k j w v => exact absurd hw (h.unloaded t k j w v)
      refine ⟨stage, h.finish hd ?_ fun hpos => absurd hp (Nat.ne_of_gt hpos)⟩
      rw [Function.update_eq_self_iff.mpr hidle.symm]
      exact h.sweep
    · obtain ⟨k, w, hw⟩ := hwork hp
      obtain ⟨hsweep, hstage⟩ := h.sweep.finish hw
      obtain rfl := hin k (by rw [hw]; rfl)
      exact ⟨stage, h.finish hd hsweep fun _ => hstage⟩

end Step

/-- When the threads have left, all fronts are complete. -/
theorem topSweep_done {m : Vectors K T} (hl : fk.Layout)
    (sol : Solution fk.isPosdef fk.front fk.solveSteps.length fk.n x₀ y) (t : Fin T)
    (h : (topSweep fk m).Run tr s) (hall : ∀ t, s.dag.pc t = .exited)
    (hsweep : Sweep fk.front fk.solveSteps.length x₀ y (fun _ => none) stage m
      fun _ : Fin T => .idle)
    (hbelow : ∀ k < fk.solveTopBegin, Complete fk.front stage k)
    (htop : ∀ k, fk.solveTopBegin ≤ k → stage k = 0) : s.mem.x = y := by
  have hrun := fun {tr s} (h : (topSweep fk m).Run tr s) =>
    runInv_of_run topReady_nodup topReady_iff (dag_run h)
  have hinit : TopInv fk x₀ y stage (dagTrace []) (topSweep fk m).init :=
    ⟨hsweep, hbelow, fun i _ => htop _ (Nat.le_add_right ..),
      fun _ hi => absurd hi List.not_mem_nil,
      fun _ _ hu => (by cases hu), fun _ _ _ _ _ hu => by cases hu⟩
  obtain ⟨-, stage', hinv⟩ := h.invariant (P := fun tr s => RunInv fk.topDag (dagTrace tr) s.dag ∧
    ∃ stage, TopInv fk x₀ y stage (dagTrace tr) s) ⟨hrun .nil, stage, hinit⟩
    fun hr ⟨hd, _, hi⟩ hs => ⟨hrun (hr.snoc hs), hi.step hl sol hd hs⟩
  obtain ⟨hended, -⟩ := (hrun h).all_done ((hrun h).counters.exited t (hall t))
  refine hinv.sweep.solved sol (fun _ => rfl) fun k hk => ?_
  rcases Nat.lt_or_ge k fk.solveTopBegin with hlt | hge
  · exact hinv.below k hlt
  · have hdone := hinv.done ⟨k - fk.solveTopBegin, Nat.sub_lt_sub_right hge hk⟩ (hended _)
    rwa [show fk.solveTopBegin + (k - fk.solveTopBegin) = k from Nat.add_sub_cancel' hge] at hdone

end Top

end Solve
end SmfSolver
