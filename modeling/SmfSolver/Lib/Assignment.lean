/-
  SmfSolver.Lib.Assignment

  The assignment problem over a cost matrix with missing entries (`⊤`): dual
  potentials, optimality of a tight perfect matching, and what one shortest
  augmenting path search does to the potentials.

  A search is summed up by its `Tree`: the rows it finalized, in order, with their
  distances, and the closest free row's distance `len`.  Everything a potential
  argument needs from Dijkstra's algorithm is in its fields, whatever queue or early
  exit found it.

  * `optimal_of_tight`: feasible potentials, tight on a perfect matching, make it
    one of least total cost.
  * `Tree.raise_feasible`, `Tree.raise_tight`, `Tree.raise_path`: the dual update.
  * `Closed.no_matching`: a search that reaches no free row proves that the columns
    it expanded cannot all be matched.
  * `Tree.le_raise`: the update stays above every optimal potential it was above, so
    that searches end at the greatest optimal potential below their start
    (`Descends`, `Descends.unique`).
-/
import Mathlib.Algebra.Order.BigOperators.Group.Finset
import Mathlib.Algebra.BigOperators.WithTop
import Mathlib.Algebra.Order.Field.Basic
import Mathlib.Data.Finset.Card
import Mathlib.Data.Fintype.BigOperators
import Mathlib.Data.List.Induction
import Mathlib.Tactic.Linarith
import Mathlib.Tactic.Ring

namespace SmfSolver
namespace Lib
namespace Assignment

variable {R C K : Type*} [Field K] [LinearOrder K] [IsStrictOrderedRing K]

/-! ## Potentials and matchings -/

/-- Reduced costs are non-negative. -/
def Feasible (cost : R → C → WithTop K) (u : R → K) (v : C → K) : Prop :=
  ∀ i j c, cost i j = (c : K) → u i + v j ≤ c

/-- The reduced cost of (i, j) is zero. -/
def Tight (cost : R → C → WithTop K) (u : R → K) (v : C → K) (i : R) (j : C) : Prop :=
  cost i j = ((u i + v j : K) : WithTop K)

/-- A matching that matches every row and every column, on existing entries. -/
def Perfect (cost : R → C → WithTop K) (σ : C ≃ R) : Prop := ∀ j, cost (σ j) j ≠ ⊤

/-- A perfect matching of least total cost. -/
def Optimal [Fintype C] (cost : R → C → WithTop K) (σ : C ≃ R) : Prop :=
  Perfect cost σ ∧ ∀ τ : C ≃ R, ∑ j, cost (σ j) j ≤ ∑ j, cost (τ j) j

omit [IsStrictOrderedRing K] in
theorem Feasible.le {cost : R → C → WithTop K} {u : R → K} {v : C → K} (h : Feasible cost u v)
    (i : R) (j : C) : ((u i + v j : K) : WithTop K) ≤ cost i j := by
  cases hc : cost i j with
  | top => exact le_top
  | coe c => exact WithTop.coe_le_coe.mpr (h i j c hc)

omit [LinearOrder K] [IsStrictOrderedRing K] in
/-- Potentials sum to the same over every matching. -/
theorem sum_potentials [Fintype C] [Fintype R] (u : R → K) (v : C → K) (σ : C ≃ R) :
    ∑ j, ((u (σ j) + v j : K) : WithTop K) = ((∑ i, u i + ∑ j, v j : K) : WithTop K) := by
  rw [← WithTop.coe_sum, Finset.sum_add_distrib, Equiv.sum_comp σ u]

/-- Weak duality, met with equality: a perfect matching that feasible potentials are
    tight on has the least total cost. -/
theorem optimal_of_tight [Fintype C] [Fintype R] {cost : R → C → WithTop K} {u : R → K}
    {v : C → K} (h : Feasible cost u v) {σ : C ≃ R} (hσ : ∀ j, Tight cost u v (σ j) j) :
    Optimal cost σ := by
  refine ⟨fun j => ?_, fun τ => ?_⟩
  · rw [hσ j]
    exact WithTop.coe_ne_top
  · calc ∑ j, cost (σ j) j = ∑ j, ((u (σ j) + v j : K) : WithTop K) :=
          Finset.sum_congr rfl fun j _ => hσ j
      _ = ∑ j, ((u (τ j) + v j : K) : WithTop K) := by
          rw [sum_potentials, sum_potentials]
      _ ≤ ∑ j, cost (τ j) j := Finset.sum_le_sum fun j _ => h.le (τ j) j

/-! ## Search trees -/

/-- Column `j` was scanned: it is the start, or matched to a finalized row. -/
def Expanded (rowMatch : R → Option C) (start : C) (final : List R) (j : C) : Prop :=
  j = start ∨ ∃ k ∈ final, rowMatch k = some j

/-- What a search has scanned from the free column `start`, at the potentials u, v:
    the finalized rows in order, the distance of every scanned column, and the length
    `len` of the shortest path found.  `dist` is the distance of the finalized rows. -/
structure Tree (cost : R → C → WithTop K) (u : R → K) (v : C → K) (rowMatch : R → Option C)
    (start : C) (final : List R) (dist : R → K) (label : C → K) (len : K) : Prop where
  injective : ∀ {k k' j}, rowMatch k = some j → rowMatch k' = some j → k = k'
  start_free : ∀ k, rowMatch k ≠ some start
  final_matched : ∀ k ∈ final, ∃ j, rowMatch k = some j
  dist_le : ∀ k ∈ final, dist k ≤ len
  label_start : label start = 0
  label_matched : ∀ k ∈ final, ∀ j, rowMatch k = some j → label j = dist k
  /-- A finalized row was reached from a column scanned before it was finalized. -/
  reached : ∀ pre k post, final = pre ++ k :: post → ∃ j c, Expanded rowMatch start pre j ∧
    cost k j = (c : K) ∧ dist k = label j + (c - u k - v j)
  /-- Every entry of a scanned column leads to a finalized row that is no farther, or
      is no shorter than the path found. -/
  scanned : ∀ i j c, Expanded rowMatch start final j → cost i j = (c : K) →
    i ∈ final ∧ dist i ≤ label j + (c - u i - v j) ∨ len ≤ label j + (c - u i - v j)

/-- The row potentials after the search's dual update. -/
noncomputable def raiseU (u : R → K) (final : List R) (dist : R → K) (len : K) (i : R) : K :=
  open Classical in if i ∈ final then u i - (len - dist i) else u i

/-- The column potentials after the search's dual update. -/
noncomputable def raiseV (v : C → K) (rowMatch : R → Option C) (start : C) (final : List R)
    (label : C → K) (len : K) (j : C) : K :=
  open Classical in if Expanded rowMatch start final j then v j + (len - label j) else v j

section Raise

variable {cost : R → C → WithTop K} {u : R → K} {v : C → K} {rowMatch : R → Option C}
  {start : C} {final : List R} {dist : R → K} {label : C → K} {len : K}

theorem Tree.raiseU_le (h : Tree cost u v rowMatch start final dist label len) (i : R) :
    raiseU u final dist len i ≤ u i := by
  unfold raiseU
  split_ifs with hi
  · linarith [h.dist_le i hi]
  · exact le_rfl

/-- The update keeps reduced costs non-negative. -/
theorem Tree.raise_feasible (h : Tree cost u v rowMatch start final dist label len)
    (hf : Feasible cost u v) :
    Feasible cost (raiseU u final dist len) (raiseV v rowMatch start final label len) := by
  intro i j c hc
  have hrc := hf i j c hc
  have hu := h.raiseU_le i
  unfold raiseV
  split_ifs with hj
  · rcases h.scanned i j c hj hc with ⟨hi, hd⟩ | hlen
    · unfold raiseU
      rw [if_pos hi]
      linarith
    · linarith
  · linarith

omit [IsStrictOrderedRing K] in
/-- The update keeps matched edges tight. -/
theorem Tree.raise_tight (h : Tree cost u v rowMatch start final dist label len) {i : R} {j : C}
    (hij : rowMatch i = some j) (ht : Tight cost u v i j) :
    Tight cost (raiseU u final dist len) (raiseV v rowMatch start final label len) i j := by
  have hiff : Expanded rowMatch start final j ↔ i ∈ final := by
    constructor
    · rintro (rfl | ⟨k, hk, hkj⟩)
      · exact absurd hij (h.start_free i)
      · exact h.injective hkj hij ▸ hk
    · exact fun hi => .inr ⟨i, hi, hij⟩
  unfold Tight raiseU raiseV
  rw [ht, WithTop.coe_inj]
  by_cases hi : i ∈ final
  · rw [if_pos hi, if_pos (hiff.mpr hi), h.label_matched i hi j hij]
    ring
  · rw [if_neg hi, if_neg (hiff.not.mpr hi)]

/-- The update makes the edges of shortest paths tight: to a finalized row from the
    column it was reached from, and to a row at distance `len`. -/
theorem Tree.raise_path {i : R} {j : C} {c x : K} (hj : Expanded rowMatch start final j)
    (hc : cost i j = (c : K)) (hx : x = label j + (c - u i - v j))
    (hi : i ∈ final ∧ dist i = x ∨ i ∉ final ∧ len = x) :
    Tight cost (raiseU u final dist len) (raiseV v rowMatch start final label len) i j := by
  unfold Tight raiseU raiseV
  rw [hc, WithTop.coe_inj, if_pos hj]
  rcases hi with ⟨hi, hd⟩ | ⟨hi, hl⟩
  · rw [if_pos hi]
    linarith
  · rw [if_neg hi]
    linarith

/-! ## Optimal potentials below the start -/

/-- `w` is an optimal row potential of the part with columns `cols` and rows `rows`:
    with some column potential it is feasible, and tight on a matching `m` of the part. -/
def OptimalDual (cost : R → C → WithTop K) (rows : Set R) (cols : Set C) (w : R → K) : Prop :=
  ∃ (z : C → K) (m : C → R), Set.BijOn m cols rows ∧ Feasible cost w z ∧
    ∀ j ∈ cols, Tight cost w z (m j) j

variable [Fintype C]

/-- The heart of the matter: an optimal row potential below u stays below the updated
    one.  Columns whose distance, taken with their slack, is short of the path are
    permuted by matching forth with `m` and back with `rowMatch`; the distances do not
    grow along that permutation, so they are constant on its cycles. -/
theorem Tree.le_raise (h : Tree cost u v rowMatch start final dist label len)
    (htight : ∀ k j, rowMatch k = some j → Tight cost u v k j)
    {rows : Set R} {cols : Set C} (hcols : ∀ j, Expanded rowMatch start final j → j ∈ cols)
    {w : R → K} (hw : OptimalDual cost rows cols w) (hle : ∀ i ∈ rows, w i ≤ u i)
    {i : R} (hi : i ∈ rows) : w i ≤ raiseU u final dist len i := by
  classical
  obtain ⟨z, m, hm, hfeas, hmt⟩ := hw
  -- the distance of a column, with its slack against z
  set e : C → K := fun j => label j + (z j - v j) with he
  set short : Finset C :=
    Finset.univ.filter fun j => Expanded rowMatch start final j ∧ e j < len with hshort
  -- a matched column is no farther than its row
  have hback : ∀ k ∈ final, ∀ j, rowMatch k = some j → e j ≤ dist k + (u k - w k) := by
    intro k hk j hkj
    have hcost : cost k j = ((u k + v j : K) : WithTop K) := htight k j hkj
    have := hfeas k j _ hcost
    show label j + (z j - v j) ≤ _
    rw [h.label_matched k hk j hkj]
    linarith
  -- a short column leads over m to a finalized row that is no farther
  have hforth : ∀ j ∈ short, m j ∈ final ∧ dist (m j) + (u (m j) - w (m j)) ≤ e j := by
    intro j hj
    obtain ⟨hexp, hlen⟩ := (Finset.mem_filter.mp hj).2
    have hcost : cost (m j) j = ((w (m j) + z j : K) : WithTop K) := hmt j (hcols j hexp)
    have hwu := hle (m j) (hm.mapsTo (hcols j hexp))
    have hlen' : label j + (z j - v j) < len := hlen
    rcases h.scanned _ _ _ hexp hcost with ⟨hfin, hd⟩ | hl
    · refine ⟨hfin, ?_⟩
      show _ ≤ label j + (z j - v j)
      linarith
    · linarith
  -- forth with m and back with rowMatch
  have hnext : ∀ j ∈ short, ∃ j', rowMatch (m j) = some j' ∧ j' ∈ short ∧ e j' ≤ e j := by
    intro j hj
    obtain ⟨hfin, hd⟩ := hforth j hj
    obtain ⟨j', hj'⟩ := h.final_matched _ hfin
    have hej := hback _ hfin j' hj'
    have hlen := (Finset.mem_filter.mp hj).2.2
    refine ⟨j', hj', Finset.mem_filter.mpr ⟨Finset.mem_univ _, .inr ⟨_, hfin, hj'⟩, ?_⟩, ?_⟩
    · exact lt_of_le_of_lt (hej.trans hd) hlen
    · exact hej.trans hd
  choose! φ hφm hφs hφe using hnext
  have hinj : Set.InjOn φ short := by
    intro j hj j' hj' heq
    have hrow : m j = m j' := h.injective (hφm j hj) (heq ▸ hφm j' hj')
    exact hm.injOn (hcols j (Finset.mem_filter.mp hj).2.1)
      (hcols j' (Finset.mem_filter.mp hj').2.1) hrow
  have himage : short.image φ = short :=
    Finset.eq_of_subset_of_card_le (Finset.image_subset_iff.mpr hφs)
      (Finset.card_image_of_injOn hinj).ge
  have hsum : ∑ j ∈ short, e (φ j) = ∑ j ∈ short, e j := by
    conv_rhs => rw [← himage]
    rw [Finset.sum_image hinj]
  have heq : ∀ j ∈ short, e (φ j) = e j :=
    (Finset.sum_eq_sum_iff_of_le hφe).mp hsum
  -- a short column is as far as the row it is matched to
  have hshort_row : ∀ j ∈ short, ∃ k ∈ final, rowMatch k = some j ∧
      e j = dist k + (u k - w k) := by
    intro j hj
    obtain ⟨j₀, hj₀, rfl⟩ := Finset.mem_image.mp (himage.symm ▸ hj : j ∈ short.image φ)
    obtain ⟨hfin, hd⟩ := hforth j₀ hj₀
    refine ⟨m j₀, hfin, hφm j₀ hj₀, le_antisymm (hback _ hfin _ (hφm j₀ hj₀)) ?_⟩
    rw [heq j₀ hj₀]
    exact hd
  -- no finalized row is short: by induction on the order of finalization
  have hrows : ∀ pre post, final = pre ++ post → ∀ k ∈ pre, len ≤ dist k + (u k - w k) := by
    intro pre
    induction pre using List.reverseRecOn with
    | nil => exact fun _ _ k hk => absurd hk List.not_mem_nil
    | append_singleton pre k₀ ih =>
      intro post hfinal k hk
      rw [List.append_assoc] at hfinal
      have ih' := ih _ hfinal
      rcases List.mem_append.mp hk with hk | hk
      · exact ih' k hk
      · obtain rfl := List.mem_singleton.mp hk
        obtain ⟨j, c, hexp, hcost, hd⟩ := h.reached pre k post hfinal
        have hwz := hfeas k j c hcost
        by_contra hlt
        have hej : e j < len := by
          show label j + (z j - v j) < len
          linarith
        have hexp' : Expanded rowMatch start final j := by
          refine hexp.imp_right ?_
          rintro ⟨k', hk', hkj⟩
          exact ⟨k', hfinal ▸ List.mem_append_left _ hk', hkj⟩
        obtain ⟨k', -, hk'j, hek⟩ :=
          hshort_row j (Finset.mem_filter.mpr ⟨Finset.mem_univ _, hexp', hej⟩)
        rcases hexp with rfl | ⟨k'', hk'', hk''j⟩
        · exact h.start_free k' hk'j
        · obtain rfl := h.injective hk'j hk''j
          linarith [ih' k' hk'']
  unfold raiseU
  split_ifs with hfin
  · have := hrows final [] (List.append_nil _).symm i hfin
    linarith
  · exact hle i hi

end Raise

/-! ## The greatest optimal potential below a cap -/

section Descent

variable {cost : R → C → WithTop K} {rows : Set R} {cols : Set C} {cap u u' : R → K}

/-- `u` lies between the cap and the optimal potentials below the cap. -/
def Descends (cost : R → C → WithTop K) (rows : Set R) (cols : Set C) (cap u : R → K) : Prop :=
  (∀ i ∈ rows, u i ≤ cap i) ∧
    ∀ x, OptimalDual cost rows cols x → (∀ i ∈ rows, x i ≤ cap i) → ∀ i ∈ rows, x i ≤ u i

omit [IsStrictOrderedRing K] in
theorem Descends.refl (cost : R → C → WithTop K) (rows : Set R) (cols : Set C) (cap : R → K) :
    Descends cost rows cols cap cap :=
  ⟨fun _ _ => le_rfl, fun _ _ hle => hle⟩

omit [IsStrictOrderedRing K] in
theorem Descends.trans (h : Descends cost rows cols cap u) (h' : Descends cost rows cols u u') :
    Descends cost rows cols cap u' :=
  ⟨fun i hi => (h'.1 i hi).trans (h.1 i hi), fun x hx hle => h'.2 x hx (h.2 x hx hle)⟩

omit [IsStrictOrderedRing K] in
/-- There is one greatest optimal potential below the cap. -/
theorem Descends.unique (h : Descends cost rows cols cap u) (h' : Descends cost rows cols cap u')
    (hu : OptimalDual cost rows cols u) (hu' : OptimalDual cost rows cols u') {i : R}
    (hi : i ∈ rows) : u i = u' i :=
  le_antisymm (h'.2 u hu h.1 i hi) (h.2 u' hu' h'.1 i hi)

/-- Tight columns: the row potential determines the column potential. -/
theorem column_unique {v v' : C → K} (hf : Feasible cost u v) (hf' : Feasible cost u' v') {j : C}
    (hu : ∀ i, cost i j ≠ ⊤ → u i = u' i) (ht : ∃ i, Tight cost u v i j)
    (ht' : ∃ i, Tight cost u' v' i j) : v j = v' j := by
  obtain ⟨i, hi⟩ := ht
  obtain ⟨i', hi'⟩ := ht'
  have hcost : cost i j = ((u i + v j : K) : WithTop K) := hi
  have hcost' : cost i' j = ((u' i' + v' j : K) : WithTop K) := hi'
  have hle := hf' i j _ hcost
  have hle' := hf i' j _ hcost'
  have hui := hu i (hcost ▸ WithTop.coe_ne_top)
  have hui' := hu i' (hcost' ▸ WithTop.coe_ne_top)
  linarith

/-- Complementary slackness: an optimal potential is tight on every tight perfect
    matching, not only on its own. -/
theorem OptimalDual.tight_on [Fintype C] {x : R → K} (hx : OptimalDual cost rows cols x)
    {v : C → K} (hf : Feasible cost u v) {m : C → R} (hm : Set.BijOn m cols rows)
    (ht : ∀ j ∈ cols, Tight cost u v (m j) j) :
    ∃ z, Feasible cost x z ∧ ∀ j ∈ cols, Tight cost x z (m j) j := by
  classical
  obtain ⟨z, m', hm', hz, hzt⟩ := hx
  set S : Finset C := Finset.univ.filter fun j => j ∈ cols with hS
  have hmem : ∀ j ∈ S, j ∈ cols := fun j hj => (Finset.mem_filter.mp hj).2
  have hcoe : (S : Set C) = cols := by
    ext j
    rw [hS, Finset.coe_filter]
    exact ⟨fun hj => hj.2, fun hj => ⟨Finset.mem_univ j, hj⟩⟩
  -- both matchings sum a row potential over the same rows
  have hrows : ∀ f : R → K, ∑ j ∈ S, f (m j) = ∑ j ∈ S, f (m' j) := by
    intro f
    have himage : S.image m = S.image m' := by
      rw [← Finset.coe_inj, Finset.coe_image, Finset.coe_image, hcoe, hm.image_eq, hm'.image_eq]
    calc ∑ j ∈ S, f (m j) = ∑ i ∈ S.image m, f i :=
          (Finset.sum_image (hcoe.symm ▸ hm.injOn)).symm
      _ = ∑ i ∈ S.image m', f i := by rw [himage]
      _ = ∑ j ∈ S, f (m' j) := Finset.sum_image (hcoe.symm ▸ hm'.injOn)
  have hle : ∀ j ∈ S, x (m j) + z j ≤ u (m j) + v j :=
    fun j hj => hz _ _ _ (ht j (hmem j hj))
  have hle' : ∑ j ∈ S, (u (m j) + v j) ≤ ∑ j ∈ S, (x (m j) + z j) := by
    calc ∑ j ∈ S, (u (m j) + v j) = ∑ j ∈ S, (u (m' j) + v j) := by
          rw [Finset.sum_add_distrib, Finset.sum_add_distrib, hrows u]
      _ ≤ ∑ j ∈ S, (x (m' j) + z j) :=
          Finset.sum_le_sum fun j hj => hf _ _ _ (hzt j (hmem j hj))
      _ = ∑ j ∈ S, (x (m j) + z j) := by
          rw [Finset.sum_add_distrib, Finset.sum_add_distrib, hrows x]
  have heq := (Finset.sum_eq_sum_iff_of_le hle).mp (le_antisymm (Finset.sum_le_sum hle) hle')
  refine ⟨z, hz, fun j hj => ?_⟩
  have hjS : j ∈ S := Finset.mem_filter.mpr ⟨Finset.mem_univ j, hj⟩
  have htj : cost (m j) j = ((u (m j) + v j : K) : WithTop K) := ht j hj
  unfold Tight
  rw [htj, heq j hjS]

end Descent

/-! ## Searches that reach no free row -/

/-- Every entry of a scanned column leads to a finalized row. -/
structure Closed (cost : R → C → WithTop K) (rowMatch : R → Option C) (start : C)
    (final : List R) : Prop where
  injective : ∀ {k k' j}, rowMatch k = some j → rowMatch k' = some j → k = k'
  start_free : ∀ k, rowMatch k ≠ some start
  nodup : final.Nodup
  final_matched : ∀ k ∈ final, ∃ j, rowMatch k = some j
  scanned : ∀ i j, Expanded rowMatch start final j → cost i j ≠ ⊤ → i ∈ final

omit [Field K] [LinearOrder K] [IsStrictOrderedRing K] in
/-- Then the scanned columns, one more than the finalized rows, cannot all be matched. -/
theorem Closed.no_matching {cost : R → C → WithTop K} {rowMatch : R → Option C} {start : C}
    {final : List R} (h : Closed cost rowMatch start final) {cols : Set C}
    (hcols : ∀ j, Expanded rowMatch start final j → j ∈ cols) {m : C → R}
    (hinj : Set.InjOn m cols) : ∃ j ∈ cols, cost (m j) j = ⊤ := by
  classical
  by_contra hall
  push Not at hall
  have hex : ∀ k ∈ final, ∃ j, rowMatch k = some j := h.final_matched
  have : Nonempty C := ⟨start⟩
  choose! col hcol using hex
  have hcolinj : Set.InjOn col final.toFinset := by
    intro k hk k' hk' heq
    rw [Finset.mem_coe, List.mem_toFinset] at hk hk'
    exact h.injective (hcol k hk) (heq ▸ hcol k' hk')
  have hstart : start ∉ final.toFinset.image col := by
    intro hmem
    obtain ⟨k, hk, hks⟩ := Finset.mem_image.mp hmem
    exact h.start_free k (hks ▸ hcol k (List.mem_toFinset.mp hk))
  have hexp : ∀ j ∈ insert start (final.toFinset.image col),
      Expanded rowMatch start final j := by
    intro j hj
    rcases Finset.mem_insert.mp hj with rfl | hj
    · exact .inl rfl
    · obtain ⟨k, hk, rfl⟩ := Finset.mem_image.mp hj
      exact .inr ⟨k, List.mem_toFinset.mp hk, hcol k (List.mem_toFinset.mp hk)⟩
  -- a matching would send the expanded columns to finalized rows, one too few of them
  have hle : (insert start (final.toFinset.image col)).card ≤ final.toFinset.card := by
    refine Finset.card_le_card_of_injOn m (fun j hj => ?_) (fun j hj j' hj' heq => ?_)
    · have hj' := hexp j hj
      exact List.mem_toFinset.mpr (h.scanned _ j hj' (hall j (hcols j hj')))
    · exact hinj (hcols j (hexp j hj)) (hcols j' (hexp j' hj')) heq
  rw [Finset.card_insert_of_notMem hstart, Finset.card_image_of_injOn hcolinj] at hle
  omega

end Assignment
end Lib
end SmfSolver
