/-
  SmfSolver.Symbolic.MatchingOrderSpec

  The compressed ordering returns a permutation that keeps disjoint pairs of matched
  columns adjacent, and orders the graph induced on the groups.

  * `Walked`: what a walk along the matching collects, a chain of columns not seen before.
  * `Partners`: the pairs so far are symmetric and lie on matching edges.
  * `NodesOf`: the nodes are the groups of one or two columns.
  * `Compacted`: the columns done hold their rows once, one column behind the other.
-/
import SmfSolver.Symbolic.EtreeSpec
import SmfSolver.Symbolic.MatchingOrder
import Mathlib.Algebra.Order.Field.Rat
import Mathlib.Data.List.Perm.Basic
import Mathlib.Data.Nat.ModEq

namespace SmfSolver
namespace Symbolic

open Lib

/-! ## Walks -/

section Walks

variable {n : ℕ} {sigma : ℕ → Option ℕ} {seen₀ seen : ℕ → Bool} {cyc : List ℕ}

/-- The columns of a walk follow one another along the matching, and were not seen before. -/
structure Walked (n : ℕ) (sigma : ℕ → Option ℕ) (seen₀ seen : ℕ → Bool) (cyc : List ℕ) : Prop where
  nodup : cyc.Nodup
  mem : ∀ x ∈ cyc, x < n ∧ seen x = true ∧ seen₀ x = false
  mono : ∀ x, seen₀ x = true → seen x = true
  chain : ∀ (t x y : ℕ), cyc[t]? = some x → cyc[t + 1]? = some y → sigma x = some y

theorem Walked.length_le (h : Walked n sigma seen₀ seen cyc) : cyc.length ≤ n := by
  have hsub : cyc ⊆ List.range n := fun x hx => List.mem_range.mpr (h.mem x hx).1
  have := (List.subperm_of_subset h.nodup hsub).length_le
  rwa [List.length_range] at this

theorem Walked.push (h : Walked n sigma seen₀ seen cyc) {c : ℕ} (hc : c < n)
    (hseen : seen c = false)
    (hlast : ∀ l, cyc.getLast? = some l → sigma l = some c) :
    Walked n sigma seen₀ (Function.update seen c true) (cyc ++ [c]) := by
  have hnot : c ∉ cyc := fun hmem => by
    have := (h.mem c hmem).2.1
    rw [hseen] at this
    cases this
  -- marks are only added, and `c` has just got its own
  have hmono : ∀ x, seen x = true → Function.update seen c true x = true := by
    intro x hx
    rw [Function.update_apply, hx, ite_self]
  refine ⟨?_, fun x hx => ?_, fun x hx => hmono x (h.mono x hx), fun t x y hx hy => ?_⟩
  · exact List.nodup_append.mpr ⟨h.nodup, List.nodup_singleton c, fun a ha b hb hab => by
      rw [List.mem_singleton] at hb
      exact hnot (hb ▸ hab ▸ ha)⟩
  · rcases List.mem_append.mp hx with hx | hx
    · obtain ⟨h₁, h₂, h₃⟩ := h.mem x hx
      exact ⟨h₁, hmono x h₂, h₃⟩
    · obtain rfl := List.mem_singleton.mp hx
      refine ⟨hc, Function.update_self .., Bool.eq_false_iff.mpr fun h₀ => ?_⟩
      rw [h.mono x h₀] at hseen
      cases hseen
  · have hlen := (List.getElem?_eq_some_iff.mp hy).1
    rw [List.length_append, List.length_singleton] at hlen
    rw [List.getElem?_append_left (by omega)] at hx
    rcases Nat.lt_or_ge (t + 1) cyc.length with hlt | hge
    · rw [List.getElem?_append_left hlt] at hy
      exact h.chain t x y hx hy
    · rw [List.getElem?_append_right hge, show t + 1 - cyc.length = 0 by omega] at hy
      obtain rfl : c = y := by simpa using hy
      refine hlast x ?_
      rw [List.getLast?_eq_getElem?, show cyc.length - 1 = t by omega]
      exact hx

/-- A walk comes to an end. -/
theorem walkCycle_spec (hsigma : ∀ j < n, ∀ i, sigma j = some i → i < n) {fuel : ℕ} {c : Option ℕ}
    (hc : ∀ x, c = some x → x < n) (hlast : ∀ l, cyc.getLast? = some l → sigma l = c)
    (hfuel : n + 1 ≤ fuel + cyc.length) (h : Walked n sigma seen₀ seen cyc) :
    ∃ seen' cyc', walkCycle sigma fuel c seen cyc = some (seen', cyc') ∧
      Walked n sigma seen₀ seen' cyc' := by
  induction fuel generalizing c seen cyc with
  | zero =>
    have := h.length_le
    omega
  | succ fuel ih =>
    cases c with
    | none => exact ⟨seen, cyc, rfl, h⟩
    | some c =>
      rw [walkCycle]
      cases hseen : seen c
      · have hcn := hc c rfl
        refine ih (fun x hx => hsigma c hcn x hx) (fun l hl => ?_) ?_ (h.push hcn hseen hlast)
        · rw [List.getLast?_concat] at hl
          rw [Option.some.inj hl]
        · rw [List.length_append, List.length_singleton]
          omega
      · exact ⟨seen, cyc, rfl, h⟩

end Walks

/-! ## Pairs -/

section Pairs

variable {K : Type*} [Field K] [LinearOrder K] {n : ℕ} {sigma partner : ℕ → Option ℕ}
  {diag coupling : ℕ → K} {pairTol : K} {cyc : List ℕ} {a b : ℕ}

/-- Pairs are disjoint and lie on edges of the matching. -/
structure Partners (n : ℕ) (sigma partner : ℕ → Option ℕ) : Prop where
  symm : ∀ a b, partner a = some b → partner b = some a
  edge : ∀ a b, partner a = some b →
    a < n ∧ b < n ∧ a ≠ b ∧ (sigma a = some b ∨ sigma b = some a)

theorem Partners.link (h : Partners n sigma partner) (ha : partner a = none) (hb : partner b = none)
    (han : a < n) (hbn : b < n) (hne : a ≠ b) (hedge : sigma a = some b) :
    Partners n sigma (Function.update (Function.update partner a (some b)) b (some a)) := by
  -- what is paired afterwards: the two new partners, or two old ones
  have hval : ∀ x y, Function.update (Function.update partner a (some b)) b (some a) x = some y →
      (x = a ∧ y = b) ∨ (x = b ∧ y = a) ∨ (x ≠ a ∧ x ≠ b ∧ partner x = some y) := by
    intro x y hxy
    by_cases hxb : x = b
    · rw [hxb, Function.update_self] at hxy
      exact .inr (.inl ⟨hxb, (Option.some.inj hxy).symm⟩)
    · rw [Function.update_of_ne hxb] at hxy
      by_cases hxa : x = a
      · rw [hxa, Function.update_self] at hxy
        exact .inl ⟨hxa, (Option.some.inj hxy).symm⟩
      · rw [Function.update_of_ne hxa] at hxy
        exact .inr (.inr ⟨hxa, hxb, hxy⟩)
  refine ⟨fun x y hxy => ?_, fun x y hxy => ?_⟩
  · rcases hval x y hxy with ⟨rfl, rfl⟩ | ⟨rfl, rfl⟩ | ⟨hxa, hxb, hp⟩
    · exact Function.update_self ..
    · rw [Function.update_of_ne hne, Function.update_self]
    · have hyx := h.symm x y hp
      rw [Function.update_of_ne, Function.update_of_ne]
      · exact hyx
      · rintro rfl
        rw [ha] at hyx
        cases hyx
      · rintro rfl
        rw [hb] at hyx
        cases hyx
  · rcases hval x y hxy with ⟨rfl, rfl⟩ | ⟨rfl, rfl⟩ | ⟨-, -, hp⟩
    · exact ⟨han, hbn, hne, .inl hedge⟩
    · exact ⟨hbn, han, hne.symm, .inr hedge⟩
    · exact h.edge x y hp

/-- Member `t` of a cycle or path, counted from where its pairs start. -/
def memberAt (cyc : List ℕ) (first t : ℕ) : ℕ := cyc.getD ((first + t) % cyc.length) 0

theorem memberAt_mem (hcyc : 0 < cyc.length) (first t : ℕ) : memberAt cyc first t ∈ cyc := by
  have hlt := Nat.mod_lt (first + t) hcyc
  unfold memberAt
  rw [List.getD_eq_getElem?_getD, List.getElem?_eq_getElem hlt]
  exact List.getElem_mem hlt

theorem memberAt_inj (hnodup : cyc.Nodup) {first t t' : ℕ} (ht : t < cyc.length)
    (ht' : t' < cyc.length) (heq : memberAt cyc first t = memberAt cyc first t') : t = t' := by
  have hpos : 0 < cyc.length := by omega
  have hlt := Nat.mod_lt (first + t) hpos
  have hlt' := Nat.mod_lt (first + t') hpos
  unfold memberAt at heq
  rw [List.getD_eq_getElem?_getD, List.getElem?_eq_getElem hlt, List.getD_eq_getElem?_getD,
    List.getElem?_eq_getElem hlt', Option.getD_some, Option.getD_some] at heq
  have hmod := (hnodup.getElem_inj_iff).mp heq
  have hcong : t % cyc.length = t' % cyc.length := Nat.ModEq.add_left_cancel' first hmod
  rwa [Nat.mod_eq_of_lt ht, Nat.mod_eq_of_lt ht'] at hcong

/-- The members follow one another along the matching, around a closed cycle or from the head
    of a path. -/
theorem memberAt_next (hchain : ∀ (t x y : ℕ), cyc[t]? = some x → cyc[t + 1]? = some y →
    sigma x = some y) {first t : ℕ} (hfirst : cyc.getLast?.bind sigma = cyc.head? ∨ first = 0)
    (ht : t + 1 < cyc.length) :
    sigma (memberAt cyc first t) = some (memberAt cyc first (t + 1)) := by
  have hpos : 0 < cyc.length := by omega
  have hget : ∀ {p}, p < cyc.length → cyc[p]? = some (cyc.getD p 0) := by
    intro p hp
    rw [List.getD_eq_getElem?_getD, List.getElem?_eq_getElem hp]
    rfl
  have hlt := Nat.mod_lt (first + t) hpos
  have hnext : (first + (t + 1)) % cyc.length = ((first + t) % cyc.length + 1) % cyc.length := by
    rw [Nat.mod_add_mod, Nat.add_assoc]
  unfold memberAt
  rw [hnext]
  rcases Nat.lt_or_ge ((first + t) % cyc.length + 1) cyc.length with hin | hout
  · rw [Nat.mod_eq_of_lt hin]
    exact hchain _ _ _ (hget hlt) (hget hin)
  · -- from the last member back to the first
    have hlast : (first + t) % cyc.length = cyc.length - 1 := by omega
    rcases hfirst with hclosed | rfl
    · rw [hlast, Nat.sub_add_cancel hpos, Nat.mod_self]
      rw [List.getLast?_eq_getElem?, hget (by omega), Option.bind_some, List.head?_eq_getElem?,
        hget hpos] at hclosed
      exact hclosed
    · rw [Nat.zero_add, Nat.mod_eq_of_lt (by omega)] at hlast
      omega

omit [Field K] in
/-- The pairs of one cycle or path. -/
theorem linkPairs_partners {seen₀ seen : ℕ → Bool} (hw : Walked n sigma seen₀ seen cyc) {first : ℕ}
    (hfirst : cyc.getLast?.bind sigma = cyc.head? ∨ first = 0) (hp : Partners n sigma partner)
    (hfree : ∀ x ∈ cyc, partner x = none) (m : ℕ) (hm : 2 * m ≤ cyc.length) :
    Partners n sigma ((List.range m).foldl (linkPair diag pairTol cyc first) partner) ∧
      ∀ x, (List.range m).foldl (linkPair diag pairTol cyc first) partner x ≠ none →
        partner x ≠ none ∨ ∃ t < 2 * m, x = memberAt cyc first t := by
  induction m with
  | zero => exact ⟨hp, fun x hx => .inl hx⟩
  | succ m ih =>
    obtain ⟨hpart, hold⟩ := ih (by omega)
    rw [List.range_succ, List.foldl_append, List.foldl_cons, List.foldl_nil]
    set P := (List.range m).foldl (linkPair diag pairTol cyc first) partner with hP
    have hpos : 0 < cyc.length := by omega
    -- the members from `2 * m` on are not paired yet: the cycle has no member twice
    have hnone : ∀ t, 2 * m ≤ t → t < cyc.length → P (memberAt cyc first t) = none := by
      intro t htm ht
      by_contra hne
      rcases hold _ hne with hc | ⟨t', ht', heq⟩
      · exact hc (hfree _ (memberAt_mem hpos first t))
      · have := memberAt_inj hw.nodup ht (by omega) heq
        omega
    have hstep : linkPair diag pairTol cyc first P m
        = if min (diag (memberAt cyc first (2 * m)))
          (diag (memberAt cyc first (2 * m + 1))) < pairTol
          then Function.update (Function.update P (memberAt cyc first (2 * m))
            (some (memberAt cyc first (2 * m + 1)))) (memberAt cyc first (2 * m + 1))
              (some (memberAt cyc first (2 * m)))
          else P := rfl
    rw [hstep]
    split_ifs with htol
    · refine ⟨hpart.link (hnone _ le_rfl (by omega)) (hnone _ (by omega) (by omega))
        (hw.mem _ (memberAt_mem hpos first _)).1 (hw.mem _ (memberAt_mem hpos first _)).1
        (fun heq => ?_) (memberAt_next hw.chain hfirst (by omega)), fun x hx => ?_⟩
      · have := memberAt_inj hw.nodup (by omega) (by omega) heq
        omega
      · by_cases hxb : x = memberAt cyc first (2 * m + 1)
        · exact .inr ⟨_, by omega, hxb⟩
        · rw [Function.update_of_ne hxb] at hx
          by_cases hxa : x = memberAt cyc first (2 * m)
          · exact .inr ⟨_, by omega, hxa⟩
          · rw [Function.update_of_ne hxa] at hx
            exact (hold x hx).imp_right fun ⟨t, ht, heq⟩ => ⟨t, by omega, heq⟩
    · exact ⟨hpart, fun x hx => (hold x hx).imp_right fun ⟨t, ht, heq⟩ => ⟨t, by omega, heq⟩⟩

/-- Only columns seen have partners. -/
structure PairsDone (n : ℕ) (sigma : ℕ → Option ℕ) (s : PairState) : Prop where
  partners : Partners n sigma s.partner
  seen : ∀ a, s.partner a ≠ none → s.seen a = true

theorem pairCycle_done (hsigma : ∀ j < n, ∀ i, sigma j = some i → i < n) {skip : ℕ → Bool}
    {s : PairState} {start : ℕ} (hstart : start < n) (hs : PairsDone n sigma s) :
    ∃ s', pairCycle n sigma diag coupling pairTol skip s start = some s' ∧
      PairsDone n sigma s' := by
  unfold pairCycle
  split_ifs with hskip
  · exact ⟨s, rfl, hs⟩
  · obtain ⟨seen, cyc, hwalk, hw⟩ :=
      (@walkCycle_spec _ _ s.seen s.seen [] hsigma (n + 1) (some start))
        (fun x hx => Option.some.inj hx ▸ hstart)
      (fun l hl => (nomatch hl)) (Nat.le_add_right _ _)
      ⟨List.nodup_nil, fun x hx => (nomatch hx), fun x hx => hx, fun t x y hx => (nomatch hx)⟩
    rw [hwalk, Option.map_some]
    refine ⟨_, rfl, ?_⟩
    dsimp only
    split_ifs with hlen
    · exact ⟨hs.partners, fun a ha => hw.mono a (hs.seen a ha)⟩
    -- an open path is paired from its first member on
    · have hfirst : cyc.getLast?.bind sigma = cyc.head? ∨
          firstPaired sigma diag coupling cyc = 0 := by
        unfold firstPaired
        by_cases hclosed : cyc.getLast?.bind sigma = cyc.head?
        · exact .inl hclosed
        · exact .inr (if_pos hclosed)
      have hfree : ∀ x ∈ cyc, s.partner x = none := by
        intro x hx
        by_contra hne
        have := hs.seen x hne
        rw [(hw.mem x hx).2.2] at this
        cases this
      obtain ⟨hpart, hold⟩ := (@linkPairs_partners _ _ _ _ _ diag pairTol) hw hfirst
        hs.partners hfree (cyc.length / 2) (by omega)
      refine ⟨hpart, fun a ha => ?_⟩
      rcases hold a ha with hc | ⟨t, -, rfl⟩
      · exact hw.mono a (hs.seen a hc)
      · exact (hw.mem _ (memberAt_mem (by omega) _ t)).2.1

/-- The pairs of a matching. -/
theorem matchingPairs_spec (hsigma : ∀ j < n, ∀ i, sigma j = some i → i < n) :
    ∃ s, matchingPairs n sigma diag coupling pairTol = some s ∧ Partners n sigma s.partner := by
  have hpass : ∀ (skip : ℕ → Bool) (l : List ℕ) (s : PairState), (∀ x ∈ l, x < n) →
      PairsDone n sigma s →
        ∃ s', l.foldlM (pairCycle n sigma diag coupling pairTol skip) s = some s' ∧
          PairsDone n sigma s' := by
    intro skip l
    induction l with
    | nil => exact fun s _ hs => ⟨s, rfl, hs⟩
    | cons a l ih =>
      intro s hl hs
      obtain ⟨s₁, hs₁, hdone₁⟩ := (@pairCycle_done _ _ _ _ _ diag coupling pairTol hsigma skip)
        (hl a List.mem_cons_self) hs
      obtain ⟨s₂, hs₂, hdone₂⟩ := ih s₁ (fun x hx => hl x (List.mem_cons_of_mem a hx)) hdone₁
      exact ⟨s₂, by rw [List.foldlM_cons, hs₁]; exact hs₂, hdone₂⟩
  have hrange : ∀ x ∈ List.range n, x < n := fun x hx => List.mem_range.mp hx
  obtain ⟨s₁, hs₁, hdone₁⟩ := hpass (hasPred n sigma) (List.range n)
    ⟨fun _ => none, fun _ => false⟩ hrange
    ⟨⟨fun _ _ h => (nomatch h), fun _ _ h => (nomatch h)⟩, fun _ h => absurd rfl h⟩
  obtain ⟨s₂, hs₂, hdone₂⟩ := hpass (fun _ => false) (List.range n) s₁ hrange hdone₁
  refine ⟨s₂, ?_, hdone₂.partners⟩
  unfold matchingPairs
  rw [hs₁]
  exact hs₂

end Pairs

/-! ## Nodes -/

section Nodes

variable {n m i j a b : ℕ} {sigma partner : ℕ → Option ℕ} {s : NodeState}

/-- The first column of a column's group. -/
def groupFirst (partner : ℕ → Option ℕ) (i : ℕ) : ℕ :=
  match partner i with
  | none => i
  | some p => min i p

theorem groupFirst_eq_iff (h : Partners n sigma partner) :
    groupFirst partner i = groupFirst partner j ↔ i = j ∨ partner i = some j := by
  have hof : ∀ {x y}, partner x = some y → groupFirst partner x = min x y := fun hxy => by
    unfold groupFirst
    rw [hxy]
  -- the first of a group is the vertex itself or its partner
  have hcase : ∀ x, groupFirst partner x = x ∨ ∃ y, partner x = some y ∧
      groupFirst partner x = y := by
    intro x
    cases hx : partner x with
    | none =>
      left
      unfold groupFirst
      rw [hx]
    | some y =>
      rw [hof hx]
      rcases min_choice x y with hmin | hmin
      · exact .inl hmin
      · exact .inr ⟨y, rfl, hmin⟩
  constructor
  · intro heq
    rcases hcase i with hi | ⟨p, hp, hi⟩ <;> rcases hcase j with hj | ⟨q, hq, hj⟩ <;>
      rw [hi, hj] at heq
    · exact .inl heq
    · exact .inr (h.symm _ _ (heq ▸ hq))
    · exact .inr (heq ▸ hp)
    · rw [heq] at hp
      have := h.symm i q hp
      rw [h.symm j q hq] at this
      exact .inl (Option.some.inj this).symm
  · rintro (rfl | hij)
    · rfl
    · rw [hof hij, hof (h.symm i j hij), min_comm]

/-- After the columns below `m`: every one is numbered by its group. -/
structure NodesOf (partner : ℕ → Option ℕ) (m : ℕ) (s : NodeState) : Prop where
  first : ∀ i < m, s.firstOf[s.nodeOf i]? = some (groupFirst partner i)
  mem : ∀ x, x ∈ s.firstOf ↔ x < m ∧ groupFirst partner x = x
  nodup : s.firstOf.Nodup

theorem addNode_numbered (h : Partners n sigma partner) (hs : NodesOf partner m s) :
    NodesOf partner (m + 1) (addNode partner s m) := by
  -- a column that is the first of its group
  have hfresh : groupFirst partner m = m → NodesOf partner (m + 1)
      { s with
        nodeOf := Function.update s.nodeOf m s.firstOf.length
        firstOf := s.firstOf ++ [m] } := by
    intro hm
    have hnot : m ∉ s.firstOf := fun hmem => absurd ((hs.mem m).mp hmem).1 (lt_irrefl m)
    refine ⟨fun i hi => ?_, fun x => ?_, ?_⟩ <;> dsimp only
    · rcases Nat.lt_succ_iff_lt_or_eq.mp hi with hlt | rfl
      · have hget := hs.first i hlt
        rw [Function.update_of_ne hlt.ne,
          List.getElem?_append_left (List.getElem?_eq_some_iff.mp hget).1]
        exact hget
      · rw [Function.update_self, List.getElem?_append_right le_rfl, Nat.sub_self, hm]
        rfl
    · rw [List.mem_append, hs.mem x, List.mem_singleton]
      constructor
      · rintro (⟨hlt, hx⟩ | rfl)
        · exact ⟨Nat.lt_succ_of_lt hlt, hx⟩
        · exact ⟨Nat.lt_succ_self _, hm⟩
      · rintro ⟨hlt, hx⟩
        exact (Nat.lt_succ_iff_lt_or_eq.mp hlt).imp_left fun hlt' => ⟨hlt', hx⟩
    · exact List.nodup_append.mpr ⟨hs.nodup, List.nodup_singleton m, fun a ha b hb hab =>
        hnot (by rw [List.mem_singleton] at hb; exact hb ▸ hab ▸ ha)⟩
  unfold addNode
  cases hp : partner m with
  | none =>
    refine hfresh ?_
    unfold groupFirst
    rw [hp]
  | some p =>
    have hval : groupFirst partner m = min m p := by
      unfold groupFirst
      rw [hp]
    dsimp only
    split_ifs with hlt
    · -- its partner was numbered before
      have hsame : groupFirst partner m = groupFirst partner p :=
        (groupFirst_eq_iff h).mpr (.inr hp)
      refine ⟨fun i hi => ?_, fun x => ?_, hs.nodup⟩ <;> dsimp only
      · rcases Nat.lt_succ_iff_lt_or_eq.mp hi with him | rfl
        · rw [Function.update_of_ne him.ne]
          exact hs.first i him
        · rw [Function.update_self, hsame]
          exact hs.first p hlt
      · rw [hs.mem x]
        refine ⟨fun hx => ⟨Nat.lt_succ_of_lt hx.1, hx.2⟩, fun hx => ⟨?_, hx.2⟩⟩
        rcases Nat.lt_succ_iff_lt_or_eq.mp hx.1 with hxm | rfl
        · exact hxm
        · rw [hval, min_eq_right hlt.le] at hx
          omega
    · exact hfresh (hval.trans (min_eq_left (not_lt.mp hlt)))

theorem compressedNodes_numbered (h : Partners n sigma partner) :
    NodesOf partner n (compressedNodes n partner) := by
  have hfold : ∀ m, NodesOf partner m
      ((List.range m).foldl (addNode partner) ⟨fun _ => 0, [], 0⟩) := by
    intro m
    induction m with
    | zero =>
      exact ⟨fun i hi => absurd hi (Nat.not_lt_zero i),
        fun x => ⟨fun hx => (nomatch hx), fun hx => absurd hx.1 (Nat.not_lt_zero x)⟩,
          List.nodup_nil⟩
    | succ m ih =>
      rw [List.range_succ, List.foldl_append]
      exact addNode_numbered h ih
  exact hfold n

variable (hs : NodesOf partner n s)
include hs

theorem NodesOf.nodeOf_lt (hi : i < n) : s.nodeOf i < s.firstOf.length :=
  (List.getElem?_eq_some_iff.mp (hs.first i hi)).1

/-- Two columns have one node when they are a pair. -/
theorem NodesOf.nodeOf_eq_iff (h : Partners n sigma partner) (hi : i < n) (hj : j < n) :
    s.nodeOf i = s.nodeOf j ↔ i = j ∨ partner i = some j := by
  rw [← groupFirst_eq_iff h]
  constructor
  · intro heq
    have hfi := hs.first i hi
    rw [heq, hs.first j hj] at hfi
    exact (Option.some.inj hfi).symm
  · intro heq
    refine (List.getElem?_inj (hs.nodeOf_lt hi) hs.nodup).mp ?_
    rw [hs.first i hi, hs.first j hj, heq]

theorem NodesOf.getD_first {J : ℕ} (hJ : J < s.firstOf.length) :
    s.firstOf.getD J 0 < n ∧ s.nodeOf (s.firstOf.getD J 0) = J := by
  have hget : s.firstOf[J]? = some (s.firstOf.getD J 0) := by
    rw [List.getD_eq_getElem?_getD, List.getElem?_eq_getElem hJ]
    rfl
  obtain ⟨hx, hfirst⟩ := (hs.mem _).mp (List.mem_of_getElem? hget)
  refine ⟨hx, (List.getElem?_inj (hs.nodeOf_lt hx) hs.nodup).mp ?_⟩
  rw [hs.first _ hx, hfirst, hget]

/-- The columns of a node are those numbered by it. -/
theorem NodesOf.mem_nodeColumns (h : Partners n sigma partner) {J : ℕ} (hJ : J < s.firstOf.length) :
    i ∈ nodeColumns partner s.firstOf J ↔ i < n ∧ s.nodeOf i = J := by
  obtain ⟨hx, hnode⟩ := hs.getD_first hJ
  unfold nodeColumns
  dsimp only
  rw [List.mem_cons, Option.mem_toList]
  constructor
  · rintro (rfl | hp)
    · exact ⟨hx, hnode⟩
    · have hi := (h.edge _ _ hp).2.1
      exact ⟨hi, ((hs.nodeOf_eq_iff h hx hi).mpr (.inr hp)).symm.trans hnode⟩
  · rintro ⟨hi, hnodei⟩
    have heq := (hs.nodeOf_eq_iff h hx hi).mp (hnode.trans hnodei.symm)
    exact heq.imp_left Eq.symm

/-- The expanded order is a permutation. -/
theorem NodesOf.expand_perm (h : Partners n sigma partner) {nodePerm : List ℕ}
    (hperm : nodePerm.Perm (List.range s.firstOf.length)) :
    (expandOrder partner s.firstOf nodePerm).Perm (List.range n) := by
  have hlt : ∀ J ∈ nodePerm, J < s.firstOf.length :=
    fun J hJ => List.mem_range.mp (hperm.mem_iff.mp hJ)
  -- every column is in one node, and a node's two columns differ
  refine (List.perm_ext_iff_of_nodup ?_ List.nodup_range).mpr fun i => ?_
  · unfold expandOrder
    rw [List.nodup_flatMap]
    refine ⟨fun J hJ => ?_, ?_⟩
    · unfold nodeColumns
      dsimp only
      refine List.nodup_cons.mpr ⟨fun hmem => ?_, ?_⟩
      · exact (h.edge _ _ (Option.mem_toList.mp hmem)).2.2.1 rfl
      · cases partner (s.firstOf.getD J 0) with
        | none => exact List.nodup_nil
        | some p => exact List.nodup_singleton p
    · refine (hperm.nodup_iff.mpr List.nodup_range).imp_of_mem fun {J J'} hJ hJ' hne => ?_
      rw [Function.onFun_apply, List.disjoint_left]
      intro x hx hx'
      exact hne (((hs.mem_nodeColumns h (hlt J hJ)).mp hx).2.symm.trans
        ((hs.mem_nodeColumns h (hlt J' hJ')).mp hx').2)
  · unfold expandOrder
    rw [List.mem_flatMap, List.mem_range]
    constructor
    · rintro ⟨J, hJ, hi⟩
      exact ((hs.mem_nodeColumns h (hlt J hJ)).mp hi).1
    · intro hi
      have hnode := hs.nodeOf_lt hi
      exact ⟨s.nodeOf i, hperm.mem_iff.mpr (List.mem_range.mpr hnode),
        (hs.mem_nodeColumns h hnode).mpr ⟨hi, rfl⟩⟩

/-- Partners stand next to each other. -/
theorem NodesOf.expand_adjacent (h : Partners n sigma partner) {nodePerm : List ℕ}
    (hperm : nodePerm.Perm (List.range s.firstOf.length)) (hab : partner a = some b) :
    ∃ k : ℕ, ((expandOrder partner s.firstOf nodePerm)[k]? = some a ∧
        (expandOrder partner s.firstOf nodePerm)[k + 1]? = some b) ∨
      ((expandOrder partner s.firstOf nodePerm)[k]? = some b ∧
        (expandOrder partner s.firstOf nodePerm)[k + 1]? = some a) := by
  obtain ⟨ha, -, -, -⟩ := h.edge a b hab
  have hnode := hs.nodeOf_lt ha
  obtain ⟨l, l', hsplit⟩ := List.append_of_mem (hperm.mem_iff.mpr (List.mem_range.mpr hnode))
  obtain ⟨hx, hxnode⟩ := hs.getD_first hnode
  set x := s.firstOf.getD (s.nodeOf a) 0 with hxdef
  -- the first column of the node is one of the two
  have hcols : ∃ y, partner x = some y ∧ (x = a ∧ y = b ∨ x = b ∧ y = a) := by
    rcases (hs.nodeOf_eq_iff h hx ha).mp hxnode with heq | hp
    · exact ⟨b, heq ▸ hab, .inl ⟨heq, rfl⟩⟩
    · have hxb := h.symm x a hp
      rw [hab] at hxb
      exact ⟨a, hp, .inr ⟨(Option.some.inj hxb).symm, rfl⟩⟩
  obtain ⟨y, hxy, hcase⟩ := hcols
  have hexpand : expandOrder partner s.firstOf nodePerm
      = l.flatMap (nodeColumns partner s.firstOf)
        ++ x :: y :: l'.flatMap (nodeColumns partner s.firstOf) := by
    unfold expandOrder
    rw [hsplit, List.flatMap_append, List.flatMap_cons]
    congr 1
    rw [show nodeColumns partner s.firstOf (s.nodeOf a) = [x, y] by
      unfold nodeColumns
      dsimp only
      rw [← hxdef, hxy]
      rfl]
    rfl
  refine ⟨(l.flatMap (nodeColumns partner s.firstOf)).length, ?_⟩
  rw [hexpand, List.getElem?_append_right le_rfl, Nat.sub_self,
    List.getElem?_append_right (Nat.le_succ _), Nat.succ_sub (le_refl _), Nat.sub_self]
  rcases hcase with ⟨hx₁, hy₁⟩ | ⟨hx₁, hy₁⟩
  · exact .inl ⟨congrArg some hx₁, congrArg some hy₁⟩
  · exact .inr ⟨congrArg some hx₁, congrArg some hy₁⟩

end Nodes

/-! ## Duplicates -/

section Duplicates

variable {edges : Csr ℕ} {J : ℕ} {L : List (List ℕ)} {cur : List ℕ} {s : Compaction}

/-- The columns `L` and a part `cur` of the next one stand in front, and what lies beyond
    `from` is as it was. -/
structure Compacted (edges : Csr ℕ) (L : List (List ℕ)) (cur : List ℕ) (p : ℕ) (s : Compaction) :
    Prop where
  stored : (List.range s.out).map s.row = L.flatten ++ cur
  out_le : s.out ≤ p
  rest : ∀ t, p ≤ t → s.row t = edges.item t
  ptr : ∀ t < L.length, s.ptr t = (L.take t).flatten.length

/-- A row seen again in a column is dropped, another one is kept. -/
theorem keepRow_compacted {p : ℕ} (h : Compacted edges L cur p s)
    (hmark : ∀ I, s.mark I = some J ↔ I ∈ cur) :
    Compacted edges L (if edges.item p ∈ cur then cur else cur ++ [edges.item p]) (p + 1)
        (keepRow J s p) ∧
      (∀ I, (keepRow J s p).mark I = some J ↔
        I ∈ if edges.item p ∈ cur then cur else cur ++ [edges.item p]) ∧
      (∀ I J', J' ≠ J → (keepRow J s p).mark I = some J' → s.mark I = some J') ∧
      (keepRow J s p).ptr = s.ptr := by
  obtain ⟨hstored, hle, hrest, hptr⟩ := h
  have hrow := hrest p le_rfl
  unfold keepRow
  dsimp only
  rw [hrow]
  -- the marks tell which rows the column has already
  by_cases hmem : edges.item p ∈ cur
  · rw [if_pos ((hmark _).mpr hmem), if_pos hmem]
    exact ⟨⟨hstored, by omega, fun t ht => hrest t (by omega), hptr⟩, hmark,
      fun I J' _ hI => hI, rfl⟩
  · rw [if_neg (mt (hmark _).mp hmem), if_neg hmem]
    refine ⟨⟨?_, ?_, fun t ht => ?_, hptr⟩, fun I => ?_, fun I J' hne hI => ?_,
      rfl⟩ <;> dsimp only at *
    · rw [List.range_succ, List.map_append, ← List.append_assoc, ← hstored]
      congr 1
      · refine List.map_congr_left fun t ht => Function.update_of_ne ?_ _ _
        exact (List.mem_range.mp ht).ne
      · rw [List.map_singleton, Function.update_self]
    · omega
    · rw [Function.update_of_ne (by omega)]
      exact hrest t (by omega)
    · by_cases hI : I = edges.item p
      · rw [hI, Function.update_self]
        simp
      · rw [Function.update_of_ne hI, hmark I, List.mem_append, List.mem_singleton, or_iff_left hI]
    · by_cases hIp : I = edges.item p
      · rw [hIp, Function.update_self] at hI
        exact absurd (Option.some.inj hI).symm hne
      · rwa [Function.update_of_ne hIp] at hI

/-- A list without the elements that came before. -/
def addNew (cur : List ℕ) (x : ℕ) : List ℕ := if x ∈ cur then cur else cur ++ [x]

theorem foldl_addNew (l cur : List ℕ) (hcur : cur.Nodup) :
    (l.foldl addNew cur).Nodup ∧ ∀ x, x ∈ l.foldl addNew cur ↔ x ∈ cur ∨ x ∈ l := by
  induction l generalizing cur with
  | nil => exact ⟨hcur, fun x => by simp⟩
  | cons a l ih =>
    have hnodup : (addNew cur a).Nodup := by
      unfold addNew
      split_ifs with ha
      · exact hcur
      · exact List.nodup_append.mpr ⟨hcur, List.nodup_singleton a, fun x hx y hy hxy =>
          ha (by rw [List.mem_singleton] at hy; exact hy ▸ hxy ▸ hx)⟩
    have hmem : ∀ x, x ∈ addNew cur a ↔ x ∈ cur ∨ x = a := by
      intro x
      unfold addNew
      split_ifs with ha
      · exact (or_iff_left_of_imp fun hx => hx ▸ ha).symm
      · rw [List.mem_append, List.mem_singleton]
    obtain ⟨hnod, hall⟩ := ih (addNew cur a) hnodup
    refine ⟨hnod, fun x => ?_⟩
    rw [List.foldl_cons, hall, hmem, List.mem_cons, or_assoc]

/-- One column: its rows once each, behind the columns before it. -/
theorem compactColumn_compacted {nnodes : ℕ} (hmono : edges.ptr L.length ≤ edges.ptr (L.length + 1))
    (h : Compacted edges L [] (edges.ptr L.length) s)
    (hptr : ∀ t, L.length ≤ t → t ≤ nnodes → s.ptr t = edges.ptr t) (hL : L.length < nnodes)
    (hmark : ∀ I J', s.mark I = some J' → J' < L.length) :
    Compacted edges (L ++ [(edges.slice L.length).foldl addNew []]) []
        (edges.ptr (L.length + 1)) (compactColumn s L.length) ∧
      (∀ t, L.length + 1 ≤ t → t ≤ nnodes → (compactColumn s L.length).ptr t = edges.ptr t) ∧
      ∀ I J', (compactColumn s L.length).mark I = some J' → J' < L.length + 1 := by
  set J := L.length with hJ
  set s₁ : Compaction := { s with ptr := Function.update s.ptr J s.out } with hs₁
  -- by induction on the rows to come: `cur` are the rows of the column kept so far
  have hfold : ∀ m, ∀ b, edges.ptr J ≤ b → ∀ (cur : List ℕ) (s' : Compaction),
      Compacted edges L cur b s' → (∀ I, s'.mark I = some J ↔ I ∈ cur) →
      (∀ I J', s'.mark I = some J' → J' < J + 1) → s'.ptr = s₁.ptr →
        Compacted edges L (((List.range' b m).map edges.item).foldl addNew cur) (b + m)
            ((List.range' b m).foldl (keepRow J) s') ∧
          (∀ I J', ((List.range' b m).foldl (keepRow J) s').mark I = some J' → J' < J + 1) ∧
          ((List.range' b m).foldl (keepRow J) s').ptr = s₁.ptr := by
    intro m
    induction m with
    | zero => exact fun b _ cur s' hc _ hm hp => ⟨hc, hm, hp⟩
    | succ m ih =>
      intro b hb cur s' hc hcur hm hp
      obtain ⟨hc₁, hcur₁, hother, hp₁⟩ := keepRow_compacted hc hcur
      obtain ⟨hc₂, hm₂, hp₂⟩ := ih (b + 1) (by omega) _ _ hc₁ hcur₁ (fun I J' hI => by
        by_cases hJJ : J' = J
        · omega
        · exact hm I J' (hother I J' hJJ hI)) (hp₁.trans hp)
      rw [List.range'_succ, List.foldl_cons, List.map_cons, List.foldl_cons,
        show b + (m + 1) = b + 1 + m by omega]
      exact ⟨hc₂, hm₂, hp₂⟩
  have hstart : Compacted edges L [] (edges.ptr J) s₁ := by
    refine ⟨h.stored, h.out_le, h.rest, fun t ht => ?_⟩
    rw [hs₁]
    dsimp only
    rw [Function.update_of_ne ht.ne]
    exact h.ptr t ht
  -- the marks left are those of columns before
  have hnone : ∀ I, s₁.mark I = some J ↔ I ∈ ([] : List ℕ) := fun I =>
    ⟨fun hI => absurd (hmark I J hI) (lt_irrefl J), fun hI => (nomatch hI)⟩
  obtain ⟨hc, hm, hp⟩ := hfold (edges.ptr (J + 1) - edges.ptr J) (edges.ptr J) le_rfl [] s₁ hstart
    hnone (fun I J' hI => Nat.lt_succ_of_lt (hmark I J' hI)) rfl
  have hrun : compactColumn s J
      = (List.range' (edges.ptr J) (edges.ptr (J + 1) - edges.ptr J)).foldl (keepRow J) s₁ := by
    unfold compactColumn
    rw [hptr J le_rfl (by omega), hptr (J + 1) (by omega) (by omega)]
  rw [hrun]
  rw [Nat.add_sub_cancel' hmono] at hc
  -- the column starts where the columns before it end
  have hout : s.out = L.flatten.length := by
    have := congrArg List.length h.stored
    rwa [List.length_map, List.length_range, List.append_nil] at this
  refine ⟨⟨?_, hc.out_le, hc.rest, fun t ht => ?_⟩, fun t ht htn => ?_, hm⟩
  · rw [hc.stored, List.flatten_append, List.flatten_singleton, List.append_nil]
    rfl
  · rw [hp, hs₁]
    dsimp only
    rw [List.length_append, List.length_singleton] at ht
    by_cases htJ : t = J
    · rw [htJ, Function.update_self, hout, hJ, List.take_left]
    · rw [Function.update_of_ne htJ, h.ptr t (by omega), List.take_append_of_le_length (by omega)]
  · rw [hp, hs₁]
    dsimp only
    rw [Function.update_of_ne (by omega)]
    exact hptr t (by omega) htn

/-- The slices of lists that stand one behind the other. -/
theorem slice_of_flatten {b : Csr ℕ} {out : ℕ} (hstored : (List.range out).map b.item = L.flatten)
    (hptr : ∀ t ≤ L.length, b.ptr t = (L.take t).flatten.length) (hJ : J < L.length) :
    b.slice J = L[J] := by
  have hout : out = L.flatten.length := by
    have := congrArg List.length hstored
    rwa [List.length_map, List.length_range] at this
  have hsplit : L.flatten = (L.take J).flatten ++ (L[J] ++ (L.drop (J + 1)).flatten) := by
    rw [← List.flatten_cons, ← List.drop_eq_getElem_cons hJ, ← List.flatten_append,
      List.take_append_drop]
  have hnext : b.ptr (J + 1) = b.ptr J + L[J].length := by
    rw [hptr _ hJ, hptr _ hJ.le, List.take_succ_eq_append_getElem hJ, List.flatten_append,
      List.flatten_singleton, List.length_append]
  have hpart : b.slice J = (((List.range out).map b.item).drop (b.ptr J)).take L[J].length := by
    have hlen := congrArg List.length hsplit
    rw [List.length_append, List.length_append, ← hptr _ hJ.le, ← hout] at hlen
    rw [Csr.slice, hnext, Nat.add_sub_cancel_left, ← List.map_drop, ← List.map_take,
      List.range_eq_range', List.drop_range', List.take_range'_of_length_ge (by omega), Nat.mul_one,
      Nat.zero_add]
  rw [hpart, hstored, hsplit, hptr _ hJ.le, List.drop_left, List.take_left]

/-- Every column with its duplicates removed. -/
theorem removeDuplicates_slice {nnodes : ℕ} (hmono : ∀ t < nnodes, edges.ptr t ≤ edges.ptr (t + 1))
    (hJ : J < nnodes) :
    (removeDuplicates nnodes edges).slice J = (edges.slice J).foldl addNew [] := by
  -- column by column: the first `m` are compacted, the others untouched
  have hfold : ∀ m ≤ nnodes, ∃ s, (List.range m).foldl compactColumn
      ⟨edges.ptr, edges.item, fun _ => none, 0⟩ = s ∧
      Compacted edges ((List.range m).map fun t => (edges.slice t).foldl addNew []) []
        (edges.ptr m) s ∧
      (∀ t, m ≤ t → t ≤ nnodes → s.ptr t = edges.ptr t) ∧ ∀ I J', s.mark I = some J' → J' < m := by
    intro m
    induction m with
    | zero =>
      exact fun _ => ⟨_, rfl, ⟨rfl, Nat.zero_le _, fun _ _ => rfl, fun t ht => absurd ht
        (Nat.not_lt_zero t)⟩,
        fun _ _ _ => rfl, fun _ _ h => (nomatch h)⟩
    | succ m ih =>
      intro hm
      obtain ⟨s, hs, hc, hptr, hmark⟩ := ih (by omega)
      have hlen : ((List.range m).map fun t => (edges.slice t).foldl addNew []).length = m := by
        rw [List.length_map, List.length_range]
      have hstep := (@compactColumn_compacted edges ((List.range m).map fun t =>
        (edges.slice t).foldl addNew []) s nnodes)
        (by rw [hlen]; exact hmono m (by omega)) (by rw [hlen]; exact hc) (by rw [hlen]; exact hptr)
        (by rw [hlen]; omega) (by rw [hlen]; exact hmark)
      rw [hlen] at hstep
      refine ⟨compactColumn s m, ?_, ?_, hstep.2.1, hstep.2.2⟩
      · rw [List.range_succ, List.foldl_append, hs]
        rfl
      · rw [List.range_succ, List.map_append]
        exact hstep.1
  obtain ⟨s, hs, hc, -, -⟩ := hfold nnodes le_rfl
  have hlen : ((List.range nnodes).map fun t => (edges.slice t).foldl addNew []).length =
      nnodes := by
    rw [List.length_map, List.length_range]
  have hstored := hc.stored
  rw [List.append_nil] at hstored
  have hslice := (@slice_of_flatten J ((List.range nnodes).map fun t => (edges.slice t).foldl addNew
    []) (removeDuplicates nnodes edges) s.out)
    (by
      unfold removeDuplicates
      rw [hs]
      exact hstored)
    (fun t ht => by
      unfold removeDuplicates
      rw [hs]
      dsimp only
      by_cases htn : t = nnodes
      · rw [htn, Function.update_self, List.take_of_length_le hlen.le, ← hstored, List.length_map,
          List.length_range]
      · rw [Function.update_of_ne htn]
        exact hc.ptr t (by omega))
    (by omega)
  rw [hslice, List.getElem_map, List.getElem_range]

end Duplicates

/-! ## The compressed graph -/

section Graph

variable {A : LowerPattern} {nodeOf : ℕ → ℕ} {nnodes I J : ℕ}

theorem compressedEdges_mem (hnode : ∀ i < A.n, nodeOf i < nnodes) :
    (∀ t < nnodes, (compressedEdges A nodeOf nnodes).ptr t ≤ (compressedEdges A nodeOf nnodes).ptr
      (t + 1)) ∧
      ∀ I J, I ∈ (compressedEdges A nodeOf nnodes).slice J ↔ ∃ j < A.n, ∃ i ∈ A.csc.slice j,
        nodeOf i ≠ nodeOf j ∧ min (nodeOf i) (nodeOf j) = J ∧ max (nodeOf i) (nodeOf j) = I := by
  have hitem : ∀ e :
    ℕ × ℕ, (e ∈ (List.range A.n).flatMap fun j => (A.csc.slice j).filterMap fun i =>
      if nodeOf i ≠ nodeOf j then some (min (nodeOf i) (nodeOf j), max (nodeOf i) (nodeOf j))
      else none) ↔ ∃ j < A.n, ∃ i ∈ A.csc.slice j, nodeOf i ≠ nodeOf j ∧
        min (nodeOf i) (nodeOf j) = e.1 ∧ max (nodeOf i) (nodeOf j) = e.2 := by
    intro e
    simp only [List.mem_flatMap, List.mem_range, List.mem_filterMap, Option.ite_none_right_eq_some,
      Option.some.injEq, Prod.ext_iff]
  have hkey : ∀ e ∈ (List.range A.n).flatMap fun j => (A.csc.slice j).filterMap fun i =>
      if nodeOf i ≠ nodeOf j then some (min (nodeOf i) (nodeOf j), max (nodeOf i) (nodeOf j))
      else none, e.1 < nnodes := by
    intro e he
    obtain ⟨j, hj, i, -, -, hmin, -⟩ := (hitem e).mp he
    rw [← hmin]
    exact (min_le_right _ _).trans_lt (hnode j hj)
  refine ⟨fun t ht => ?_, fun I J => ?_⟩
  · change Csr.runningSums nnodes _ t ≤ Csr.runningSums nnodes _ (t + 1)
    rw [Csr.runningSums_countKeys _ ht.le, Csr.runningSums_countKeys _ ht, Csr.countP_lt_succ]
    exact Nat.le_add_right _ _
  · unfold compressedEdges
    rw [Csr.mem_ofItems_slice hkey]
    exact hitem (J, I)

/-- The graph that is ordered: simple, with the edges between different groups. -/
theorem compressedGraph_spec (hnode : ∀ i < A.n, nodeOf i < nnodes) :
    (∀ J < nnodes, ((lowerCscAdjacency nnodes (removeDuplicates nnodes
      (compressedEdges A nodeOf nnodes))).slice J).Nodup) ∧
    ∀ I < nnodes, ∀ J < nnodes,
      (I ∈ (lowerCscAdjacency nnodes (removeDuplicates nnodes
        (compressedEdges A nodeOf nnodes))).slice J ↔
          I ≠ J ∧ ∃ i j, nodeOf i = I ∧ nodeOf j = J ∧ (A.adj i j ∨ A.adj j i)) := by
  obtain ⟨hmono, hmem⟩ := compressedEdges_mem (A := A) hnode
  have hslice : ∀ J < nnodes, ∀ I, I ∈ (removeDuplicates nnodes
      (compressedEdges A nodeOf nnodes)).slice J ↔ ∃ j < A.n, ∃ i ∈ A.csc.slice j,
        nodeOf i ≠ nodeOf j ∧ min (nodeOf i) (nodeOf j) = J ∧ max (nodeOf i) (nodeOf j) = I := by
    intro J hJ I
    rw [removeDuplicates_slice hmono hJ, (foldl_addNew _ [] List.nodup_nil).2,
      or_iff_right List.not_mem_nil]
    exact hmem I J
  have hlower : ∀ J < nnodes, ∀ I ∈ (removeDuplicates nnodes
      (compressedEdges A nodeOf nnodes)).slice J, J < I ∧ I < nnodes := by
    intro J hJ I hI
    obtain ⟨j, hj, i, hi, hne, rfl, rfl⟩ := (hslice J hJ I).mp hI
    have h₁ := hnode j hj
    have h₂ := hnode i (A.lower j hj i hi).2
    omega
  set C : LowerPattern := ⟨nnodes, removeDuplicates nnodes (compressedEdges A nodeOf nnodes),
    fun J hJ I hI => ⟨(hlower J hJ I hI).1.le, (hlower J hJ I hI).2⟩⟩ with hC
  have hsimple := fun {J} (hJ : J < nnodes) => lowerCscAdjacency_simple C
    (fun J hJ I hI => (hlower J hJ I hI).1)
    (fun J hJ => by
      change ((removeDuplicates nnodes (compressedEdges A nodeOf nnodes)).slice J).Nodup
      rw [removeDuplicates_slice hmono hJ]
      exact (foldl_addNew _ [] List.nodup_nil).1) hJ
  have hCadj : ∀ I J, I < nnodes → J < nnodes → I ≠ J → (C.adj I J ∨ C.adj J I ↔
      ∃ i j, nodeOf i = I ∧ nodeOf j = J ∧ (A.adj i j ∨ A.adj j i)) := by
    -- an entry of the pattern with ends in both groups
    have hadj : ∀ I J, I < nnodes → J < nnodes → C.adj I J →
        ∃ i j, nodeOf i = I ∧ nodeOf j = J ∧ (A.adj i j ∨ A.adj j i) := by
      rintro I J - hJ ⟨-, -, hIJ⟩
      obtain ⟨j, hj, i, hi, hne, hmin, hmax⟩ := (hslice J hJ I).mp hIJ
      have hij : A.adj i j := by
        refine ⟨lt_of_le_of_ne (A.lower j hj i hi).1 ?_, hj, hi⟩
        rintro rfl
        exact hne rfl
      rcases le_total (nodeOf i) (nodeOf j) with hle | hle
      · rw [min_eq_left hle] at hmin
        rw [max_eq_right hle] at hmax
        exact ⟨j, i, hmax, hmin, .inr hij⟩
      · rw [min_eq_right hle] at hmin
        rw [max_eq_left hle] at hmax
        exact ⟨i, j, hmax, hmin, .inl hij⟩
    have hback : ∀ i j, A.adj i j → nodeOf i ≠ nodeOf j →
        C.adj (max (nodeOf i) (nodeOf j)) (min (nodeOf i) (nodeOf j)) := by
      rintro i j ⟨-, hj, hi⟩ hne
      have hjn := hnode j hj
      have hin := hnode i (A.lower j hj i hi).2
      exact ⟨by omega, lt_of_le_of_lt (min_le_right _ _) hjn,
        (hslice _ (by omega) _).mpr ⟨j, hj, i, hi, hne, rfl, rfl⟩⟩
    intro I J hI hJ hne
    constructor
    · rintro (h | h)
      · exact hadj I J hI hJ h
      · obtain ⟨i, j, hi, hj, hij⟩ := hadj J I hJ hI h
        exact ⟨j, i, hj, hi, hij.symm⟩
    · rintro ⟨i, j, rfl, rfl, hij⟩
      have hcase : C.adj (max (nodeOf i) (nodeOf j)) (min (nodeOf i) (nodeOf j)) := by
        rcases hij with hij | hji
        · exact hback i j hij hne
        · rw [max_comm, min_comm]
          exact hback j i hji hne.symm
      rcases le_total (nodeOf i) (nodeOf j) with hle | hle
      · rw [max_eq_right hle, min_eq_left hle] at hcase
        exact .inr hcase
      · rw [max_eq_left hle, min_eq_right hle] at hcase
        exact .inl hcase
  refine ⟨fun J hJ => (hsimple hJ).1, fun I hI J hJ => ?_⟩
  by_cases hne : I = J
  · subst hne
    exact ⟨fun hmem => absurd hmem (hsimple hI).2, fun hc => absurd rfl hc.1⟩
  · rw [and_iff_right hne, ← hCadj I J hI hJ hne, or_comm]
    exact mem_lowerCscAdjacency C hne

end Graph

/-! ## The order -/

section Order

variable {K : Type*} [Field K] [LinearOrder K]

/-- Disjoint pairs on edges of the matching, adjacent in the order. -/
structure PairsAdjacent (n : ℕ) (sigma : ℕ → Option ℕ) (out : MatchingOrder) : Prop where
  partners : Partners n sigma out.partner
  adjacent : ∀ a b, out.partner a = some b → ∃ k : ℕ,
    (out.perm[k]? = some a ∧ out.perm[k + 1]? = some b) ∨
      (out.perm[k]? = some b ∧ out.perm[k + 1]? = some a)

/-- The graph that was ordered is the one induced on the groups. -/
structure InducedGraph (A : LowerPattern) (out : MatchingOrder) : Prop where
  group : ∀ i < A.n, ∀ j < A.n,
    out.nodes.nodeOf i = out.nodes.nodeOf j ↔ i = j ∨ out.partner i = some j
  node : ∀ J, J < out.nodes.firstOf.length ↔ ∃ i < A.n, out.nodes.nodeOf i = J
  simple : ∀ J < out.nodes.firstOf.length, (out.graph.slice J).Nodup
  edge : ∀ I < out.nodes.firstOf.length, ∀ J < out.nodes.firstOf.length,
    (I ∈ out.graph.slice J ↔ I ≠ J ∧
      ∃ i j, out.nodes.nodeOf i = I ∧ out.nodes.nodeOf j = J ∧ (A.adj i j ∨ A.adj j i))

omit [Field K] [LinearOrder K] in
/-- Either order is the expansion of a permutation of the nodes. -/
theorem keptOrder_eq (ord : Orderings K) (graph : Csr ℕ) (partner : ℕ → Option ℕ) (firstOf : List ℕ)
    (hmetis : ∀ m g l, ord.metis m g = some l → l.Perm (List.range m)) {nodePerm : List ℕ}
    (hown : nodePerm.Perm (List.range firstOf.length)) :
    ∃ l : List ℕ, l.Perm (List.range firstOf.length) ∧
      keptOrder ord graph partner firstOf (expandOrder partner firstOf nodePerm)
        = expandOrder partner firstOf l := by
  unfold keptOrder
  split_ifs with htry
  · cases hm : ord.metis firstOf.length graph with
    | none => exact ⟨nodePerm, hown, rfl⟩
    | some mperm =>
      dsimp only
      split_ifs
      · exact ⟨mperm, hmetis _ _ _ hm, rfl⟩
      · exact ⟨nodePerm, hown, rfl⟩
  · exact ⟨nodePerm, hown, rfl⟩

/-- For any partial matching the routine returns a permutation with the pairs adjacent, from an
    order of the induced graph; without an order it failed on an empty matrix or in AMD. -/
theorem matching_order (A : LowerPattern) (values : ℕ → K) (mr : MatchingInput K) (pairTol tiny : K)
    (ord : Orderings K) (hsigma : ∀ j < A.n, ∀ i, mr.sigma j = some i → i < A.n)
    (hamd : ∀ m g l, ord.amd m g = some l → l.Perm (List.range m))
    (hmetis : ∀ m g l, ord.metis m g = some l → l.Perm (List.range m)) :
    ∃ r, matchingOrderFrom A values mr pairTol tiny ord = some r ∧
      (r = none → A.n = 0 ∨ ∃ m g, ord.amd m g = none) ∧
      ∀ out, r = some out → out.perm.Perm (List.range A.n) ∧ PairsAdjacent A.n mr.sigma out ∧
        InducedGraph A out := by
  unfold matchingOrderFrom
  split_ifs with hn
  · exact ⟨none, rfl, fun _ => .inl hn, fun _ h => (nomatch h)⟩
  · obtain ⟨pairs, hpairs, hpart⟩ := @matchingPairs_spec K _ _ A.n mr.sigma
      (scaledEntries A values mr).diag
      (fun c => ord.log (max ((scaledEntries A values mr).matched c) tiny)) pairTol hsigma
    -- the pairs and single columns are the nodes of the graph that is ordered
    have hnum := compressedNodes_numbered (n := A.n) hpart
    dsimp only
    rw [hpairs, Option.map_some]
    set nodes := compressedNodes A.n pairs.partner with hnodes
    set graph := lowerCscAdjacency nodes.firstOf.length (removeDuplicates nodes.firstOf.length
      (compressedEdges A nodes.nodeOf nodes.firstOf.length)) with hgraph
    refine ⟨_, rfl, fun hnone => ?_, fun out hout => ?_⟩
    · rw [Option.map_eq_none_iff] at hnone
      exact .inr ⟨_, _, hnone⟩
    · obtain ⟨nodePerm, hamdrun, rfl⟩ := Option.map_eq_some_iff.mp hout
      obtain ⟨l, hl, hperm⟩ := keptOrder_eq ord graph pairs.partner nodes.firstOf hmetis
        (hamd _ _ _ hamdrun)
      have hgr := (@compressedGraph_spec A nodes.nodeOf nodes.firstOf.length) fun i hi =>
        hnum.nodeOf_lt hi
      refine ⟨?_, ⟨hpart, fun a b hab => ?_⟩, ?_⟩
      · dsimp only
        rw [hperm]
        exact hnum.expand_perm hpart hl
      · dsimp only
        rw [hperm]
        exact hnum.expand_adjacent hpart hl hab
      · refine ⟨fun i hi j hj => hnum.nodeOf_eq_iff hpart hi hj, fun J => ⟨fun hJ => ?_, ?_⟩, hgr.1,
          hgr.2⟩
        · exact ⟨_, hnum.getD_first hJ⟩
        · rintro ⟨i, hi, rfl⟩
          exact hnum.nodeOf_lt hi

/-- Columns 0 and 1 matched to each other, the others free, in the natural order. -/
def swapMatching : MatchingInput ℚ := ⟨fun j => [some 1, some 0].getD j none, fun _ => 1⟩

def naturalOrderings : Orderings ℚ where
  log := id
  amd m _ := some (List.range m)
  metis _ _ := none
  tryMetis _ := false
  keepMetis _ _ := false

theorem matching_order_swap : ∃ out,
    matchingOrderFrom kitePattern (fun _ => 0) swapMatching 1 0 naturalOrderings = some (some out) ∧
      out.perm.Perm (List.range 4) ∧ PairsAdjacent 4 swapMatching.sigma out ∧
        InducedGraph kitePattern out := by
  have hsigma : ∀ j < 4, ∀ i ∈ swapMatching.sigma j, i < 4 := by decide
  obtain ⟨r, hr, hnone, hsome⟩ := matching_order kitePattern (fun _ => 0) swapMatching 1 0
    naturalOrderings (fun j hj i hi => hsigma j hj i hi)
    (fun m g l hl => Option.some.inj hl ▸ .refl _) fun m g l hl => (nomatch hl)
  cases r with
  | none =>
    rcases hnone rfl with h | ⟨m, g, h⟩
    · exact absurd h (by decide)
    · cases h
  | some out => exact ⟨out, hr, hsome out rfl⟩

end Order

end Symbolic
end SmfSolver
