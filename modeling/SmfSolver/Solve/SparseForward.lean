/-
  SmfSolver.Solve.SparseForward

  The sparse forward solve against the dense one.

  Leaving fronts out never changes the result: the reach is closed under parents, the rows of
  a front are columns of its ancestors, and so the pivots of a front out of reach stay zero
  (`foldl_reach`).  What may change it is the reading of the factor: the sparse solve takes
  rows, pivot counts and panels from the analysis, the dense one from the solve steps.
-/
import SmfSolver.Solve.FactorEntries
import SmfSolver.Kernel.LdltKernel
import Mathlib.Data.List.Forall2

namespace SmfSolver
namespace Solve

variable {K : Type*} [Field K]

/-! ## The tree -/

section Tree

variable {ak : AnalysisKeep} {s t c r : ℕ} {R : ℕ → Prop}

/-- The columns of a supernode in the map, the map before kept elsewhere. -/
theorem foldl_columns (s first w : ℕ) (m : ℕ → Option ℕ) :
    (List.range' first w).foldl (fun m c => Function.update m c (some s)) m c =
      if first ≤ c ∧ c < first + w then some s else m c := by
  induction w generalizing m with
  | zero => rw [if_neg (by omega)]; rfl
  | succ w ih =>
    rw [List.range'_concat, List.foldl_append, List.foldl_cons, List.foldl_nil, Nat.one_mul]
    by_cases hc : c = first + w
    · rw [hc, Function.update_self, if_pos (by omega)]
    · rw [Function.update_of_ne hc, ih]
      exact if_congr (by omega) rfl rfl

theorem colToSn_eq_some (hs : s < ak.ns) (hlo : ak.colStart s ≤ c) (hhi : c < ak.colEnd s) :
    colToSn ak c = some s := by
  have hfold : ∀ k ≤ ak.ns, s < k → (List.range k).foldl
      (fun m s => (List.range' (ak.colStart s) (ak.width s)).foldl
        (fun m c => Function.update m c (some s)) m) (fun _ => none) c = some s := by
    intro k
    induction k with
    | zero => exact fun _ h => absurd h (Nat.not_lt_zero s)
    | succ k ih =>
      intro hk hlt
      rw [List.range_succ, List.foldl_append, List.foldl_cons, List.foldl_nil, foldl_columns]
      rcases Nat.lt_succ_iff_lt_or_eq.mp hlt with hlt' | rfl
      · -- the columns of another supernode
        have hother : ¬(ak.colStart k ≤ c ∧ c < ak.colStart k + ak.width k) := by
          rintro ⟨hklo, hkhi⟩
          have hend : c < ak.colEnd k := by
            unfold AnalysisKeep.width at hkhi
            omega
          exact hlt'.ne (ak.apart s hs k hk c hlo hhi hklo hend)
        rw [if_neg hother]
        exact ih (Nat.le_of_succ_le hk) hlt'
      · rw [if_pos ⟨hlo, by unfold AnalysisKeep.width; omega⟩]
  exact hfold ak.ns le_rfl hs

theorem exists_colToSn (hc : c < ak.n) : ∃ s < ak.ns, colToSn ak c = some s := by
  obtain ⟨s, hs, hlo, hhi⟩ := ak.cover c hc
  exact ⟨s, hs, colToSn_eq_some hs hlo hhi⟩

/-- A set of supernodes with all their ancestors. -/
def Closed (ak : AnalysisKeep) (R : ℕ → Prop) : Prop := ∀ s t, R s → ak.parent s = some t → R t

theorem width_le (hs : s < ak.ns) : ak.width s ≤ (ak.frontRows s).length := by
  rcases Nat.eq_zero_or_pos (ak.width s) with h0 | hpos
  · omega
  · have hlast := ak.own s hs (ak.width s - 1) (by unfold AnalysisKeep.width at *; omega)
    obtain ⟨hlt, -⟩ := List.getElem?_eq_some_iff.mp hlast
    omega

/-- Rows of a front are columns of the supernode or of an ancestor. -/
theorem Closed.row (hR : Closed ak R) (hs : s < ak.ns) (hRs : R s) (hr : r ∈ ak.frontRows s) :
    ∃ t < ak.ns, colToSn ak r = some t ∧ R t := by
  induction hm : ak.ns - s using Nat.strong_induction_on generalizing s with
  | _ m ih =>
    rcases Nat.lt_or_ge r (ak.colEnd s) with hlt | hge
    · obtain ⟨k, hk⟩ := List.mem_iff_getElem?.mp hr
      have hkw : k < ak.colEnd s - ak.colStart s := by
        by_contra hlo
        exact absurd (ak.below s hs k r (not_lt.mp hlo) hk) (by omega)
      have hrow : r = ak.colStart s + k := by
        rw [ak.own s hs k hkw] at hk
        exact (Option.some.inj hk).symm
      exact ⟨s, hs, colToSn_eq_some hs (by omega) hlt, hRs⟩
    · obtain ⟨t, ht, hrt⟩ := ak.contained s hs r hr hge
      obtain ⟨hst, htn⟩ := ak.parent_lt s hs t ht
      exact ih (ak.ns - t) (by omega) htn (hR s t hRs ht) hrt rfl

/-- In an order with children first, no front has a row that was a pivot before. -/
theorem pairwise_rows {order : List ℕ} (hperm : order.Perm (List.range ak.ns))
    (horder : order.Pairwise fun a b => ak.parent b ≠ some a) :
    order.Pairwise fun a b => ∀ i < ak.width a, ∀ r ∈ ak.frontRows b, r ≠ ak.colStart a + i := by
  have hnodup : order.Nodup := hperm.nodup_iff.mpr List.nodup_range
  have hlt : ∀ k (hk : k < order.length), order[k] < ak.ns := fun k hk =>
    List.mem_range.mp (hperm.subset (List.getElem_mem hk))
  rw [List.pairwise_iff_getElem] at horder ⊢
  rintro i j hi hj hij k hk r hr rfl
  -- the supernodes from position `j` on contain the ancestors of the one there
  have hclosed : Closed ak fun t => ∃ m, ∃ hm : m < order.length, j ≤ m ∧ order[m] = t := by
    rintro _ t ⟨m, hm, hjm, rfl⟩ ht
    obtain ⟨hup, htn⟩ := ak.parent_lt _ (hlt m hm) t ht
    obtain ⟨l, hl, rfl⟩ := List.mem_iff_getElem.mp (hperm.symm.subset (List.mem_range.mpr htn))
    refine ⟨l, hl, ?_, rfl⟩
    by_contra hlm
    rcases lt_trichotomy l m with h | rfl | h
    · exact horder l m hl hm h ht
    · exact absurd hup (lt_irrefl _)
    · omega
  obtain ⟨t, -, hcol, m, hm, hjm, rfl⟩ := hclosed.row (hlt j hj) ⟨j, hj, le_rfl, rfl⟩ hr
  have hend : ak.colStart order[i] + k < ak.colEnd order[i] := by
    unfold AnalysisKeep.width at hk
    omega
  rw [colToSn_eq_some (hlt i hi) (Nat.le_add_right _ k) hend] at hcol
  have him := (hnodup.getElem_inj_iff).mp (Option.some.inj hcol)
  omega

end Tree

/-! ## The reach -/

section Reach

variable {ak : AnalysisKeep} {s t c : ℕ}

theorem climb_keeps {fuel : ℕ} {cur : Option ℕ} {r : ℕ → Bool} (h : r s = true) :
    climb ak.parent fuel cur r s = true := by
  induction fuel generalizing cur r with
  | zero => exact h
  | succ fuel ih =>
    cases cur with
    | none => exact h
    | some t =>
      rw [climb]
      split
      · exact h
      · refine ih ?_
        rcases eq_or_ne s t with rfl | hne
        · rw [Function.update_self]
        · rw [Function.update_of_ne hne, h]

/-- The walk ends with the marks closed, when only where it stands is missing. -/
theorem climb_closed {fuel : ℕ} {cur : Option ℕ} {r : ℕ → Bool}
    (hfuel : ∀ t, cur = some t → t < ak.ns ∧ ak.ns ≤ fuel + t)
    (h : ∀ s t, r s = true → ak.parent s = some t → r t = true ∨ cur = some t) :
    Closed ak (fun s => climb ak.parent fuel cur r s = true) ∧
      ∀ t, cur = some t → climb ak.parent fuel cur r t = true := by
  -- on the fuel: a parent is above its child, so `ns` steps reach a root
  induction fuel generalizing cur r with
  | zero =>
    cases cur with
    | none => exact ⟨fun s t hs ht => (h s t hs ht).resolve_right nofun, nofun⟩
    | some t =>
      obtain ⟨hlt, hle⟩ := hfuel t rfl
      omega
  | succ fuel ih =>
    cases cur with
    | none => exact ⟨fun s t hs ht => (h s t hs ht).resolve_right nofun, nofun⟩
    | some t =>
      rw [climb]
      split
      · next hmarked =>
        refine ⟨fun s u hs hu => ?_, fun u hu => Option.some.inj hu ▸ hmarked⟩
        rcases h s u hs hu with hru | hcur
        · exact hru
        · exact Option.some.inj hcur ▸ hmarked
      · next hfresh =>
        obtain ⟨hlt, hle⟩ := hfuel t rfl
        have hfuel' : ∀ u, ak.parent t = some u → u < ak.ns ∧ ak.ns ≤ fuel + u := by
          intro u hu
          obtain ⟨hup, hun⟩ := ak.parent_lt t hlt u hu
          exact ⟨hun, by omega⟩
        -- with `t` marked, only its own parent may still be unmarked
        have hnext : ∀ s u, Function.update r t true s = true → ak.parent s = some u →
            Function.update r t true u = true ∨ ak.parent t = some u := by
          intro s u hs hu
          rcases eq_or_ne s t with rfl | hst
          · exact Or.inr hu
          · rw [Function.update_of_ne hst] at hs
            rcases eq_or_ne u t with rfl | hut
            · exact Or.inl (Function.update_self ..)
            · rcases h s u hs hu with hru | hcur
              · exact Or.inl (by rwa [Function.update_of_ne hut])
              · exact absurd (Option.some.inj hcur).symm hut
        refine ⟨(ih hfuel' hnext).1, fun u hu => ?_⟩
        obtain rfl := Option.some.inj hu
        exact climb_keeps (Function.update_self ..)

/-- The reach holds the supernodes of the nonzeros and is closed under parents. -/
theorem inReach_spec [DecidableEq K] {x : ℕ → K} :
    Closed ak (fun s => inReach ak x s = true) ∧
      ∀ c < ak.n, x c ≠ 0 → ∃ s < ak.ns, colToSn ak c = some s ∧ inReach ak x s = true := by
  have hfold : ∀ k ≤ ak.n, let r := (List.range k).foldl (fun r c => if x c = 0 then r
      else climb ak.parent ak.ns (colToSn ak c) r) fun _ => false
      Closed ak (fun s => r s = true) ∧
        ∀ c < k, x c ≠ 0 → ∃ s < ak.ns, colToSn ak c = some s ∧ r s = true := by
    intro k
    -- on the columns seen so far
    induction k with
    | zero => exact fun _ => ⟨fun s t hs _ => absurd hs (by simp), nofun⟩
    | succ k ih =>
      intro hk
      obtain ⟨hclosed, hseeds⟩ := ih (Nat.le_of_succ_le hk)
      rw [List.range_succ, List.foldl_append, List.foldl_cons, List.foldl_nil]
      split
      · next hzero =>
        refine ⟨hclosed, fun c hc hne => ?_⟩
        rcases Nat.lt_succ_iff_lt_or_eq.mp hc with hlt | rfl
        · exact hseeds c hlt hne
        · exact absurd hzero hne
      · obtain ⟨s, hs, hcol⟩ : ∃ s < ak.ns, colToSn ak k = some s := exists_colToSn hk
        have hfuel : ∀ t, colToSn ak k = some t → t < ak.ns ∧ ak.ns ≤ ak.ns + t := by
          intro t ht
          rw [hcol] at ht
          obtain rfl := Option.some.inj ht
          exact ⟨hs, Nat.le_add_right _ _⟩
        obtain ⟨hafter, hmarked⟩ := climb_closed hfuel fun s t hrs ht => Or.inl (hclosed s t hrs ht)
        refine ⟨hafter, fun c hc hne => ?_⟩
        rcases Nat.lt_succ_iff_lt_or_eq.mp hc with hlt | rfl
        · obtain ⟨t, ht, hct, hrt⟩ := hseeds c hlt hne
          exact ⟨t, ht, hct, climb_keeps hrt⟩
        · exact ⟨s, hs, hcol, hmarked s hcol⟩
  exact hfold ak.n le_rfl

end Reach

/-! ## Leaving fronts out -/

section Skip

variable {ak : AnalysisKeep} {fk : FactorKeep K} {s : ℕ}

/-- The posdef kernels divide by the diagonals of the panels the analysis places. -/
def FactorKeep.Divides (fk : FactorKeep K) (ak : AnalysisKeep) : Prop :=
  ∀ s < ak.ns, ∀ i < ak.width s, diagOf fk.isPosdef (fk.symbolicFront ak s).L i ≠ 0

omit [Field K] in
theorem symbolicFront_row {i : ℕ} (hi : i < (ak.frontRows s).length) :
    (fk.symbolicFront ak s).rows i = (ak.frontRows s)[i] := by
  show (ak.frontRows s).getD i 0 = _
  rw [List.getD_eq_getElem?_getD, List.getElem?_eq_getElem hi, Option.getD_some]

omit [Field K] in
theorem symbolicFront_mem {i : ℕ} (hi : i < (fk.symbolicFront ak s).f) :
    (fk.symbolicFront ak s).rows i ∈ ak.frontRows s := by
  rw [symbolicFront_row hi]
  exact List.getElem_mem hi

omit [Field K] in
theorem symbolicFront_pivot {i : ℕ} (hs : s < ak.ns) (hi : i < ak.width s) :
    (fk.symbolicFront ak s).rows i = ak.colStart s + i := by
  show (ak.frontRows s).getD i 0 = _
  rw [List.getD_eq_getElem?_getD, ak.own s hs i hi, Option.getD_some]

theorem symbolicFront_good (hs : s < ak.ns) (hdiv : fk.Divides ak) :
    (fk.symbolicFront ak s).Good fk.isPosdef where
  p_le := width_le hs
  inj := fun i hi j hj he => by
    rw [symbolicFront_row hi, symbolicFront_row hj] at he
    exact (ak.nodup s hs).getElem_inj_iff.mp he
  diag_ne := hdiv s hs
  inv := nofun

/-- The fronts of the analysis, in any order with children first. -/
theorem symbolic_wellOrdered {order : List ℕ} (hdiv : fk.Divides ak)
    (hperm : order.Perm (List.range ak.ns))
    (horder : order.Pairwise fun a b => ak.parent b ≠ some a) :
    WellOrdered fk.isPosdef ak.n (order.map (fk.symbolicFront ak)) := by
  have hlt : ∀ s ∈ order, s < ak.ns := fun s hs => List.mem_range.mp (hperm.subset hs)
  refine ⟨fun F hF => ?_, fun F hF i hi => ?_, fun r hr => ?_, ?_⟩
  · obtain ⟨s, hs, rfl⟩ := List.mem_map.mp hF
    exact symbolicFront_good (hlt s hs) hdiv
  · obtain ⟨s, hs, rfl⟩ := List.mem_map.mp hF
    exact ak.lt_n s (hlt s hs) _ (symbolicFront_mem hi)
  · obtain ⟨s, hs, hlo, hhi⟩ := ak.cover r hr
    have hmem : s ∈ order := hperm.symm.subset (List.mem_range.mpr hs)
    have hi : r - ak.colStart s < ak.width s := by
      unfold AnalysisKeep.width
      omega
    refine ⟨_, List.mem_map.mpr ⟨s, hmem, rfl⟩, r - ak.colStart s, hi, ?_⟩
    rw [symbolicFront_pivot hs hi]
    omega
  · rw [List.pairwise_map]
    refine (pairwise_rows hperm horder).imp_of_mem fun {a b} ha _ hab i hi j hj => ?_
    rw [symbolicFront_pivot (hlt a ha) hi]
    exact hab i hi _ (symbolicFront_mem hj)

/-- The fronts of the reach do what all fronts do. -/
theorem foldl_reach [DecidableEq K] {R : ℕ → Bool} {order : List ℕ} {x : ℕ → K}
    (hdiv : fk.Divides ak) (hR : Closed ak fun s => R s = true) (hlt : ∀ s ∈ order, s < ak.ns)
    (hx : ∀ c < ak.n, x c ≠ 0 → ∃ s < ak.ns, colToSn ak c = some s ∧ R s = true) :
    (order.filter R).foldl (fun x s => sparseFront fk.isPosdef x (fk.symbolicFront ak s)) x =
      (order.map (fk.symbolicFront ak)).foldl (forwardFront fk.isPosdef) x := by
  induction order generalizing x with
  | nil => rfl
  | cons s order ih =>
    have hs : s < ak.ns := hlt s List.mem_cons_self
    have hrest : ∀ t ∈ order, t < ak.ns := fun t ht => hlt t (List.mem_cons_of_mem s ht)
    have hgood : (fk.symbolicFront ak s).Good fk.isPosdef := symbolicFront_good hs hdiv
    have hsolve := forwardFront_solves (x := x) hgood
    rw [List.map_cons, List.foldl_cons]
    cases hRs : R s with
    | true =>
      have hsame := hsolve.unique (sparseFront_solves (x := x) hgood)
      rw [List.filter_cons_of_pos hRs, List.foldl_cons, hsame]
      -- what the front writes lies in columns of its ancestors
      refine ih hrest fun c hc hne => ?_
      by_cases hrow : c ∈ ak.frontRows s
      · exact hR.row hs hRs hrow
      · rw [hsolve.other c fun i hi he => hrow (he ▸ symbolicFront_mem hi)] at hne
        exact hx c hc hne
    | false =>
      have hzero : ∀ i < (fk.symbolicFront ak s).p, x ((fk.symbolicFront ak s).rows i) = 0 := by
        intro i hi
        by_contra hne
        have hend : ak.colStart s + i < ak.colEnd s := by
          have : i < ak.colEnd s - ak.colStart s := hi
          omega
        have hmem : (fk.symbolicFront ak s).rows i ∈ ak.frontRows s :=
          symbolicFront_mem (hi.trans_le (width_le hs))
        obtain ⟨t, -, hcol, hRt⟩ := hx _ (ak.lt_n s hs _ hmem) hne
        rw [symbolicFront_pivot hs hi, colToSn_eq_some hs (Nat.le_add_right _ _) hend] at hcol
        obtain rfl := Option.some.inj hcol
        rw [hRs] at hRt
        cases hRt
      rw [List.filter_cons_of_neg (by rw [hRs]; exact Bool.false_ne_true),
        (solves_zero hzero).unique hsolve]
      exact ih hrest hx

/-- The sparse solve is the solve with every front of the analysis. -/
theorem solveSparseForward_eq [DecidableEq K] (hdiv : fk.Divides ak) (b : ℕ → K) :
    (solveSparseForward ak fk b).2 = (ak.postorder.map (fk.symbolicFront ak)).foldl
      (forwardFront fk.isPosdef) (fk.permuted b) := by
  obtain ⟨hclosed, hseeds⟩ : Closed ak (fun s => inReach ak (fk.permuted b) s = true) ∧ _ :=
    inReach_spec
  exact foldl_reach hdiv hclosed
    (fun s hs => List.mem_range.mp (ak.postorder_perm.subset hs)) hseeds

end Skip

/-! ## The two readings of the factor -/

/-- What an engine leaves to the solves: a permutation, and solve steps in an order of
    elimination with pivots to divide by. -/
structure Factored (ak : AnalysisKeep) (fk : FactorKeep K) : Prop where
  n_eq : fk.n = ak.n
  iperm_lt : ∀ j < fk.n, fk.iperm j < fk.n
  iperm_inj : ∀ i < fk.n, ∀ j < fk.n, fk.iperm i = fk.iperm j → i = j
  fronts : WellOrdered fk.isPosdef ak.n (fk.fronts ak)
  divides : fk.Divides ak

/-- The panels hold the same `L` where the analysis places them as where the steps do. -/
def SameFactor (ak : AnalysisKeep) (fk : FactorKeep K) : Prop :=
  ∀ r < ak.n, ∀ c < ak.n, entry fk.isPosdef (fk.fronts ak) r c =
    entry fk.isPosdef (ak.postorder.map (fk.symbolicFront ak)) r c

/-- A solve step that realized its supernode as the analysis has it: no column delayed in or
    out, and the rows in their order. -/
structure Symbolic (ak : AnalysisKeep) (fk : FactorKeep K) (s : ℕ) (step : SolveStep) : Prop where
  p_eq : step.p = ak.width s
  f_eq : step.f = (ak.frontRows s).length
  offset_eq : step.factorOffset = fk.factorColPtr s
  rows_eq : ∀ i < step.f, fk.solveRowIndices (step.rowOffset + i) = (ak.frontRows s).getD i 0

/-- Every step is the front of a supernode, each once. -/
def AsAnalysed (ak : AnalysisKeep) (fk : FactorKeep K) : Prop :=
  fk.solveSteps ≠ [] → ∃ order : List ℕ, order.Perm (List.range ak.ns) ∧
    List.Forall₂ (Symbolic ak fk) order fk.solveSteps

section Readings

variable {ak : AnalysisKeep} {fk : FactorKeep K}

theorem Symbolic.entry_eq {s k r c : ℕ} {step : SolveStep} (hs : s < ak.ns)
    (h : Symbolic ak fk s step) :
    (fk.stepFront k step).entry fk.isPosdef r c =
      (fk.symbolicFront ak s).entry fk.isPosdef r c := by
  have hrow : ∀ i < step.f, (fk.stepFront k step).rows i = (fk.symbolicFront ak s).rows i :=
    h.rows_eq
  have hL : (fk.stepFront k step).L = (fk.symbolicFront ak s).L := by
    funext i j
    show fk.factorValues _ = fk.factorValues _
    rw [h.offset_eq, h.f_eq]
  have hpf : step.p ≤ step.f := by
    rw [h.p_eq, h.f_eq]
    exact width_le hs
  show (∑ i ∈ Finset.range step.f, _) = ∑ i ∈ Finset.range (ak.frontRows s).length, _
  rw [← h.f_eq]
  refine Finset.sum_congr rfl fun i hi => ?_
  rw [hrow i (Finset.mem_range.mp hi)]
  refine if_congr Iff.rfl ?_ rfl
  show (∑ j ∈ Finset.range step.p, _) = ∑ j ∈ Finset.range (ak.width s), _
  rw [← h.p_eq]
  refine Finset.sum_congr rfl fun j hj => ?_
  rw [hrow j ((Finset.mem_range.mp hj).trans_le hpf), Front.coef, Front.coef, hL]

/-- Steps that are fronts of the analysis hold their entries; a cached inverse holds none. -/
theorem entry_eq_of_forall₂ {order : List ℕ} {steps : List SolveStep} {r c : ℕ}
    {front : ℕ → SolveStep → Front K} (hlt : ∀ s ∈ order, s < ak.ns)
    (hall : List.Forall₂ (Symbolic ak fk) order steps)
    (hfront : ∀ k step, (front k step).entry fk.isPosdef r c =
      (fk.stepFront k step).entry fk.isPosdef r c) :
    entry fk.isPosdef (steps.mapIdx front) r c =
      entry fk.isPosdef (order.map (fk.symbolicFront ak)) r c := by
  induction hall generalizing front with
  | nil => rfl
  | cons hstep _ ih =>
    rw [List.mapIdx_cons, List.map_cons, entry, entry, List.map_cons, List.map_cons,
      List.sum_cons, List.sum_cons, hfront, hstep.entry_eq (hlt _ List.mem_cons_self)]
    exact congrArg _ (ih (fun s hs => hlt s (List.mem_cons_of_mem _ hs))
      fun k step => hfront (k + 1) step)

theorem AsAnalysed.sameFactor (hsteps : AsAnalysed ak fk) : SameFactor ak fk := by
  intro r _ c _
  have hsum : ∀ order : List ℕ, order.Perm (List.range ak.ns) →
      entry fk.isPosdef (order.map (fk.symbolicFront ak)) r c =
        entry fk.isPosdef (ak.postorder.map (fk.symbolicFront ak)) r c := fun order horder =>
    (((horder.trans ak.postorder_perm.symm).map (fk.symbolicFront ak)).map _).sum_eq
  rw [FactorKeep.fronts]
  split
  · exact hsum _ ak.solvePostorder_perm
  · next hne =>
    obtain ⟨order, horder, hall⟩ := hsteps hne
    rw [← hsum order horder]
    have hlt : ∀ s ∈ order, s < ak.ns := fun s hs => List.mem_range.mp (horder.subset hs)
    exact entry_eq_of_forall₂ hlt hall fun k _ => rfl

/-- The sparse solve is the dense one if and only if both read the same `L`, as they do when
    every step is the front of the analysis. -/
theorem sparse_forward_iff [DecidableEq K] (ak : AnalysisKeep) (fk : FactorKeep K)
    (hfk : Factored ak fk) :
    (∀ b, (solveSparseForward ak fk b).2 = (ak.postorder.map (fk.symbolicFront ak)).foldl
      (forwardFront fk.isPosdef) (fk.permuted b)) ∧
    ((∀ b, (solveSparseForward ak fk b).2 = solveForward ak fk b) ↔ SameFactor ak fk) ∧
    (AsAnalysed ak fk → SameFactor ak fk) := by
  have hsym := symbolic_wellOrdered hfk.divides ak.postorder_perm ak.postorder_order
  refine ⟨solveSparseForward_eq hfk.divides, ?_, AsAnalysed.sameFactor⟩
  rw [SameFactor, ← solve_alike_iff hfk.fronts hsym]
  constructor
  · intro hall x hx
    -- a right-hand side that the permutation takes to `x`
    have hperm : fk.permuted (fun j => x (fk.iperm j)) = x := by
      have honto := Finset.surjOn_of_injOn_of_card_le (s := Finset.range fk.n) fk.iperm
        (fun j hj => Finset.mem_coe.mpr (Finset.mem_range.mpr
          (hfk.iperm_lt j (Finset.mem_range.mp (Finset.mem_coe.mp hj)))))
        (fun i hi j hj he => hfk.iperm_inj i (Finset.mem_range.mp (Finset.mem_coe.mp hi)) j
          (Finset.mem_range.mp (Finset.mem_coe.mp hj)) he) le_rfl
      funext r
      rcases Nat.lt_or_ge r fk.n with hr | hr
      · obtain ⟨j, hj, rfl⟩ := honto (Finset.mem_coe.mpr (Finset.mem_range.mpr hr))
        exact scatter_at hfk.iperm_inj (Finset.mem_range.mp (Finset.mem_coe.mp hj))
      · rw [FactorKeep.permuted, scatter_other fun j hj he => absurd (hfk.iperm_lt j hj) (by omega)]
        exact (hx r (hfk.n_eq ▸ hr)).symm
    have hboth := hall fun j => x (fk.iperm j)
    rw [solveSparseForward_eq hfk.divides, solveForward, hperm] at hboth
    exact hboth.symm
  · intro halike b
    rw [solveSparseForward_eq hfk.divides, solveForward, halike (fk.permuted b)]
    intro r hr
    exact scatter_other fun i hi he => absurd (hfk.iperm_lt i hi) (by rw [he, hfk.n_eq]; omega)

end Readings

/-! ## An exchange in the front -/

/-- A column of `L` as `process_front` stores it: the diagonal keeps `D`, and a 2x2 block's
    off-diagonal moves to the slot above. -/
def storedL (tags : ℕ → ℤ) (F : ℕ → ℕ → K) (i c : ℕ) : K :=
  if i < c then if tags c = -1 ∧ i + 1 = c then F c i else 0
  else if tags c = 0 then 0
  else if tags c = 2 ∧ i = c + 1 then 0
  else F i c

/-- The factor of a matrix that is one front of `f` rows, all its columns accepted. -/
def rootFactor (f : ℕ) (s : Kernel.KernelState K) : FactorKeep K where
  isPosdef := false
  n := f
  iperm := id
  factorValues := fun off => storedL s.tags s.F (off % f) (off / f)
  factorColPtr := fun _ => 0
  solveSteps := [⟨0, 0, f, f⟩]
  solveRowIndices := fun i => (s.rows i).toNat
  invDiag := fun _ => 0

/-- One supernode of three columns. -/
def threeColumns : AnalysisKeep where
  n := 3
  ns := 1
  colStart := fun _ => 0
  colEnd := fun _ => 3
  parent := fun _ => none
  frontRows := fun _ => [0, 1, 2]
  postorder := [0]
  solvePostorder := [0]
  cover := fun c hc => ⟨0, Nat.one_pos, Nat.zero_le c, hc⟩
  apart := fun s hs t ht _ _ _ _ _ => by omega
  parent_lt := fun _ _ _ h => by cases h
  own := fun _ _ => by decide
  below := fun _ _ k r hk h => by
    rw [List.getElem?_eq_none (show [0, 1, 2].length ≤ k from hk)] at h
    cases h
  nodup := fun _ _ => by decide
  lt_n := fun _ _ => by decide
  contained := fun _ _ => by decide
  postorder_perm := List.Perm.refl _
  postorder_order := List.pairwise_singleton ..
  solvePostorder_perm := List.Perm.refl _
  solvePostorder_order := List.pairwise_singleton ..

/-- The kernel's factor of a matrix whose first pivot is the 2x2 block of rows 0 and 2. -/
def exchanged : FactorKeep ℚ :=
  let F : ℕ → ℕ → ℚ := fun i j =>
    if (i, j) = (1, 1) ∨ (i, j) = (2, 0) then 1 else if (i, j) = (2, 1) then 1 / 2 else 0
  rootFactor 3 (Kernel.ldltFactorSmallFront Kernel.defaultParams 3 3 F (fun i => i) (fun _ => 1)
    fun _ _ => 0)

theorem exchanged_factored : Factored threeColumns exchanged where
  n_eq := rfl
  iperm_lt := fun _ hj => hj
  iperm_inj := fun _ _ _ _ he => he
  fronts := by
    have hfronts : exchanged.fronts threeColumns = [exchanged.stepFront 0 ⟨0, 0, 3, 3⟩] := rfl
    rw [hfronts]
    refine ⟨fun F hF => ?_, fun F hF => ?_, fun r hr => ?_, List.pairwise_singleton ..⟩
    · obtain rfl := List.mem_singleton.mp hF
      exact ⟨le_rfl, by decide +kernel, fun i _ => one_ne_zero, fun _ h => by cases h⟩
    · obtain rfl := List.mem_singleton.mp hF
      decide +kernel
    · have hrow : ∀ r < 3, ∃ i < 3, exchanged.solveRowIndices (0 + i) = r := by decide +kernel
      obtain ⟨i, hi, he⟩ := hrow r hr
      exact ⟨_, List.mem_singleton_self _, i, hi, he⟩
  divides := fun _ _ _ _ => one_ne_zero

/-- The sparse solve takes the multiplier of row 1 for one of row 2. -/
theorem sparse_forward_exchanged :
    ¬∀ (ak : AnalysisKeep) (fk : FactorKeep ℚ), Factored ak fk →
      ∀ b, (solveSparseForward ak fk b).2 = solveForward ak fk b := by
  intro h
  have hrow := congrFun (h threeColumns exchanged exchanged_factored fun j =>
    if j = 0 then 1 else 0) 1
  revert hrow
  decide +kernel

theorem sparse_forward_iff_exchanged : Factored threeColumns exchanged ∧
    ((∀ b, (solveSparseForward threeColumns exchanged b).2 = solveForward threeColumns
      exchanged b) ↔
      SameFactor threeColumns exchanged) :=
  ⟨exchanged_factored, (sparse_forward_iff threeColumns exchanged exchanged_factored).2.1⟩

end Solve
end SmfSolver
