/-
  SmfSolver.Parallel.SolveLayoutRuns

  What the two phases keep for the solve layout, in every run.

  * Every front's run is the kernel's result on the blocks that its children left
    (`Store.Kept`).
  * Phase 1 (`LayoutStore.Laid`): the step ranges that a thread has kept cut its steps into
    whole tasks; the steps behind them are those of the task that it is in.
  * Phase 2 (`LayoutStore.TopLaid`): the kept pass and step of a top front lead to it.
-/
import SmfSolver.Parallel.SolveLayout

namespace SmfSolver
namespace Parallel

open Lib
open Multifrontal (AssemblyTree Below)
open Multifrontal.AssemblyTree (taskFronts mem_taskFronts)

variable {α : Type} {T : AssemblyTree} {threads : ℕ}

/-! ## The kernels -/

namespace FrontKernels

variable {K : FrontKernels T α} {a : KernelCall α}

theorem storedCount_le : K.storedCount a ≤ (eligibleOf T a.s a.kids).length := by
  have haccepted := (K.pivots a).accepted_le
  rw [List.length_map] at haccepted
  rw [storedCount, Factor.KernelPivots.storedCount, List.length_map]
  split_ifs
  · exact le_rfl
  · exact haccepted

theorem take_rows : (K.rows a).take (eligibleOf T a.s a.kids).length =
    (List.range (eligibleOf T a.s a.kids).length).map fun c => ((K.pivots a).rows c).toNat := by
  rw [rows]
  exact List.take_left' (by rw [List.length_map, List.length_range])

theorem p_le_rows : (K.result a).p ≤ (K.result a).rows.length := by
  have hrows : (K.result a).rows.length =
      (eligibleOf T a.s a.kids).length + (K.below a).length := by
    have hlen : (K.rows a).length = _ := List.length_append
    rwa [List.length_map, List.length_range] at hlen
  have hle : (K.result a).p ≤ (eligibleOf T a.s a.kids).length := storedCount_le
  omega

/-- A front stores its eligible columns or hands them to its parent. -/
theorem pivots_append_delayed :
    ((K.result a).rows.take (K.result a).p ++ (K.result a).contribution.delayedRows).Perm
      (eligibleOf T a.s a.kids) := by
  have hsplit : (K.result a).rows.take (K.result a).p ++
      (K.result a).contribution.delayedRows =
      (K.rows a).take (eligibleOf T a.s a.kids).length := by
    have hadd := Nat.add_sub_cancel' (storedCount_le (K := K) (a := a))
    have htake := List.take_add (l := K.rows a) (i := K.storedCount a)
      (j := (eligibleOf T a.s a.kids).length - K.storedCount a)
    rw [hadd] at htake
    exact htake.symm
  have hperm := ((K.pivots a).perm).map Int.toNat
  rw [List.map_map, List.map_map, List.length_map] at hperm
  have hid : (eligibleOf T a.s a.kids).map (Int.toNat ∘ ((↑) : ℕ → ℤ)) =
      eligibleOf T a.s a.kids :=
    (List.map_congr_left fun c _ => Int.toNat_natCast c).trans (List.map_id _)
  rw [hid] at hperm
  rw [hsplit, take_rows]
  exact hperm

/-- A root hands on nothing. -/
theorem delayedRows_root (h : T.parent a.s = none) :
    (K.result a).contribution.delayedRows = [] := by
  have haccepted := (K.pivots a).accepted_le
  have hroot : Factor.isRoot T a.s = true := by rw [Factor.isRoot, h]; rfl
  have hcount : K.storedCount a = (eligibleOf T a.s a.kids).length := by
    rw [List.length_map] at haccepted
    rw [storedCount, Factor.KernelPivots.storedCount, List.length_map]
    split_ifs with hlt
    · rfl
    · have hnot : ¬(K.pivots a).numAccepted < (eligibleOf T a.s a.kids).length :=
        fun hc => hlt ⟨hroot, hc⟩
      omega
  have hnone : (K.result a).contribution.delayed = 0 := by
    have hdelayed : (K.result a).contribution.delayed =
        (eligibleOf T a.s a.kids).length - K.storedCount a := rfl
    omega
  rw [Contribution.delayedRows, hnone]
  exact List.take_zero

end FrontKernels

/-- A front's result is a kernel's, on the same blocks, whichever way it was pivoted. -/
theorem FrontConfig.processFront_out (C : FrontConfig α) (T : AssemblyTree) (s : ℕ)
    (kids : List (Contribution α)) (tile : Bool) (blas : ℕ) (bs : BudgetState) :
    ∃ choice tile', (C.processFront T s kids tile blas bs).out =
      C.kernel s kids choice tile' blas := by
  dsimp only [FrontConfig.processFront]
  split_ifs
  all_goals exact ⟨_, _, rfl⟩

/-! ## What is stored -/

/-- The fronts dealt to pass `t`, in order. -/
def dealtTo (dealt : List (Fin threads × ℕ)) (t : Fin threads) : List ℕ :=
  (dealt.filter fun d => d.1 = t).map Prod.snd

section Dealt

variable {dealt dealt' : List (Fin threads × ℕ)} {t u : Fin threads} {x : ℕ}

theorem dealtTo_append : dealtTo (dealt ++ dealt') t = dealtTo dealt t ++ dealtTo dealt' t := by
  rw [dealtTo, List.filter_append, List.map_append]
  rfl

theorem dealtTo_snoc_self : dealtTo (dealt ++ [(t, x)]) t = dealtTo dealt t ++ [x] := by
  rw [dealtTo_append, dealtTo, dealtTo, List.filter_singleton, decide_eq_true rfl]
  rfl

theorem dealtTo_snoc_of_ne (h : u ≠ t) : dealtTo (dealt ++ [(t, x)]) u = dealtTo dealt u := by
  have hno : decide (t = u) = false := decide_eq_false fun hc => h hc.symm
  rw [dealtTo_append, dealtTo, dealtTo, List.filter_singleton, hno]
  exact List.append_nil _

theorem mem_of_mem_dealtTo (h : x ∈ dealtTo dealt t) : x ∈ dealt.map Prod.snd := by
  obtain ⟨d, hd, rfl⟩ := List.mem_map.mp h
  exact List.mem_map_of_mem (List.mem_of_mem_filter hd)

/-- Pass by pass, these are the fronts. -/
theorem flatMap_dealtTo : ((List.finRange threads).flatMap (dealtTo dealt)).Perm
    (dealt.map Prod.snd) := by
  have hparts : (List.finRange threads).flatMap (dealtTo dealt) =
      (List.ofFn fun t => dealt.filter fun d => d.1 = t).flatten.map Prod.snd := by
    rw [List.map_flatten, List.map_ofFn, List.ofFn_eq_map]
    rfl
  rw [hparts]
  exact (flatten_filter_perm Prod.fst dealt).map _

end Dealt

/-- The factor of a front's run. -/
def outOf (runs : ℕ → Option (FrontRun α)) (s : ℕ) : FrontFactor α :=
  match runs s with
  | some run => run.out.toFrontFactor
  | none => ⟨0, [], [], [], rfl⟩

theorem outOf_some {runs : ℕ → Option (FrontRun α)} {s : ℕ} {run : FrontRun α}
    (h : runs s = some run) : outOf runs s = run.out.toFrontFactor := by
  rw [outOf, h]

/-- These fronts were stored, each in its pass, in order, after their children. -/
structure Store.Kept (K : FrontKernels T α) (dealt : List (Fin threads × ℕ))
    (st : Store α threads) : Prop where
  passes : ∀ t, st.passes t = FrontPass.storeAll (outOf st.runs) {} (dealtTo dealt t)
  stored : ∀ x, x ∈ dealt.map Prod.snd ↔ ∃ run, st.runs x = some run
  ran : ∀ x run, st.runs x = some run → ∃ a : KernelCall α, a.s = x ∧
    a.kids = FrontConfig.kidsOf T st.runs x ∧ run.out = K.result a
  children : ∀ x ∈ dealt.map Prod.snd, ∀ c ∈ T.children x, c ∈ dealt.map Prod.snd

section Kept

variable {K : FrontKernels T α} {dealt : List (Fin threads × ℕ)} {st st' : Store α threads}
  {t : Fin threads} {x : ℕ}

theorem Store.kept_nil : Store.Kept K [] ({} : Store α threads) where
  passes _ := rfl
  stored _ := iff_of_false List.not_mem_nil nofun
  ran _ _ h := nomatch h
  children _ h := nomatch h

theorem Store.Kept.congr (h : st.Kept K dealt) (hpasses : st'.passes = st.passes)
    (hruns : st'.runs = st.runs) : st'.Kept K dealt where
  passes t := by rw [hpasses, hruns, h.passes t]
  stored x := hruns ▸ h.stored x
  ran := hruns ▸ h.ran
  children := h.children

theorem storeAll_congr {out out' : ℕ → FrontFactor α} {P : FrontPass α} {order : List ℕ}
    (h : ∀ s ∈ order, out s = out' s) : P.storeAll out order = P.storeAll out' order := by
  induction order generalizing P with
  | nil => rfl
  | cons s rest ih =>
    rw [FrontPass.storeAll, FrontPass.storeAll, List.foldl_cons, List.foldl_cons,
      h s (List.mem_cons_self ..)]
    exact ih fun z hz => h z (List.mem_cons_of_mem _ hz)

/-- Other runs read the same blocks. -/
theorem kidsOf_congr {runs runs' : ℕ → Option (FrontRun α)} {s : ℕ}
    (h : ∀ c ∈ T.children s, runs c = runs' c) :
    FrontConfig.kidsOf T runs s = FrontConfig.kidsOf T runs' s :=
  List.map_congr_left fun c hc => by rw [h c hc]

/-- One more front is stored. -/
theorem Store.Kept.keep (h : st.Kept K dealt) (hx : x ∉ dealt.map Prod.snd)
    (hkids : ∀ c ∈ T.children x, c ∈ dealt.map Prod.snd) {run : FrontRun α} {a : KernelCall α}
    (hs : a.s = x) (hak : a.kids = FrontConfig.kidsOf T st.runs x) (hout : run.out = K.result a) :
    (st.keep t x run).Kept K (dealt ++ [(t, x)]) := by
  -- `x` is new, so what is stored of the others stays
  have hold : ∀ z ∈ dealt.map Prod.snd, (st.keep t x run).runs z = st.runs z := by
    intro z hz
    have hzx : z ≠ x := fun hc => hx (hc ▸ hz)
    exact Function.update_of_ne hzx ..
  have hself : (st.keep t x run).runs x = some run := Function.update_self ..
  have hmap : (dealt ++ [(t, x)]).map Prod.snd = dealt.map Prod.snd ++ [x] := List.map_append
  refine ⟨fun u => ?_, fun z => ?_, fun z r hr => ?_, fun z hz c hc => ?_⟩
  · have hsame : FrontPass.storeAll (outOf st.runs) {} (dealtTo dealt u) =
        FrontPass.storeAll (outOf (st.keep t x run).runs) {} (dealtTo dealt u) :=
      storeAll_congr fun z hz => by rw [outOf, outOf, hold z (mem_of_mem_dealtTo hz)]
    by_cases hut : u = t
    · subst hut
      rw [dealtTo_snoc_self, FrontPass.storeAll, List.foldl_append]
      change _ = (FrontPass.storeAll _ _ _).store x _
      rw [← hsame, ← h.passes u, outOf_some hself]
      exact Function.update_self ..
    · rw [dealtTo_snoc_of_ne hut, ← hsame, ← h.passes u]
      exact Function.update_of_ne hut ..
  · rw [hmap, List.mem_append, List.mem_singleton]
    by_cases hzx : z = x
    · rw [hzx, hself]
      exact iff_of_true (.inr rfl) ⟨run, rfl⟩
    · have hkeep : (st.keep t x run).runs z = st.runs z := Function.update_of_ne hzx ..
      rw [or_iff_left hzx, h.stored z, hkeep]
  · by_cases hzx : z = x
    · subst hzx
      obtain rfl := Option.some.inj (hself.symm.trans hr)
      exact ⟨a, hs, hak.trans (kidsOf_congr fun c hc => (hold c (hkids c hc)).symm), hout⟩
    · have hkeep : (st.keep t x run).runs z = st.runs z := Function.update_of_ne hzx ..
      obtain ⟨b, hb, hbk, hbout⟩ := h.ran z r (hkeep ▸ hr)
      have hz : z ∈ dealt.map Prod.snd := (h.stored z).mpr ⟨r, hkeep ▸ hr⟩
      have hsame : FrontConfig.kidsOf T st.runs z =
          FrontConfig.kidsOf T (st.keep t x run).runs z :=
        kidsOf_congr fun c hc => (hold c (h.children z hz c hc)).symm
      exact ⟨b, hb, hbk.trans hsame, hbout⟩
  · rw [hmap] at hz ⊢
    refine List.mem_append_left _ ?_
    rcases List.mem_append.mp hz with hz | hz
    · exact h.children z hz c hc
    · exact hkids c (List.mem_singleton.mp hz ▸ hc)

theorem Store.Kept.holds (h : st.Kept K dealt) (t : Fin threads) :
    (st.passes t).Holds (outOf st.runs) (dealtTo dealt t) :=
  (h.passes t).symm ▸ holds_serial

/-- A pass has a step for each of its fronts. -/
theorem Store.Kept.length_steps (h : st.Kept K dealt) (t : Fin threads) :
    (st.passes t).steps.length = (dealtTo dealt t).length := by
  have hlen := congrArg List.length (h.holds t).fronts
  rwa [FactorKeep.fronts, List.length_map, List.length_map] at hlen

end Kept

/-! ### Phase 1 -/

/-- The fronts of a task. -/
def IsTaskList (P : Partition T) (l : List ℕ) : Prop := ∃ r ∈ P.ranges, l = taskFronts r

/-- The store of a run of phase 1.  The ranges that a thread has kept cut its steps into whole
    tasks, and behind them are the fronts of the task that it is in. -/
structure LayoutStore.Laid (K : FrontKernels T α) (P : Partition T)
    (tr : List (Subtrees.Label threads)) (s : Subtrees threads) (st : LayoutStore α threads) :
    Prop where
  kept : st.toStore.Kept K (Tally.through (right tr))
  inTask : ∀ t i way, s.control.pc t = .task i way → ∃ whole,
    dealtTo (Tally.through (right tr)) t =
      whole ++ List.range' (P.range i).1 (s.k t - (P.range i).1) ∧
    st.firstStep t = whole.length ∧ Cut (IsTaskList P) whole (st.subtreeSteps t)
  outside : ∀ t, (∀ i way, s.control.pc t ≠ .task i way) →
    Cut (IsTaskList P) (dealtTo (Tally.through (right tr)) t) (st.subtreeSteps t)

section Laid

variable {K : FrontKernels T α} {C : FrontConfig α} {P : Partition T} {E : FrontLimits} {l : Limit}
  {tr : List (Subtrees.Label threads)} {s s' : Subtrees threads} {st st' : LayoutStore α threads}
  {a : Subtrees.Label threads} {t : Fin threads} {i x : ℕ} {way : Way}

theorem LayoutStore.laid_init : LayoutStore.Laid K P [] (Subtrees.init threads P.ranges.length)
    ({} : LayoutStore α threads) where
  kept := Store.kept_nil
  inTask _ _ _ h := nomatch h
  outside _ _ := cut_nil

/-- A step that stores nothing, and moves no thread into a task, out of one or through a
    front. -/
theorem LayoutStore.Laid.quiet (h : st.Laid K P tr s)
    (hthrough : Tally.through (right (tr ++ [a])) = Tally.through (right tr))
    (hpc : ∀ u i way, s'.control.pc u = .task i way ↔ s.control.pc u = .task i way)
    (hk : s'.k = s.k) : st.Laid K P (tr ++ [a]) s' where
  kept := hthrough ▸ h.kept
  inTask u i way hu := by
    rw [hthrough, hk]
    exact h.inTask u i way ((hpc u i way).mp hu)
  outside u hu := by
    rw [hthrough]
    exact h.outside u fun i way hi => hu i way ((hpc u i way).mpr hi)

/-- A thread begins a task: its ranges end where its steps do. -/
theorem LayoutStore.Laid.began {c : Phase1 threads} (h : st.Laid K P tr s)
    (hs : Phase1.Step P.ranges.length s.control (.began t i way) c) :
    ((K.config C).layoutSubtreeStep P st (some (.began t i way), none)).Laid K P
      (tr ++ [(some (.began t i way), none)])
      { s with control := c, k := Function.update s.k t (P.range i).1 } := by
  obtain ⟨-, hout, hpc⟩ := Subtrees.task_of_began hs
  refine ⟨?_, fun u j way' hu => ?_, fun u hu => ?_⟩
  · rw [Subtrees.right_none]
    exact h.kept.congr rfl rfl
  · dsimp only [FrontConfig.layoutSubtreeStep] at hu ⊢
    rw [Subtrees.right_none]
    rw [hpc] at hu
    by_cases hut : u = t
    · subst hut
      rw [Function.update_self] at hu
      cases hu
      refine ⟨dealtTo (Tally.through (right tr)) u, ?_, ?_, h.outside u hout⟩
      · rw [Function.update_self, Nat.sub_self, List.range'_zero, List.append_nil]
      · rw [Function.update_self, h.kept.length_steps]
    · rw [Function.update_of_ne hut] at hu
      rw [Function.update_of_ne hut, Function.update_of_ne hut]
      exact h.inTask u j way' hu
  · rw [Subtrees.right_none]
    refine h.outside u fun j way' hj => hu j way' ?_
    have hut : u ≠ t := fun hc => hout j way' (hc ▸ hj)
    dsimp only
    rw [hpc, Function.update_of_ne hut, hj]

/-- A front is through: it is the next of its thread's task. -/
theorem LayoutStore.Laid.pass (h : st.Laid K P tr s) (hinv : Subtrees.Inv P E l tr s)
    (hsite : s.tally.site t = .counted x) :
    ((K.config C).layoutSubtreeStep P st (none, some (.passed t x))).Laid K P
      (tr ++ [(none, some (.passed t x))])
      { s with tally := s.tally.goto t .idle, k := Function.update s.k t (s.k t + 1) } := by
  obtain ⟨i, way, hpc, hi, htask, hxk, hx⟩ := hinv.at_front (by rw [hsite]; rfl)
  have hnew : x ∉ (Tally.through (right tr)).map Prod.snd :=
    hinv.tally.through_front t x (by rw [hsite]; rfl)
  -- the children lie before `x` in the range of the same task
  have hkids : ∀ c ∈ T.children x, c ∈ (Tally.through (right tr)).map Prod.snd := by
    intro c hc
    obtain ⟨hmem, hcx⟩ := child_mem_range hi hx hc
    exact Tally.mem_through_snd.mpr (htask.passed c hmem (hxk ▸ hcx))
  have hthrough : Tally.through (right (tr ++ [(none, some (.passed t x))])) =
      Tally.through (right tr) ++ [(t, x)] := by
    rw [right_snoc, Option.toList_some, Tally.through_snoc]
    rfl
  refine ⟨?_, fun u j way' hu => ?_, fun u hu => ?_⟩
  · rw [hthrough]
    obtain ⟨choice, tile, hout⟩ := (K.config C).processFront_out T x
      (FrontConfig.kidsOf T st.runs x) (C.det && C.tilesOn) 1
      (if (K.config C).regions P then st.budget t else {})
    exact (h.kept.keep hnew hkids (a := ⟨x, _, choice, tile, 1⟩) rfl rfl hout).congr rfl rfl
  · dsimp only [FrontConfig.layoutSubtreeStep] at hu ⊢
    rw [hthrough]
    by_cases hut : u = t
    · subst hut
      cases hpc.symm.trans hu
      obtain ⟨whole, hdealt, hfirst, hcut⟩ := h.inTask u i way hpc
      have hge := (mem_taskFronts.mp hx).1
      refine ⟨whole, ?_, hfirst, hcut⟩
      have hlen : x + 1 - (P.range i).1 = (x - (P.range i).1) + 1 := by omega
      have hadd : (P.range i).1 + (x - (P.range i).1) = x := Nat.add_sub_cancel' hge
      rw [dealtTo_snoc_self, hdealt, Function.update_self, ← hxk, hlen, List.range'_1_concat,
        hadd, List.append_assoc]
    · rw [dealtTo_snoc_of_ne hut, Function.update_of_ne hut]
      exact h.inTask u j way' hu
  · have hut : u ≠ t := fun hc => hu i way (hc ▸ hpc)
    rw [hthrough, dealtTo_snoc_of_ne hut]
    exact h.outside u hu

/-- A task has ended: its fronts are the next piece of the cut. -/
theorem LayoutStore.Laid.end_task {c : Phase1 threads} (h : st.Laid K P tr s)
    (hinv : Subtrees.Inv P E l tr s) (hsite : s.tally.site t = .idle)
    (hend : (P.range i).2 < s.k t) (hs : Phase1.Step P.ranges.length s.control (.ended t i) c) :
    ((K.config C).layoutSubtreeStep P st (some (.ended t i), none)).Laid K P
      (tr ++ [(some (.ended t i), none)]) { s with control := c } := by
  obtain ⟨-, ⟨way, hpc⟩, b, hc, hb⟩ := Subtrees.task_of_ended hs
  obtain ⟨hi, htask⟩ := hinv.inTask t i way hpc
  have hle := htask.le
  rw [if_pos hsite] at hle
  have hk : s.k t = (P.range i).2 + 1 := by omega
  have hother : ∀ {u}, u ≠ t → c.pc u = s.control.pc u := fun hut => by
    rw [hc, Function.update_of_ne hut]
  refine ⟨?_, fun u j way' hu => ?_, fun u hu => ?_⟩
  · rw [Subtrees.right_none]
    refine h.kept.congr ?_ ?_
    all_goals
      dsimp only [FrontConfig.layoutSubtreeStep, FrontConfig.subtreeStep]
      split_ifs <;> rfl
  · rw [Subtrees.right_none]
    have hut : u ≠ t := by
      rintro rfl
      dsimp only at hu
      rw [hc, Function.update_self] at hu
      exact hb j way' hu
    dsimp only [FrontConfig.layoutSubtreeStep] at hu ⊢
    rw [Function.update_of_ne hut]
    exact h.inTask u j way' (hother hut ▸ hu)
  · rw [Subtrees.right_none]
    dsimp only [FrontConfig.layoutSubtreeStep]
    by_cases hut : u = t
    · subst hut
      obtain ⟨whole, hdealt, hfirst, hcut⟩ := h.inTask u i way hpc
      -- the thread is through with its range: the piece is the whole task
      have htaskFronts : List.range' (P.range i).1 (s.k u - (P.range i).1) =
          taskFronts (P.range i) := by
        rw [hk, taskFronts]
      have hpiece : Cut (IsTaskList P) (taskFronts (P.range i))
        [(0, (taskFronts (P.range i)).length)] :=
        cut_single ⟨_, Partition.range_mem hi, rfl⟩
      rw [Function.update_self, h.kept.length_steps, hfirst, hdealt, htaskFronts,
        List.length_append]
      exact hcut.append hpiece
    · rw [Function.update_of_ne hut]
      exact h.outside u fun j way' hj => hu j way' ((hother hut).trans hj)

theorem LayoutStore.Laid.step (hoff : ∀ l, E.cap l < 0) (h : st.Laid K P tr s)
    (hinv : Subtrees.Inv P E l tr s) (hs : Subtrees.Step P E s a s') :
    ((K.config C).layoutSubtreeStep P st a).Laid K P (tr ++ [a]) s' := by
  cases hs with
  | control hs =>
    obtain ⟨-, htask⟩ := Subtrees.task_of_moved hs
    refine h.quiet ?_ htask rfl
    rw [Subtrees.right_none]
  | began hs => exact h.began hs
  | front =>
    refine h.quiet ?_ (fun _ _ _ => Iff.rfl) rfl
    rw [Subtrees.right_some, Tally.through_snoc]
    exact List.append_nil _
  | @inside y e hf =>
    obtain ⟨t, b, hm⟩ := hf.moves
    have hstep : (K.config C).layoutSubtreeStep P st (none, some e) = st := by
      cases e with
      | passed u x => exact absurd rfl (hm.passed u x)
      | _ => rfl
    rw [hstep]
    refine h.quiet ?_ (fun _ _ _ => Iff.rfl) rfl
    rw [Subtrees.right_some, Tally.through_snoc]
    cases e with
    | passed u x => exact absurd rfl (hm.passed u x)
    | _ => exact List.append_nil _
  | @raised y e t i way hpc hf hstop =>
    -- a stop: there is none without limits
    have hnext := (hinv.step (fun l _ => hoff l) (.raised hpc hf hstop)).no_stop hoff
    exact absurd (hnext.trans (hinv.no_stop hoff).symm) hstop
  | pass hsite => exact h.pass hinv hsite
  | ended hsite hend hs =>
    refine h.end_task hinv hsite (hend.resolve_right fun hc => ?_) hs
    exact hinv.synced.mp (hc rfl) (hinv.no_stop hoff)
  | @stopped t i c hsite => exact absurd (hinv.no_stop hoff) (hinv.tally.halted t hsite)

/-- Phase 1 without limits. -/
theorem laid_run (hoff : ∀ l, E.cap l < 0) (h : (Subtrees.system P E threads).Run tr s) :
    ((K.config C).layoutSubtrees P tr).Laid K P tr s := by
  induction h with
  | nil => exact LayoutStore.laid_init
  | snoc hrun hs ih =>
    rw [FrontConfig.layoutSubtrees, List.foldl_append]
    exact ih.step hoff (Subtrees.inv_run (l := .work) (fun l _ => hoff l) hrun) hs

end Laid

/-! ### Phase 2 -/

/-- The store of a run of phase 2: a top front's pass and step lead to it. -/
structure LayoutStore.TopLaid (K : FrontKernels T α) (plan : FrontConfig.TopPlan threads)
    (tr₁ tr : List (TallyEvent threads)) (st : LayoutStore α threads) : Prop where
  kept : st.toStore.Kept K (dealt plan tr₁ tr)
  tops : ∀ x ∈ (Tally.through tr).map Prod.snd, st.topPass x = plan.lane x ∧
    (dealtTo (dealt plan tr₁ tr) (plan.lane x))[st.topStep x]? = some x

section TopLaid

variable {K : FrontKernels T α} {C : FrontConfig α} {P : Partition T} {E : FrontLimits} {l : Limit}
  {J : Type} [DecidableEq J] {plan : FrontConfig.TopPlan threads} {tr₁ : List (TallyEvent threads)}
  {tr : List (Top.Label P.topNodes.length threads J)} {s s' : Top P.topNodes.length threads J}
  {a : Top.Label P.topNodes.length threads J} {st : LayoutStore α threads} {w : Fin threads}
  {v : Fin P.topNodes.length} {x : ℕ}

theorem LayoutStore.Laid.join {trs : List (Subtrees.Label threads)} {ss : Subtrees threads}
    (plan : FrontConfig.TopPlan threads) (h : st.Laid K P trs ss) :
    st.TopLaid K plan (right trs) [] where
  kept := by
    rw [dealt, Tally.through, Tally.through, List.filterMap_nil, List.map_nil, List.append_nil]
    exact h.kept
  tops _ h := nomatch h

omit [DecidableEq J] in
/-- A top front is stored: its step is the last of its pass. -/
theorem LayoutStore.TopLaid.pass (h : st.TopLaid K plan tr₁ (right tr))
    (hnew : x ∉ (Tally.through (tr₁ ++ right tr)).map Prod.snd)
    (hkids : ∀ c ∈ T.children x, ∃ t, TallyEvent.passed t c ∈ tr₁ ++ right tr) :
    ((K.config C).layoutTopStep (J := J) P plan st (none, some (.passed w x))).TopLaid K plan tr₁
      (right (tr ++ [(none, some (.passed w x))])) := by
  have hthrough : Tally.through (right (tr ++ [(none, some (.passed w x))])) =
      Tally.through (right tr) ++ [(w, x)] := by
    rw [right_snoc, Option.toList_some, Tally.through_snoc]
    rfl
  have hdealt : dealt plan tr₁ (right (tr ++ [(none, some (.passed w x))])) =
      dealt plan tr₁ (right tr) ++ [(plan.lane x, x)] := by
    rw [dealt, hthrough, List.map_append, ← List.append_assoc]
    rfl
  have hfresh : x ∉ (dealt plan tr₁ (right tr)).map Prod.snd := by rwa [map_snd_dealt]
  obtain ⟨choice, tile, hout⟩ := (K.config C).processFront_out T x
    (FrontConfig.kidsOf T st.runs x) C.tilesOn (if C.det then 1 else plan.share x)
    (if (K.config C).regions P then FrontConfig.topInState T st.nodeBudget x else {})
  have hkept : (st.toStore.keep (plan.lane x) x ((K.config C).topFront P plan st.toStore x)).Kept K
      (dealt plan tr₁ (right tr) ++ [(plan.lane x, x)]) := by
    refine h.kept.keep hfresh (fun c hc => ?_) (a := ⟨x, _, choice, tile, _⟩) rfl rfl hout
    rw [map_snd_dealt, Tally.mem_through_snd]
    exact hkids c hc
  refine ⟨?_, fun z hz => ?_⟩
  · rw [hdealt]
    exact hkept.congr rfl rfl
  · rw [hthrough, List.map_append, List.mem_append] at hz
    rw [hdealt]
    dsimp only [FrontConfig.layoutTopStep]
    by_cases hzx : z = x
    · subst hzx
      -- a pass has a step for each front dealt to its lane
      have hlen := hkept.length_steps (plan.lane z)
      rw [dealtTo_snoc_self, List.length_append, List.length_singleton] at hlen
      refine ⟨Function.update_self .., ?_⟩
      rw [Function.update_self, dealtTo_snoc_self]
      change (dealtTo (dealt plan tr₁ (right tr)) (plan.lane z) ++ [z])[
        ((st.toStore.keep (plan.lane z) z _).passes (plan.lane z)).steps.length - 1]? = some z
      rw [hlen, Nat.add_sub_cancel, List.getElem?_concat_length]
    · obtain ⟨hpass, hstep⟩ := h.tops z (hz.resolve_right fun hc => hzx (List.mem_singleton.mp hc))
      rw [Function.update_of_ne hzx, Function.update_of_ne hzx, dealtTo_append,
        List.getElem?_append_left (List.getElem?_eq_some_iff.mp hstep).1]
      exact ⟨hpass, hstep⟩

theorem LayoutStore.TopLaid.step (h : st.TopLaid K plan tr₁ (right tr))
    (hinv : Top.Inv P E l tr₁ tr s)
    (hsub : ∀ i < P.ranges.length, ∀ c ∈ taskFronts (P.range i), ∃ t, TallyEvent.passed t c ∈ tr₁)
    (hs : Top.Step P E s a s') :
    ((K.config C).layoutTopStep P plan st a).TopLaid K plan tr₁ (right (tr ++ [a])) := by
  -- a step of the scheduler alone touches no store
  have hquiet : ∀ {e : Option (Event P.topNodes.length threads J)},
      st.TopLaid K plan tr₁ (right (tr ++ [(e, none)])) := by
    intro e
    rw [right_snoc, Option.toList_none, List.append_nil]
    exact h
  -- of the steps of a front only the one that passes it stores
  have hother : ∀ {e : TallyEvent threads}, (∀ u x, e ≠ .passed u x) →
      ((K.config C).layoutTopStep (J := J) P plan st (none, some e)).TopLaid K plan tr₁
        (right (tr ++ [(none, some e)])) := by
    intro e he
    have hthrough : Tally.through (right tr ++ [e]) = Tally.through (right tr) := by
      rw [Tally.through_snoc]
      cases e with
      | passed u x => exact absurd rfl (he u x)
      | _ => exact List.append_nil _
    have hstep : (K.config C).layoutTopStep (J := J) P plan st (none, some e) = st := by
      cases e with
      | passed u x => exact absurd rfl (he u x)
      | _ => rfl
    rw [right_snoc, Option.toList_some, hstep]
    exact ⟨by rw [dealt, hthrough]; exact h.kept, by rw [dealt, hthrough]; exact h.tops⟩
  cases hs with
  | control hs => exact hquiet
  | call hs => exact hquiet
  | stop => exact hquiet
  | front => exact hother fun _ _ hc => by cases hc
  | inside hf =>
    obtain ⟨t, b, hm⟩ := hf.moves
    exact hother hm.passed
  | stopped => exact hother fun _ _ hc => by cases hc
  | last => exact hquiet
  | ret => exact hquiet
  | @pass w v x k hw hrun hsite =>
    have hok := hinv.running w v k hw
    rw [hrun] at hok
    obtain rfl := hok.2 x (by rw [hsite]; rfl)
    exact h.pass (hinv.tally.through_front w _ (by rw [hsite]; rfl))
      (hinv.children_through hsub hw)

/-- Phase 2 without limits. -/
theorem topLaid_run {y : Tally threads} (hoff : ∀ l, E.cap l < 0)
    (hy : Tally.Inv E (List.range T.ns) .work tr₁ y) (hidle : ∀ t, y.site t = .idle)
    (hnew : ∀ x ∈ P.topNodes, x ∉ Tally.begun tr₁)
    (hsub : ∀ i < P.ranges.length, ∀ c ∈ taskFronts (P.range i), ∃ t, TallyEvent.passed t c ∈ tr₁)
    (hst : st.TopLaid K plan tr₁ []) (h : (Top.system P E threads J y).Run tr s) :
    ((K.config C).layoutTop P plan st tr).TopLaid K plan tr₁ (right tr) := by
  induction h with
  | nil => exact hst
  | snoc hrun hs ih =>
    rw [FrontConfig.layoutTop, List.foldl_append]
    exact ih.step (Top.inv_run (fun l _ => hoff l) hy hidle hnew hrun) hsub hs

end TopLaid

end Parallel
end SmfSolver
