/-
  SmfSolver.Parallel.DisarmedRuns

  A factorization under limits that no limit stops is, step by step, a factorization
  without limits: the fronts are taken in the same order by the same threads.

  A thread that is refused a front, or takes a count past its limit, raises a stop before it
  does anything else, and a stop stays (`Front.disarm`).  So in a run that ends
  without a stop no thread ever was at such a place, and the counts of the run can be
  forgotten (`Subtrees.run_disarm`, `Top.run_disarm`).
-/
import SmfSolver.Parallel.LimitedFactor

namespace SmfSolver
namespace Parallel

open Lib
open Multifrontal (AssemblyTree)
open Multifrontal.AssemblyTree (taskFronts mem_taskFronts)

/-- The same fronts under no limits. -/
def FrontLimits.disarm (E : FrontLimits) : FrontLimits := { E with negLimit := -1, workCap := -1 }

theorem FrontLimits.cap_disarm (E : FrontLimits) (l : Limit) : E.disarm.cap l < 0 := by
  cases l <;> exact neg_one_lt_zero

namespace Tally

variable {threads : ℕ} {E : FrontLimits} {y y' : Tally threads} {e : TallyEvent threads}
  {t : Fin threads} {b : Site}

/-- The counts forgotten. -/
def disarm (y : Tally threads) : Tally threads where
  count := fun _ => 0
  failed := .success
  site := y.site

/-- The thread is about to raise a stop. -/
def stopping : Site → Bool
  | .failing | .raise _ _ => true
  | _ => false

/-- There is no stop, and none is coming. -/
structure Free (y : Tally threads) : Prop where
  failed : y.failed = .success
  site : ∀ t, stopping (y.site t) = false

/-- A thread that stored a stop leaves one behind. -/
def Halts (y : Tally threads) : Prop := ∀ t, y.site t = .halted → y.failed ≠ .success

theorem halts_init : Halts (init threads) := nofun

/-- A thread goes to `b`, where no stop is forgotten. -/
theorem Halts.goto (h : y.Halts) (hsite : y'.site = Function.update y.site t b)
    (hfailed : y.failed ≠ .success → y'.failed ≠ .success)
    (hb : b = .halted → y'.failed ≠ .success) : y'.Halts := by
  intro u hu
  rw [hsite] at hu
  by_cases hut : u = t
  · subst hut
    rw [Function.update_self] at hu
    exact hb hu
  · rw [Function.update_of_ne hut] at hu
    exact hfailed (h u hu)

theorem Halts.front (h : y.Halts) (hs : Front E y e y') : y'.Halts := by
  have hnext : ∀ {l : Limit} {s : ℕ}, l.next s ≠ .halted := by
    intro l s
    cases l <;> nofun
  cases hs with
  | refuse => exact h.goto rfl id nofun
  | run => exact h.goto rfl id nofun
  | store => exact h.goto rfl (fun _ => nofun) fun _ => nofun
  | skip => exact h.goto rfl id fun hb => absurd hb hnext
  | add =>
    refine h.goto rfl id fun hb => ?_
    split_ifs at hb
    exact absurd hb hnext
  | @raise t l s =>
    refine h.goto rfl (fun hc => ?_) fun hb => absurd hb hnext
    have hkeep : (y.raise l.error).failed = y.failed := if_neg hc
    exact fun he => hc (hkeep.symm.trans he)

/-- A thread comes to a front by taking it only. -/
theorem Front.busy (hs : Front E y e y') {u : Fin threads} (hu : y'.site u ≠ .idle) :
    y.site u ≠ .idle := by
  obtain ⟨t, b, hm⟩ := hs.moves
  intro hc
  have hut : u ≠ t := fun he => hm.idle (he ▸ hc)
  rw [hm.site, Function.update_of_ne hut] at hu
  exact hu hc

/-- What was free of stops before a step to `b` if it is after it. -/
theorem Free.back (h : y'.Free) (hsite : y'.site = Function.update y.site t b)
    (hfailed : y'.failed = y.failed) (hold : stopping (y.site t) = false) : y.Free := by
  refine ⟨hfailed ▸ h.failed, fun u => ?_⟩
  by_cases hut : u = t
  · exact hut ▸ hold
  · have hu := h.site u
    rwa [hsite, Function.update_of_ne hut] at hu

theorem free_of_idle (hok : y.failed = .success) (hidle : ∀ t, y.site t = .idle) : y.Free :=
  ⟨hok, fun t => by rw [hidle t]; rfl⟩

/-- A step of a front that no stop follows is one without limits. -/
theorem Front.disarm (hs : Front E y e y') (h : y'.Free) :
    y.Free ∧ Front E.disarm y.disarm e y'.disarm := by
  have hload : y.disarm.Loads 0 := ⟨le_rfl, le_rfl⟩
  have hself : ∀ {z : Tally threads} {a : Site} {u}, (z.goto u a).Free → stopping a = false :=
    fun {z a u} hz => by
      have hu := hz.site u
      rwa [goto_site_self] at hu
  cases hs with
  | refuse => cases hself h
  | store => exact nomatch h.failed
  | @run t s done ht =>
    refine ⟨h.back rfl rfl (by rw [ht]; rfl), ?_⟩
    exact .run (y := y.disarm) ht hload fun hc => absurd hc (not_le.mpr (E.cap_disarm .work))
  | @skip t l s ht =>
    refine ⟨h.back rfl rfl (by rw [ht]; rfl), ?_⟩
    exact .skip (y := y.disarm) ht (.inl (E.cap_disarm l))
  | @add t l s ht =>
    refine ⟨h.back rfl rfl (by rw [ht]; rfl), ?_⟩
    -- past the limit the thread would raise, which stops
    have hin : y.count l + E.amount l s ≤ E.cap l := by
      by_contra hc
      have hstop := hself h
      rw [if_neg hc] at hstop
      cases hstop
    rw [if_pos hin]
    exact .skip (y := y.disarm) ht (.inl (E.cap_disarm l))
  -- a raise leaves a status other than success
  | @raise t l s ht =>
    have hok : (y.raise l.error).failed = .success := h.failed
    rw [Tally.raise] at hok
    split_ifs at hok with hc
    · cases l <;> cases hok
    · exact absurd hok hc

end Tally

variable {T : AssemblyTree} {P : Partition T} {E : FrontLimits} {threads : ℕ}

namespace Subtrees

variable {tr : List (Label threads)} {s s' : Subtrees threads} {a : Label threads}

def disarm (s : Subtrees threads) : Subtrees threads := { s with tally := s.tally.disarm }

theorem Step.halts (hs : Step P E s a s') (h : s.tally.Halts) : s'.tally.Halts := by
  cases hs with
  | control => exact h
  | began => exact h
  | front => exact h.goto rfl id nofun
  | inside hf => exact h.front hf
  | raised _ hf => exact h.front hf
  | pass => exact h.goto rfl id nofun
  | ended => exact h
  | stopped => exact h.goto rfl id nofun

/-- A thread that is at a front is in a task. -/
def Placed (s : Subtrees threads) : Prop :=
  ∀ t, s.tally.site t ≠ .idle → ∃ i way, s.control.pc t = .task i way

theorem Step.placed (hs : Step P E s a s') (h : s.Placed) : s'.Placed := by
  cases hs with
  | control hs =>
    obtain ⟨-, htask⟩ := task_of_moved hs
    intro u hu
    obtain ⟨i, way, hpc⟩ := h u hu
    exact ⟨i, way, (htask u i way).mpr hpc⟩
  | @began t i way c hs =>
    obtain ⟨-, hout, hpc⟩ := task_of_began hs
    intro u hu
    obtain ⟨j, way', hj⟩ := h u hu
    have hut : u ≠ t := fun hc => hout j way' (hc ▸ hj)
    exact ⟨j, way', by rw [hpc, Function.update_of_ne hut, hj]⟩
  | @front t i way hpc =>
    intro u hu
    by_cases hut : u = t
    · exact ⟨i, way, hut ▸ hpc⟩
    · exact h u (by rwa [Tally.goto_site_of_ne _ _ hut] at hu)
  | inside hf =>
    exact fun u hu => h u (hf.busy hu)
  | raised _ hf =>
    exact fun u hu => h u (hf.busy hu)
  | @pass t =>
    intro u hu
    by_cases hut : u = t
    · rw [hut] at hu
      exact absurd (Tally.goto_site_self ..) hu
    · exact h u (by rwa [Tally.goto_site_of_ne _ _ hut] at hu)
  | @ended t i c hsite _ hs =>
    obtain ⟨-, -, b, hpc, -⟩ := task_of_ended hs
    intro u hu
    have hut : u ≠ t := fun hc => hu (hc ▸ hsite)
    obtain ⟨j, way, hj⟩ := h u hu
    exact ⟨j, way, by rw [hpc, Function.update_of_ne hut, hj]⟩
  | @stopped t i c _ hs =>
    obtain ⟨-, -, b, hpc, -⟩ := task_of_ended hs
    intro u hu
    by_cases hut : u = t
    · rw [hut] at hu
      exact absurd (Tally.goto_site_self ..) hu
    · obtain ⟨j, way, hj⟩ := h u (by rwa [Tally.goto_site_of_ne _ _ hut] at hu)
      exact ⟨j, way, by rw [hpc, Function.update_of_ne hut, hj]⟩

theorem Step.disarm (hs : Step P E s a s') (hhalts : s.tally.Halts) (h : s'.tally.Free) :
    s.tally.Free ∧ Step P E.disarm s.disarm a s'.disarm := by
  cases hs with
  | control hs => exact ⟨h, .control hs⟩
  | began hs => exact ⟨h, .began hs⟩
  | front hpc hsite hk =>
    exact ⟨h.back rfl rfl (by rw [hsite]; rfl), .front (s := s.disarm) hpc hsite hk⟩
  | inside hf =>
    obtain ⟨hfree, hf'⟩ := hf.disarm h
    exact ⟨hfree, .inside hf' rfl⟩
  | raised _ hf hstop =>
    obtain ⟨hfree, -⟩ := hf.disarm h
    exact absurd (h.failed.trans hfree.failed.symm) hstop
  | pass hsite => exact ⟨h.back rfl rfl (by rw [hsite]; rfl), .pass (s := s.disarm) hsite⟩
  | ended hsite hend hs => exact ⟨h, .ended (s := s.disarm) hsite hend hs⟩
  | @stopped t _ _ hsite => exact absurd h.failed (hhalts t hsite)

/-- The scheduling of phase 1 goes on as without the counts. -/
theorem control_run (h : (system P E threads).Run tr s) :
    Phase1.Inv P.ranges.length (left tr) s.control := by
  induction h with
  | nil => exact Phase1.inv_init threads P.ranges.length
  | @snoc tr s s' a _ hs ih =>
    have hquiet : ∀ {e : TallyEvent threads},
        Phase1.Inv P.ranges.length (left (tr ++ [(none, some e)])) s.control := by
      intro e
      rw [left_none]
      exact ih
    cases hs with
    | control hs =>
      rw [left_some]
      exact ih.step hs
    | began hs =>
      rw [left_some]
      exact ih.step hs
    | front => exact hquiet
    | inside => exact hquiet
    | raised hpc =>
      rw [left_some]
      exact ih.step (.fail hpc)
    | pass => exact hquiet
    | ended _ _ hs =>
      rw [left_some]
      exact ih.step hs
    | stopped _ hs =>
      rw [left_some]
      exact ih.step hs

/-- After the join no thread is at a front. -/
theorem Placed.idle (h : s.Placed) (hret : ∀ t, s.control.pc t = .returned) (t : Fin threads) :
    s.tally.site t = .idle := by
  by_contra hc
  obtain ⟨i, way, hpc⟩ := h t hc
  cases (hret t).symm.trans hpc

/-- Phase 1 without a stop is phase 1 without limits. -/
theorem run_disarm (h : (system P E threads).Run tr s) :
    s.tally.Halts ∧ s.Placed ∧
      (s.tally.Free → (system P E.disarm threads).Run tr s.disarm) := by
  induction h with
  | nil => exact ⟨Tally.halts_init, fun t ht => absurd rfl ht, fun _ => .nil⟩
  | snoc _ hs ih =>
    obtain ⟨hhalts, hplaced, hrun⟩ := ih
    refine ⟨Step.halts hs hhalts, Step.placed hs hplaced, fun hfree => ?_⟩
    obtain ⟨hbefore, hs'⟩ := Step.disarm hs hhalts hfree
    exact (hrun hbefore).snoc hs'

/-- Phase 1 after the join, when nothing has stopped it. -/
structure Finished (P : Partition T) (E : FrontLimits) (tr : List (Label threads))
    (s : Subtrees threads) : Prop where
  halts : s.tally.Halts
  run : (system P E.disarm threads).Run tr s.disarm
  inv : Inv P E.disarm .work tr s.disarm
  returned : ∀ t, s.control.pc t = .returned
  idle : ∀ t, s.tally.site t = .idle
  ended : ∀ i < P.ranges.length, Phase1.endings (left tr) i ≠ 0
  passed : ∀ r ∈ P.ranges, ∀ x ∈ taskFronts r, ∃ t, TallyEvent.passed t x ∈ right tr

theorem finished {caller : Fin threads} (hcaller : caller.1 = 0)
    (h : (system P E threads).Run tr s) (hret : s.control.pc caller = .returned)
    (hok : s.tally.failed = .success) : Finished P E tr s := by
  obtain ⟨hhalts, hplaced, hdisarmed⟩ := run_disarm h
  have hall := (control_run h).all_returned hcaller hret
  have hidle := hplaced.idle hall
  have hrun := hdisarmed (Tally.free_of_idle hok hidle)
  have hinv := inv_run (l := .work) (fun l _ => E.cap_disarm l) hrun
  have hnostop : s.control.failed = false := by
    by_contra hc
    exact hinv.synced.mp (Bool.not_eq_false _ ▸ hc) rfl
  refine ⟨hhalts, hrun, hinv, hall, hidle, fun i hi => ?_, fun r hr x hx => ?_⟩
  · rw [(hinv.control.all_ended caller hall hnostop hi).2]
    exact Nat.one_ne_zero
  · obtain ⟨i, hi, rfl⟩ := List.mem_iff_getElem.mp hr
    have hrange : P.ranges[i] = P.range i := List.getElem_eq_getD (h := hi) _
    exact hinv.passed_of_returned hall rfl caller hi (hrange ▸ hx)

/-- No top front was taken in phase 1. -/
theorem Finished.top_notMem (h : Finished P E tr s) :
    ∀ x ∈ P.topNodes, x ∉ Tally.begun (right tr) := by
  intro x hx hc
  obtain ⟨i, hi, hxi⟩ := h.inv.begun_mem x hc
  exact Partition.notMem_topNodes (Partition.range_mem hi) hxi hx

end Subtrees

namespace Top

variable {J : Type} [DecidableEq J] {tr : List (Label P.topNodes.length threads J)}
  {s s' : Top P.topNodes.length threads J} {a : Label P.topNodes.length threads J}

def disarm (s : Top P.topNodes.length threads J) : Top P.topNodes.length threads J :=
  { s with tally := s.tally.disarm }

theorem Step.halts (hs : Step P E s a s') (h : s.tally.Halts) : s'.tally.Halts := by
  cases hs with
  | control => exact h
  | call => exact h
  | stop => exact h
  | front => exact h.goto rfl id nofun
  | inside hf => exact h.front hf
  | pass => exact h.goto rfl id nofun
  | stopped => exact h.goto rfl id nofun
  | last => exact h
  | ret => exact h

/-- A worker that is at a front runs it. -/
def Placed (s : Top P.topNodes.length threads J) : Prop :=
  ∀ w, s.tally.site w ≠ .idle → (∃ v k, s.sched.worker w = .running v k) ∧ s.run w = .front

omit [DecidableEq J] in
/-- A worker that runs a front goes on to `r`. -/
theorem Placed.run_step {y : Tally threads} {w : Fin threads} {r : RunPc}
    {v : Fin P.topNodes.length}
    {k : ℤ} (h : s.Placed) (hw : s.sched.worker w = .running v k)
    (hsite : ∀ u, u ≠ w → y.site u = s.tally.site u) (hr : y.site w ≠ .idle → r = .front) :
    Placed { s with tally := y, run := Function.update s.run w r } := by
  intro u hu
  dsimp only at hu ⊢
  by_cases huw : u = w
  · subst huw
    rw [Function.update_self]
    exact ⟨⟨v, k, hw⟩, hr hu⟩
  · rw [Function.update_of_ne huw]
    exact h u (by rwa [← hsite u huw])

theorem Step.placed (hs : Step P E s a s') (h : s.Placed) : s'.Placed := by
  cases hs with
  | @control e c hs he =>
    intro w hw
    obtain ⟨⟨v, k, hrunning⟩, hfront⟩ := h w hw
    refine ⟨⟨v, k, ?_⟩, hfront⟩
    rcases TopScheduler.running_step hs hrunning with hkeep | ⟨ok, rfl⟩
    · exact hkeep
    · cases he
  | @call w v c hs =>
    obtain ⟨⟨k₀, hhold⟩, -⟩ := TopScheduler.call_step hs
    intro u hu
    obtain ⟨⟨v', k, hrunning⟩, hfront⟩ := h u hu
    have huw : u ≠ w := by
      rintro rfl
      cases hhold.symm.trans hrunning
    rcases TopScheduler.running_step hs hrunning with hkeep | ⟨ok, hret⟩
    · exact ⟨⟨v', k, hkeep⟩, (Function.update_of_ne huw ..).trans hfront⟩
    · cases hret
  | @stop w v k hw hrun =>
    refine h.run_step hw (fun _ _ => rfl) fun hc => ?_
    cases hrun.symm.trans (h w hc).2
  | front hw => exact h.run_step hw (fun _ hu => Tally.goto_site_of_ne _ _ hu) fun _ => rfl
  | inside hf =>
    exact fun u hu => h u (hf.busy hu)
  | @pass w _ _ _ hw =>
    refine h.run_step hw (fun _ hu => Tally.goto_site_of_ne _ _ hu) fun hc => ?_
    exact absurd (Tally.goto_site_self ..) hc
  | stopped hw =>
    refine h.run_step hw (fun _ hu => Tally.goto_site_of_ne _ _ hu) fun hc => ?_
    exact absurd (Tally.goto_site_self ..) hc
  | @last w _ _ _ hw hrun =>
    refine h.run_step hw (fun _ _ => rfl) fun hc => ?_
    cases hrun.symm.trans (h w hc).2
  | @ret w v b c hrun hs =>
    intro u hu
    obtain ⟨⟨v', k, hrunning⟩, hfront⟩ := h u hu
    rcases TopScheduler.running_step hs hrunning with hkeep | ⟨ok, hret⟩
    · exact ⟨⟨v', k, hkeep⟩, hfront⟩
    · cases hret
      cases hrun.symm.trans hfront

theorem Step.disarm (hs : Step P E s a s') (hhalts : s.tally.Halts) (hplaced : s.Placed)
    (h : s'.tally.Free) : s.tally.Free ∧ Step P E.disarm s.disarm a s'.disarm := by
  cases hs with
  | control hs he => exact ⟨h, .control hs he⟩
  | call hs => exact ⟨h, .call hs⟩
  | stop _ _ hstop => exact absurd h.failed (hstop rfl)
  | @front w _ _ hw hrun =>
    have hidle : Tally.stopping (s.tally.site w) = false := by
      by_cases hidle : s.tally.site w = .idle
      · rw [hidle]
        rfl
      · cases hrun.symm.trans (hplaced w hidle).2
    exact ⟨h.back rfl rfl hidle, .front (s := s.disarm) hw hrun⟩
  | inside hf =>
    obtain ⟨hfree, hf'⟩ := hf.disarm h
    exact ⟨hfree, .inside hf'⟩
  | pass hw hrun hsite =>
    exact ⟨h.back rfl rfl (by rw [hsite]; rfl), .pass (s := s.disarm) hw hrun hsite⟩
  | @stopped w _ _ _ _ hsite => exact absurd h.failed (hhalts w hsite)
  | @last w v k b hw hrun hb =>
    refine ⟨h, .last (s := s.disarm) hw hrun fun hc => ?_⟩
    exact absurd h.failed (hb hc)
  | ret hrun hs => exact ⟨h, .ret (s := s.disarm) hrun hs⟩

omit [DecidableEq J] in
/-- When all workers are done no thread is at a front. -/
theorem Placed.idle (h : s.Placed) (hdone : ∀ w, s.sched.worker w = .done) (w : Fin threads) :
    s.tally.site w = .idle := by
  by_contra hc
  obtain ⟨⟨v, k, hw⟩, -⟩ := h w hc
  cases (hdone w).symm.trans hw

/-- Phase 2 without a stop is phase 2 without limits. -/
theorem run_disarm {y : Tally threads} (hy : y.Halts) (hidle : ∀ w, y.site w = .idle)
    (h : (system P E threads J y).Run tr s) :
    s.tally.Halts ∧ s.Placed ∧
      (s.tally.Free → (system P E.disarm threads J y.disarm).Run tr s.disarm) := by
  induction h with
  | nil => exact ⟨hy, fun w hw => absurd (hidle w) hw, fun _ => .nil⟩
  | snoc _ hs ih =>
    obtain ⟨hhalts, hplaced, hrun⟩ := ih
    refine ⟨Step.halts hs hhalts, Step.placed hs hplaced, fun hfree => ?_⟩
    obtain ⟨hbefore, hs'⟩ := Step.disarm hs hhalts hplaced hfree
    exact (hrun hbefore).snoc hs'

/-- Phase 2 after its join, when nothing has stopped it. -/
structure Finished (P : Partition T) (E : FrontLimits) (y : Tally threads)
    (tr₁ : List (TallyEvent threads)) (tr : List (Label P.topNodes.length threads J))
    (s : Top P.topNodes.length threads J) : Prop where
  run : (system P E.disarm threads J y.disarm).Run tr s.disarm
  inv : Inv P E.disarm .work tr₁ tr s.disarm
  completed : ∀ v, v ∈ s.sched.completed.map (·.1)
  passed : ∀ x ∈ P.topNodes, ∃ t, TallyEvent.passed t x ∈ tr₁ ++ right tr

theorem finished {trs : List (Subtrees.Label threads)} {ss : Subtrees threads}
    (hss : Subtrees.Finished P E trs ss) (w : Fin threads)
    (h : (system P E threads J ss.tally).Run tr s) (hdone : ∀ w, s.sched.worker w = .done)
    (hok : s.tally.failed = .success) : Finished P E ss.tally (right trs) tr s := by
  obtain ⟨-, hplaced, hdisarmed⟩ := run_disarm hss.halts hss.idle h
  have hrun := hdisarmed (Tally.free_of_idle hok (hplaced.idle hdone))
  have hinv := inv_run (l := .work) (fun l _ => E.cap_disarm l) hss.inv.tally hss.idle
    hss.top_notMem hrun
  exact ⟨hrun, hinv, hinv.mem_completed hdone rfl w, fun x hx => hinv.passed_of_done hdone rfl w hx⟩

end Top

end Parallel
end SmfSolver
