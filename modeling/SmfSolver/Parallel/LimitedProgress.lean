/-
  SmfSolver.Parallel.LimitedProgress

  The tree-parallel factorization under a limit comes to an end: every run of either phase
  can be continued until the threads have returned, whatever has been taken, counted or
  stopped so far.

  A thread at a front, or in a run function, has a few steps to go (`Site.rank`,
  `RunPc.rank`); a subtree task has as many rounds of them as it has fronts left.  Outside of
  these a thread moves as the schedulers do, with `Phase1.Inv.advance` and
  `TopScheduler.Live.advance`.

  `factors_completes`: no run of either phase gets stuck; `exists_factors`: the factorization
  returns a status.
-/
import SmfSolver.Parallel.LimitedFactor
import SmfSolver.Parallel.TaskProgress
import SmfSolver.Parallel.TopSchedulerProgress

namespace SmfSolver
namespace Parallel

open Lib
open Multifrontal (AssemblyTree)

variable {T : AssemblyTree} {P : Partition T} {E : FrontLimits} {threads : ℕ} {l : Limit}

/-! ## Inside a front -/

/-- A bound on the steps of a thread before its front is through, or it has left. -/
def Site.rank : Site → ℕ
  | .idle => 8
  | .check _ => 7
  | .add .negatives _ => 6
  | .raise .negatives _ => 5
  | .add .work _ => 4
  | .raise .work _ => 3
  | .failing => 2
  | .halted => 1
  | .counted _ => 0

theorem Limit.rank_next_lt (l : Limit) (s : ℕ) :
    (l.next s).rank < (Site.raise l s).rank ∧ (Site.raise l s).rank < (Site.add l s).rank := by
  cases l <;> exact ⟨by simp [Limit.next, Site.rank], by simp [Site.rank]⟩

namespace Tally

variable {y y' : Tally threads} {e : TallyEvent threads} {t : Fin threads}

/-- The counts only grow. -/
theorem Front.count_le (h : Front E y e y') (l : Limit) : y.count l ≤ y'.count l := by
  cases h with
  | @add t l' s =>
    show y.count l ≤ Function.update y.count l' (y.count l' + E.amount l' s) l
    by_cases hl : l = l'
    · subst hl
      rw [Function.update_self]
      exact Int.le_add_of_nonneg_right (Int.natCast_nonneg _)
    · rw [Function.update_of_ne hl]
  | _ => exact le_rfl

/-- A thread at a front goes on with it. -/
theorem exists_front (hcount : 0 ≤ y.count .work) (hidle : y.site t ≠ .idle)
    (hcounted : ∀ s, y.site t ≠ .counted s) (hhalted : y.site t ≠ .halted) :
    ∃ e y' b, Front E y e y' ∧ y'.site = Function.update y.site t b ∧ b ≠ .idle ∧
      b.rank < (y.site t).rank := by
  have hload : y.Loads 0 := ⟨le_rfl, hcount⟩
  cases hsite : y.site t with
  | idle => exact absurd hsite hidle
  | counted s => exact absurd hsite (hcounted s)
  | halted => exact absurd hsite hhalted
  | check s =>
    -- the thread reads the work done as 0, which it may
    by_cases hstop : 0 ≤ E.workCap ∧ E.workCap < 0 + E.work s
    · exact ⟨_, _, .failing, .refuse hsite hstop.1 hload hstop.2, rfl, nofun, by simp [Site.rank]⟩
    · have hgo : 0 ≤ E.workCap → 0 + (E.work s : ℤ) ≤ E.workCap := fun harmed =>
        not_lt.mp fun hlt => hstop ⟨harmed, hlt⟩
      exact ⟨_, _, .add .negatives s, .run hsite hload hgo, rfl, nofun, by simp [Site.rank]⟩
  | failing => exact ⟨_, _, .halted, .store hsite, rfl, nofun, by simp [Site.rank]⟩
  | add l s =>
    obtain ⟨hraise, hadd⟩ := l.rank_next_lt s
    have hnext : l.next s ≠ .idle := by cases l <;> nofun
    by_cases hskip : E.cap l < 0 ∨ E.amount l s = 0
    · exact ⟨_, _, l.next s, .skip hsite hskip, rfl, hnext, hraise.trans hadd⟩
    · obtain ⟨harmed, hpos⟩ := not_or.mp hskip
      refine ⟨_, _, _, .add hsite (not_lt.mp harmed) (Nat.pos_of_ne_zero hpos), rfl, ?_, ?_⟩
      · split_ifs
        · exact hnext
        · nofun
      · split_ifs
        · exact hraise.trans hadd
        · exact hadd
  | raise l s =>
    have hnext : l.next s ≠ .idle := by cases l <;> nofun
    exact ⟨_, _, l.next s, .raise hsite, rfl, hnext, (l.rank_next_lt s).1⟩

end Tally

/-! ## Phase 1 -/

namespace Subtrees

variable {tr : List (Label threads)} {s s' : Subtrees threads} {t u : Fin threads} {i : ℕ}
  {way : Way}

/-- How far a thread is from its return: its place in the job, and in a task ten steps for
    each front that is left of the range. -/
def own (P : Partition T) (s : Subtrees threads) (t : Fin threads) : ℕ :=
  (s.control.pc t).rank (Phase1.dealt threads P.ranges.length) +
    match s.control.pc t with
    | .task i _ => 10 * ((P.range i).2 + 1 - s.k t) + (s.tally.site t).rank
    | _ => 0

/-- The tasks nobody has taken. -/
def supply (P : Partition T) (s : Subtrees threads) : ℕ :=
  (Phase1.untaken P.ranges.length s.control).card

theorem own_task (h : s.control.pc t = .task i way) :
    own P s t = (Pc.task i way).rank (Phase1.dealt threads P.ranges.length) +
      (10 * ((P.range i).2 + 1 - s.k t) + (s.tally.site t).rank) := by
  rw [own, h]

theorem own_outside (h : ∀ i way, s.control.pc t ≠ .task i way) :
    own P s t = (s.control.pc t).rank (Phase1.dealt threads P.ranges.length) := by
  unfold own
  split
  · rename_i i way hpc
    exact absurd hpc (h i way)
  · rfl

theorem own_congr (hpc : s'.control.pc u = s.control.pc u) (hk : s'.k u = s.k u)
    (hsite : s'.tally.site u = s.tally.site u) : own P s' u = own P s u := by
  rw [own, own, hpc, hk, hsite]

/-- A thread stays in its task and comes forward there. -/
theorem advances_inTask (hpc : s.control.pc t = .task i way)
    (hcontrol : s'.control.pc = s.control.pc) (hsupply : supply P s' = supply P s)
    (hk : ∀ u, u ≠ t → s'.k u = s.k u) (hsite : ∀ u, u ≠ t → s'.tally.site u = s.tally.site u)
    (hlt : 10 * ((P.range i).2 + 1 - s'.k t) + (s'.tally.site t).rank <
      10 * ((P.range i).2 + 1 - s.k t) + (s.tally.site t).rank) :
    Advances (supply P) (own P) s s' := by
  have hpc' : s'.control.pc t = .task i way := by rw [hcontrol, hpc]
  refine .of_own (i := t) hsupply.le ?_ fun u hu => ?_
  · rw [own_task hpc, own_task hpc']
    exact Nat.add_lt_add_left hlt _
  · exact (own_congr (congrFun hcontrol u) (hk u hu) (hsite u hu)).le

theorem count_nonneg (h : (system P E threads).Run tr s) (l : Limit) : 0 ≤ s.tally.count l :=
  h.invariant (P := fun _ s => 0 ≤ s.tally.count l) le_rfl fun _ hle hs => by
    cases hs with
    | inside hf => exact hle.trans (hf.count_le l)
    | raised _ hf => exact hle.trans (hf.count_le l)
    | _ => exact hle

/-- A thread in a task goes on. -/
theorem Inv.advance_task (h : Inv P E l tr s) (hcount : 0 ≤ s.tally.count .work)
    (hpc : s.control.pc t = .task i way) :
    ∃ a s', Step P E s a s' ∧ Advances (supply P) (own P) s s' := by
  obtain ⟨-, htask⟩ := h.inTask t i way hpc
  have hgoto : ∀ a u, u ≠ t → (s.tally.goto t a).site u = s.tally.site u := fun a u hu =>
    Tally.goto_site_of_ne _ _ hu
  -- the task is over: what is left of it goes
  have hend : ∀ {y : Tally threads}, (∀ u, u ≠ t → y.site u = s.tally.site u) →
      Advances (supply P) (own P) s
        { s with control := s.control.goto t (Phase1.afterTask i way), tally := y } := by
    intro y hy
    have hafter : (s.control.goto t (Phase1.afterTask i way)).pc t = Phase1.afterTask i way :=
      Function.update_self ..
    refine .of_own (i := t) le_rfl ?_ fun u hu => ?_
    · rw [own_task hpc, own_outside (fun j way' => by rw [hafter]; cases way <;> nofun), hafter]
      exact (Phase1.rank_afterTask _ i way).trans_le (Nat.le_add_right _ _)
    · exact le_of_eq (own_congr (Function.update_of_ne hu ..) rfl (hy u hu))
  by_cases hidle : s.tally.site t = .idle
  · by_cases hk : s.k t ≤ (P.range i).2
    · refine ⟨_, _, .front hpc hidle hk, advances_inTask hpc rfl rfl (fun _ _ => rfl) (hgoto _) ?_⟩
      rw [Tally.goto_site_self, hidle]
      exact Nat.lt_succ_self _
    · exact ⟨_, _, .ended hidle (.inl (not_le.mp hk)) (.ended hpc), hend fun _ _ => rfl⟩
  by_cases hcounted : ∃ x, s.tally.site t = .counted x
  · obtain ⟨x, hx⟩ := hcounted
    have hle := htask.le
    rw [if_neg hidle] at hle
    refine ⟨_, _, .pass hx, advances_inTask hpc rfl rfl (fun u hu => Function.update_of_ne hu ..)
      (hgoto _) ?_⟩
    dsimp only
    rw [Tally.goto_site_self, Function.update_self, hx]
    simp only [Site.rank]
    omega
  by_cases hhalted : s.tally.site t = .halted
  · exact ⟨_, _, .stopped hhalted (.ended hpc), hend (hgoto _)⟩
  obtain ⟨e, y, b, hf, hsite, -, hlt⟩ := Tally.exists_front (E := E) hcount hidle
    (fun x hx => hcounted ⟨x, hx⟩) hhalted
  have hrest : ∀ u, u ≠ t → y.site u = s.tally.site u := fun u hu => by
    rw [hsite, Function.update_of_ne hu]
  have hrank : 10 * ((P.range i).2 + 1 - s.k t) + (y.site t).rank <
      10 * ((P.range i).2 + 1 - s.k t) + (s.tally.site t).rank := by
    rw [hsite, Function.update_self]
    exact Nat.add_lt_add_left hlt _
  by_cases hsame : y.failed = s.tally.failed
  · exact ⟨_, _, .inside hf hsame, advances_inTask hpc rfl rfl (fun _ _ => rfl) hrest hrank⟩
  · exact ⟨_, _, .raised hpc hf hsame, advances_inTask hpc rfl rfl (fun _ _ => rfl) hrest hrank⟩

/-- A thread outside of the tasks goes on. -/
theorem Inv.advance_outside (h : Inv P E l tr s) (hout : ∀ i way, s.control.pc t ≠ .task i way)
    (hret : s.control.pc t ≠ .returned) (hcaller : t.1 = 0 → s.control.pending = 0) :
    ∃ a s', Step P E s a s' ∧ Advances (supply P) (own P) s s' := by
  obtain ⟨e, c, b, hgo⟩ := h.control.advance hout hret hcaller
  rcases hgo.used with ⟨rfl, hsame, hlt⟩ | ⟨i, way, rfl, hlt⟩
  · have hmoved := (task_of_moved hgo.step).2 t
    refine ⟨_, _, .control hgo.step, .of_own (i := t) ?_ ?_ fun u hu => ?_⟩
    · exact (congrArg Finset.card hsame).le
    · rw [own_outside hout, own_outside fun i way hc => hout i way ((hmoved i way).mp hc)]
      dsimp only
      rwa [hgo.pc, Function.update_self]
    · refine le_of_eq (own_congr ?_ rfl rfl)
      dsimp only
      rw [hgo.pc, Function.update_of_ne hu]
  · exact ⟨_, _, .began hgo.step, .of_shared hlt⟩

/-- Every run of phase 1 can be continued until all threads have returned. -/
theorem completes (honly : ∀ l', l' ≠ l → E.cap l' < 0) (h : (system P E threads).Run tr s) :
    ∃ tr' s', (system P E threads).Run (tr ++ tr') s' ∧ ∀ t, s'.control.pc t = .returned := by
  refine h.complete (supply P) (own P) fun {tr s} hrun hnot => ?_
  have hinv := inv_run honly hrun
  obtain ⟨t, hret, hcaller⟩ := hinv.control.exists_free hnot
  by_cases htask : ∃ i way, s.control.pc t = .task i way
  · obtain ⟨i, way, hpc⟩ := htask
    exact hinv.advance_task (count_nonneg hrun .work) hpc
  · exact hinv.advance_outside (fun i way hc => htask ⟨i, way, hc⟩) hret hcaller

end Subtrees

/-! ## Phase 2 -/

/-- A bound on the steps of a worker before its run function returns, at `site` of its front. -/
def RunPc.rank (site : Site) : RunPc → ℕ
  | .poll => 11
  | .front => site.rank + 2
  | .last => 1
  | .verdict _ => 0

namespace Top

variable {J : Type} {tr₁ : List (TallyEvent threads)}
  {tr : List (Label P.topNodes.length threads J)} {s s' : Top P.topNodes.length threads J}
  {w u : Fin threads} {v : Fin P.topNodes.length} {k : ℤ}

/-- How far a worker is from the end of what it is at. -/
def own (s : Top P.topNodes.length threads J) (w : Fin threads) : ℕ :=
  match s.sched.worker w with
  | .running _ _ => (s.run w).rank (s.tally.site w) + 4
  | a => a.rank

/-- The nodes still to be handed out, and the helper places. -/
def supply (s : Top P.topNodes.length threads J) : ℕ := s.sched.supply

theorem own_running (h : s.sched.worker w = .running v k) :
    own s w = (s.run w).rank (s.tally.site w) + 4 := by
  rw [own, h]

theorem own_eq_rank (h : ∀ v k, s.sched.worker w = .running v k → s.run w = .poll) :
    own s w = (s.sched.worker w).rank := by
  unfold own
  split
  · rename_i v k hw
    rw [h v k hw, hw]
    rfl
  · rfl

theorem own_congr (hworker : s'.sched.worker u = s.sched.worker u) (hrun : s'.run u = s.run u)
    (hsite : s'.tally.site u = s.tally.site u) : own s' u = own s u := by
  rw [own, own, hworker, hrun, hsite]

/-- A worker comes forward in its run function. -/
theorem advances_running (hw : s.sched.worker w = .running v k) (hsched : s'.sched = s.sched)
    (hrun : ∀ u, u ≠ w → s'.run u = s.run u) (hsite : ∀ u, u ≠ w → s'.tally.site u = s.tally.site u)
    (hlt : (s'.run w).rank (s'.tally.site w) < (s.run w).rank (s.tally.site w)) :
    Advances supply own s s' := by
  have hw' : s'.sched.worker w = .running v k := by rw [hsched, hw]
  refine .of_own (i := w) (by rw [supply, supply, hsched]) ?_ fun u hu => ?_
  · rw [own_running hw, own_running hw']
    exact Nat.add_lt_add_right hlt 4
  · exact le_of_eq (own_congr (by rw [hsched]) (hrun u hu) (hsite u hu))

variable [DecidableEq J]

theorem count_nonneg {y : Tally threads} (hy : ∀ l, 0 ≤ y.count l)
    (h : (system P E threads J y).Run tr s) (l : Limit) : 0 ≤ s.tally.count l :=
  h.invariant (P := fun _ s => 0 ≤ s.tally.count l) (hy l) fun _ hle hs => by
    cases hs with
    | inside hf => exact hle.trans (hf.count_le l)
    | _ => exact hle

/-- A worker in its run function goes on. -/
theorem Inv.advance_running (h : Inv P E l tr₁ tr s) (hcount : 0 ≤ s.tally.count .work)
    (hw : s.sched.worker w = .running v k) :
    ∃ a s', Step P E s a s' ∧ Advances supply own s s' := by
  have hok := h.running w v k hw
  have hgoto : ∀ a u, u ≠ w → (s.tally.goto w a).site u = s.tally.site u := fun a u hu =>
    Tally.goto_site_of_ne _ _ hu
  have hnext : ∀ (r : RunPc) u, u ≠ w → Function.update s.run w r u = s.run u := fun r u hu =>
    Function.update_of_ne hu ..
  cases hrun : s.run w with
  | poll =>
    refine ⟨_, _, .front hw hrun, advances_running hw rfl (hnext _) (hgoto _) ?_⟩
    rw [Tally.goto_site_self, hrun]
    dsimp only
    rw [Function.update_self]
    simp [RunPc.rank, Site.rank]
  -- the front is through, or stopped, or has a step to take
  | front =>
    rw [hrun] at hok
    by_cases hcounted : ∃ x, s.tally.site w = .counted x
    · obtain ⟨x, hx⟩ := hcounted
      refine ⟨_, _, .pass hw hrun hx, advances_running hw rfl (hnext _) (hgoto _) ?_⟩
      dsimp only
      rw [Function.update_self, hrun]
      simp [RunPc.rank]
    by_cases hhalted : s.tally.site w = .halted
    · refine ⟨_, _, .stopped hw hrun hhalted, advances_running hw rfl (hnext _) (hgoto _) ?_⟩
      dsimp only
      rw [Function.update_self, hrun]
      simp [RunPc.rank]
    obtain ⟨e, y, b, hf, hsite, -, hlt⟩ := Tally.exists_front (E := E) hcount hok.1
      (fun x hx => hcounted ⟨x, hx⟩) hhalted
    refine ⟨_, _, .inside hf, advances_running hw rfl (fun _ _ => rfl) (fun u hu => ?_) ?_⟩
    · rw [hsite, Function.update_of_ne hu]
    · dsimp only
      rw [hsite, Function.update_self, hrun]
      exact Nat.add_lt_add_right hlt 2
  | last =>
    have hs : Step P E s (none, none) { s with run := Function.update s.run w (.verdict true) } :=
      .last hw hrun nofun
    refine ⟨_, _, hs, advances_running hw rfl (hnext _) (fun _ _ => rfl) ?_⟩
    dsimp only
    rw [Function.update_self, hrun]
    exact zero_lt_one
  | verdict b =>
    refine ⟨_, _, .ret hrun (.ret hw), .of_own (i := w) le_rfl ?_ fun u hu => ?_⟩
    · have hret : (s.sched.setWorker w (.returned v k b)).worker w = .returned v k b :=
        TopScheduler.worker_setWorker_self ..
      rw [own_running hw, own_eq_rank fun v' k' hc => by cases hret.symm.trans hc]
      dsimp only
      rw [hret]
      exact Nat.le_add_left 4 _
    · exact le_of_eq (own_congr (TopScheduler.worker_setWorker_of_ne _ _ hu) rfl rfl)

/-- While no worker is in a run function, one goes on. -/
theorem Inv.advance_outside (h : Inv P E l tr₁ tr s)
    (hlive : TopScheduler.Live P.topForest s.sched)
    (hnot : ¬∀ w, s.sched.worker w = .done) (hout : ∀ w v k, s.sched.worker w ≠ .running v k) :
    ∃ a s', Step P E s a s' ∧ Advances supply own s s' := by
  obtain ⟨e, c, hgo⟩ := hlive.advance h.sched.inv hnot hout
  have hbefore : ∀ u, own s u = (s.sched.worker u).rank := fun u =>
    own_eq_rank fun v k hw => absurd hw (hout u v k)
  have hafter : ∀ {s' : Top P.topNodes.length threads J}, s'.sched = c →
      (∀ u v k, c.worker u = .running v k → s'.run u = .poll) → Advances supply own s s' := by
    intro s' hs' hpoll
    have hown : ∀ u, own s' u = (c.worker u).rank := fun u => by
      rw [own_eq_rank fun v k hw => hpoll u v k (hs' ▸ hw), hs']
    rcases hgo.advances with hlt | ⟨heq, hle, u, hu⟩
    · exact .inl (by rwa [supply, supply, hs'])
    · refine .inr ⟨by rwa [supply, supply, hs'], fun u => ?_, u, ?_⟩
      · rw [hown, hbefore]
        exact hle u
      · rw [hown, hbefore]
        exact hu
  have hcame : ∀ {u v k}, c.worker u = .running v k → e = .call u v := fun hw =>
    (running_of_step hgo.step hw).resolve_left (hout _ _ _)
  by_cases hcall : ∃ w v, e = .call w v
  · obtain ⟨w, v, rfl⟩ := hcall
    refine ⟨_, _, .call hgo.step, hafter rfl fun u v' k hw => ?_⟩
    cases hcame hw
    exact Function.update_self ..
  · have hquiet : isRun e = false := by
      cases e with
      | call w v => exact absurd ⟨w, v, rfl⟩ hcall
      | ret w v ok => exact absurd rfl (hgo.not_ret w v ok)
      | _ => rfl
    refine ⟨_, _, .control hgo.step hquiet, hafter rfl fun u v k hw => ?_⟩
    exact absurd ⟨u, v, hcame hw⟩ hcall

/-- Every run of phase 2 can be continued until all workers have returned. -/
theorem completes {y : Tally threads} (honly : ∀ l', l' ≠ l → E.cap l' < 0)
    (hy : Tally.Inv E (List.range T.ns) l tr₁ y) (hcount : ∀ l, 0 ≤ y.count l)
    (hidle : ∀ t, y.site t = .idle) (hnew : ∀ x ∈ P.topNodes, x ∉ Tally.begun tr₁)
    (h : (system P E threads J y).Run tr s) :
    ∃ tr' s', (system P E threads J y).Run (tr ++ tr') s' ∧ ∀ w, s'.sched.worker w = .done := by
  have hinv : ∀ {tr s}, (system P E threads J y).Run tr s → Inv P E l tr₁ tr s :=
    inv_run honly hy hidle hnew
  have hlive : ∀ {tr s}, (system P E threads J y).Run tr s →
      TopScheduler.Live P.topForest s.sched := fun hrun =>
    hrun.invariant (P := fun _ s => TopScheduler.Live P.topForest s.sched)
      (TopScheduler.live_new P.topForest threads) fun hrun hlive hs => by
        have hsched := (hinv hrun).sched.inv
        cases hs with
        | control hs => exact hlive.step hsched hs
        | call hs => exact hlive.step hsched hs
        | ret _ hs => exact hlive.step hsched hs
        | _ => exact hlive
  refine h.complete supply own fun {tr s} hrun hnot => ?_
  by_cases hin : ∃ w v k, s.sched.worker w = .running v k
  · obtain ⟨w, v, k, hw⟩ := hin
    exact (hinv hrun).advance_running (count_nonneg hcount hrun .work) hw
  · exact (hinv hrun).advance_outside (hlive hrun) hnot fun w v k hw => hin ⟨w, v, k, hw⟩

end Top

/-! ## Both phases -/

/-- No run of the parallel factorization gets stuck, when no limit is armed but one: phase 1
    can be continued to its join, and phase 2 until all workers have returned. -/
theorem factors_completes (J : Type) [DecidableEq J] (honly : ∀ l', l' ≠ l → E.cap l' < 0)
    {tr : List (Subtrees.Label threads)} {s : Subtrees threads}
    (h : (Subtrees.system P E threads).Run tr s) :
    (∃ tr' s', (Subtrees.system P E threads).Run (tr ++ tr') s' ∧
      ∀ t, s'.control.pc t = .returned) ∧
    ∀ caller : Fin threads, caller.1 = 0 → s.control.pc caller = .returned →
      ∀ tr₂ s₂, (Top.system P E threads J s.tally).Run tr₂ s₂ →
        ∃ tr' s', (Top.system P E threads J s.tally).Run (tr₂ ++ tr') s' ∧
          ∀ w, s'.sched.worker w = .done := by
  refine ⟨Subtrees.completes honly h, fun caller hcaller hret tr₂ s₂ h₂ => ?_⟩
  have hinv := Subtrees.inv_run honly h
  have hall := hinv.control.all_returned hcaller hret
  have hnew : ∀ x ∈ P.topNodes, x ∉ Tally.begun (right tr) := by
    intro x hx hc
    obtain ⟨i, hi, hxi⟩ := hinv.begun_mem x hc
    exact Partition.notMem_topNodes (Partition.range_mem hi) hxi hx
  exact Top.completes honly hinv.tally (Subtrees.count_nonneg h) (hinv.idle_of_returned hall)
    hnew h₂

/-- So the factorization returns a status. -/
theorem exists_factors (P : Partition T) (E : FrontLimits) (J : Type) [DecidableEq J]
    (honly : ∀ l', l' ≠ l → E.cap l' < 0) (hthreads : 0 < threads) :
    ∃ status, Factors P E threads J status := by
  have hfirst := factors_completes J honly (Lts.Run.nil (L := Subtrees.system P E threads))
  obtain ⟨tr, s, hrun, hret⟩ := hfirst.1
  by_cases hgo : s.tally.failed = .success ∧ P.topNodes ≠ []
  · obtain ⟨tr', s', hrun', hdone⟩ := (factors_completes J honly hrun).2 ⟨0, hthreads⟩ rfl
      (hret _) [] _ .nil
    exact ⟨_, .top ⟨0, hthreads⟩ rfl hrun (hret _) hgo.1 hgo.2 hrun' hdone⟩
  · refine ⟨_, .subtrees ⟨0, hthreads⟩ rfl hrun (hret _) ?_⟩
    exact (not_and_or.mp hgo).imp_right not_not.mp

end Parallel
end SmfSolver
