/-
  SmfSolver.Parallel.LimitedFactor

  The two phases of the tree-parallel factorization under a limit: the threads take the
  subtree tasks (`Phase1`) and then the top fronts (`TopScheduler`), and share the counts
  (`Tally`).  A step is a step of the scheduling, a step inside a front, or both where one
  decides the other: a stop stored while a task runs is the `failed` of phase 1, and a top
  front's run function returns what the thread found.

  What the fronts add does not depend on the schedule, and no front fails otherwise.

  `limits_decide`: with one limit armed, every complete run of the two phases and the
  one-thread engine return its error iff the fronts' total passes the cap.
  `LimitedProgress` shows that every run of the two phases can be completed.
-/
import SmfSolver.Lib.Trace
import SmfSolver.Parallel.FrontLimits
import SmfSolver.Parallel.TaskClaim
import SmfSolver.Parallel.TopSchedulerRuns
import SmfSolver.Parallel.TreePartition

namespace SmfSolver
namespace Parallel

open Lib
open Multifrontal (AssemblyTree)
open Multifrontal.AssemblyTree (taskFronts mem_taskFronts)

variable {T : AssemblyTree} {P : Partition T} {E : FrontLimits} {threads : ℕ}

/-- Task `i`: a postorder range. -/
def Partition.range (P : Partition T) (i : ℕ) : ℕ × ℕ := P.ranges.getD i (0, 0)

theorem Partition.range_mem {i : ℕ} (hi : i < P.ranges.length) : P.range i ∈ P.ranges := by
  rw [Partition.range, ← List.getElem_eq_getD (h := hi)]
  exact List.getElem_mem hi

/-- A front is in one task only. -/
theorem Partition.range_unique {i j x : ℕ} (hi : i < P.ranges.length) (hj : j < P.ranges.length)
    (hx : x ∈ taskFronts (P.range i)) (hx' : x ∈ taskFronts (P.range j)) : i = j := by
  have key : ∀ {a b : ℕ}, (ha : a < P.ranges.length) → (hb : b < P.ranges.length) →
      x ∈ taskFronts (P.range a) → x ∈ taskFronts (P.range b) → ¬a < b := by
    intro a b ha hb hxa hxb hab
    have hdis := List.pairwise_iff_getElem.mp P.disjoint a b ha hb hab
    rw [Partition.range, ← List.getElem_eq_getD (h := ha), mem_taskFronts] at hxa
    rw [Partition.range, ← List.getElem_eq_getD (h := hb), mem_taskFronts] at hxb
    omega
  exact le_antisymm (not_lt.mp (key hj hi hx' hx)) (not_lt.mp (key hi hj hx hx'))

/-! ## Phase 1 -/

/-- The scheduling, the counts, and the loop variable of every thread's `run_task`. -/
structure Subtrees (threads : ℕ) where
  control : Phase1 threads
  tally : Tally threads
  k : Fin threads → ℕ

namespace Subtrees

/-- What one step is, for the scheduling and for the counts. -/
abbrev Label (threads : ℕ) := Option (TaskEvent threads) × Option (TallyEvent threads)

def init (threads n : ℕ) : Subtrees threads where
  control := Phase1.init threads n
  tally := Tally.init threads
  k := fun _ => 0

/-- One step.  The loop of `run_task` polls the stop flag before each front, and is left
    when it sees a stop, when a front returned an error, or at the end of the range. -/
inductive Step (P : Partition T) (E : FrontLimits) :
    Subtrees threads → Label threads → Subtrees threads → Prop
  | control {s t c} (h : Phase1.Step P.ranges.length s.control (.moved t) c) :
      Step P E s (some (.moved t), none) { s with control := c }
  | began {s t i way c} (h : Phase1.Step P.ranges.length s.control (.began t i way) c) :
      Step P E s (some (.began t i way), none)
        { s with control := c, k := Function.update s.k t (P.range i).1 }
  | front {s t} {i : ℕ} {way : Way} (hpc : s.control.pc t = .task i way)
      (hsite : s.tally.site t = .idle) (hk : s.k t ≤ (P.range i).2) :
      Step P E s (none, some (.began t (s.k t)))
        { s with tally := s.tally.goto t (.check (s.k t)) }
  | inside {s y e} (h : Tally.Front E s.tally e y) (hsame : y.failed = s.tally.failed) :
      Step P E s (none, some e) { s with tally := y }
  /-- A thread in a task raises the stop. -/
  | raised {s y e t} {i : ℕ} {way : Way} (hpc : s.control.pc t = .task i way)
      (h : Tally.Front E s.tally e y) (hstop : y.failed ≠ s.tally.failed) :
      Step P E s (some (.failed t), some e)
        { s with control := { s.control with failed := true }, tally := y }
  | pass {s t x} (hsite : s.tally.site t = .counted x) :
      Step P E s (none, some (.passed t x))
        { s with tally := s.tally.goto t .idle, k := Function.update s.k t (s.k t + 1) }
  | ended {s t i c} (hsite : s.tally.site t = .idle)
      (hend : (P.range i).2 < s.k t ∨ s.control.Polls false)
      (h : Phase1.Step P.ranges.length s.control (.ended t i) c) :
      Step P E s (some (.ended t i), none) { s with control := c }
  | stopped {s t i c} (hsite : s.tally.site t = .halted)
      (h : Phase1.Step P.ranges.length s.control (.ended t i) c) :
      Step P E s (some (.ended t i), some (.moved t))
        { s with control := c, tally := s.tally.goto t .idle }

/-- Phase 1 of the factorization. -/
def system (P : Partition T) (E : FrontLimits) (threads : ℕ) :
    Lts (Subtrees threads) (Label threads) where
  init := init threads P.ranges.length
  step := Step P E

/-! ### Its invariant -/

/-- What is known of a thread in task `i`: it takes the range's fronts in order. -/
structure InTask (P : Partition T) (i : ℕ) (tr : List (TallyEvent threads)) (site : Site) (k : ℕ) :
    Prop where
  ge : (P.range i).1 ≤ k
  le : if site = .idle then k ≤ (P.range i).2 + 1 else k ≤ (P.range i).2
  front_eq : ∀ x, Tally.front site = some x → x = k
  begun_iff : ∀ x ∈ taskFronts (P.range i),
    x ∈ Tally.begun tr ↔ x < if site = .idle then k else k + 1
  passed : ∀ x ∈ taskFronts (P.range i), x < k → ∃ t, TallyEvent.passed t x ∈ tr

structure Inv (P : Partition T) (E : FrontLimits) (l : Limit) (tr : List (Label threads))
    (s : Subtrees threads) : Prop where
  control : Phase1.Inv P.ranges.length (left tr) s.control
  tally : Tally.Inv E (List.range T.ns) l (right tr) s.tally
  synced : s.control.failed = true ↔ s.tally.failed ≠ .success
  outside : ∀ t, (∀ i way, s.control.pc t ≠ .task i way) → s.tally.site t = .idle
  inTask : ∀ t i way, s.control.pc t = .task i way →
    i < P.ranges.length ∧ InTask P i (right tr) (s.tally.site t) (s.k t)
  unbegun : ∀ i < P.ranges.length, Phase1.begun (left tr) i = 0 →
    ∀ x ∈ taskFronts (P.range i), x ∉ Tally.begun (right tr)
  ended : s.control.failed = false → ∀ i < P.ranges.length, Phase1.endings (left tr) i ≠ 0 →
    ∀ x ∈ taskFronts (P.range i), ∃ t, TallyEvent.passed t x ∈ right tr
  begun_mem : ∀ x ∈ Tally.begun (right tr), ∃ i < P.ranges.length, x ∈ taskFronts (P.range i)

section Steps

variable {l : Limit} {tr : List (Label threads)} {s s' : Subtrees threads}
  {c : Phase1 threads} {t u : Fin threads} {i x : ℕ} {way : Way}

/-- A move leaves the tasks where they are. -/
theorem task_of_moved {n : ℕ} {a c : Phase1 threads} (h : Phase1.Step n a (.moved t) c) :
    c.failed = a.failed ∧ ∀ u i way, c.pc u = .task i way ↔ a.pc u = .task i way := by
  have key : ∀ {b : Pc}, c.pc = Function.update a.pc t b →
      (∀ i way, a.pc t ≠ .task i way) → (∀ i way, b ≠ .task i way) →
      ∀ u i way, c.pc u = .task i way ↔ a.pc u = .task i way := by
    intro b hpc ha hb u i way
    rw [hpc]
    by_cases hu : u = t
    · subst hu
      rw [Function.update_self]
      exact iff_of_false (hb i way) (ha i way)
    · rw [Function.update_of_ne hu]
  cases h with
  | start h => exact ⟨rfl, key rfl (fun _ _ => by rw [h]; nofun) fun _ _ => by split_ifs <;> nofun⟩
  | @ownPoll _ b h _ =>
    exact ⟨rfl, key rfl (fun _ _ => by rw [h]; nofun) fun _ _ => by cases b <;> nofun⟩
  | @ownLoad _ b h _ =>
    exact ⟨rfl, key rfl (fun _ _ => by rw [h]; nofun) fun _ _ => by cases b <;> nofun⟩
  | ownLost h _ => exact ⟨rfl, key rfl (fun _ _ => by rw [h]; nofun) nofun⟩
  | @loopPoll _ b h _ =>
    exact ⟨rfl, key rfl (fun _ _ => by rw [h]; nofun) fun _ _ => by cases b <;> nofun⟩
  | fetchNone h _ => exact ⟨rfl, key rfl (fun _ _ => by rw [h]; nofun) nofun⟩
  | scanPoll h _ => exact ⟨rfl, key rfl (fun _ _ => by rw [h]; nofun) nofun⟩
  | scanStop h _ => exact ⟨rfl, key rfl (fun _ _ => by rw [h]; nofun) nofun⟩
  | @scanLoad _ _ b h _ =>
    exact ⟨rfl, key rfl (fun _ _ => by rw [h]; nofun) fun _ _ => by cases b <;> nofun⟩
  | scanLost h _ => exact ⟨rfl, key rfl (fun _ _ => by rw [h]; nofun) nofun⟩
  | finish h _ => exact ⟨rfl, key rfl (fun _ _ => by rw [h]; nofun) nofun⟩
  | finishCaller h _ _ => exact ⟨rfl, key rfl (fun _ _ => by rw [h]; nofun) nofun⟩

/-- A thread begins a task from outside of any. -/
theorem task_of_began {n : ℕ} {a c : Phase1 threads} (h : Phase1.Step n a (.began t i way) c) :
    c.failed = a.failed ∧ (∀ j way', a.pc t ≠ .task j way') ∧
      c.pc = Function.update a.pc t (.task i way) := by
  cases h with
  | ownClaim h _ => exact ⟨rfl, fun _ _ => by rw [h]; nofun, rfl⟩
  | fetch h _ => exact ⟨rfl, fun _ _ => by rw [h]; nofun, rfl⟩
  | scanClaim h _ => exact ⟨rfl, fun _ _ => by rw [h]; nofun, rfl⟩

/-- A thread ends the task it is in, and is then outside. -/
theorem task_of_ended {n : ℕ} {a c : Phase1 threads} (h : Phase1.Step n a (.ended t i) c) :
    c.failed = a.failed ∧ (∃ way, a.pc t = .task i way) ∧
      ∃ b, c.pc = Function.update a.pc t b ∧ ∀ j way, b ≠ .task j way := by
  cases h with
  | @ended _ _ way h =>
    exact ⟨rfl, ⟨way, h⟩, _, rfl, fun _ _ => by cases way <;> nofun⟩

/-- Nothing is taken or passed: what is known of a thread in a task stays. -/
theorem InTask.congr {tr tr' : List (TallyEvent threads)} {site site' : Site} {k : ℕ}
    (h : InTask P i tr site k) (hfront : ∀ x, Tally.front site' = some x →
      Tally.front site = some x)
    (hidle : site' = .idle ↔ site = .idle)
    (hbegun : ∀ x ∈ taskFronts (P.range i), x ∈ Tally.begun tr' ↔ x ∈ Tally.begun tr)
    (hpassed : ∀ t x, TallyEvent.passed t x ∈ tr → TallyEvent.passed t x ∈ tr') :
    InTask P i tr' site' k where
  ge := h.ge
  le := by
    rw [if_congr hidle rfl rfl]
    exact h.le
  front_eq x hx := h.front_eq x (hfront x hx)
  begun_iff x hx := by
    rw [hbegun x hx, h.begun_iff x hx, if_congr hidle rfl rfl]
  passed x hx hlt := by
    obtain ⟨t, ht⟩ := h.passed x hx hlt
    exact ⟨t, hpassed t x ht⟩

theorem left_none (e : TallyEvent threads) : left (tr ++ [(none, some e)]) = left tr := by
  rw [left_snoc]
  exact List.append_nil _

theorem right_none (e : TaskEvent threads) : right (tr ++ [(some e, none)]) = right tr := by
  rw [right_snoc]
  exact List.append_nil _

theorem left_some (e : TaskEvent threads) (f : Option (TallyEvent threads)) :
    left (tr ++ [(some e, f)]) = left tr ++ [e] := left_snoc

theorem right_some (e : Option (TaskEvent threads)) (f : TallyEvent threads) :
    right (tr ++ [(e, some f)]) = right tr ++ [f] := right_snoc

/-- The scheduling moves a thread that is in no task. -/
theorem Inv.control_step (h : Inv P E l tr s)
    (hs : Phase1.Step P.ranges.length s.control (.moved t) c) :
    Inv P E l (tr ++ [(some (.moved t), none)]) { s with control := c } := by
  obtain ⟨hf, htask⟩ := task_of_moved hs
  refine ⟨?_, ?_, ?_, ?_, ?_, ?_, ?_, ?_⟩
  · rw [left_some]
    exact h.control.step hs
  · rw [right_none]
    exact h.tally
  · rw [hf]
    exact h.synced
  · exact fun u hu => h.outside u fun i way hi => hu i way ((htask u i way).mpr hi)
  · intro u i way hu
    rw [right_none]
    exact h.inTask u i way ((htask u i way).mp hu)
  · intro i hi hb
    rw [right_none]
    rw [left_some, Phase1.begun_snoc] at hb
    exact h.unbegun i hi hb
  · intro hfail i hi he
    rw [right_none]
    rw [left_some, Phase1.endings_snoc] at he
    exact h.ended (hf ▸ hfail) i hi he
  · rw [right_none]
    exact h.begun_mem

/-- A thread begins task `i`, of which no front was taken. -/
theorem Inv.began_step (h : Inv P E l tr s)
    (hs : Phase1.Step P.ranges.length s.control (.began t i way) c) :
    Inv P E l (tr ++ [(some (.began t i way), none)])
      { s with control := c, k := Function.update s.k t (P.range i).1 } := by
  obtain ⟨hf, hout, hpc⟩ := task_of_began hs
  have hcontrol := h.control.step hs
  have hidle := h.outside t hout
  have hcount : Phase1.begun (left tr ++ [.began t i way]) i = Phase1.begun (left tr) i + 1 := by
    have hbegan : Phase1.isBegan i (TaskEvent.began t i way) = true := decide_eq_true rfl
    rw [Phase1.begun_snoc, if_pos hbegan]
  -- a task begins once, so this one had not begun
  have hzero : Phase1.begun (left tr) i = 0 := by
    rcases hcontrol.begun_eq i with ⟨-, h1⟩ | ⟨-, h0⟩ <;> omega
  have hi : i < P.ranges.length := by
    have htaken := (hcontrol.running t i way (by rw [hpc, Function.update_self])).1
    rcases htaken with ⟨hlt, -⟩ | ⟨-, -, hlt⟩
    · exact hlt.trans_le (Nat.min_le_left ..)
    · exact hlt
  refine ⟨?_, ?_, ?_, ?_, ?_, ?_, ?_, ?_⟩
  · rw [left_some]
    exact hcontrol
  · rw [right_none]
    exact h.tally
  · rw [hf]
    exact h.synced
  · intro u hu
    refine h.outside u fun j way' hj => ?_
    by_cases hut : u = t
    · exact hout j way' (hut ▸ hj)
    · refine hu j way' ?_
      rw [hpc, Function.update_of_ne hut]
      exact hj
  · intro u j way' hu
    rw [right_none]
    by_cases hut : u = t
    · subst hut
      rw [hpc, Function.update_self] at hu
      cases hu
      dsimp only
      rw [Function.update_self, hidle]
      refine ⟨hi, le_rfl, ?_, nofun, fun x hx => ?_, fun x hx hlt => ?_⟩
      · rw [if_pos rfl]
        exact (P.isTask _ (Partition.range_mem hi)).le.trans (Nat.le_succ _)
      · rw [if_pos rfl]
        exact iff_of_false (h.unbegun i hi hzero x hx) (not_lt.mpr (mem_taskFronts.mp hx).1)
      · exact absurd hlt (not_lt.mpr (mem_taskFronts.mp hx).1)
    · rw [hpc, Function.update_of_ne hut] at hu
      dsimp only
      rw [Function.update_of_ne hut]
      exact h.inTask u j way' hu
  · intro j hj hb
    rw [right_none]
    rw [left_some, Phase1.begun_snoc] at hb
    exact h.unbegun j hj (Nat.eq_zero_of_add_eq_zero_right hb)
  · intro hfail j hj he
    rw [right_none]
    rw [left_some, Phase1.endings_snoc] at he
    exact h.ended (hf ▸ hfail) j hj he
  · rw [right_none]
    exact h.begun_mem

/-- A thread takes the next front of its range. -/
theorem Inv.front_step (h : Inv P E l tr s) (hpc : s.control.pc t = .task i way)
    (hsite : s.tally.site t = .idle) (hk : s.k t ≤ (P.range i).2) :
    Inv P E l (tr ++ [(none, some (.began t (s.k t)))])
      { s with tally := s.tally.goto t (.check (s.k t)) } := by
  obtain ⟨hi, htask⟩ := h.inTask t i way hpc
  have hmem : s.k t ∈ taskFronts (P.range i) := mem_taskFronts.mpr ⟨htask.ge, hk⟩
  -- of its range the thread has had the fronts below `k`
  have hnew : s.k t ∉ Tally.begun (right tr) := by
    rw [htask.begun_iff _ hmem, if_pos hsite]
    exact lt_irrefl _
  have hlt : s.k t < T.ns := Partition.lt_of_mem_taskFronts (Partition.range_mem hi) hmem
  have hbegun : Tally.begun (right tr ++ [.began t (s.k t)]) = Tally.begun (right tr) ++ [s.k t] :=
    Tally.begun_snoc
  have htaken := (h.control.running t i way hpc).1
  refine ⟨?_, ?_, h.synced, ?_, ?_, ?_, ?_, ?_⟩
  · rw [left_none]
    exact h.control
  · rw [right_some]
    exact h.tally.begin hsite (List.mem_range.mpr hlt) hnew
  · intro u hu
    have hut : u ≠ t := fun hc => hu i way (hc ▸ hpc)
    rw [Tally.goto_site_of_ne _ _ hut]
    exact h.outside u hu
  · intro u j way' hu
    obtain ⟨hj, hju⟩ := h.inTask u j way' hu
    refine ⟨hj, ?_⟩
    rw [right_some]
    by_cases hut : u = t
    · subst hut
      cases hpc.symm.trans hu
      rw [Tally.goto_site_self]
      refine ⟨hju.ge, hk, fun x hx => (Option.some.inj hx).symm, fun x hx => ?_,
        fun x hx hlt => ?_⟩
      · rw [hbegun, List.mem_append, List.mem_singleton, hju.begun_iff x hx, if_pos hsite,
          if_neg nofun]
        exact Nat.lt_succ_iff_lt_or_eq.symm
      · obtain ⟨v, hv⟩ := hju.passed x hx hlt
        exact ⟨v, List.mem_append_left _ hv⟩
    · rw [Tally.goto_site_of_ne _ _ hut]
      refine hju.congr (fun _ => id) Iff.rfl (fun x hx => ?_) fun _ _ => List.mem_append_left _
      rw [hbegun, List.mem_append, List.mem_singleton]
      refine or_iff_left fun hc => hut ?_
      -- no other thread is in the range of this front
      subst hc
      obtain rfl := Partition.range_unique hj hi hx hmem
      exact h.control.unique u t j way' way hu hpc
  -- the front is of a task that has begun, so of none that has not
  · intro j hj hb x hx hc
    rw [left_none] at hb
    rw [right_some, hbegun] at hc
    rcases List.mem_append.mp hc with hc | hc
    · exact h.unbegun j hj hb x hx hc
    · obtain rfl := Partition.range_unique hj hi hx (List.mem_singleton.mp hc ▸ hmem)
      rcases h.control.begun_eq j with ⟨-, h1⟩ | ⟨hnot, -⟩
      · omega
      · exact hnot htaken
  · intro hf j hj he x hx
    rw [left_none] at he
    rw [right_some]
    obtain ⟨v, hv⟩ := h.ended hf j hj he x hx
    exact ⟨v, List.mem_append_left _ hv⟩
  · intro x hx
    rw [right_some, hbegun] at hx
    rcases List.mem_append.mp hx with hx | hx
    · exact h.begun_mem x hx
    · exact ⟨i, hi, List.mem_singleton.mp hx ▸ hmem⟩

/-- What the steps inside a front keep: they take no front and pass none. -/
theorem Inv.inside_inTask {e : TallyEvent threads} {y : Tally threads} (h : Inv P E l tr s)
    {b : Site} (hm : Tally.Moves s.tally e y t b) (hpc : s.control.pc u = .task i way) :
    i < P.ranges.length ∧ InTask P i (right tr ++ [e]) (y.site u) (s.k u) := by
  obtain ⟨hi, htask⟩ := h.inTask u i way hpc
  have hbegun : Tally.begun (right tr ++ [e]) = Tally.begun (right tr) := by
    rw [Tally.begun_snoc, hm.begun]
    exact List.append_nil _
  refine ⟨hi, htask.congr (fun x hx => ?_) ?_ (fun x _ => by rw [hbegun])
    fun _ _ => List.mem_append_left _⟩
  · rw [hm.site] at hx
    by_cases hut : u = t
    · subst hut
      rw [Function.update_self] at hx
      exact hm.front x hx
    · rwa [Function.update_of_ne hut] at hx
  · rw [hm.site]
    by_cases hut : u = t
    · subst hut
      rw [Function.update_self]
      exact iff_of_false hm.idle' hm.idle
    · rw [Function.update_of_ne hut]

/-- A thread does a step of a front; `failed` of phase 1 follows the stop. -/
theorem Inv.inside_step {e : TallyEvent threads} {y : Tally threads}
    {a : Option (TaskEvent threads)}
    (h : Inv P E l tr s) (hy : Tally.Inv E (List.range T.ns) l (right tr ++ [e]) y) {b : Site}
    (hm : Tally.Moves s.tally e y t b) (hc : Phase1.Inv P.ranges.length (left tr ++ a.toList) c)
    (hpc : c.pc = s.control.pc) (hsync : c.failed = true ↔ y.failed ≠ .success)
    (hfailed : c.failed = false → s.control.failed = false)
    (hcount : ∀ i, Phase1.begun (left tr ++ a.toList) i = Phase1.begun (left tr) i ∧
      Phase1.endings (left tr ++ a.toList) i = Phase1.endings (left tr) i) :
    Inv P E l (tr ++ [(a, some e)]) { s with control := c, tally := y } := by
  have hbegun : Tally.begun (right tr ++ [e]) = Tally.begun (right tr) := by
    rw [Tally.begun_snoc, hm.begun]
    exact List.append_nil _
  refine ⟨?_, ?_, hsync, ?_, ?_, ?_, ?_, ?_⟩
  · rw [left_snoc]
    exact hc
  · rw [right_some]
    exact hy
  · intro u hu
    rw [hpc] at hu
    have hidle := h.outside u hu
    -- a thread in no task is at no front, so it is not the one that moves
    have hut : u ≠ t := fun hc => hm.idle (hc ▸ hidle)
    rw [hm.site, Function.update_of_ne hut]
    exact hidle
  · intro u i way hu
    rw [right_some]
    rw [hpc] at hu
    exact h.inside_inTask hm hu
  · intro i hi hb
    rw [left_snoc, (hcount i).1] at hb
    rw [right_some, hbegun]
    exact h.unbegun i hi hb
  · intro hf i hi he x hx
    rw [left_snoc, (hcount i).2] at he
    rw [right_some]
    obtain ⟨v, hv⟩ := h.ended (hfailed hf) i hi he x hx
    exact ⟨v, List.mem_append_left _ hv⟩
  · rw [right_some, hbegun]
    exact h.begun_mem

/-- A front is through. -/
theorem Inv.pass_step (h : Inv P E l tr s) (hsite : s.tally.site t = .counted x)
    (hy : Tally.Inv E (List.range T.ns) l (right tr ++ [.passed t x]) (s.tally.goto t .idle)) :
    Inv P E l (tr ++ [(none, some (.passed t x))])
      { s with tally := s.tally.goto t .idle, k := Function.update s.k t (s.k t + 1) } := by
  have hbegun : Tally.begun (right tr ++ [.passed t x]) = Tally.begun (right tr) := by
    rw [Tally.begun_snoc]
    exact List.append_nil _
  refine ⟨?_, ?_, h.synced, ?_, ?_, ?_, ?_, ?_⟩
  · rw [left_none]
    exact h.control
  · rw [right_some]
    exact hy
  · intro u hu
    by_cases hut : u = t
    · rw [hut, Tally.goto_site_self]
    · rw [Tally.goto_site_of_ne _ _ hut]
      exact h.outside u hu
  · intro u i way hu
    obtain ⟨hi, htask⟩ := h.inTask u i way hu
    refine ⟨hi, ?_⟩
    rw [right_some]
    by_cases hut : u = t
    · subst hut
      -- the front that is through is the thread's current one
      obtain rfl : x = s.k u := htask.front_eq x (by rw [hsite]; rfl)
      dsimp only
      rw [Tally.goto_site_self, Function.update_self]
      have hle := htask.le
      rw [hsite, if_neg nofun] at hle
      refine ⟨htask.ge.trans (Nat.le_succ _), Nat.succ_le_succ hle, nofun, fun z hz => ?_,
        fun z hz hlt => ?_⟩
      · rw [hbegun, htask.begun_iff z hz, hsite, if_neg nofun, if_pos rfl]
      · rcases Nat.lt_succ_iff_lt_or_eq.mp hlt with hlt | rfl
        · obtain ⟨v, hv⟩ := htask.passed z hz hlt
          exact ⟨v, List.mem_append_left _ hv⟩
        · exact ⟨u, List.mem_append_right _ (List.mem_singleton_self _)⟩
    · dsimp only
      rw [Tally.goto_site_of_ne _ _ hut, Function.update_of_ne hut]
      exact htask.congr (fun _ => id) Iff.rfl (fun z _ => by rw [hbegun])
        fun _ _ => List.mem_append_left _
  · intro i hi hb
    rw [left_none] at hb
    rw [right_some, hbegun]
    exact h.unbegun i hi hb
  · intro hf i hi he z hz
    rw [left_none] at he
    rw [right_some]
    obtain ⟨v, hv⟩ := h.ended hf i hi he z hz
    exact ⟨v, List.mem_append_left _ hv⟩
  · rw [right_some, hbegun]
    exact h.begun_mem

/-- A thread ends its task: it is through with the range, or there is a stop. -/
theorem Inv.ended_step {e : Option (TallyEvent threads)} {y : Tally threads} (h : Inv P E l tr s)
    (hs : Phase1.Step P.ranges.length s.control (.ended t i) c)
    (hy : Tally.Inv E (List.range T.ns) l (right tr ++ e.toList) y)
    (hsite : y.site = Function.update s.tally.site t .idle) (hfailed : y.failed = s.tally.failed)
    (hbegun : Tally.begun (right tr ++ e.toList) = Tally.begun (right tr))
    (hend : s.control.failed = false → s.tally.site t = .idle ∧ (P.range i).2 < s.k t) :
    Inv P E l (tr ++ [(some (.ended t i), e)]) { s with control := c, tally := y } := by
  obtain ⟨hf, ⟨way, hpc⟩, b, hc, hb⟩ := task_of_ended hs
  have hpassed : ∀ {v z}, TallyEvent.passed v z ∈ right tr →
      TallyEvent.passed v z ∈ right tr ++ e.toList := List.mem_append_left _
  refine ⟨?_, ?_, ?_, ?_, ?_, ?_, ?_, ?_⟩
  · rw [left_some]
    exact h.control.step hs
  · rw [right_snoc]
    exact hy
  · dsimp only
    rw [hf, hfailed]
    exact h.synced
  · intro u hu
    dsimp only
    rw [hsite]
    by_cases hut : u = t
    · rw [hut, Function.update_self]
    · rw [Function.update_of_ne hut]
      refine h.outside u fun j way' hj => hu j way' ?_
      dsimp only
      rw [hc, Function.update_of_ne hut, hj]
  · intro u j way' hu
    dsimp only at hu ⊢
    rw [right_snoc, hsite]
    -- the thread that ended its task is in none
    have hut : u ≠ t := by
      rintro rfl
      rw [hc, Function.update_self] at hu
      exact hb j way' hu
    rw [hc, Function.update_of_ne hut] at hu
    rw [Function.update_of_ne hut]
    obtain ⟨hj, htask⟩ := h.inTask u j way' hu
    exact ⟨hj, htask.congr (fun _ => id) Iff.rfl (fun z _ => by rw [hbegun]) fun _ _ => hpassed⟩
  · intro j hj hb
    rw [left_some, Phase1.begun_snoc] at hb
    rw [right_snoc, hbegun]
    exact h.unbegun j hj hb
  -- without a stop, the range that ends now is through to its last front
  · intro hfail j hj he z hz
    rw [right_snoc]
    have hnostop : s.control.failed = false := hf ▸ hfail
    by_cases hji : j = i
    · subst hji
      obtain ⟨hidle, hlt⟩ := hend hnostop
      obtain ⟨v, hv⟩ := (h.inTask t j way hpc).2.passed z hz
        ((mem_taskFronts.mp hz).2.trans_lt hlt)
      exact ⟨v, hpassed hv⟩
    · have hnot : ¬Phase1.isEnded j (TaskEvent.ended t i) = true := fun hc =>
        hji (of_decide_eq_true hc).symm
      rw [left_some, Phase1.endings_snoc, if_neg hnot] at he
      obtain ⟨v, hv⟩ := h.ended hnostop j hj he z hz
      exact ⟨v, hpassed hv⟩
  · rw [right_snoc, hbegun]
    exact h.begun_mem

/-- What one step keeps. -/
theorem Inv.step {a : Label threads} (honly : ∀ l', l' ≠ l → E.cap l' < 0)
    (h : Inv P E l tr s) (hs : Step P E s a s') : Inv P E l (tr ++ [a]) s' := by
  cases hs with
  | control hs => exact h.control_step hs
  | began hs => exact h.began_step hs
  | front hpc hsite hk => exact h.front_step hpc hsite hk
  | @inside y e hf hsame =>
    obtain ⟨t, b, hm⟩ := hf.moves
    refine h.inside_step (a := none) (h.tally.front_step honly hf) hm ?_ rfl ?_ id ?_
    · rw [Option.toList_none, List.append_nil]
      exact h.control
    · rw [hsame]
      exact h.synced
    · intro i
      rw [Option.toList_none, List.append_nil]
      exact ⟨rfl, rfl⟩
  -- a front that stops raises the flag of phase 1 in the same step
  | @raised y e t i way hpc hf hstop =>
    obtain ⟨u, b, hm⟩ := hf.moves
    refine h.inside_step (a := some (.failed t)) (h.tally.front_step honly hf) hm
      (h.control.step (.fail hpc)) rfl ?_ nofun fun i => ?_
    · exact iff_of_true rfl (hm.stop hstop)
    · exact ⟨Phase1.begun_snoc _, Phase1.endings_snoc _⟩
  | pass hsite =>
    exact h.pass_step hsite (h.tally.step honly (.pass hsite) nofun)
  -- the range is through, or somebody else has stopped
  | @ended t i c hsite hend hs =>
    have hupdate : s.tally.site = Function.update s.tally.site t .idle := by
      rw [← hsite, Function.update_eq_self]
    refine h.ended_step (e := none) hs ?_ hupdate rfl ?_ fun hf => ⟨hsite, ?_⟩
    · rw [Option.toList_none, List.append_nil]
      exact h.tally
    · rw [Option.toList_none, List.append_nil]
    · refine hend.resolve_right fun hc => ?_
      rw [hc rfl] at hf
      cases hf
  | @stopped t i c hsite hs =>
    refine h.ended_step (e := some (.moved t)) hs
      (h.tally.step honly (.leave hsite) nofun) rfl rfl ?_ fun hf => ?_
    · exact Tally.begun_snoc.trans (List.append_nil _)
    · rw [h.synced.mpr (h.tally.halted t hsite)] at hf
      cases hf

theorem inv_init : Inv P E l [] (init threads P.ranges.length) where
  control := Phase1.inv_init threads P.ranges.length
  tally := Tally.inv_init
  synced := iff_of_false Bool.noConfusion fun hc => hc rfl
  outside _ _ := rfl
  inTask := nofun
  unbegun := nofun
  ended _ _ _ h := absurd rfl h
  begun_mem := nofun

theorem inv_run (honly : ∀ l', l' ≠ l → E.cap l' < 0) (h : (system P E threads).Run tr s) :
    Inv P E l tr s :=
  h.invariant inv_init fun _ hinv hs => hinv.step honly hs

/-- After the join no thread is at a front. -/
theorem Inv.idle_of_returned (h : Inv P E l tr s) (hret : ∀ t, s.control.pc t = .returned)
    (t : Fin threads) : s.tally.site t = .idle :=
  h.outside t fun i way => by
    rw [hret t]
    nofun

/-- After the join, without a stop, every front of every task is through. -/
theorem Inv.passed_of_returned (h : Inv P E l tr s) (hret : ∀ t, s.control.pc t = .returned)
    (hf : s.tally.failed = .success) (caller : Fin threads) (hi : i < P.ranges.length)
    (hx : x ∈ taskFronts (P.range i)) : ∃ t, TallyEvent.passed t x ∈ right tr := by
  have hnostop : s.control.failed = false := by
    by_contra hc
    exact h.synced.mp (Bool.not_eq_false _ ▸ hc) hf
  refine h.ended hnostop i hi ?_ x hx
  rw [(h.control.all_ended caller hret hnostop hi).2]
  exact Nat.one_ne_zero

end Steps

end Subtrees

/-! ## Phase 2 -/

/-- Where a worker is in the run function of its top front. -/
inductive RunPc where
  /-- The poll of `failed` before the front. -/
  | poll
  | front
  /-- The load of `failed` after it. -/
  | last
  | verdict (ok : Bool)
  deriving DecidableEq

/-- The scheduler, the counts, and where every worker is in its run function. -/
structure Top (n threads : ℕ) (J : Type) where
  sched : TopScheduler n threads J
  tally : Tally threads
  run : Fin threads → RunPc

namespace Top

variable {J : Type} [DecidableEq J]

/-- What one step is, for the scheduler and for the counts. -/
abbrev Label (n threads : ℕ) (J : Type) := Option (Event n threads J) × Option (TallyEvent threads)

/-- Phase 2 begins with the counts that phase 1 left. -/
def init (P : Partition T) (threads : ℕ) (J : Type) (y : Tally threads) :
    Top P.topNodes.length threads J where
  sched := TopScheduler.new P.topForest threads
  tally := y
  run := fun _ => .poll

/-- The calls of the run functions and their returns. -/
def isRun {n threads : ℕ} : Event n threads J → Bool
  | .call _ _ | .ret _ _ _ => true
  | _ => false

/-- One step.  A run function polls `failed`, runs its front, and returns true when it then
    sees no stop. -/
inductive Step (P : Partition T) (E : FrontLimits) : Top P.topNodes.length threads J →
    Label P.topNodes.length threads J → Top P.topNodes.length threads J → Prop
  | control {s e c} (h : TopScheduler.Step P.topForest s.sched e c) (he : isRun e = false) :
      Step P E s (some e, none) { s with sched := c }
  | call {s w v c} (h : TopScheduler.Step P.topForest s.sched (.call w v) c) :
      Step P E s (some (.call w v), none)
        { s with sched := c, run := Function.update s.run w .poll }
  | stop {s w v} {k : ℤ} (hw : s.sched.worker w = .running v k) (hrun : s.run w = .poll)
      (hstop : s.tally.Polls false) :
      Step P E s (none, none) { s with run := Function.update s.run w (.verdict false) }
  | front {s w v} {k : ℤ} (hw : s.sched.worker w = .running v k) (hrun : s.run w = .poll) :
      Step P E s (none, some (.began w (P.topNodes.get v)))
        { s with tally := s.tally.goto w (.check (P.topNodes.get v))
                 run := Function.update s.run w .front }
  | inside {s y e} (h : Tally.Front E s.tally e y) : Step P E s (none, some e) { s with tally := y }
  | pass {s w v x} {k : ℤ} (hw : s.sched.worker w = .running v k) (hrun : s.run w = .front)
      (hsite : s.tally.site w = .counted x) :
      Step P E s (none, some (.passed w x))
        { s with tally := s.tally.goto w .idle, run := Function.update s.run w .last }
  | stopped {s w v} {k : ℤ} (hw : s.sched.worker w = .running v k) (hrun : s.run w = .front)
      (hsite : s.tally.site w = .halted) :
      Step P E s (none, some (.moved w))
        { s with tally := s.tally.goto w .idle, run := Function.update s.run w (.verdict false) }
  | last {s w v} {k : ℤ} {b : Bool} (hw : s.sched.worker w = .running v k)
      (hrun : s.run w = .last) (hb : s.tally.Polls b) :
      Step P E s (none, none) { s with run := Function.update s.run w (.verdict b) }
  | ret {s w v b c} (hrun : s.run w = .verdict b)
      (h : TopScheduler.Step P.topForest s.sched (.ret w v b) c) :
      Step P E s (some (.ret w v b), none) { s with sched := c }

/-- Phase 2 of the factorization. -/
def system (P : Partition T) (E : FrontLimits) (threads : ℕ) (J : Type) [DecidableEq J]
    (y : Tally threads) :
    Lts (Top P.topNodes.length threads J) (Label P.topNodes.length threads J) where
  init := init P threads J y
  step := Step P E

/-! ### Its invariant -/

/-- What is known of a worker in the run function of front `x`. -/
def RunOk (x : ℕ) (tr : List (TallyEvent threads)) (y : Tally threads) (w : Fin threads) :
    RunPc → Prop
  | .poll => y.site w = .idle ∧ x ∉ Tally.begun tr
  | .front => y.site w ≠ .idle ∧ ∀ z, Tally.front (y.site w) = some z → z = x
  | .last | .verdict true => y.site w = .idle ∧ ∃ t, TallyEvent.passed t x ∈ tr
  | .verdict false => y.site w = .idle ∧ y.failed ≠ .success

/-- The fronts' events are those of phase 1 and then those of phase 2. -/
structure Inv (P : Partition T) (E : FrontLimits) (l : Limit) (tr₁ : List (TallyEvent threads))
    (tr : List (Label P.topNodes.length threads J)) (s : Top P.topNodes.length threads J) :
    Prop where
  sched : TopScheduler.Trace P.topForest threads (left tr) s.sched
  tally : Tally.Inv E (List.range T.ns) l (tr₁ ++ right tr) s.tally
  called : ∀ w v k, s.sched.worker w = .running v k → Event.call w v ∈ left tr
  begun : ∀ v, P.topNodes.get v ∈ Tally.begun (tr₁ ++ right tr) → ∃ w, Event.call w v ∈ left tr
  outside : ∀ w, (∀ v k, s.sched.worker w ≠ .running v k) → s.tally.site w = .idle
  running : ∀ w v k, s.sched.worker w = .running v k →
    RunOk (P.topNodes.get v) (tr₁ ++ right tr) s.tally w (s.run w)
  returned : ∀ w v b, Event.ret w v b ∈ left tr →
    if b then ∃ t, TallyEvent.passed t (P.topNodes.get v) ∈ tr₁ ++ right tr
    else s.tally.failed ≠ .success

section Steps

variable {l : Limit} {tr₁ : List (TallyEvent threads)}
  {tr : List (Label P.topNodes.length threads J)} {s s' : Top P.topNodes.length threads J}
  {c : TopScheduler P.topNodes.length threads J} {e : Event P.topNodes.length threads J}
  {u w : Fin threads} {v : Fin P.topNodes.length} {k : ℤ} {x : ℕ} {b : Bool}

/-- Another worker's step leaves what is known of a worker. -/
theorem RunOk.mono {ytr ytr' : List (TallyEvent threads)} {y y' : Tally threads} {r : RunPc}
    (h : RunOk x ytr y w r) (hsite : y'.site w = y.site w)
    (hbegun : x ∉ Tally.begun ytr → x ∉ Tally.begun ytr')
    (hpassed : ∀ t x, TallyEvent.passed t x ∈ ytr → TallyEvent.passed t x ∈ ytr')
    (hfailed : y.failed ≠ .success → y'.failed ≠ .success) : RunOk x ytr' y' w r := by
  cases r with
  | poll => exact ⟨hsite.trans h.1, hbegun h.2⟩
  | front => exact ⟨hsite ▸ h.1, fun z hz => h.2 z (hsite ▸ hz)⟩
  | last => exact ⟨hsite.trans h.1, h.2.imp fun t ht => hpassed t x ht⟩
  | verdict ok =>
    cases ok with
    | false => exact ⟨hsite.trans h.1, hfailed h.2⟩
    | true => exact ⟨hsite.trans h.1, h.2.imp fun t ht => hpassed t x ht⟩

/-- A worker comes into its run function by a call only. -/
theorem running_of_step (hs : TopScheduler.Step P.topForest s.sched e c)
    (hw : c.worker w = .running v k) : s.sched.worker w = .running v k ∨ e = .call w v := by
  rcases TopScheduler.step_came hs w with heq | hcame
  · exact .inl (heq ▸ hw)
  · rw [hw] at hcame
    exact .inr hcame

/-- A worker that is outside of its run function was, or returns from it now. -/
theorem outside_of_step (hs : TopScheduler.Step P.topForest s.sched e c)
    (hret : ∀ v ok, e ≠ .ret w v ok) (hw : ∀ v k, c.worker w ≠ .running v k) :
    ∀ v k, s.sched.worker w ≠ .running v k := by
  intro v k hc
  rcases TopScheduler.running_step hs hc with hrun | ⟨ok, rfl⟩
  · exact hw v k hrun
  · exact hret v ok rfl

omit [DecidableEq J] in
theorem left_event (a : Option (TallyEvent threads)) :
    left (tr ++ [(some e, a)]) = left tr ++ [e] :=
  left_snoc

omit [DecidableEq J] in
theorem left_quiet (a : Option (TallyEvent threads)) :
    left (tr ++ [((none : Option (Event P.topNodes.length threads J)), a)]) = left tr := by
  rw [left_snoc]
  exact List.append_nil _

omit [DecidableEq J] in
theorem right_quiet (a : Option (Event P.topNodes.length threads J)) :
    tr₁ ++ right (tr ++ [(a, none)]) = tr₁ ++ right tr := by
  rw [right_snoc]
  exact congrArg _ (List.append_nil _)

/-- The scheduler moves a worker outside of the run functions. -/
theorem Inv.control_step (h : Inv P E l tr₁ tr s)
    (hs : TopScheduler.Step P.topForest s.sched e c) (he : isRun e = false) :
    Inv P E l tr₁ (tr ++ [(some e, none)]) { s with sched := c } := by
  have hcall : ∀ w v, e ≠ .call w v := fun w v hc => by rw [hc] at he; cases he
  have hret : ∀ w v ok, e ≠ .ret w v ok := fun w v ok hc => by rw [hc] at he; cases he
  have hold : ∀ {w v k}, c.worker w = .running v k → s.sched.worker w = .running v k :=
    fun hw => (running_of_step hs hw).resolve_right (hcall _ _)
  refine ⟨?_, ?_, fun w v k hw => ?_, fun v hv => ?_, fun w hw => ?_, fun w v k hw => ?_,
    fun w v b hw => ?_⟩
  · rw [left_event]
    exact TopScheduler.trace_step h.sched hs
  · rw [right_quiet]
    exact h.tally
  · rw [left_event]
    exact List.mem_append_left _ (h.called w v k (hold hw))
  · rw [right_quiet] at hv
    rw [left_event]
    exact (h.begun v hv).imp fun w hw => List.mem_append_left _ hw
  · exact h.outside w (outside_of_step hs (hret w) hw)
  · rw [right_quiet]
    exact h.running w v k (hold hw)
  · rw [left_event] at hw
    rw [right_quiet]
    rcases List.mem_append.mp hw with hw | hw
    · exact h.returned w v b hw
    · exact absurd (List.mem_singleton.mp hw).symm (hret w v b)

/-- A front's run function is called for the first time. -/
theorem Inv.call_step (h : Inv P E l tr₁ tr s)
    (hs : TopScheduler.Step P.topForest s.sched (.call w v) c) :
    Inv P E l tr₁ (tr ++ [(some (.call w v), none)])
      { s with sched := c, run := Function.update s.run w .poll } := by
  have htrace := TopScheduler.trace_step h.sched hs
  obtain ⟨⟨k₀, hhold⟩, -⟩ := TopScheduler.call_step hs
  have hidle : s.tally.site w = .idle := h.outside w fun v k => by rw [hhold]; nofun
  -- a front that has begun had its call before, and there is one call only
  have hnew : P.topNodes.get v ∉ Tally.begun (tr₁ ++ right tr) := by
    intro hc
    obtain ⟨u, hu⟩ := h.begun v hc
    have hone := htrace.call_once v
    have hpos : 0 < (left tr).countP (Event.isCall v) :=
      List.countP_pos_iff.mpr ⟨_, hu, decide_eq_true rfl⟩
    have hlast : Event.isCall v (Event.call w v : Event P.topNodes.length threads J) = true :=
      decide_eq_true rfl
    rw [List.countP_append, List.countP_singleton, if_pos hlast] at hone
    omega
  refine ⟨?_, ?_, fun u v' k hu => ?_, fun v' hv => ?_, fun u hu => ?_, fun u v' k hu => ?_,
    fun u v' b hu => ?_⟩
  · rw [left_event]
    exact htrace
  · rw [right_quiet]
    exact h.tally
  · rw [left_event]
    rcases running_of_step hs hu with hold | heq
    · exact List.mem_append_left _ (h.called u v' k hold)
    · rw [heq]
      exact List.mem_append_right _ (List.mem_singleton_self _)
  · rw [right_quiet] at hv
    rw [left_event]
    exact (h.begun v' hv).imp fun w hw => List.mem_append_left _ hw
  · exact h.outside u (outside_of_step hs nofun hu)
  · rw [right_quiet]
    dsimp only at hu ⊢
    by_cases huw : u = w
    · subst huw
      rw [Function.update_self]
      rcases running_of_step hs hu with hold | heq
      · cases hhold.symm.trans hold
      · cases heq
        exact ⟨hidle, hnew⟩
    · rw [Function.update_of_ne huw]
      refine h.running u v' k ((running_of_step hs hu).resolve_right fun hc => ?_)
      cases hc
      exact huw rfl
  · rw [left_event] at hu
    rw [right_quiet]
    rcases List.mem_append.mp hu with hu | hu
    · exact h.returned u v' b hu
    · cases List.mem_singleton.mp hu

/-- A run function returns what it found. -/
theorem Inv.ret_step (h : Inv P E l tr₁ tr s) (hrun : s.run w = .verdict b)
    (hs : TopScheduler.Step P.topForest s.sched (.ret w v b) c) :
    Inv P E l tr₁ (tr ++ [(some (.ret w v b), none)]) { s with sched := c } := by
  obtain ⟨k₀, hw, hw'⟩ := TopScheduler.ret_step hs
  have hok := h.running w v k₀ hw
  rw [hrun] at hok
  have hidle : s.tally.site w = .idle := by cases b <;> exact hok.1
  -- a return starts no run function
  have hold : ∀ {u v' k}, c.worker u = .running v' k → s.sched.worker u = .running v' k :=
    fun hu => (running_of_step hs hu).resolve_right nofun
  refine ⟨?_, ?_, fun u v' k hu => ?_, fun v' hv => ?_, fun u hu => ?_, fun u v' k hu => ?_,
    fun u v' b' hu => ?_⟩
  · rw [left_event]
    exact TopScheduler.trace_step h.sched hs
  · rw [right_quiet]
    exact h.tally
  · rw [left_event]
    exact List.mem_append_left _ (h.called u v' k (hold hu))
  · rw [right_quiet] at hv
    rw [left_event]
    exact (h.begun v' hv).imp fun w hw => List.mem_append_left _ hw
  · by_cases huw : u = w
    · exact huw ▸ hidle
    · refine h.outside u (outside_of_step hs (fun v' ok hc => ?_) hu)
      cases hc
      exact huw rfl
  · rw [right_quiet]
    exact h.running u v' k (hold hu)
  · rw [left_event] at hu
    rw [right_quiet]
    rcases List.mem_append.mp hu with hu | hu
    · exact h.returned u v' b' hu
    · cases List.mem_singleton.mp hu
      cases b with
      | false => exact hok.2
      | true => exact hok.2

omit [DecidableEq J] in
/-- A worker in its run function goes on to `r`, and the counts with it. -/
theorem Inv.run_step {y : Tally threads} {r : RunPc} {a : Option (TallyEvent threads)}
    (h : Inv P E l tr₁ tr s) (hw : s.sched.worker w = .running v k)
    (hy : Tally.Inv E (List.range T.ns) l (tr₁ ++ right tr ++ a.toList) y)
    (hsite : ∀ u, u ≠ w → y.site u = s.tally.site u)
    (hfailed : s.tally.failed ≠ .success → y.failed ≠ .success)
    (hbegun : ∀ x ∈ Tally.begun (tr₁ ++ right tr ++ a.toList),
      x ∈ Tally.begun (tr₁ ++ right tr) ∨ x = P.topNodes.get v)
    (hok : RunOk (P.topNodes.get v) (tr₁ ++ right tr ++ a.toList) y w r) :
    Inv P E l tr₁ (tr ++ [(none, a)])
      { s with tally := y, run := Function.update s.run w r } := by
  have hright : tr₁ ++ right (tr ++ [((none : Option (Event P.topNodes.length threads J)), a)]) =
      tr₁ ++ right tr ++ a.toList := by
    rw [right_snoc, List.append_assoc]
  have hpassed : ∀ t x, TallyEvent.passed t x ∈ tr₁ ++ right tr →
      TallyEvent.passed t x ∈ tr₁ ++ right tr ++ a.toList := fun _ _ => List.mem_append_left _
  refine ⟨?_, ?_, fun u v' k' hu => ?_, fun v' hv => ?_, fun u hu => ?_, fun u v' k' hu => ?_,
    fun u v' b hu => ?_⟩
  · rw [left_quiet]
    exact h.sched
  · rw [hright]
    exact hy
  · rw [left_quiet]
    exact h.called u v' k' hu
  · rw [hright] at hv
    rw [left_quiet]
    rcases hbegun _ hv with hv | hv
    · exact h.begun v' hv
    · rw [Partition.topNodes_get_injective hv]
      exact ⟨w, h.called w v k hw⟩
  · have huw : u ≠ w := fun hc => hu v k (hc ▸ hw)
    exact (hsite u huw).trans (h.outside u hu)
  · rw [hright]
    dsimp only at hu ⊢
    by_cases huw : u = w
    · subst huw
      cases hw.symm.trans hu
      rwa [Function.update_self]
    · rw [Function.update_of_ne huw]
      refine (h.running u v' k' hu).mono (hsite u huw) (fun hnot hc => ?_) hpassed hfailed
      rcases hbegun _ hc with hc | hc
      · exact hnot hc
      · -- two workers never have the same node
        refine huw (h.sched.inv.unique u w v k' k ?_ ?_)
        · rw [Partition.topNodes_get_injective hc] at hu
          simp only [TopScheduler.core, hu, Worker.hold?]
        · simp only [TopScheduler.core, hw, Worker.hold?]
  · rw [left_quiet] at hu
    rw [hright]
    have hret := h.returned u v' b hu
    cases b with
    | false => exact hfailed hret
    | true => exact hret.imp fun t ht => hpassed t _ ht

omit [DecidableEq J] in
/-- A step inside a front is one of a worker in its run function, at its front. -/
theorem Inv.inside_step {y : Tally threads} {f : TallyEvent threads}
    (honly : ∀ l', l' ≠ l → E.cap l' < 0) (h : Inv P E l tr₁ tr s)
    (hf : Tally.Front E s.tally f y) :
    Inv P E l tr₁ (tr ++ [(none, some f)]) { s with tally := y } := by
  obtain ⟨t, b, hm⟩ := hf.moves
  -- outside of run functions every site is idle
  have hrunning : ∃ v k, s.sched.worker t = .running v k := by
    by_contra hno
    push Not at hno
    exact hm.idle (h.outside t hno)
  obtain ⟨v, k, hw⟩ := hrunning
  have hok := h.running t v k hw
  -- and so is it before the front and behind it
  have hfront : s.run t = .front := by
    cases hr : s.run t with
    | front => rfl
    | poll =>
      rw [hr] at hok
      exact absurd hok.1 hm.idle
    | last =>
      rw [hr] at hok
      exact absurd hok.1 hm.idle
    | verdict ok =>
      rw [hr] at hok
      cases ok <;> exact absurd hok.1 hm.idle
  have hsame : Function.update s.run t .front = s.run := by
    rw [← hfront, Function.update_eq_self]
  have hnone : Tally.begun (tr₁ ++ right tr ++ [f]) = Tally.begun (tr₁ ++ right tr) := by
    rw [Tally.begun_snoc, hm.begun]
    exact List.append_nil _
  suffices hstep : RunOk (P.topNodes.get v) (tr₁ ++ right tr ++ [f]) y t .front by
    have h' := h.run_step (a := some f) hw (h.tally.front_step honly hf)
      (fun u hu => by rw [hm.site, Function.update_of_ne hu]) hm.failed
      (fun x hx => .inl (hnone ▸ hx)) hstep
    rwa [hsame] at h'
  rw [RunOk, hm.site, Function.update_self]
  rw [hfront] at hok
  exact ⟨hm.idle', fun z hz => hok.2 z (hm.front z hz)⟩

/-- What one step keeps. -/
theorem Inv.step {a : Label P.topNodes.length threads J}
    (honly : ∀ l', l' ≠ l → E.cap l' < 0) (h : Inv P E l tr₁ tr s) (hs : Step P E s a s') :
    Inv P E l tr₁ (tr ++ [a]) s' := by
  have hquiet : tr₁ ++ right tr ++ (none : Option (TallyEvent threads)).toList = tr₁ ++ right tr :=
    List.append_nil _
  cases hs with
  | control hs he => exact h.control_step hs he
  | call hs => exact h.call_step hs
  -- the run function returns before its front: the tally does not move
  | @stop w v k hw hrun hstop =>
    have hok := h.running w v k hw
    rw [hrun] at hok
    refine h.run_step (a := none) hw ?_ (fun _ _ => rfl) id ?_ ?_
    · rw [hquiet]
      exact h.tally
    · rw [hquiet]
      exact fun x => .inl
    · exact ⟨hok.1, hstop rfl⟩
  -- the worker has had no front for this node yet, so the front is new
  | @front w v k hw hrun =>
    have hok := h.running w v k hw
    rw [hrun] at hok
    have hlt : P.topNodes.get v < T.ns := (Partition.mem_topNodes.mp (List.get_mem ..)).1
    refine h.run_step (a := some (.began w _)) hw
      (h.tally.begin hok.1 (List.mem_range.mpr hlt) hok.2) ?_ id (fun x hx => ?_)
      ⟨?_, fun z hz => ?_⟩
    · exact fun u hu => Tally.goto_site_of_ne _ _ hu
    · rw [show Tally.begun
        (tr₁ ++ right tr ++ (some (TallyEvent.began w (P.topNodes.get v))).toList) =
        _ from Tally.begun_snoc] at hx
      exact (List.mem_append.mp hx).imp_right List.mem_singleton.mp
    · rw [Tally.goto_site_self]
      nofun
    · rw [Tally.goto_site_self] at hz
      exact (Option.some.inj hz).symm
  | inside hf => exact h.inside_step honly hf
  -- the front that passes is the one of the node the worker runs
  | @pass w v x k hw hrun hsite =>
    have hok := h.running w v k hw
    rw [hrun] at hok
    obtain rfl := hok.2 x (by rw [hsite]; rfl)
    refine h.run_step (a := some (.passed w _)) hw (h.tally.step honly (.pass hsite) nofun)
      (fun u hu => Tally.goto_site_of_ne _ _ hu) id (fun x hx => .inl ?_)
        ⟨Tally.goto_site_self .., w, ?_⟩
    · rw [show Tally.begun
        (tr₁ ++ right tr ++ (some (TallyEvent.passed w (P.topNodes.get v))).toList) =
        _ from Tally.begun_snoc.trans (List.append_nil _)] at hx
      exact hx
    · exact List.mem_append_right _ (List.mem_singleton_self _)
  | @stopped w v k hw hrun hsite =>
    refine h.run_step (a := some (.moved w)) hw (h.tally.step honly (.leave hsite) nofun)
      (fun u hu => Tally.goto_site_of_ne _ _ hu) id (fun x hx => .inl ?_)
      ⟨Tally.goto_site_self .., h.tally.halted w hsite⟩
    rw [show Tally.begun (tr₁ ++ right tr ++ (some (TallyEvent.moved w)).toList) =
      _ from Tally.begun_snoc.trans (List.append_nil _)] at hx
    exact hx
  -- what the run function returns is what it saw of the status
  | @last w v k b hw hrun hb =>
    have hok := h.running w v k hw
    rw [hrun] at hok
    refine h.run_step (a := none) hw ?_ (fun _ _ => rfl) id ?_ ?_
    · rw [hquiet]
      exact h.tally
    · rw [hquiet]
      exact fun x => .inl
    · rw [hquiet]
      cases b with
      | false => exact ⟨hok.1, hb rfl⟩
      | true => exact hok
  | ret hrun hs => exact h.ret_step hrun hs

omit [DecidableEq J] in
/-- Phase 2 begins after the join: no thread is at a front, and no top front was taken. -/
theorem inv_init {y : Tally threads} (hy : Tally.Inv E (List.range T.ns) l tr₁ y)
    (hidle : ∀ t, y.site t = .idle) (hnew : ∀ x ∈ P.topNodes, x ∉ Tally.begun tr₁) :
    Inv P E l tr₁ [] (init P threads J y) where
  sched := TopScheduler.trace_new P.topForest threads
  tally := by
    rw [right_nil, List.append_nil]
    exact hy
  called := nofun
  begun v hv := by
    rw [right_nil, List.append_nil] at hv
    exact absurd hv (hnew _ (List.get_mem ..))
  outside w _ := hidle w
  running := nofun
  returned := nofun

theorem inv_run {y : Tally threads} (honly : ∀ l', l' ≠ l → E.cap l' < 0)
    (hy : Tally.Inv E (List.range T.ns) l tr₁ y) (hidle : ∀ t, y.site t = .idle)
    (hnew : ∀ x ∈ P.topNodes, x ∉ Tally.begun tr₁) (h : (system P E threads J y).Run tr s) :
    Inv P E l tr₁ tr s :=
  h.invariant (inv_init hy hidle hnew) fun _ hinv hs => hinv.step honly hs

omit [DecidableEq J] in
/-- When all workers have returned without a stop, every top front is completed. -/
theorem Inv.mem_completed (h : Inv P E l tr₁ tr s) (hdone : ∀ w, s.sched.worker w = .done)
    (hf : s.tally.failed = .success) (w : Fin threads) (v : Fin P.topNodes.length) :
    v ∈ s.sched.completed.map (·.1) := by
  have hnostop : s.sched.stopped = true → False := fun hc => by
    obtain ⟨u, v, hu⟩ := h.sched.stopped hc
    exact h.returned u v false hu hf
  have hlen : s.sched.completed.length = P.topNodes.length :=
    (h.sched.done w (hdone w)).resolve_right hnostop
  have hnodup : (s.sched.completed.map (·.1)).Nodup :=
    (List.nodup_append.mp h.sched.inv.nodup).2.1
  have huniv : (s.sched.completed.map (·.1)).toFinset = Finset.univ := by
    refine Finset.eq_univ_of_card _ ?_
    rw [List.toFinset_card_of_nodup hnodup, List.length_map, hlen, Fintype.card_fin]
  exact List.mem_toFinset.mp (huniv ▸ Finset.mem_univ v)

omit [DecidableEq J] in
/-- It is then through. -/
theorem Inv.passed_of_done (h : Inv P E l tr₁ tr s) (hdone : ∀ w, s.sched.worker w = .done)
    (hf : s.tally.failed = .success) (w : Fin threads) (hx : x ∈ P.topNodes) :
    ∃ t, TallyEvent.passed t x ∈ tr₁ ++ right tr := by
  obtain ⟨v, rfl⟩ := List.mem_iff_get.mp hx
  obtain ⟨⟨v', u⟩, hu, rfl⟩ := List.mem_map.mp (h.mem_completed hdone hf w v)
  exact h.returned u v' true (h.sched.completed u v' hu)

end Steps

end Top

/-! ## The decision -/

/-- The parallel factorization can return this status: phase 1 runs to its join, and then
    phase 2, when there is a top part and nothing has stopped the run. -/
inductive Factors (P : Partition T) (E : FrontLimits) (threads : ℕ) (J : Type) [DecidableEq J] :
    Multifrontal.ErrorCode → Prop
  | subtrees {tr s} (caller : Fin threads) (hcaller : caller.1 = 0)
      (h : (Subtrees.system P E threads).Run tr s) (hret : s.control.pc caller = .returned)
      (hskip : s.tally.failed ≠ .success ∨ P.topNodes = []) : Factors P E threads J s.tally.failed
  | top {tr s tr' s'} (caller : Fin threads) (hcaller : caller.1 = 0)
      (h : (Subtrees.system P E threads).Run tr s) (hret : s.control.pc caller = .returned)
      (hok : s.tally.failed = .success) (hne : P.topNodes ≠ [])
      (h' : (Top.system P E threads J s.tally).Run tr' s')
      (hdone : ∀ w, s'.sched.worker w = .done) : Factors P E threads J s'.tally.failed

/-- The status of the one-thread engine. -/
def serialStatus (T : AssemblyTree) (E : FrontLimits) : Multifrontal.ErrorCode :=
  E.serialLoop (List.range T.ns) 0 0

section Decision

variable {l : Limit} {J : Type} [DecidableEq J]

/-- What the total decides: the error of the limit, or success. -/
def FrontLimits.Decides (E : FrontLimits) (l : Limit) (total : ℤ)
    (status : Multifrontal.ErrorCode) : Prop :=
  (status = l.error ↔ E.cap l < total) ∧ (status = .success ↔ total ≤ E.cap l)

theorem decides_of {total : ℤ} {status : Multifrontal.ErrorCode}
    (hstop : status ≠ .success → status = l.error ∧ E.cap l < total)
    (hok : status = .success → total ≤ E.cap l) : E.Decides l total status := by
  by_cases h : status = .success
  · have hle := hok h
    have hne : l.error ≠ .success := by cases l <;> nofun
    exact ⟨iff_of_false (fun hc => hne (hc.symm.trans h)) (not_lt.mpr hle), iff_of_true h hle⟩
  · obtain ⟨he, hlt⟩ := hstop h
    exact ⟨iff_of_true he hlt, iff_of_false h (not_le.mpr hlt)⟩

/-- Phase 1 and phase 2 in every interleaving. -/
theorem factors_decides (harmed : 0 ≤ E.cap l) (honly : ∀ l', l' ≠ l → E.cap l' < 0)
    {status : Multifrontal.ErrorCode} (h : Factors P E threads J status) :
    E.Decides l (E.total l (List.range T.ns)) status := by
  cases h with
  -- stopped in phase 1, or there is no phase 2
  | @subtrees tr s caller hcaller h hret hskip =>
    have hinv := Subtrees.inv_run honly h
    have hall := hinv.control.all_returned hcaller hret
    refine decides_of (fun hc => (hinv.tally.failed hc).imp_right And.right) fun hok => ?_
    refine hinv.tally.total_le_cap harmed List.nodup_range hok
      (hinv.idle_of_returned hall) fun x hx => ?_
    rcases P.mem_range_or_top (List.mem_range.mp hx) with ⟨r, hr, hxr⟩ | htop
    · obtain ⟨i, hi, rfl⟩ := List.mem_iff_getElem.mp hr
      refine hinv.passed_of_returned hall hok caller hi ?_
      rwa [Partition.range, ← List.getElem_eq_getD (h := hi)]
    · rw [hskip.resolve_left (not_not.mpr hok)] at htop
      cases htop
  | @top tr s tr' s' caller hcaller h hret hok hne h' hdone =>
    have hinv := Subtrees.inv_run honly h
    have hall := hinv.control.all_returned hcaller hret
    -- phase 1 begins fronts of the subtrees only
    have hnew : ∀ x ∈ P.topNodes, x ∉ Tally.begun (right tr) := by
      intro x hx hc
      obtain ⟨i, hi, hxi⟩ := hinv.begun_mem x hc
      exact Partition.notMem_topNodes (Partition.range_mem hi) hxi hx
    have hinv' := Top.inv_run honly hinv.tally (hinv.idle_of_returned hall) hnew h'
    refine decides_of (fun hc => (hinv'.tally.failed hc).imp_right And.right) fun hok' => ?_
    have hidle : ∀ w, s'.tally.site w = .idle := fun w =>
      hinv'.outside w fun v k => by
        rw [hdone w]
        nofun
    refine hinv'.tally.total_le_cap harmed List.nodup_range hok' hidle fun x hx => ?_
    rcases P.mem_range_or_top (List.mem_range.mp hx) with ⟨r, hr, hxr⟩ | htop
    · obtain ⟨i, hi, rfl⟩ := List.mem_iff_getElem.mp hr
      obtain ⟨t, ht⟩ := hinv.passed_of_returned hall hok caller hi (x := x) (by
        rwa [Partition.range, ← List.getElem_eq_getD (h := hi)])
      exact ⟨t, List.mem_append_left _ ht⟩
    · exact hinv'.passed_of_done hdone hok' caller htop

/-- The one-thread engine's loop, from counts `frontWork` and `negative`. -/
theorem serialLoop_decides (harmed : 0 ≤ E.cap l) (honly : ∀ l', l' ≠ l → E.cap l' < 0) :
    ∀ (fronts : List ℕ) (count : Limit → ℤ), count l ≤ E.cap l →
      E.Decides l (count l + E.total l fronts)
        (E.serialLoop fronts (count .work) (count .negatives)) := by
  intro fronts
  induction fronts with
  | nil =>
    intro count hle
    refine decides_of (fun hc => absurd rfl hc) fun _ => ?_
    rwa [FrontLimits.total, List.map_nil, List.sum_nil, Int.add_zero]
  | cons s rest ih =>
    intro count hle
    have hrest : 0 ≤ E.total l rest := List.sum_nonneg fun x hx => by
      obtain ⟨z, -, rfl⟩ := List.mem_map.mp hx
      exact Int.natCast_nonneg _
    have htotal : count l + E.total l (s :: rest) = count l + E.amount l s + E.total l rest := by
      rw [FrontLimits.total, List.map_cons, List.sum_cons, Int.add_assoc]
      rfl
    have hstop : E.cap l < count l + E.amount l s →
        E.Decides l (count l + E.total l (s :: rest)) l.error := fun hlt =>
      decides_of (fun _ => ⟨rfl, by rw [htotal]; omega⟩) fun hc => by cases l <;> cases hc
    -- the counts after the front, when neither limit stops there
    have hgo : count l + E.amount l s ≤ E.cap l →
        E.Decides l (count l + E.total l (s :: rest))
          (E.serialLoop rest (count .work + E.work s) (count .negatives + E.negative s)) :=
      fun hin => htotal ▸ ih (fun l' => count l' + E.amount l' s) hin
    rw [FrontLimits.serialLoop]
    cases l with
    | work =>
      have hneg : ¬0 ≤ E.negLimit := not_le.mpr (honly .negatives (by decide))
      by_cases hlt : E.workCap < count .work + E.work s
      · rw [if_pos ⟨harmed, hlt⟩]
        exact hstop hlt
      · rw [if_neg fun hc => hlt hc.2, if_neg fun hc => hneg hc.1, if_neg fun hc => hlt hc.2]
        exact hgo (not_lt.mp hlt)
    | negatives =>
      have hwork : ¬0 ≤ E.workCap := not_le.mpr (honly .work (by decide))
      rw [if_neg fun hc => hwork hc.1]
      by_cases hlt : E.negLimit < count .negatives + E.negative s
      · rw [if_pos ⟨harmed, hlt⟩]
        exact hstop hlt
      · rw [if_neg fun hc => hlt hc.2, if_neg fun hc => hwork hc.1]
        exact hgo (not_lt.mp hlt)

/-- With one limit armed, every complete run of the parallel factorization and the
    one-thread engine return the limit's error iff the total over all fronts passes the
    cap, and success otherwise. -/
theorem limits_decide (P : Partition T) (E : FrontLimits) (l : Limit) (threads : ℕ) (J : Type)
    [DecidableEq J] (harmed : 0 ≤ E.cap l) (honly : ∀ l', l' ≠ l → E.cap l' < 0) :
    (∀ status, Factors P E threads J status →
      (status = l.error ↔ E.cap l < E.total l (List.range T.ns)) ∧
      (status = .success ↔ E.total l (List.range T.ns) ≤ E.cap l)) ∧
    (serialStatus T E = l.error ↔ E.cap l < E.total l (List.range T.ns)) ∧
    (serialStatus T E = .success ↔ E.total l (List.range T.ns) ≤ E.cap l) := by
  refine ⟨fun status h => factors_decides harmed honly h, ?_⟩
  have hserial := serialLoop_decides harmed honly (List.range T.ns) (fun _ => 0) harmed
  rwa [Int.zero_add] at hserial

end Decision

theorem twoRoots_children (s c : ℕ) :
    c ∈ ([] : List ℕ) ↔ (⟨c, c + 1, none⟩ : Multifrontal.Supernode).parent = some s :=
  iff_of_false List.not_mem_nil nofun

/-- Two fronts that are roots, a task each. -/
def twoRoots : AssemblyTree where
  ns := 2
  supernodes := fun s => ⟨s, s + 1, none⟩
  children := fun _ => []
  frontRows := fun s => [s]
  mem_children := twoRoots_children
  children_nodup := fun _ => List.nodup_nil
  postorder := by
    refine Multifrontal.postorder_of_first id (fun _ _ => le_rfl) fun s _ x => ?_
    refine iff_of_false (fun h => ?_) fun h => absurd h.2 (not_lt.mpr h.1)
    obtain ⟨b, -, hb⟩ := Relation.TransGen.tail'_iff.mp h
    cases hb

theorem firstTwo_disjoint :
    [(0, 0), (1, 1)].Pairwise fun r r' : ℕ × ℕ => r.2 < r'.1 ∨ r'.2 < r.1 := by
  decide

def twoTasks : Partition twoRoots where
  ranges := [(0, 0), (1, 1)]
  isTask := by
    intro r hr
    have hr' : r = (0, 0) ∨ r = (1, 1) := by simpa using hr
    have hnot : ∀ {x s}, ¬Multifrontal.Below twoRoots.parent x s := by
      intro x s h
      obtain ⟨b, -, hb⟩ := Relation.TransGen.tail'_iff.mp h
      cases hb
    rcases hr' with rfl | rfl
    · exact ⟨le_rfl, Nat.zero_lt_two, fun _ _ _ _ h => absurd h hnot⟩
    · exact ⟨le_rfl, Nat.one_lt_two, fun _ _ _ _ h => absurd h hnot⟩
  disjoint := firstTwo_disjoint
  top := fun _ => false
  top_iff := by decide

/-- Each front does one unit of work, and none is allowed. -/
def noWork : FrontLimits where
  numElig := fun _ => 1
  rows := fun _ => 1
  negative := fun _ => 0
  negLimit := -1
  workCap := 0

/-- Thread 0 is refused its front, thread 1 sees the stop, and both return. -/
theorem factors_noWork : Factors twoTasks noWork 2 Unit .workLimitExceeded := by
  have polls : ∀ {a : Phase1 2}, a.failed = true → a.Polls false := fun h _ => h
  have run := ((((((((((((((((Lts.Run.nil (L := Subtrees.system twoTasks noWork 2)).snoc
    (.control (.start (t := 0) rfl))).snoc
    (.control (.ownPoll (t := 0) (b := true) rfl nofun))).snoc
    (.control (.ownLoad (t := 0) (b := false) rfl nofun))).snoc
    (.began (.ownClaim (t := 0) rfl rfl))).snoc
    (.front (t := 0) (i := 0) rfl rfl le_rfl)).snoc
    (.inside (.refuse (t := 0) (s := 0) rfl le_rfl ⟨le_rfl, le_rfl⟩ (by decide))
      rfl)).snoc
    (.raised (t := 0) (i := 0) rfl (.store (t := 0) rfl) nofun)).snoc
    (.stopped (t := 0) rfl (.ended (t := 0) (i := 0) rfl))).snoc
    (.control (.loopPoll (t := 0) (b := false) rfl (polls rfl)))).snoc
    (.control (.scanStop (t := 0) (i := 0) rfl (.inr (polls rfl))))).snoc
    (.control (.start (t := 1) rfl))).snoc
    (.control (.ownPoll (t := 1) (b := false) rfl (polls rfl)))).snoc
    (.control (.loopPoll (t := 1) (b := false) rfl (polls rfl)))).snoc
    (.control (.scanStop (t := 1) (i := 0) rfl (.inr (polls rfl))))).snoc
    (.control (.finish (t := 1) rfl nofun))).snoc
    (.control (.finishCaller (t := 0) rfl rfl rfl))
  exact .subtrees 0 rfl run rfl (.inl nofun)

/-- That run stops because the two fronts' work passes the cap, and so does the one-thread
    engine. -/
theorem limits_decide_noWork : Factors twoTasks noWork 2 Unit .workLimitExceeded ∧
    noWork.cap .work < noWork.total .work (List.range twoRoots.ns) ∧
    serialStatus twoRoots noWork = .workLimitExceeded := by
  have harmed : (0 : ℤ) ≤ noWork.cap .work := le_rfl
  have honly : ∀ l', l' ≠ Limit.work → noWork.cap l' < 0 := by
    intro l' h
    cases l' with
    | negatives => decide
    | work => exact absurd rfl h
  obtain ⟨hfactors, hserial, -⟩ := limits_decide twoTasks noWork .work 2 Unit harmed honly
  have hpast := (hfactors _ factors_noWork).1.mp rfl
  exact ⟨factors_noWork, hpast, hserial.mpr hpast⟩

end Parallel
end SmfSolver
