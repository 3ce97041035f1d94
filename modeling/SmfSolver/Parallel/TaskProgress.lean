/-
  SmfSolver.Parallel.TaskProgress

  Phase 1 comes to an end.  The tasks that nobody has taken are the supply the threads
  share, and a thread's way is what its place in the job leaves it to do (`Pc.rank`).

  `Inv.advance`: a thread outside of the tasks can always go on, the caller once no worker is
  pending.  From it, `Phase1.completes`: every run of the threads can be continued until all
  of them have returned.
-/
import SmfSolver.Lib.Progress
import SmfSolver.Parallel.TaskClaim

namespace SmfSolver
namespace Parallel

open Lib

/-- A bound on what a thread still does before it returns, when it takes no further task:
    `d` tasks are dealt. -/
def Pc.rank (d : ℕ) : Pc → ℕ
  | .waiting => 3 * d + 10
  | .ownPoll => 3 * d + 9
  | .ownLoad => 3 * d + 8
  | .task _ .own | .task _ .shared | .ownXchg => 3 * d + 7
  | .loopPoll => 3 * d + 6
  | .fetch => 3 * d + 5
  | .scanPoll i => 3 * (d - i) + 4
  | .scanLoad i => 3 * (d - i) + 3
  | .scanXchg i => 3 * (d - i) + 2
  | .task i .takeover => 3 * (d - (i + 1)) + 5
  | .finished => 1
  | .returned => 0

namespace Phase1

variable {threads n : ℕ} {tr : List (TaskEvent threads)} {s s' : Phase1 threads}
  {t : Fin threads} {b : Pc} {i : ℕ} {way : Way}

instance (n : ℕ) (s : Phase1 threads) : DecidablePred (Taken n s) := fun _ =>
  inferInstanceAs (Decidable (_ ∨ _))

/-- The tasks nobody has taken. -/
def untaken (n : ℕ) (s : Phase1 threads) : Finset ℕ :=
  (Finset.range n).filter fun i => ¬Taken n s i

theorem mem_untaken : i ∈ untaken n s ↔ i < n ∧ ¬Taken n s i := by
  rw [untaken, Finset.mem_filter, Finset.mem_range]

theorem SameTasks.untaken_eq (h : SameTasks n s s') : untaken n s' = untaken n s :=
  Finset.filter_congr fun i _ => not_congr (h.taken i)

/-- A task that is taken now is one less. -/
theorem untaken_lt (hi : i ∈ untaken n s) (htaken : Taken n s' i)
    (hkeep : ∀ j, Taken n s j → Taken n s' j) : (untaken n s').card < (untaken n s).card := by
  refine Finset.card_lt_card (Finset.ssubset_iff_subset_ne.mpr ⟨fun j hj => ?_, fun hc => ?_⟩)
  · obtain ⟨hlt, hj⟩ := mem_untaken.mp hj
    exact mem_untaken.mpr ⟨hlt, fun hc => hj (hkeep j hc)⟩
  · rw [← hc] at hi
    exact (mem_untaken.mp hi).2 htaken

theorem rank_afterTask (d i : ℕ) (way : Way) :
    (afterTask i way).rank d < (Pc.task i way).rank d := by
  cases way <;> exact Nat.lt_succ_self _

/-- Where thread `t` goes next, and what it uses up. -/
structure Goes (n : ℕ) (s : Phase1 threads) (t : Fin threads) (e : TaskEvent threads)
    (s' : Phase1 threads) (b : Pc) : Prop where
  step : Step n s e s'
  pc : s'.pc = Function.update s.pc t b
  used : e = .moved t ∧ untaken n s' = untaken n s ∧
      b.rank (dealt threads n) < (s.pc t).rank (dealt threads n) ∨
    ∃ i way, e = .began t i way ∧ (untaken n s').card < (untaken n s).card

/-- A move. -/
theorem Goes.moved (hs : Step n s (.moved t) s') (hpc : s'.pc = Function.update s.pc t b)
    (hsame : untaken n s' = untaken n s)
    (hlt : b.rank (dealt threads n) < (s.pc t).rank (dealt threads n)) :
    Goes n s t (.moved t) s' b :=
  ⟨hs, hpc, .inl ⟨rfl, hsame, hlt⟩⟩

/-- The claim of a dealt task that is free. -/
theorem Goes.claim (hs : Step n s (.began t i way) ((s.claim i).goto t (.task i way)))
    (hi : i < dealt threads n) (hfree : s.claimed i = false) :
    Goes n s t (.began t i way) ((s.claim i).goto t (.task i way)) (.task i way) := by
  refine ⟨hs, rfl, .inr ⟨i, way, rfl, ?_⟩⟩
  have hin : i < n := hi.trans_le (Nat.min_le_left ..)
  refine untaken_lt (mem_untaken.mpr ⟨hin, ?_⟩) ((taken_claim hi i).mpr (.inr rfl))
    fun j hj => (taken_claim hi j).mpr (.inl hj)
  rintro (⟨-, hc⟩ | ⟨hge, -⟩)
  · rw [hfree] at hc
    cases hc
  · exact absurd hge (not_le.mpr hi)

/-- A thread outside of the tasks goes on. -/
theorem Inv.advance (h : Inv n tr s) (hout : ∀ i way, s.pc t ≠ .task i way)
    (hret : s.pc t ≠ .returned) (hcaller : t.1 = 0 → s.pending = 0) :
    ∃ e s' b, Goes n s t e s' b := by
  have hok := h.pcOk t
  have hsame : ∀ b, untaken n (s.goto t b) = untaken n s := fun _ => rfl
  cases hpc : s.pc t with
  | waiting =>
    refine ⟨_, _, _, .moved (.start hpc) rfl (hsame _) ?_⟩
    rw [hpc]
    split_ifs <;> simp only [Pc.rank] <;> omega
  | ownPoll =>
    refine ⟨_, _, .ownLoad, .moved (.ownPoll (b := true) hpc nofun) rfl (hsame _) ?_⟩
    rw [hpc]
    exact Nat.lt_succ_self _
  | ownLoad =>
    refine ⟨_, _, .ownXchg, .moved (.ownLoad (b := false) hpc nofun) rfl (hsame _) ?_⟩
    rw [hpc]
    exact Nat.lt_succ_self _
  -- the exchange either takes the task or sees that it is gone
  | ownXchg =>
    rw [hpc] at hok
    cases hfree : s.claimed t.1 with
    | false => exact ⟨_, _, _, .claim (.ownClaim hpc hfree) hok hfree⟩
    | true =>
      refine ⟨_, _, .loopPoll, .moved (.ownLost hpc hfree) rfl
        (sameTasks_claim hfree t _).untaken_eq ?_⟩
      rw [hpc]
      exact Nat.lt_succ_self _
  | task i way => exact absurd hpc (hout i way)
  | loopPoll =>
    refine ⟨_, _, .fetch, .moved (.loopPoll (b := true) hpc nofun) rfl (hsame _) ?_⟩
    rw [hpc]
    exact Nat.lt_succ_self _
  | fetch =>
    by_cases hlt : s.next < n
    -- the counter hands out a task that nobody has taken
    · refine ⟨_, _, _, .fetch hpc hlt, rfl, .inr ⟨_, _, rfl, ?_⟩⟩
      refine untaken_lt (i := s.next) (mem_untaken.mpr ⟨hlt, ?_⟩)
        (.inr ⟨h.next_ge, Nat.lt_succ_self _, hlt⟩) fun j hj => ?_
      · rintro (⟨hc, -⟩ | ⟨-, hc, -⟩)
        · exact absurd h.next_ge (not_le.mpr hc)
        · exact lt_irrefl _ hc
      · exact hj.imp_right fun hc => ⟨hc.1, Nat.lt_succ_of_lt hc.2.1, hc.2.2⟩
    · have hge : n ≤ s.next := not_lt.mp hlt
      refine ⟨_, _, .scanPoll 0, .moved (.fetchNone hpc hge) rfl ?_ ?_⟩
      -- past its end the counter gives nothing: the tasks below `n` are counted already
      · refine Finset.filter_congr fun j hj => not_congr (or_congr_right ?_)
        have hj' := Finset.mem_range.mp hj
        exact ⟨fun hc => ⟨hc.1, hj'.trans_le hge, hj'⟩,
          fun hc => ⟨hc.1, Nat.lt_succ_of_lt hc.2.1, hj'⟩⟩
      · rw [hpc]
        exact Nat.lt_succ_self _
  | scanPoll i =>
    by_cases hi : i < dealt threads n
    · refine ⟨_, _, .scanLoad i, .moved (.scanPoll hpc hi) rfl (hsame _) ?_⟩
      rw [hpc]
      exact Nat.lt_succ_self _
    · refine ⟨_, _, .finished, .moved (.scanStop hpc (.inl (not_lt.mp hi))) rfl (hsame _) ?_⟩
      rw [hpc]
      simp only [Pc.rank]
      omega
  | scanLoad i =>
    refine ⟨_, _, .scanXchg i, .moved (.scanLoad (b := false) hpc nofun) rfl (hsame _) ?_⟩
    rw [hpc]
    exact Nat.lt_succ_self _
  | scanXchg i =>
    rw [hpc] at hok
    cases hfree : s.claimed i with
    | false => exact ⟨_, _, _, .claim (.scanClaim hpc hfree) hok hfree⟩
    | true =>
      refine ⟨_, _, .scanPoll (i + 1), .moved (.scanLost hpc hfree) rfl
        (sameTasks_claim hfree t _).untaken_eq ?_⟩
      have hi : i < dealt threads n := hok
      rw [hpc]
      simp only [Pc.rank]
      omega
  -- only the caller waits here, for the workers
  | finished =>
    by_cases ht : t.1 = 0
    · refine ⟨_, _, .returned, .moved (.finishCaller hpc ht (hcaller ht)) rfl (hsame _) ?_⟩
      rw [hpc]
      exact Nat.lt_succ_self _
    · refine ⟨_, _, .returned, .moved (.finish hpc ht) rfl rfl ?_⟩
      rw [hpc]
      exact Nat.lt_succ_self _
  | returned => exact absurd hpc hret

/-- While not all threads have returned, one of them is not held up by the pool: a worker,
    or the caller when no worker is pending. -/
theorem Inv.exists_free (h : Inv n tr s) (hnot : ¬∀ t, s.pc t = .returned) :
    ∃ t, s.pc t ≠ .returned ∧ (t.1 = 0 → s.pending = 0) := by
  obtain ⟨t, ht⟩ := not_forall.mp hnot
  by_cases hworker : ∃ u : Fin threads, u.1 ≠ 0 ∧ s.pc u ≠ .returned
  · obtain ⟨u, hu, hret⟩ := hworker
    exact ⟨u, hret, fun hc => absurd hc hu⟩
  · refine ⟨t, ht, fun _ => ?_⟩
    rw [h.pending, Finset.card_eq_zero]
    exact Finset.filter_eq_empty_iff.mpr fun u _ hu => hworker ⟨u, hu⟩

/-- Every run of the threads can be continued until all of them have returned. -/
theorem completes (h : (system threads n).Run tr s) :
    ∃ tr' s', (system threads n).Run (tr ++ tr') s' ∧ ∀ t, s'.pc t = .returned := by
  refine h.complete (fun s => (untaken n s).card)
    (fun s t => (s.pc t).rank (dealt threads n)) fun {tr s} hrun hnot => ?_
  have hinv := inv_run hrun
  obtain ⟨t, hret, hcaller⟩ := hinv.exists_free hnot
  have hrest : ∀ {s' : Phase1 threads} {b : Pc}, s'.pc = Function.update s.pc t b →
      ∀ u, u ≠ t → (s'.pc u).rank (dealt threads n) ≤ (s.pc u).rank (dealt threads n) :=
    fun hpc u hu => by rw [hpc, Function.update_of_ne hu]
  by_cases htask : ∃ i way, s.pc t = .task i way
  · obtain ⟨i, way, hpc⟩ := htask
    refine ⟨_, _, .ended hpc, .of_own (i := t) le_rfl ?_ (hrest rfl)⟩
    rw [hpc]
    exact (congrArg (Pc.rank _) (Function.update_self ..)).trans_lt (rank_afterTask _ i way)
  · have hout : ∀ i way, s.pc t ≠ .task i way := fun i way hc => htask ⟨i, way, hc⟩
    obtain ⟨e, s', b, hgo⟩ := hinv.advance hout hret hcaller
    refine ⟨e, s', hgo.step, ?_⟩
    rcases hgo.used with ⟨-, hsame, hlt⟩ | ⟨i, way, -, hlt⟩
    · refine .of_own (i := t) (congrArg Finset.card hsame).le ?_ (hrest hgo.pc)
      rwa [hgo.pc, Function.update_self]
    · exact .of_shared hlt

end Phase1

end Parallel
end SmfSolver
