/-
  SmfSolver.Solve.RunDagRuns

  The runs of `run_dag`, in three invariants kept apart: which nodes are ready and where
  they are (`Accounts`), how far each call of `process` has come (`Calls`), and the two
  counters that the threads poll (`Counters`).
-/
import SmfSolver.Solve.RunDag
import Mathlib.Algebra.Order.BigOperators.Group.Finset
import Mathlib.Tactic.Abel

namespace SmfSolver
namespace Solve

open Lib Finset

variable {n T : ℕ}

/-! ## What the labels of a run record -/

def begun (tr : List (DagEvent n T)) : List (Fin n) := tr.filterMap DagEvent.begins

def ended (tr : List (DagEvent n T)) : List (Fin n) := tr.filterMap DagEvent.ends

def countedOff (tr : List (DagEvent n T)) : List (Fin n × Fin n) := tr.filterMap DagEvent.counts

/-- The nodes that have become ready: in the list, with a thread, or begun. -/
def tokens (tr : List (DagEvent n T)) (s : DagState n T) : Multiset (Fin n) :=
  s.ready + ∑ t, (s.pc t).held + begun tr

/-- Changing one thread changes a sum over the threads by its own term. -/
theorem sum_update {α M : Type*} [AddCommMonoid M] (f : α → M) (g : Fin T → α) (t : Fin T) (a : α) :
    ∑ u, f (Function.update g t a u) + f (g t) = ∑ u, f (g u) + f a := by
  have hrest : ∑ u ∈ univ.erase t, f (Function.update g t a u) = ∑ u ∈ univ.erase t, f (g u) :=
    sum_congr rfl fun u hu => by rw [Function.update_of_ne (ne_of_mem_erase hu)]
  rw [← add_sum_erase univ _ (mem_univ t), ← add_sum_erase univ (fun u => f (g u)) (mem_univ t),
    hrest, Function.update_self]
  abel

/-- A step that moves nodes between the list, the stepping thread and the begun ones, and
    makes those of `x` ready. -/
theorem tokens_add {tr tr' : List (DagEvent n T)} {s s' : DagState n T} {t : Fin T} {a : Pc n}
    {x : Multiset (Fin n)} (hpc : s'.pc = Function.update s.pc t a)
    (hlocal : (s'.ready : Multiset (Fin n)) + a.held + (begun tr' : Multiset (Fin n)) =
      s.ready + (s.pc t).held + begun tr + x) :
    tokens tr' s' = tokens tr s + x := by
  have hsum := sum_update Pc.held s.pc t a
  refine add_right_cancel (b := (s.pc t).held) ?_
  unfold tokens
  rw [hpc]
  calc (s'.ready : Multiset (Fin n)) + ∑ u, (Function.update s.pc t a u).held + begun tr' +
        (s.pc t).held
      = ∑ u, (Function.update s.pc t a u).held + (s.pc t).held + (s'.ready + begun tr') := by abel
    _ = ∑ u, (s.pc u).held + (s'.ready + a.held + begun tr') := by rw [hsum]; abel
    _ = ∑ u, (s.pc u).held + (s.ready + (s.pc t).held + begun tr + x) := by rw [hlocal]
    _ = s.ready + ∑ u, (s.pc u).held + begun tr + x + (s.pc t).held := by abel

theorem tokens_eq {tr tr' : List (DagEvent n T)} {s s' : DagState n T} {t : Fin T} {a : Pc n}
    (hpc : s'.pc = Function.update s.pc t a)
    (hlocal : (s'.ready : Multiset (Fin n)) + a.held + (begun tr' : Multiset (Fin n)) =
      s.ready + (s.pc t).held + begun tr) :
    tokens tr' s' = tokens tr s :=
  (tokens_add hpc (hlocal.trans (add_zero _).symm)).trans (add_zero _)

/-! ## The invariants -/

/-- A node is ready, once, exactly when all its predecessors have counted themselves off. -/
structure Accounts (D : Dag n) (tr : List (DagEvent n T)) (s : DagState n T) : Prop where
  nodup : (tokens tr s).Nodup
  zero : ∀ j, j ∈ tokens tr s ↔ s.pending j = 0
  waits : ∀ j, s.pending j = (univ.filter fun i => D.edge i j ∧ (i, j) ∉ countedOff tr).card

/-- Where the calls of `process` are. -/
structure Calls (D : Dag n) (tr : List (DagEvent n T)) (s : DagState n T) : Prop where
  ended_nodup : (ended tr).Nodup
  ended_begun : ∀ i ∈ ended tr, i ∈ begun tr
  begun_or : ∀ i ∈ begun tr, i ∈ ended tr ∨ ∃ t, s.pc t = .body i
  body : ∀ t i, s.pc t = .body i → i ∈ begun tr ∧ i ∉ ended tr
  body_once : ∀ t u i, s.pc t = .body i → s.pc u = .body i → t = u
  counted : ∀ i j, (i, j) ∈ countedOff tr → D.edge i j ∧ i ∈ ended tr
  todo : ∀ t i l, (s.pc t).counting = some (i, l) →
    i ∈ ended tr ∧ l.Nodup ∧ ∀ j ∈ l, D.edge i j ∧ (i, j) ∉ countedOff tr
  once : ∀ t u i l l', (s.pc t).counting = some (i, l) → (s.pc u).counting = some (i, l') → t = u
  uncounted : ∀ i j, i ∈ ended tr → D.edge i j → (i, j) ∉ countedOff tr →
    ∃ t l, (s.pc t).counting = some (i, l) ∧ j ∈ l

/-- What the threads poll. -/
structure Counters (tr : List (DagEvent n T)) (s : DagState n T) : Prop where
  remaining : s.remaining + (begun tr).length = n + ∑ t, (s.pc t).busy
  nready : s.nready = s.ready.length + ∑ t, (s.pc t).ahead
  exited : ∀ t, s.pc t = .exited → s.remaining = 0
  lock : ∀ t, s.lock = some t → (s.pc t).Locked

variable {D : Dag n} {tr tr' : List (DagEvent n T)} {s s' : DagState n T} {t : Fin T} {a : Pc n}

theorem begun_snoc (tr : List (DagEvent n T)) (e : DagEvent n T) :
    begun (tr ++ [e]) = begun tr ++ e.begins.toList := by
  unfold begun
  rw [List.filterMap_append]
  cases h : e.begins <;> simp [h]

theorem ended_snoc (tr : List (DagEvent n T)) (e : DagEvent n T) :
    ended (tr ++ [e]) = ended tr ++ e.ends.toList := by
  unfold ended
  rw [List.filterMap_append]
  cases h : e.ends <;> simp [h]

theorem countedOff_snoc (tr : List (DagEvent n T)) (e : DagEvent n T) :
    countedOff (tr ++ [e]) = countedOff tr ++ e.counts.toList := by
  unfold countedOff
  rw [List.filterMap_append]
  cases h : e.counts <;> simp [h]

theorem Accounts.congr (h : Accounts D tr s) (htokens : tokens tr' s' = tokens tr s)
    (hpending : s'.pending = s.pending) (hcounted : countedOff tr' = countedOff tr) :
    Accounts D tr' s' where
  nodup := htokens ▸ h.nodup
  zero j := by rw [htokens, hpending]; exact h.zero j
  waits j := by rw [hpending, hcounted]; exact h.waits j

/-- A node that is ready has not begun. -/
theorem Accounts.fresh (h : Accounts D tr s) {i : Fin n} (hi : i ∈ (s.pc t).held) :
    i ∉ begun tr := by
  have hmem : i ∈ ∑ u, (s.pc u).held := Multiset.mem_sum.mpr ⟨t, mem_univ t, hi⟩
  have hdis := (Multiset.nodup_add.mp h.nodup).2.2
  exact fun hb => Multiset.disjoint_left.mp hdis (Multiset.mem_add.mpr (Or.inr hmem)) hb

/-- Counting a predecessor off makes the node ready when it was the last. -/
theorem Accounts.countOff (h : Accounts D tr s) {i j : Fin n} (hedge : D.edge i j)
    (hnew : (i, j) ∉ countedOff tr) (hcounted : countedOff tr' = countedOff tr ++ [(i, j)])
    (hpending : s'.pending = Function.update s.pending j (s.pending j - 1))
    (htokens : tokens tr' s' = if s.pending j = 1 then j ::ₘ tokens tr s else tokens tr s) :
    Accounts D tr' s' := by
  have hpos : 0 < s.pending j := by
    rw [h.waits]
    exact card_pos.mpr ⟨i, by simp [hedge, hnew]⟩
  -- a node that still waits is held by no thread and in no list
  have hout : j ∉ tokens tr s := fun hmem => by
    have := (h.zero j).mp hmem
    omega
  refine ⟨?_, fun k => ?_, fun k => ?_⟩
  · rw [htokens]
    split_ifs
    · exact Multiset.nodup_cons.mpr ⟨hout, h.nodup⟩
    · exact h.nodup
  · rw [htokens, hpending]
    rcases eq_or_ne k j with rfl | hkj
    · rw [Function.update_self]
      split_ifs with h1
      · exact ⟨fun _ => by omega, fun _ => Multiset.mem_cons_self _ _⟩
      · exact ⟨fun hmem => absurd hmem hout, fun h0 => by omega⟩
    · rw [Function.update_of_ne hkj, ← h.zero k]
      split_ifs
      · rw [Multiset.mem_cons, or_iff_right hkj]
      · exact Iff.rfl
  · rw [hpending, hcounted]
    rcases eq_or_ne k j with rfl | hkj
    · have herase : (univ.filter fun i' => D.edge i' k ∧ (i', k) ∉ countedOff tr ++ [(i, k)]) =
          (univ.filter fun i' => D.edge i' k ∧ (i', k) ∉ countedOff tr).erase i := by
        ext i'
        simp only [mem_filter, mem_univ, true_and, List.mem_append, List.mem_singleton, not_or,
          Prod.mk.injEq, and_true, mem_erase]
        tauto
      rw [Function.update_self, herase, card_erase_of_mem (by simp [hedge, hnew]), ← h.waits]
    · rw [Function.update_of_ne hkj, h.waits]
      refine congrArg card (filter_congr fun i' _ => ?_)
      simp [hkj]

/-! ## The calls -/

/-- A step that is none of a call. -/
theorem Calls.congr (h : Calls D tr s) (hpc : s'.pc = Function.update s.pc t a)
    (hbegun : begun tr' = begun tr) (hended : ended tr' = ended tr)
    (hcounted : countedOff tr' = countedOff tr)
    (hbody : ∀ i, a = .body i ↔ s.pc t = .body i)
    (hcounting : a.counting = (s.pc t).counting) : Calls D tr' s' := by
  -- no thread changes what it runs or counts, `t` by assumption
  have hb : ∀ u i, s'.pc u = .body i ↔ s.pc u = .body i := fun u i => by
    rw [hpc]
    rcases eq_or_ne u t with rfl | hu
    · rw [Function.update_self, hbody]
    · rw [Function.update_of_ne hu]
  have hc : ∀ u, (s'.pc u).counting = (s.pc u).counting := fun u => by
    rw [hpc]
    rcases eq_or_ne u t with rfl | hu
    · rw [Function.update_self, hcounting]
    · rw [Function.update_of_ne hu]
  refine ⟨?_, ?_, ?_, ?_, ?_, ?_, ?_, ?_, ?_⟩
  · rw [hended]
    exact h.ended_nodup
  · rw [hbegun, hended]
    exact h.ended_begun
  · rw [hbegun, hended]
    intro i hi
    simp only [hb]
    exact h.begun_or i hi
  · rw [hbegun, hended]
    exact fun u i hu => h.body u i ((hb u i).mp hu)
  · exact fun u v i hu hv => h.body_once u v i ((hb u i).mp hu) ((hb v i).mp hv)
  · rw [hcounted, hended]
    exact h.counted
  · rw [hcounted, hended]
    exact fun u i l hu => h.todo u i l (hc u ▸ hu)
  · exact fun u v i l l' hu hv => h.once u v i l l' (hc u ▸ hu) (hc v ▸ hv)
  · rw [hcounted, hended]
    intro i j hi he hno
    simp only [hc]
    exact h.uncounted i j hi he hno

/-- A step of a thread that is not in `process`, before and after it. -/
theorem Calls.outside (h : Calls D tr s) (hpc : s'.pc = Function.update s.pc t a)
    (ha : ∀ i, a ≠ .body i) (ht : ∀ i, s.pc t ≠ .body i) (hac : a.counting = (s.pc t).counting)
    (hbegun : begun tr' = begun tr) (hended : ended tr' = ended tr)
    (hcounted : countedOff tr' = countedOff tr) : Calls D tr' s' :=
  h.congr hpc hbegun hended hcounted
    (fun i => ⟨fun hi => absurd hi (ha i), fun hi => absurd hi (ht i)⟩) hac

/-- `process` is called. -/
theorem Calls.begin (h : Calls D tr s) {i : Fin n} (hnew : i ∉ begun tr) (ht : s.pc t = .call i)
    (hpc : s'.pc = Function.update s.pc t (.body i)) (hbegun : begun tr' = begun tr ++ [i])
    (hended : ended tr' = ended tr) (hcounted : countedOff tr' = countedOff tr) :
    Calls D tr' s' := by
  -- `t` is in the body of `i` now, and nothing else has changed
  have hb : ∀ u k, s'.pc u = .body k ↔ (u = t ∧ k = i) ∨ s.pc u = .body k := by
    intro u k
    rw [hpc]
    rcases eq_or_ne u t with rfl | hu
    · rw [Function.update_self, ht]
      constructor
      · intro heq
        cases heq
        exact Or.inl ⟨rfl, rfl⟩
      · rintro (⟨-, rfl⟩ | heq)
        · rfl
        · cases heq
    · rw [Function.update_of_ne hu]
      exact ⟨Or.inr, fun ho => ho.resolve_left fun hc => hu hc.1⟩
  have hc : ∀ u, (s'.pc u).counting = (s.pc u).counting := fun u => by
    rw [hpc]
    rcases eq_or_ne u t with rfl | hu
    · rw [Function.update_self, ht]
      rfl
    · rw [Function.update_of_ne hu]
  refine ⟨?_, ?_, ?_, ?_, ?_, ?_, ?_, ?_, ?_⟩
  · rw [hended]
    exact h.ended_nodup
  · rw [hbegun, hended]
    exact fun k hk => List.mem_append_left _ (h.ended_begun k hk)
  · rw [hbegun, hended]
    intro k hk
    rcases List.mem_append.mp hk with hold | hlast
    · rcases h.begun_or k hold with he | ⟨u, hu⟩
      · exact Or.inl he
      · exact Or.inr ⟨u, (hb u k).mpr (Or.inr hu)⟩
    · exact Or.inr ⟨t, (hb t k).mpr (Or.inl ⟨rfl, List.mem_singleton.mp hlast⟩)⟩
  · rw [hbegun, hended]
    intro u k hu
    rcases (hb u k).mp hu with ⟨-, rfl⟩ | hold
    · exact ⟨by simp, fun he => hnew (h.ended_begun _ he)⟩
    · exact ⟨List.mem_append_left _ (h.body u k hold).1, (h.body u k hold).2⟩
  -- whoever was in a body began it before, and `i` begins only now
  · intro u v k hu hv
    rcases (hb u k).mp hu with ⟨rfl, rfl⟩ | hu' <;> rcases (hb v k).mp hv with ⟨rfl, hk⟩ | hv'
    · rfl
    · exact absurd (h.body v _ hv').1 hnew
    · exact absurd (hk ▸ (h.body u _ hu').1) hnew
    · exact h.body_once u v k hu' hv'
  · rw [hcounted, hended]
    exact h.counted
  · rw [hcounted, hended]
    exact fun u k l hu => h.todo u k l (hc u ▸ hu)
  · exact fun u v k l l' hu hv => h.once u v k l l' (hc u ▸ hu) (hc v ▸ hv)
  · rw [hcounted, hended]
    intro k j hk he hno
    simp only [hc]
    exact h.uncounted k j hk he hno

/-- The node's own work is done. -/
theorem Calls.done (h : Calls D tr s) {i : Fin n} {l : List (Fin n)} (ht : s.pc t = .body i)
    (hnodup : l.Nodup) (hl : ∀ j, j ∈ l ↔ D.edge i j)
    (hpc : s'.pc = Function.update s.pc t (.count i l [])) (hbegun : begun tr' = begun tr)
    (hended : ended tr' = ended tr ++ [i]) (hcounted : countedOff tr' = countedOff tr) :
    Calls D tr' s' := by
  obtain ⟨hib, hie⟩ := h.body t i ht
  have hb : ∀ u k, s'.pc u = .body k ↔ u ≠ t ∧ s.pc u = .body k := by
    intro u k
    rw [hpc]
    rcases eq_or_ne u t with rfl | hu
    · rw [Function.update_self]
      exact ⟨fun heq => (nomatch heq), fun hc => absurd rfl hc.1⟩
    · rw [Function.update_of_ne hu]
      exact ⟨fun heq => ⟨hu, heq⟩, fun hc => hc.2⟩
  have hc : ∀ u k l', (s'.pc u).counting = some (k, l') ↔
      (u = t ∧ k = i ∧ l' = l) ∨ (s.pc u).counting = some (k, l') := by
    intro u k l'
    rw [hpc]
    rcases eq_or_ne u t with rfl | hu
    · rw [Function.update_self, ht]
      change some (i, l) = some (k, l') ↔ _ ∨ none = some (k, l')
      simp only [Option.some.injEq, Prod.mk.injEq, true_and, reduceCtorEq, or_false]
      exact ⟨fun hc => ⟨hc.1.symm, hc.2.symm⟩, fun hc => ⟨hc.1.symm, hc.2.symm⟩⟩
    · rw [Function.update_of_ne hu]
      exact ⟨Or.inr, fun ho => ho.resolve_left fun hc => hu hc.1⟩
  -- nobody counts a node off before its work is done
  have hnone : ∀ j, (i, j) ∉ countedOff tr := fun j hj => hie (h.counted i j hj).2
  refine ⟨?_, ?_, ?_, ?_, ?_, ?_, ?_, ?_, ?_⟩
  · rw [hended]
    exact List.nodup_append.mpr ⟨h.ended_nodup, List.nodup_singleton i, fun k hk k' hk' heq =>
      hie (List.mem_singleton.mp hk' ▸ heq ▸ hk)⟩
  · rw [hbegun, hended]
    intro k hk
    rcases List.mem_append.mp hk with hold | hlast
    · exact h.ended_begun k hold
    · rw [List.mem_singleton.mp hlast]
      exact hib
  · rw [hbegun, hended]
    intro k hk
    rcases h.begun_or k hk with he | ⟨u, hu⟩
    · exact Or.inl (List.mem_append_left _ he)
    · rcases eq_or_ne u t with rfl | hut
      · rw [ht] at hu
        cases hu
        exact Or.inl (by simp)
      · exact Or.inr ⟨u, (hb u k).mpr ⟨hut, hu⟩⟩
  · rw [hbegun, hended]
    intro u k hu
    obtain ⟨hut, hu⟩ := (hb u k).mp hu
    obtain ⟨hkb, hke⟩ := h.body u k hu
    refine ⟨hkb, fun hmem => ?_⟩
    rcases List.mem_append.mp hmem with hold | hlast
    · exact hke hold
    · obtain rfl := List.mem_singleton.mp hlast
      exact hut (h.body_once u t _ hu ht)
  · exact fun u v k hu hv => h.body_once u v k ((hb u k).mp hu).2 ((hb v k).mp hv).2
  · rw [hcounted, hended]
    exact fun k j hkj => ⟨(h.counted k j hkj).1, List.mem_append_left _ (h.counted k j hkj).2⟩
  · rw [hcounted, hended]
    intro u k l' hu
    rcases (hc u k l').mp hu with ⟨-, rfl, rfl⟩ | hold
    · exact ⟨by simp, hnodup, fun j hj => ⟨(hl j).mp hj, hnone j⟩⟩
    · obtain ⟨he, hrest⟩ := h.todo u k l' hold
      exact ⟨List.mem_append_left _ he, hrest⟩
  · intro u v k l₁ l₂ hu hv
    rcases (hc u k l₁).mp hu with ⟨rfl, rfl, -⟩ | hu' <;>
      rcases (hc v k l₂).mp hv with ⟨rfl, hk, -⟩ | hv'
    · rfl
    · exact absurd (h.todo v _ _ hv').1 hie
    · exact absurd (hk ▸ (h.todo u _ _ hu').1) hie
    · exact h.once u v k l₁ l₂ hu' hv'
  · rw [hcounted, hended]
    intro k j hk he hno
    rcases List.mem_append.mp hk with hold | hlast
    · obtain ⟨u, l', hu, hj⟩ := h.uncounted k j hold he hno
      exact ⟨u, l', (hc u k l').mpr (Or.inr hu), hj⟩
    · obtain rfl := List.mem_singleton.mp hlast
      exact ⟨t, l, (hc t _ l).mpr (Or.inl ⟨rfl, rfl, rfl⟩), (hl j).mpr he⟩

/-- A successor is counted off, or a call with none left ends: `l` becomes `a.counting`. -/
theorem Calls.counts (h : Calls D tr s) {i j : Fin n} {l own own' : List (Fin n)}
    (ht : s.pc t = .count i l own) (hj : j ∈ l)
    (hpc : s'.pc = Function.update s.pc t (.count i (l.erase j) own'))
    (hbegun : begun tr' = begun tr) (hended : ended tr' = ended tr)
    (hcounted : countedOff tr' = countedOff tr ++ [(i, j)]) : Calls D tr' s' := by
  have htc : (s.pc t).counting = some (i, l) := by rw [ht]; rfl
  obtain ⟨hie, hnodup, hl⟩ := h.todo t i l htc
  -- no thread enters or leaves a body
  have hb : ∀ u k, s'.pc u = .body k ↔ s.pc u = .body k := by
    intro u k
    rw [hpc]
    rcases eq_or_ne u t with rfl | hu
    · rw [Function.update_self, ht]
      exact ⟨fun heq => (nomatch heq), fun heq => (nomatch heq)⟩
    · rw [Function.update_of_ne hu]
  -- only `t` changes what it has left to count
  have hc : ∀ u k l', (s'.pc u).counting = some (k, l') ↔
      (u = t ∧ k = i ∧ l' = l.erase j) ∨ (u ≠ t ∧ (s.pc u).counting = some (k, l')) := by
    intro u k l'
    rw [hpc]
    rcases eq_or_ne u t with rfl | hu
    · rw [Function.update_self]
      change some (i, l.erase j) = some (k, l') ↔ _
      simp only [Option.some.injEq, Prod.mk.injEq, true_and, ne_eq, not_true_eq_false, false_and,
        or_false]
      exact ⟨fun hc => ⟨hc.1.symm, hc.2.symm⟩, fun hc => ⟨hc.1.symm, hc.2.symm⟩⟩
    · rw [Function.update_of_ne hu]
      exact ⟨fun heq => Or.inr ⟨hu, heq⟩, fun ho => (ho.resolve_left fun hc => hu hc.1).2⟩
  refine ⟨?_, ?_, ?_, ?_, ?_, ?_, ?_, ?_, ?_⟩
  · rw [hended]
    exact h.ended_nodup
  · rw [hbegun, hended]
    exact h.ended_begun
  · rw [hbegun, hended]
    intro k hk
    simp only [hb]
    exact h.begun_or k hk
  · rw [hbegun, hended]
    exact fun u k hu => h.body u k ((hb u k).mp hu)
  · exact fun u v k hu hv => h.body_once u v k ((hb u k).mp hu) ((hb v k).mp hv)
  · rw [hcounted, hended]
    intro k k' hk
    rcases List.mem_append.mp hk with hold | hlast
    · exact h.counted k k' hold
    · cases List.mem_singleton.mp hlast
      exact ⟨(hl j hj).1, hie⟩
  -- a successor left in a list is not counted off: of `t`'s, `j` has just gone
  · rw [hcounted, hended]
    intro u k l' hu
    rcases (hc u k l').mp hu with ⟨-, rfl, rfl⟩ | ⟨hut, hold⟩
    · refine ⟨hie, hnodup.erase j, fun j' hj' => ?_⟩
      obtain ⟨hne, hmem⟩ := hnodup.mem_erase_iff.mp hj'
      refine ⟨(hl j' hmem).1, fun hin => ?_⟩
      rcases List.mem_append.mp hin with hin | hin
      · exact (hl j' hmem).2 hin
      · exact hne (Prod.mk.inj (List.mem_singleton.mp hin)).2
    · obtain ⟨he, hnd, hrest⟩ := h.todo u k l' hold
      refine ⟨he, hnd, fun j' hj' => ⟨(hrest j' hj').1, fun hin => ?_⟩⟩
      rcases List.mem_append.mp hin with hin | hin
      · exact (hrest j' hj').2 hin
      · obtain rfl := (Prod.mk.inj (List.mem_singleton.mp hin)).1
        exact hut (h.once u t _ _ _ hold htc)
  · intro u v k l₁ l₂ hu hv
    rcases (hc u k l₁).mp hu with ⟨rfl, rfl, -⟩ | ⟨hut, hu'⟩ <;>
      rcases (hc v k l₂).mp hv with ⟨rfl, hk, -⟩ | ⟨hvt, hv'⟩
    · rfl
    · exact absurd (h.once v u _ _ _ hv' htc) hvt
    · exact absurd (h.once u v _ _ _ (hk ▸ hu') htc) hut
    · exact h.once u v k l₁ l₂ hu' hv'
  -- what is not counted off is still in the list of the thread that ended the call
  · rw [hcounted, hended]
    intro k j' hk he hno
    rw [List.mem_append, not_or, List.mem_singleton] at hno
    obtain ⟨u, l', hu, hmem⟩ := h.uncounted k j' hk he hno.1
    rcases eq_or_ne u t with rfl | hut
    · rw [htc] at hu
      cases hu
      have hne : j' ≠ j := fun heq => hno.2 (by rw [heq])
      exact ⟨u, l.erase j, (hc u _ _).mpr (Or.inl ⟨rfl, rfl, rfl⟩),
        (List.mem_erase_of_ne hne).mpr hmem⟩
    · exact ⟨u, l', (hc u k l').mpr (Or.inr ⟨hut, hu⟩), hmem⟩

/-- `process` returns. -/
theorem Calls.ret (h : Calls D tr s) {i : Fin n} {own : List (Fin n)} {next : Option (Fin n)}
    (ht : s.pc t = .count i [] own) (hpc : s'.pc = Function.update s.pc t (.ret next))
    (hbegun : begun tr' = begun tr) (hended : ended tr' = ended tr)
    (hcounted : countedOff tr' = countedOff tr) : Calls D tr' s' := by
  have htc : (s.pc t).counting = some (i, []) := by rw [ht]; rfl
  have hb : ∀ u k, s'.pc u = .body k ↔ s.pc u = .body k := by
    intro u k
    rw [hpc]
    rcases eq_or_ne u t with rfl | hu
    · rw [Function.update_self, ht]
      exact ⟨fun heq => (nomatch heq), fun heq => (nomatch heq)⟩
    · rw [Function.update_of_ne hu]
  -- only `t` stops counting, and it had nothing left to count
  have hc : ∀ u k l, (s'.pc u).counting = some (k, l) → (s.pc u).counting = some (k, l) := by
    intro u k l
    rw [hpc]
    rcases eq_or_ne u t with rfl | hu
    · rw [Function.update_self]
      exact fun heq => (nomatch heq)
    · rw [Function.update_of_ne hu]
      exact id
  refine ⟨?_, ?_, ?_, ?_, ?_, ?_, ?_, ?_, ?_⟩
  · rw [hended]
    exact h.ended_nodup
  · rw [hbegun, hended]
    exact h.ended_begun
  · rw [hbegun, hended]
    intro k hk
    simp only [hb]
    exact h.begun_or k hk
  · rw [hbegun, hended]
    exact fun u k hu => h.body u k ((hb u k).mp hu)
  · exact fun u v k hu hv => h.body_once u v k ((hb u k).mp hu) ((hb v k).mp hv)
  · rw [hcounted, hended]
    exact h.counted
  · rw [hcounted, hended]
    exact fun u k l hu => h.todo u k l (hc u k l hu)
  · exact fun u v k l l' hu hv => h.once u v k l l' (hc u k l hu) (hc v k l' hv)
  · rw [hcounted, hended]
    intro k j hk he hno
    obtain ⟨u, l, hu, hmem⟩ := h.uncounted k j hk he hno
    rcases eq_or_ne u t with rfl | hut
    · rw [htc] at hu
      cases hu
      exact absurd hmem List.not_mem_nil
    · refine ⟨u, l, ?_, hmem⟩
      rw [hpc, Function.update_of_ne hut]
      exact hu

/-! ## The counters -/

theorem Counters.step (h : Counters tr s) (hpc : s'.pc = Function.update s.pc t a)
    (hremaining : s'.remaining + (begun tr').length + (s.pc t).busy =
      s.remaining + (begun tr).length + a.busy)
    (hnready : s'.nready + s.ready.length + (s.pc t).ahead =
      s.nready + s'.ready.length + a.ahead)
    (hzero : s.remaining = 0 → s'.remaining = 0) (hexit : a = .exited → s'.remaining = 0)
    (hlock : ∀ u, s'.lock = some u →
      (s.lock = some u ∧ ((s.pc t).Locked → a.Locked)) ∨ (u = t ∧ a.Locked)) :
    Counters tr' s' where
  remaining := by
    -- the sum over the threads changes by the summand of `t`
    have hsum := sum_update Pc.busy s.pc t a
    have := h.remaining
    rw [hpc]
    omega
  nready := by
    have hsum := sum_update Pc.ahead s.pc t a
    have := h.nready
    rw [hpc]
    omega
  exited u hu := by
    rw [hpc] at hu
    rcases eq_or_ne u t with rfl | hne
    · rw [Function.update_self] at hu
      exact hexit hu
    · rw [Function.update_of_ne hne] at hu
      exact hzero (h.exited u hu)
  lock u hu := by
    rw [hpc]
    rcases hlock u hu with ⟨hold, ht⟩ | ⟨rfl, ha⟩
    · rcases eq_or_ne u t with rfl | hne
      · rw [Function.update_self]
        exact ht (h.lock u hold)
      · rw [Function.update_of_ne hne]
        exact h.lock u hold
    · rw [Function.update_self]
      exact ha

/-- Nobody is in a call of `process` once `remaining` is zero, and every node has begun. -/
theorem Counters.all_begun (h : Counters tr s) (hnodup : (begun tr).Nodup)
    (h0 : s.remaining = 0) : (∀ u, (s.pc u).busy = 0) ∧ ∀ i, i ∈ begun tr := by
  have hbusy : ∀ u ∈ univ, 0 ≤ (s.pc u).busy := fun u _ => by
    cases s.pc u <;> simp [Pc.busy]
  have hlen : (begun tr).length ≤ n := by
    have := hnodup.length_le_card
    rwa [Fintype.card_fin] at this
  have hcount := h.remaining
  have hsum := sum_nonneg hbusy
  have hzero : ∑ u, (s.pc u).busy = 0 := by omega
  refine ⟨fun u => (sum_eq_zero_iff_of_nonneg hbusy).mp hzero u (mem_univ u), fun i => ?_⟩
  have hfull : (begun tr).toFinset = univ := by
    refine eq_univ_of_card _ ?_
    rw [List.toFinset_card_of_nodup hnodup, Fintype.card_fin]
    omega
  exact List.mem_toFinset.mp (hfull ▸ mem_univ i)

/-! ## Every run -/

structure RunInv (D : Dag n) (tr : List (DagEvent n T)) (s : DagState n T) : Prop where
  accounts : Accounts D tr s
  calls : Calls D tr s
  counters : Counters tr s

/-- Before the first step. -/
theorem runInv_init {ready : List (Fin n)} (hnodup : ready.Nodup)
    (hsources : ∀ i, i ∈ ready ↔ ∀ j, ¬ D.edge j i) :
    RunInv D ([] : List (DagEvent n T)) (DagState.init D ready) := by
  have htokens : tokens ([] : List (DagEvent n T)) (DagState.init D ready) = ready := by
    simp [tokens, begun, DagState.init, Pc.held]
  refine ⟨⟨?_, fun j => ?_, fun j => ?_⟩, ⟨?_, ?_, ?_, ?_, ?_, ?_, ?_, ?_, ?_⟩, ?_, ?_, ?_, ?_⟩
  · rw [htokens]
    exact Multiset.coe_nodup.mpr hnodup
  · rw [htokens, Multiset.mem_coe, hsources, DagState.init, card_eq_zero, filter_eq_empty_iff]
    exact ⟨fun h i _ => h i, fun h i => h (mem_univ i)⟩
  · simp [DagState.init, countedOff]
  · exact List.nodup_nil
  all_goals simp [DagState.init, ended, begun, countedOff, Pc.counting, Pc.busy, Pc.ahead]

/-- A step that begins and ends no node's work and counts none off: a thread moves nodes
    between the list and itself. -/
theorem RunInv.move (h : RunInv D tr s) {e : DagEvent n T} (hb : e.begins = none)
    (he : e.ends = none) (hc : e.counts = none) (hpc : s'.pc = Function.update s.pc t a)
    (hpending : s'.pending = s.pending)
    (hheld : (s'.ready : Multiset (Fin n)) + a.held = s.ready + (s.pc t).held)
    (hcalls : begun (tr ++ [e]) = begun tr → ended (tr ++ [e]) = ended tr →
      countedOff (tr ++ [e]) = countedOff tr → Calls D (tr ++ [e]) s')
    (hremaining : s'.remaining + (s.pc t).busy = s.remaining + a.busy)
    (hnready : s'.nready + s.ready.length + (s.pc t).ahead =
      s.nready + s'.ready.length + a.ahead)
    (hzero : s.remaining = 0 → s'.remaining = 0) (hexit : a = .exited → s'.remaining = 0)
    (hlock : ∀ u, s'.lock = some u →
      (s.lock = some u ∧ ((s.pc t).Locked → a.Locked)) ∨ (u = t ∧ a.Locked)) :
    RunInv D (tr ++ [e]) s' := by
  have hbegun : begun (tr ++ [e]) = begun tr := by rw [begun_snoc, hb]; exact List.append_nil _
  have hended : ended (tr ++ [e]) = ended tr := by rw [ended_snoc, he]; exact List.append_nil _
  have hcounted : countedOff (tr ++ [e]) = countedOff tr := by
    rw [countedOff_snoc, hc]
    exact List.append_nil _
  refine ⟨h.accounts.congr (tokens_eq hpc ?_) hpending hcounted, hcalls hbegun hended hcounted,
    h.counters.step hpc ?_ hnready hzero hexit hlock⟩
  · rw [hbegun, hheld]
  · rw [hbegun]
    omega

/-- One step keeps the three invariants. -/
theorem RunInv.step (h : RunInv D tr s) {e : DagEvent n T} (hstep : DagState.Step D s e s') :
    RunInv D (tr ++ [e]) s' := by
  have hnil : ∀ {α : Type} (l : List α), l ++ (none : Option α).toList = l :=
    fun l => List.append_nil l
  cases hstep with
  | @pollNone t hpc h0 =>
    refine h.move rfl rfl rfl rfl rfl ?_ (h.calls.outside rfl ?_ ?_ ?_) ?_ ?_ ?_ ?_ ?_ <;>
      simp [DagState.goto, hpc, Pc.held, Pc.counting, Pc.busy, Pc.ahead, Pc.Locked]
  | @pollSome t hpc h0 =>
    refine h.move rfl rfl rfl rfl rfl ?_ (h.calls.outside rfl ?_ ?_ ?_) ?_ ?_ ?_ ?_ ?_ <;>
      simp [DagState.goto, hpc, Pc.held, Pc.counting, Pc.busy, Pc.ahead, Pc.Locked]
  | @exit t hpc h0 =>
    refine h.move rfl rfl rfl rfl rfl ?_ (h.calls.outside rfl ?_ ?_ ?_) ?_ ?_ ?_ ?_ ?_ <;>
      simp [DagState.goto, hpc, Pc.held, Pc.counting, Pc.busy, Pc.ahead, Pc.Locked, h0]
  | @relax t hpc h0 =>
    refine h.move rfl rfl rfl rfl rfl ?_ (h.calls.outside rfl ?_ ?_ ?_) ?_ ?_ ?_ ?_ ?_ <;>
      simp [DagState.goto, hpc, Pc.held, Pc.counting, Pc.busy, Pc.ahead, Pc.Locked]
  | @pop t l i hpc hlock hready =>
    have hheld : (l : Multiset (Fin n)) + {i} = s.ready + (s.pc t).held := by
      rw [hready, hpc]
      exact (add_zero _).symm
    refine h.move rfl rfl rfl rfl rfl hheld (h.calls.outside rfl ?_ ?_ ?_) ?_ ?_ ?_ ?_ ?_ <;>
      simp [DagState.goto, hpc, Pc.counting, Pc.busy, Pc.ahead, Pc.Locked, hready]
    omega
  | @empty t hpc hlock hready =>
    refine h.move rfl rfl rfl rfl rfl ?_ (h.calls.outside rfl ?_ ?_ ?_) ?_ ?_ ?_ ?_ ?_ <;>
      simp [DagState.goto, hpc, Pc.held, Pc.counting, Pc.busy, Pc.ahead, Pc.Locked]
  | @countDown t i hpc =>
    refine h.move rfl rfl rfl rfl rfl ?_ (h.calls.outside rfl ?_ ?_ ?_) ?_ ?_ ?_ ?_
      (fun _ hu => Or.inl ⟨hu, fun _ => trivial⟩) <;>
      simp [DagState.goto, hpc, Pc.held, Pc.counting, Pc.busy, Pc.ahead]
    omega
  | @leave t o hpc =>
    cases o
    all_goals
      refine h.move rfl rfl rfl rfl rfl ?_ (h.calls.outside rfl ?_ ?_ ?_) ?_ ?_ ?_ ?_ ?_ <;>
        simp [DagState.onward, DagState.goto, hpc, Pc.held, Pc.counting, Pc.busy,
          Pc.ahead, Pc.Locked]
  -- the token of `i` goes from its holder to the tasks begun
  | @begin t i hpc =>
    have hnew : i ∉ begun tr :=
      h.accounts.fresh (by rw [hpc]; exact Multiset.mem_singleton_self i)
    have hbegun := begun_snoc tr (DagEvent.began t i)
    have hended := (ended_snoc tr (DagEvent.began t i)).trans (hnil _)
    have hcounted := (countedOff_snoc tr (DagEvent.began t i)).trans (hnil _)
    refine ⟨h.accounts.congr (tokens_eq rfl ?_) rfl hcounted,
      h.calls.begin hnew hpc rfl hbegun hended hcounted, h.counters.step rfl ?_ ?_ id ?_ ?_⟩
    · rw [hbegun, hpc]
      change (s.ready : Multiset (Fin n)) + 0 + (begun tr + {i}) = s.ready + {i} + begun tr
      abel
    · rw [hbegun, hpc]
      simp [DagState.goto, DagEvent.begins, Pc.busy]
      omega
    · simp [DagState.goto, hpc, Pc.ahead]
    · simp
    · simp [DagState.goto, hpc, Pc.Locked]
  | @done t i todo hpc hnodup htodo =>
    have hbegun := (begun_snoc tr (DagEvent.ended t i)).trans (hnil _)
    have hended := ended_snoc tr (DagEvent.ended t i)
    have hcounted := (countedOff_snoc tr (DagEvent.ended t i)).trans (hnil _)
    refine ⟨h.accounts.congr (tokens_eq rfl ?_) rfl hcounted,
      h.calls.done hpc hnodup htodo rfl hbegun hended hcounted,
      h.counters.step rfl ?_ ?_ id ?_ ?_⟩
    · rw [hbegun, hpc]
      rfl
    · rw [hbegun, hpc]
      simp [DagState.goto, Pc.busy]
    · simp [DagState.goto, hpc, Pc.ahead]
    · simp
    · simp [DagState.goto, hpc, Pc.Locked]
  -- a successor is counted off; the last count brings its token into being
  | @count t i todo own j hpc hj =>
    have hbegun := (begun_snoc tr (DagEvent.counted t i j)).trans (hnil _)
    have hended := (ended_snoc tr (DagEvent.counted t i j)).trans (hnil _)
    have hcounted := countedOff_snoc tr (DagEvent.counted t i j)
    obtain ⟨-, -, hl⟩ := h.calls.todo t i todo (by rw [hpc]; rfl)
    refine ⟨h.accounts.countOff (hl j hj).1 (hl j hj).2 hcounted rfl ?_,
      h.calls.counts hpc hj rfl hbegun hended hcounted, h.counters.step rfl ?_ ?_ id ?_ ?_⟩
    · split_ifs
      · refine (tokens_add rfl (x := {j}) ?_).trans (add_comm _ _)
        rw [hbegun, hpc]
        change (s.ready : Multiset (Fin n)) + ({j} + own) + begun tr = s.ready + own +
          begun tr + {j}
        abel
      · refine tokens_eq rfl ?_
        rw [hbegun, hpc]
        rfl
    · rw [hbegun, hpc]
      simp [DagState.goto, Pc.busy]
    · simp [DagState.goto, hpc, Pc.ahead]
    · simp
    · simp [DagState.goto, hpc, Pc.Locked]
  | @release t i todo own j hpc hj =>
    have hheld : j ::ₘ ((own.erase j : List (Fin n)) : Multiset (Fin n)) = own := by
      rw [← Multiset.coe_erase]
      exact Multiset.cons_erase hj
    refine h.move rfl rfl rfl rfl rfl ?_ (h.calls.congr rfl · · · ?_ ?_) ?_ ?_ ?_ ?_ ?_ <;>
      simp [DagState.goto, hpc, Pc.held, Pc.counting, Pc.busy, Pc.ahead, Pc.Locked, hheld]
  | @push t i todo own j hpc hlock =>
    have hheld : ((s.ready ++ [j] : List (Fin n)) : Multiset (Fin n)) + own =
        s.ready + (s.pc t).held := by
      rw [hpc]
      change (s.ready : Multiset (Fin n)) + {j} + own = s.ready + ({j} + own)
      abel
    refine h.move rfl rfl rfl rfl rfl hheld (h.calls.congr rfl · · · ?_ ?_) ?_ ?_ ?_ ?_ ?_ <;>
      simp [DagState.goto, hpc, Pc.counting, Pc.busy, Pc.ahead, Pc.Locked]
    omega
  | @countUp t i todo own hpc =>
    refine h.move rfl rfl rfl rfl rfl ?_ (h.calls.congr rfl · · · ?_ ?_) ?_ ?_ ?_ ?_
        (fun _ hu => Or.inl ⟨hu, fun _ => trivial⟩) <;>
      simp [DagState.goto, hpc, Pc.held, Pc.counting, Pc.busy, Pc.ahead]
    omega
  | @unlock t i todo own hpc =>
    refine h.move rfl rfl rfl rfl rfl ?_ (h.calls.congr rfl · · · ?_ ?_) ?_ ?_ ?_ ?_ ?_ <;>
      simp [DagState.goto, hpc, Pc.held, Pc.counting, Pc.busy, Pc.ahead, Pc.Locked]
  | @retNone t i hpc =>
    refine h.move rfl rfl rfl rfl rfl ?_ (h.calls.ret hpc rfl) ?_ ?_ ?_ ?_ ?_ <;>
      simp [DagState.goto, hpc, Pc.held, Pc.busy, Pc.ahead, Pc.Locked]
  | @retSome t i j hpc =>
    refine h.move rfl rfl rfl rfl rfl ?_ (h.calls.ret hpc rfl) ?_ ?_ ?_ ?_ ?_ <;>
      simp [DagState.goto, hpc, Pc.held, Pc.busy, Pc.ahead, Pc.Locked]
  -- the thread that finishes is busy, so something remains
  | @finish t next hpc =>
    have hzero : s.remaining ≠ 0 := fun h0 => by
      have hidle := (h.counters.all_begun (Multiset.nodup_add.mp h.accounts.nodup).2.1 h0).1 t
      rw [hpc] at hidle
      exact one_ne_zero hidle
    cases next
    all_goals
      refine h.move rfl rfl rfl rfl rfl ?_ (h.calls.outside rfl ?_ ?_ ?_) ?_ ?_
          (fun h0 => absurd h0 hzero) ?_ ?_ <;>
        simp [DagState.onward, DagState.goto, hpc, Pc.held, Pc.counting, Pc.busy, Pc.ahead,
          Pc.Locked]

variable {ready : List (Fin n)}

theorem runInv_of_run (hnodup : ready.Nodup) (hsources : ∀ i, i ∈ ready ↔ ∀ j, ¬ D.edge j i)
    (h : (runDag D T ready).Run tr s) : RunInv D tr s :=
  h.invariant (P := RunInv D) (runInv_init hnodup hsources) fun _ hi hs => hi.step hs

/-! ## What the invariants say -/

/-- A node with a thread has predecessors that are all done. -/
theorem RunInv.ended_of_held (h : RunInv D tr s) {i j : Fin n} (hj : j ∈ tokens tr s)
    (hedge : D.edge i j) : i ∈ ended tr := by
  have h0 := (h.accounts.zero j).mp hj
  rw [h.accounts.waits j, card_eq_zero, filter_eq_empty_iff] at h0
  have hcounted : (i, j) ∈ countedOff tr :=
    by_contra fun hno => h0 (mem_univ i) ⟨hedge, hno⟩
  exact (h.calls.counted i j hcounted).2

/-- When the counter is down every node is done and no thread has anything to do. -/
theorem RunInv.all_done (h : RunInv D tr s) (h0 : s.remaining = 0) :
    (∀ i, i ∈ ended tr) ∧ ∀ u, (s.pc u).Idle := by
  obtain ⟨hbusy, hbegun⟩ := h.counters.all_begun (Multiset.nodup_add.mp h.accounts.nodup).2.1 h0
  have hheld : ∀ u i, i ∉ (s.pc u).held := fun u i hi => h.accounts.fresh hi (hbegun i)
  refine ⟨fun i => (h.calls.begun_or i (hbegun i)).resolve_right ?_, fun u => ?_⟩
  · rintro ⟨u, hu⟩
    have := hbusy u
    rw [hu] at this
    exact one_ne_zero this
  · have hb := hbusy u
    have hh := hheld u
    cases hu : s.pc u with
    | leave o | ret o => cases o <;> simp_all [Pc.Idle, Pc.busy, Pc.held]
    | _ => simp_all [Pc.Idle, Pc.busy, Pc.held]

/-- With every thread idle and a node not done, a node is in the list. -/
theorem RunInv.ready_of_idle (h : RunInv D tr s) (hidle : ∀ u, (s.pc u).Idle)
    (hleft : ∃ i, i ∉ ended tr) :
    s.ready ≠ [] ∧ s.nready = s.ready.length ∧ (∀ u, s.pc u ≠ .exited) ∧
      ∀ u, s.lock = some u → s.pc u = .leave none := by
  have hfree : ∀ u, (s.pc u).held = 0 ∧ (s.pc u).counting = none ∧ (s.pc u).ahead = 0 ∧
      (∀ i, s.pc u ≠ .body i) ∧ ((s.pc u).Locked → s.pc u = .leave none) := fun u => by
    have hu := hidle u
    cases hpc : s.pc u with
    | leave o => cases o <;> simp_all [Pc.Idle, Pc.held, Pc.counting, Pc.ahead]
    | _ => simp_all [Pc.Idle, Pc.held, Pc.counting, Pc.ahead, Pc.Locked]
  obtain ⟨j, hj, hmin⟩ := D.wf.has_min {i | i ∉ ended tr} hleft
  -- every predecessor of a first node that is not done has counted itself off
  have hpending : s.pending j = 0 := by
    rw [h.accounts.waits j, card_eq_zero, filter_eq_empty_iff]
    rintro i - ⟨hedge, hno⟩
    have hi : i ∈ ended tr := by_contra fun hi => hmin i hi hedge
    obtain ⟨u, l, hu, -⟩ := h.calls.uncounted i j hi hedge hno
    rw [(hfree u).2.1] at hu
    exact nomatch hu
  have hmem := (h.accounts.zero j).mpr hpending
  have hnot : j ∉ begun tr := fun hb =>
    (h.calls.begun_or j hb).elim hj fun ⟨u, hu⟩ => (hfree u).2.2.2.1 j hu
  have hready : j ∈ s.ready := by
    unfold tokens at hmem
    rw [sum_eq_zero fun u _ => (hfree u).1, add_zero] at hmem
    exact (Multiset.mem_add.mp hmem).resolve_right hnot
  refine ⟨List.ne_nil_of_mem hready, ?_, fun u hu => ?_, fun u hu => ?_⟩
  · rw [h.counters.nready, sum_eq_zero fun u _ => (hfree u).2.2.1, add_zero]
  · exact hj ((h.all_done (h.counters.exited u hu)).1 j)
  · exact (hfree u).2.2.2.2 (h.counters.lock u hu)

/-- `run_dag` on any finite DAG, from the list of its sources, on any number of threads: in
    every run no node is run twice, a node's work begins only after that of its
    predecessors has ended, while a node is not done some thread is at work or the list
    that the idle threads poll has a node, and once a thread has left every node has been
    run, exactly once, and no thread has one. -/
theorem runDag_correct (D : Dag n) (T : ℕ) (ready : List (Fin n)) (hnodup : ready.Nodup)
    (hsources : ∀ i, i ∈ ready ↔ ∀ j, ¬ D.edge j i) {tr : List (DagEvent n T)}
    {s : DagState n T} (h : (runDag D T ready).Run tr s) :
    (begun tr).Nodup ∧ (ended tr).Nodup ∧
      (∀ pre t j post, tr = pre ++ .began t j :: post → ∀ i, D.edge i j → i ∈ ended pre) ∧
      ((∃ i, i ∉ ended tr) → (∃ t, ¬ (s.pc t).Idle) ∨
        (s.ready ≠ [] ∧ s.nready = s.ready.length ∧ (∀ t, s.pc t ≠ .exited) ∧
          ∀ t, s.lock = some t → s.pc t = .leave none)) ∧
      ((∃ t, s.pc t = .exited) →
        (∀ i, (begun tr).count i = 1 ∧ (ended tr).count i = 1) ∧ ∀ t, (s.pc t).Idle) := by
  have hinv := runInv_of_run hnodup hsources h
  have hbegun : (begun tr).Nodup := (Multiset.nodup_add.mp hinv.accounts.nodup).2.1
  refine ⟨hbegun, hinv.calls.ended_nodup, ?_, fun hleft => ?_, ?_⟩
  · rintro pre t j post rfl i hedge
    -- the invariant at the state in which `j` begins
    obtain ⟨s₁, s₂, hpre, hstep, -⟩ := h.step_of_mem
    have hinv₁ := runInv_of_run hnodup hsources hpre
    cases hstep with
    | begin hpc =>
      refine hinv₁.ended_of_held ?_ hedge
      refine Multiset.mem_add.mpr (Or.inl (Multiset.mem_add.mpr (Or.inr ?_)))
      refine Multiset.mem_sum.mpr ⟨t, mem_univ t, ?_⟩
      rw [hpc]
      exact Multiset.mem_singleton_self j
  · rcases Classical.em (∃ t, ¬ (s.pc t).Idle) with hwork | hidle
    · exact Or.inl hwork
    · exact Or.inr (hinv.ready_of_idle (fun u => by_contra fun hu => hidle ⟨u, hu⟩) hleft)
  · rintro ⟨t, ht⟩
    obtain ⟨hended, hidle⟩ := hinv.all_done (hinv.counters.exited t ht)
    exact ⟨fun i => ⟨List.count_eq_one_of_mem hbegun (hinv.calls.ended_begun i (hended i)),
      List.count_eq_one_of_mem hinv.calls.ended_nodup (hended i)⟩, hidle⟩

/-- The DAG of two nodes with one edge. -/
def chain : Dag 2 where
  edge i j := i < j
  dec := inferInstance
  wf := wellFounded_lt

/-- Thread 0 runs node 0 and releases node 1; thread 1 finds the list empty first, then runs
    node 1 and leaves. -/
theorem runDag_correct_chain :
    ∃ (tr : List (DagEvent 2 2)) (s : DagState 2 2), (runDag chain 2 [0]).Run tr s ∧
      s.pc 1 = .exited ∧ (∀ i, (begun tr).count i = 1 ∧ (ended tr).count i = 1) ∧
      ∀ t, (s.pc t).Idle := by
  have h : (runDag chain 2 [0]).Run [] (DagState.init chain [0]) := .nil
  have h := h.snoc (.pollSome (t := 0) rfl (by decide))
  have h := h.snoc (.pollSome (t := 1) rfl (by decide))
  have h := h.snoc (.pop (t := 0) (l := []) (i := 0) rfl rfl rfl)
  have h := h.snoc (.countDown (t := 0) rfl)
  have h := h.snoc (.leave (t := 0) rfl)
  -- both have seen the same node, and thread 1 comes too late for it
  have h := h.snoc (.empty (t := 1) rfl rfl rfl)
  have h := h.snoc (.leave (t := 1) rfl)
  have h := h.snoc (.begin (t := 0) (i := 0) rfl)
  have h := h.snoc (.done (t := 0) (i := 0) rfl (show ([1] : List (Fin 2)).Nodup by decide)
    (by decide))
  have h := h.snoc (.count (t := 0) (j := 1) rfl (by decide))
  have h := h.snoc (.release (t := 0) (j := 1) rfl (by decide))
  have h := h.snoc (.push (t := 0) rfl rfl)
  have h := h.snoc (.countUp (t := 0) rfl)
  have h := h.snoc (.unlock (t := 0) rfl)
  have h := h.snoc (.retNone (t := 0) rfl)
  have h := h.snoc (.finish (t := 0) rfl)
  -- node 1 has been pushed, and thread 1 takes it
  have h := h.snoc (.pollSome (t := 1) rfl (by decide))
  have h := h.snoc (.pop (t := 1) (l := []) (i := 1) rfl rfl rfl)
  have h := h.snoc (.countDown (t := 1) rfl)
  have h := h.snoc (.leave (t := 1) rfl)
  have h := h.snoc (.begin (t := 1) (i := 1) rfl)
  have h := h.snoc (.done (t := 1) (i := 1) rfl (show ([] : List (Fin 2)).Nodup by decide)
    (by decide))
  have h := h.snoc (.retNone (t := 1) rfl)
  have h := h.snoc (.finish (t := 1) rfl)
  have h := h.snoc (.pollNone (t := 1) rfl (by decide))
  have h := h.snoc (.exit (t := 1) rfl (by decide))
  obtain ⟨hdone, hidle⟩ :=
    (runDag_correct chain 2 [0] (by decide) (by decide) h).2.2.2.2 ⟨1, rfl⟩
  exact ⟨_, _, h, rfl, hdone, hidle⟩

end Solve
end SmfSolver
