/-
  SmfSolver.Matching.CanonicalSpec

  The canonical duals.  The distances `canonRun` computes are the greatest solution of
  the difference constraints that the matched columns put on the row duals, under the
  duals at the switch (`canonRun_greatest`).  So the canonical duals are feasible and
  tight (`canonicalDuals_sound`), and no optimal dual below the duals at the switch is
  above them (`canonicalDuals_descends`).
-/
import SmfSolver.Matching.RepairSpec

namespace SmfSolver
namespace Matching

open Lib Lib.Assignment

variable {n : ℕ} {K : Type*} [Field K] [LinearOrder K] [IsStrictOrderedRing K]

/-! ## The distances -/

/-- `y` meets the constraints: at most the distance to the cap in every sparse row,
    and over a matched column no farther than its row and the entry. -/
structure Short (g : CostGraph n K) (dense : Fin n → Bool) (a : MatchArrays n K)
    (cap y : Fin n → K) :
    Prop where
  start : ∀ i, dense i = false → y i ≤ max 0 (cap i - a.u i)
  step : ∀ k j e, dense k = false → a.rowMatch k = some j → e ∈ g.col j → dense e.1 = false →
    y e.1 ≤ y k + max 0 (e.2 - a.u e.1 - a.v j)

/-- The loop's invariant.  `k₀` is the row popped last, `todo` the entries of its
    column that are left. -/
structure CanonInv (g : CostGraph n K) (dense : Fin n → Bool) (a : MatchArrays n K)
    (cap : Fin n → K)
    (k₀ : Fin n) (todo : List (Fin n × K)) (w : Canon n K) : Prop where
  heap_ok : w.heap.Ok
  mem_heap : ∀ d i, (d, i) ∈ w.heap.heap ↔ w.done i = false ∧ d = w.delta i
  dense_done : ∀ i, dense i = true → w.done i = true ∧ w.delta i = 0
  start : ∀ i, dense i = false → w.delta i ≤ max 0 (cap i - a.u i)
  order : ∀ k i, dense k = false → w.done k = true → w.done i = false → w.delta k ≤ w.delta i
  scanned : ∀ k j e, dense k = false → w.done k = true → a.rowMatch k = some j → e ∈ g.col j →
    dense e.1 = false → (k = k₀ → e ∉ todo) →
    w.delta e.1 ≤ w.delta k + max 0 (e.2 - a.u e.1 - a.v j)
  greatest : ∀ y, Short g dense a cap y → ∀ i, dense i = false → y i ≤ w.delta i

section Distances

variable {g : CostGraph n K} {dense : Fin n → Bool} {a : MatchArrays n K} {cap : Fin n → K}

/-- One entry of the popped row's column. -/
theorem canonEntry_inv {k₀ j : Fin n} {e : Fin n × K} {todo : List (Fin n × K)} {w : Canon n K}
    (h : CanonInv g dense a cap k₀ (e :: todo) w) (hd : dense k₀ = false) (hdone : w.done k₀ = true)
    (hlast : ∀ k, dense k = false → w.done k = true → w.delta k ≤ w.delta k₀)
    (hk : a.rowMatch k₀ = some j) (he : e ∈ g.col j) :
    CanonInv g dense a cap k₀ todo (canonEntry a j (w.delta k₀) w e) ∧
      (canonEntry a j (w.delta k₀) w e).done = w.done ∧
      ∀ k, w.done k = true → (canonEntry a j (w.delta k₀) w e).delta k = w.delta k := by
  have hnonneg : 0 ≤ max 0 (e.2 - a.u e.1 - a.v j) := le_max_left _ _
  unfold canonEntry
  dsimp only
  split_ifs with hlt
  · obtain ⟨hopen, hlt⟩ := hlt
    set nd := w.delta k₀ + max 0 (e.2 - a.u e.1 - a.v j) with hnd
    have hsparse : dense e.1 = false := by
      rw [← Bool.not_eq_true]
      intro hc
      rw [(h.dense_done e.1 hc).1] at hopen
      cases hopen
    have hkeep : ∀ k, w.done k = true → Function.update w.delta e.1 nd k = w.delta k := by
      intro k hkd
      refine Function.update_of_ne ?_ ..
      rintro rfl
      rw [hopen] at hkd
      cases hkd
    -- the row comes nearer, and no other moves
    have hle : ∀ k, Function.update w.delta e.1 nd k ≤ w.delta k := by
      intro k
      by_cases hke : k = e.1
      · rw [hke, Function.update_self]
        exact hlt.le
      · rw [Function.update_of_ne hke]
    obtain ⟨hok, hheap⟩ := IndexedMinHeap.pushOrDecrease_ok h.heap_ok e.1 nd
      fun k' hk' => (((h.mem_heap k' e.1).mp hk').2 ▸ hlt).le
    refine ⟨⟨hok, fun d i => ?_, fun i hi => ?_, fun i hi => (hle i).trans (h.start i hi),
      fun k i hkd hkdone hi => ?_, fun k j' e' hkd hkdone hkj he' hed hskip => ?_,
      fun y hy i hi => ?_⟩, rfl, hkeep⟩
    · rw [hheap (d, i)]
      show _ ↔ w.done i = false ∧ d = Function.update w.delta e.1 nd i
      by_cases hie : i = e.1
      · subst hie
        rw [Function.update_self]
        constructor
        · rintro (heq | ⟨-, hne⟩)
          · exact ⟨hopen, congrArg Prod.fst heq⟩
          · exact absurd rfl hne
        · exact fun hdi => .inl (by rw [hdi.2])
      · rw [Function.update_of_ne hie, ← h.mem_heap d i]
        constructor
        · rintro (heq | ⟨hmem, -⟩)
          · exact absurd (congrArg Prod.snd heq) hie
          · exact hmem
        · exact fun hmem => .inr ⟨hmem, hie⟩
    · obtain ⟨hdn, hz⟩ := h.dense_done i hi
      exact ⟨hdn, (hkeep i hdn).trans hz⟩
    · show Function.update w.delta e.1 nd k ≤ Function.update w.delta e.1 nd i
      rw [hkeep k hkdone]
      by_cases hie : i = e.1
      · rw [hie, Function.update_self]
        exact (hlast k hkd hkdone).trans (le_add_of_nonneg_right hnonneg)
      · rw [Function.update_of_ne hie]
        exact h.order k i hkd hkdone hi
    · show Function.update w.delta e.1 nd e'.1 ≤ Function.update w.delta e.1 nd k + _
      rw [hkeep k hkdone]
      by_cases hkk : k = k₀ ∧ e' = e
      · obtain ⟨rfl, rfl⟩ := hkk
        obtain rfl := Option.some.inj (hk.symm.trans hkj)
        rw [Function.update_self]
      · refine (hle e'.1).trans (h.scanned k j' e' hkd hkdone hkj he' hed fun hkk₀ hc => ?_)
        exact hskip hkk₀ ((List.mem_cons.mp hc).resolve_left fun hee => hkk ⟨hkk₀, hee⟩)
    · show y i ≤ Function.update w.delta e.1 nd i
      by_cases hie : i = e.1
      · rw [hie, Function.update_self]
        have hstep := hy.step k₀ j e hd hk he hsparse
        have hk₀ := h.greatest y hy k₀ hd
        linarith
      · rw [Function.update_of_ne hie]
        exact h.greatest y hy i hi
  -- the entry changes nothing: its row is done, or was as near already
  · refine ⟨{ h with scanned := fun k j' e' hkd hkdone hkj he' hed hskip => ?_ }, rfl,
      fun _ _ => rfl⟩
    by_cases hkk : k = k₀ ∧ e' = e
    · obtain ⟨rfl, rfl⟩ := hkk
      obtain rfl := Option.some.inj (hk.symm.trans hkj)
      by_cases hedone : w.done e'.1 = true
      · exact (hlast e'.1 hed hedone).trans (le_add_of_nonneg_right hnonneg)
      · rw [not_and, not_lt] at hlt
        exact hlt (Bool.not_eq_true _ ▸ hedone)
    · refine h.scanned k j' e' hkd hkdone hkj he' hed fun hkk₀ hc => ?_
      exact hskip hkk₀ ((List.mem_cons.mp hc).resolve_left fun hee => hkk ⟨hkk₀, hee⟩)

theorem foldl_canonEntry_inv {k₀ j : Fin n} (l : List (Fin n × K)) {w : Canon n K} {dk : K}
    (h : CanonInv g dense a cap k₀ l w) (hd : dense k₀ = false) (hdone : w.done k₀ = true)
    (hdk : w.delta k₀ = dk) (hlast : ∀ k, dense k = false → w.done k = true → w.delta k ≤ dk)
    (hk : a.rowMatch k₀ = some j) (hl : ∀ e ∈ l, e ∈ g.col j) :
    CanonInv g dense a cap k₀ [] (l.foldl (canonEntry a j dk) w) := by
  induction l generalizing w with
  | nil => exact h
  | cons e l ih =>
    subst hdk
    obtain ⟨hinv, hdone', hdelta⟩ := canonEntry_inv h hd hdone hlast hk (hl e List.mem_cons_self)
    refine ih hinv (hdone' ▸ hdone) (hdelta k₀ hdone) (fun k hkd hkdone => ?_)
      fun e' he' => hl e' (List.mem_cons_of_mem e he')
    rw [hdone'] at hkdone
    rw [hdelta k hkdone]
    exact hlast k hkd hkdone

/-- One pass: the row on top of the heap is done. -/
theorem canonStep_inv {w w' : Canon n K} (h : ∃ k₀, CanonInv g dense a cap k₀ [] w)
    (hs : canonStep g a w = .inl w') : ∃ k₀, CanonInv g dense a cap k₀ [] w' := by
  obtain ⟨k₀, h⟩ := h
  unfold canonStep at hs
  split at hs
  · cases hs
  · rename_i dk k htop
    obtain ⟨hmem, hleast⟩ := IndexedMinHeap.top_least h.heap_ok htop
    obtain ⟨hok, hpop⟩ := IndexedMinHeap.pop_ok h.heap_ok htop
    obtain ⟨hopen, hdk⟩ := (h.mem_heap dk k).mp hmem
    have hsparse : dense k = false := by
      rw [← Bool.not_eq_true]
      intro hc
      rw [(h.dense_done k hc).1] at hopen
      cases hopen
    -- an open row is no closer than the one popped
    have hfar : ∀ i, w.done i = false → w.delta k ≤ w.delta i := by
      intro i hi
      rw [← hdk]
      exact Prod.Lex.monotone_fst _ _ (hleast _ ((h.mem_heap _ i).mpr ⟨hi, rfl⟩))
    have hmarked : ∀ i, Function.update w.done k true i = true ↔ w.done i = true ∨ i = k := by
      intro i
      by_cases hik : i = k
      · rw [hik, Function.update_self]
        exact ⟨fun _ => .inr rfl, fun _ => rfl⟩
      · rw [Function.update_of_ne hik]
        exact ⟨.inl, fun hc => hc.resolve_right hik⟩
    have hunmarked : ∀ i, Function.update w.done k true i = false ↔ w.done i = false ∧ i ≠ k := by
      intro i
      rw [← Bool.not_eq_true, hmarked i, not_or, Bool.not_eq_true]
    have hpopped : ∀ work, CanonInv g dense a cap k
        ((a.rowMatch k).elim [] g.col)
        { w with heap := w.heap.pop, done := Function.update w.done k true, work := work } := by
      intro work
      refine ⟨hok, fun d i => ?_, fun i hi => ?_, h.start, fun k' i hkd hkdone hi => ?_,
        fun k' j e hkd hkdone hkj he hed hskip => ?_, h.greatest⟩
      · rw [hpop (d, i), h.mem_heap d i]
        show _ ↔ Function.update w.done k true i = false ∧ _
        rw [hunmarked i, and_right_comm]
      · obtain ⟨hdn, hz⟩ := h.dense_done i hi
        exact ⟨(hmarked i).mpr (.inl hdn), hz⟩
      · have hi' := (hunmarked i).mp hi
        rcases (hmarked k').mp hkdone with hkdone | rfl
        · exact h.order k' i hkd hkdone hi'.1
        · exact hfar i hi'.1
      · rcases (hmarked k').mp hkdone with hkdone | rfl
        · exact h.scanned k' j e hkd hkdone hkj he hed fun _ => List.not_mem_nil
        · rw [hkj] at hskip
          exact absurd he (hskip rfl)
    dsimp only at hs
    split at hs
    · rename_i hfree
      obtain rfl := Sum.inl.inj hs
      have := hpopped w.work
      rw [hfree] at this
      exact ⟨k, this⟩
    · rename_i j hkj
      obtain rfl := Sum.inl.inj hs
      have := hpopped (w.work + (g.col j).length)
      rw [hkj] at this
      refine ⟨k, foldl_canonEntry_inv _ this hsparse ((hmarked k).mpr (.inr rfl)) hdk.symm ?_ hkj
        fun _ he => he⟩
      intro k' hkd hkdone
      rw [hdk]
      rcases (hmarked k').mp hkdone with hkdone | rfl
      · exact h.order k' k hkd hkdone hopen
      · exact le_rfl

end Distances

/-! ## The start -/

section Start

variable {cost : Fin n → Fin n → WithTop K} {s : State n K}

/-- The rows of `l` are queued or, if dense, done. -/
structure CanonStarted (s : State n K) (l : List (Fin n)) (w : Canon n K) : Prop where
  heap_ok : w.heap.Ok
  mem_heap : ∀ d i, (d, i) ∈ w.heap.heap ↔ i ∈ l ∧ s.rowDense i = false ∧ d = w.delta i
  done : ∀ i, w.done i = true ↔ i ∈ l ∧ s.rowDense i = true
  dense : ∀ i, s.rowDense i = true → w.delta i = 0
  delta : ∀ i ∈ l, s.rowDense i = false → w.delta i = max 0 (s.hybridResetU i - s.u i)

omit [IsStrictOrderedRing K] in
theorem canonStart_spec (s : State n K) : CanonStarted s (List.finRange n) s.canonStart := by
  unfold State.canonStart
  set f := fun (w : Canon n K) i =>
    if s.rowDense i then { w with done := Function.update w.done i true }
    else
      let d := max 0 (s.hybridResetU i - s.u i)
      { w with delta := Function.update w.delta i d, heap := w.heap.pushOrDecrease i d } with hf
  -- the rows `pre` are entered; the induction is on the rows to come
  have hfold : ∀ (l pre : List (Fin n)) (w : Canon n K), (pre ++ l).Nodup → CanonStarted s pre w →
      CanonStarted s (pre ++ l) (l.foldl f w) := by
    intro l
    induction l with
    | nil =>
      intro pre w _ h
      rw [List.append_nil]
      exact h
    | cons i l ih =>
      intro pre w hnodup h
      have hi : i ∉ pre := by
        intro hc
        exact (List.nodup_append.mp hnodup).2.2 i hc i List.mem_cons_self rfl
      rw [List.append_cons] at hnodup ⊢
      refine ih (pre ++ [i]) _ hnodup ?_
      have hmem : ∀ i', i' ∈ pre ++ [i] ↔ i' ∈ pre ∨ i' = i := by
        intro i'
        rw [List.mem_append, List.mem_singleton]
      rw [hf]
      dsimp only
      split_ifs with hd
      -- a dense row is done at once and never enters the heap
      · refine ⟨h.heap_ok, fun d i' => ?_, fun i' => ?_, h.dense, fun i' hi' hd' => ?_⟩
        · rw [h.mem_heap d i', hmem]
          refine ⟨fun hc => ⟨.inl hc.1, hc.2⟩, fun hc => ⟨hc.1.resolve_right ?_, hc.2⟩⟩
          rintro rfl
          rw [hd] at hc
          cases hc.2.1
        · show Function.update w.done i true i' = true ↔ _
          rw [hmem]
          by_cases hii : i' = i
          · rw [hii, Function.update_self]
            exact ⟨fun _ => ⟨.inr rfl, hd⟩, fun _ => rfl⟩
          · rw [Function.update_of_ne hii, h.done i']
            exact ⟨fun hc => ⟨.inl hc.1, hc.2⟩, fun hc => ⟨hc.1.resolve_right hii, hc.2⟩⟩
        · refine h.delta i' (((hmem i').mp hi').resolve_right ?_) hd'
          rintro rfl
          rw [hd] at hd'
          cases hd'
      -- any other row enters with the rise its potential needs; its id is new to the heap
      · rw [Bool.not_eq_true] at hd
        obtain ⟨hok, hheap⟩ := IndexedMinHeap.pushOrDecrease_ok h.heap_ok i
          (max 0 (s.hybridResetU i - s.u i))
          fun k' hk' => absurd ((h.mem_heap k' i).mp hk').1 hi
        refine ⟨hok, fun d i' => ?_, fun i' => ?_, fun i' hd' => ?_, fun i' hi' hd' => ?_⟩
        · rw [hheap (d, i')]
          show _ ↔ _ ∧ _ ∧ d = Function.update w.delta i (max 0 (s.hybridResetU i - s.u i)) i'
          rw [hmem]
          by_cases hii : i' = i
          · subst hii
            rw [Function.update_self]
            constructor
            · rintro (heq | ⟨-, hne⟩)
              · exact ⟨.inr rfl, hd, congrArg Prod.fst heq⟩
              · exact absurd rfl hne
            · exact fun hc => .inl (by rw [hc.2.2])
          · rw [Function.update_of_ne hii, h.mem_heap d i']
            constructor
            · rintro (heq | ⟨hc, -⟩)
              · exact absurd (congrArg Prod.snd heq) hii
              · exact ⟨.inl hc.1, hc.2⟩
            · exact fun hc => .inr ⟨⟨hc.1.resolve_right hii, hc.2⟩, hii⟩
        · rw [hmem]
          refine (h.done i').trans ⟨fun hc => ⟨.inl hc.1, hc.2⟩,
            fun hc => ⟨hc.1.resolve_right ?_, hc.2⟩⟩
          rintro rfl
          rw [hd] at hc
          cases hc.2
        · refine (Function.update_of_ne ?_ ..).trans (h.dense i' hd')
          rintro rfl
          rw [hd] at hd'
          cases hd'
        · by_cases hii : i' = i
          · subst hii
            exact Function.update_self ..
          · exact (Function.update_of_ne hii ..).trans
              (h.delta i' (((hmem i').mp hi').resolve_right hii) hd')
  refine hfold (List.finRange n) [] _ (List.nodup_finRange n) ⟨IndexedMinHeap.reset_ok,
    fun d i => ?_, fun i => ?_, fun i _ => rfl, fun i hi => absurd hi List.not_mem_nil⟩
  · exact ⟨fun hc => absurd hc List.not_mem_nil, fun hc => absurd hc.1 List.not_mem_nil⟩
  · exact ⟨fun hc => absurd hc Bool.false_ne_true, fun hc => absurd hc.1 List.not_mem_nil⟩

/-- The distances meet the constraints, and nothing that does is above them. -/
structure Greatest (s : State n K) (delta : Fin n → K) : Prop where
  short : Short s.g s.rowDense s.toMatchArrays s.hybridResetU delta
  greatest : ∀ y, Short s.g s.rowDense s.toMatchArrays s.hybridResetU y →
    ∀ i, s.rowDense i = false → y i ≤ delta i
  dense : ∀ i, s.rowDense i = true → delta i = 0

theorem canonRun_greatest (s : State n K) : Greatest s s.canonRun.delta := by
  rcases isEmpty_or_nonempty (Fin n) with hn | ⟨⟨k₀⟩⟩
  · exact ⟨⟨fun i => isEmptyElim i, fun k => isEmptyElim k⟩, fun _ _ i => isEmptyElim i,
      fun i => isEmptyElim i⟩
  have hstart := canonStart_spec s
  -- at the start the sparse rows are open, and none has been scanned
  have hopen : ∀ i, s.canonStart.done i = false ↔ s.rowDense i = false := by
    intro i
    rw [← Bool.not_eq_true, hstart.done i, ← Bool.not_eq_true]
    exact not_congr ⟨fun hc => hc.2, fun hc => ⟨List.mem_finRange i, hc⟩⟩
  unfold State.canonRun
  refine Loop.run_induct
    (P := fun w => ∃ k₀, CanonInv s.g s.rowDense s.toMatchArrays s.hybridResetU k₀ [] w)
    (Q := fun w => Greatest s w.delta) (fun w w' h hs => canonStep_inv h hs) (fun w b h hs => ?_) ?_
  · obtain ⟨k₀, h⟩ := h
    unfold canonStep at hs
    split at hs
    · rename_i htop
      obtain rfl := Sum.inr.inj hs
      have hall : ∀ i, w.done i = true := by
        intro i
        rw [← Bool.not_eq_false]
        intro hi
        have hmem := (h.mem_heap _ i).mpr ⟨hi, rfl⟩
        rw [IndexedMinHeap.top_none.mp htop] at hmem
        exact absurd hmem List.not_mem_nil
      exact ⟨⟨h.start, fun k j e hkd hkj he hed =>
        h.scanned k j e hkd (hall k) hkj he hed fun _ => List.not_mem_nil⟩, h.greatest,
        fun i hi => (h.dense_done i hi).2⟩
    · dsimp only at hs
      split at hs
      · cases hs
      · cases hs
  · refine ⟨k₀, hstart.heap_ok, fun d i => ?_, fun i hi => ?_, fun i hi => ?_,
      fun k i hkd hkdone hi => ?_, fun k j e hkd hkdone => ?_, fun y hy i hi => ?_⟩
    · rw [hstart.mem_heap d i, hopen i]
      exact ⟨fun hc => hc.2, fun hc => ⟨List.mem_finRange i, hc⟩⟩
    · exact ⟨(hstart.done i).mpr ⟨List.mem_finRange i, hi⟩, hstart.dense i hi⟩
    · exact (hstart.delta i (List.mem_finRange i) hi).le
    · rw [((hstart.done k).mp hkdone).2] at hkd
      cases hkd
    · rw [((hstart.done k).mp hkdone).2] at hkd
      cases hkd
    · rw [hstart.delta i (List.mem_finRange i) hi]
      exact hy.start i hi

end Start

/-! ## The duals -/

section Duals

variable {cost : Fin n → Fin n → WithTop K} {s : State n K}

omit [LinearOrder K] [IsStrictOrderedRing K] in
/-- The fold over the rows lowers each matched column's dual by its row's distance. -/
theorem foldl_lower (rowMatch : Fin n → Option (Fin n)) (delta : Fin n → K) (l : List (Fin n))
    (hl : l.Nodup) (hinj : ∀ i i' j, rowMatch i = some j → rowMatch i' = some j → i = i')
    (v : Fin n → K) :
    (∀ i ∈ l, ∀ j, rowMatch i = some j →
        l.foldl (fun v i => match rowMatch i with
          | none => v
          | some j => Function.update v j (v j - delta i)) v j = v j - delta i) ∧
      ∀ j, (∀ i ∈ l, rowMatch i ≠ some j) →
        l.foldl (fun v i => match rowMatch i with
          | none => v
          | some j => Function.update v j (v j - delta i)) v j = v j := by
  -- on the rows: no two are matched to one column, so a lowered dual is lowered once
  induction l generalizing v with
  | nil => exact ⟨fun i hi => absurd hi List.not_mem_nil, fun _ _ => rfl⟩
  | cons i₀ l ih =>
    obtain ⟨hil, hl⟩ := List.nodup_cons.mp hl
    rw [List.foldl_cons]
    cases hi₀ : rowMatch i₀ with
    | none =>
      obtain ⟨hmem, hrest⟩ := ih hl v
      refine ⟨fun i hi j hij => ?_, fun j hj => hrest j fun i hi =>
        hj i (List.mem_cons_of_mem _ hi)⟩
      refine hmem i ((List.mem_cons.mp hi).resolve_left ?_) j hij
      rintro rfl
      rw [hi₀] at hij
      cases hij
    | some j₀ =>
      obtain ⟨hmem, hrest⟩ := ih hl (Function.update v j₀ (v j₀ - delta i₀))
      refine ⟨fun i hi j hij => ?_, fun j hj => ?_⟩
      · rcases List.mem_cons.mp hi with rfl | hi
        · obtain rfl := Option.some.inj (hi₀.symm.trans hij)
          refine (hrest j₀ fun i' hi' hij' => ?_).trans (Function.update_self ..)
          exact hil (hinj i i' j₀ hij hij' ▸ hi')
        · refine (hmem i hi j hij).trans ?_
          rw [Function.update_of_ne]
          rintro rfl
          exact hil (hinj i i₀ j hij hi₀ ▸ hi)
      · refine (hrest j fun i hi => hj i (List.mem_cons_of_mem _ hi)).trans ?_
        refine Function.update_of_ne ?_ ..
        rintro rfl
        exact hj i₀ List.mem_cons_self hi₀

/-- The canonical duals on the sparse part: row duals up by the distances, the matched
    columns' down, and the free columns' feasible. -/
structure Canonical (cost : Fin n → Fin n → WithTop K) (s : State n K) (delta u v : Fin n → K) :
    Prop where
  row : ∀ i, u i = s.u i + delta i
  matched : ∀ i j, s.rowMatch i = some j → v j = s.v j - delta i
  free : ∀ i j c, s.colToRow j = none → partCost (sparsePart s.rowDense) cost i j = (c : K) →
    v j ≤ c - u i

omit [IsStrictOrderedRing K] in
theorem canonicalDuals_canonical (h : Inv (sparsePart s.rowDense) cost s) :
    Canonical cost s s.canonRun.delta s.canonicalDuals.u s.canonicalDuals.v := by
  have hinj : ∀ i i' j, s.rowMatch i = some j → s.rowMatch i' = some j → i = i' :=
    fun i i' j => Paired.row_injective h.sound.inverse
  obtain ⟨hmem, -⟩ := foldl_lower s.rowMatch s.canonRun.delta (List.finRange n)
    (List.nodup_finRange n) hinj s.v
  refine ⟨fun i => rfl, fun i j hij => ?_, fun i j c hfree hc => ?_⟩
  · refine Eq.trans ?_ (hmem i (List.mem_finRange i) j hij)
    have hnot : ¬(s.rowDense j = false ∧ s.colToRow j = none) := by
      rintro ⟨-, hc⟩
      rw [(h.sound.inverse i j).mp hij] at hc
      cases hc
    unfold State.canonicalDuals
    dsimp only
    exact if_neg hnot
  · obtain ⟨hi, hj, hcost⟩ := partCost_eq.mp hc
    rw [sparsePart_iff] at hi hj
    have hentry : (i, c) ∈ sparseEntries s.g s.rowDense j :=
      (mem_sparseEntries h.lists).mpr ⟨hi, hcost⟩
    -- a minimum over the entries is below what each of them gives
    have hfold : ∀ (l : List (Fin n × K)) (m : K), (i, c) ∈ l →
        l.foldl (fun m e => min m (e.2 - s.canonicalDuals.u e.1)) m ≤ c - s.canonicalDuals.u i := by
      have hle : ∀ (l : List (Fin n × K)) (m : K),
          l.foldl (fun m e => min m (e.2 - s.canonicalDuals.u e.1)) m ≤ m := by
        intro l
        induction l with
        | nil => exact fun m => le_rfl
        | cons e l ih => exact fun m => (ih _).trans (min_le_left _ _)
      intro l
      induction l with
      | nil => exact fun m hm => absurd hm List.not_mem_nil
      | cons e l ih =>
        intro m hm
        rcases List.mem_cons.mp hm with rfl | hm
        · exact (hle l _).trans (min_le_right _ _)
        · exact ih _ hm
    refine le_trans (le_of_eq ?_) (hfold _ (s.initV j) hentry)
    unfold State.canonicalDuals
    dsimp only
    rw [if_pos ⟨hj, hfree⟩]

/-- The canonical duals keep the matching's invariant. -/
theorem canonicalDuals_inv (h : Inv (sparsePart s.rowDense) cost s) :
    Inv (sparsePart s.rowDense) cost s.canonicalDuals := by
  have hc := canonicalDuals_canonical h
  have hg := canonRun_greatest s
  have htight : ∀ i j, s.rowMatch i = some j →
      Tight (partCost (sparsePart s.rowDense) cost) s.canonicalDuals.u s.canonicalDuals.v i j := by
    intro i j hij
    have ht : partCost (sparsePart s.rowDense) cost i j = ((s.u i + s.v j : K) : WithTop K) :=
      h.sound.tight i j hij
    unfold Tight
    rw [ht, WithTop.coe_inj, hc.row i, hc.matched i j hij]
    ring
  refine ⟨h.lists, ⟨h.sound.inverse, fun i j c hij => ?_, htight⟩, h.dist, h.rowDone, h.matched⟩
  show s.canonicalDuals.u i + s.canonicalDuals.v j ≤ c
  cases hfree : s.colToRow j with
  | none =>
    have := hc.free i j c hfree hij
    linarith
  | some k =>
    -- over the column's row the constraint of entry (i, j) holds
    have hkj := (h.sound.inverse k j).mpr hfree
    have hrc := h.sound.feasible i j c hij
    obtain ⟨hi, hj, hcost⟩ := partCost_eq.mp hij
    have hstep := hg.short.step k j (i, c) (sparsePart_iff.mp (h.sound.edge hkj).1) hkj
      ((h.lists.mem_iff i j c).mpr hcost) (sparsePart_iff.mp hi)
    dsimp only at hstep
    rw [max_eq_right (by linarith)] at hstep
    rw [hc.row i, hc.matched k j hkj]
    linarith

/-- With the sparse part matched, the canonical duals are the greatest optimal ones
    below the duals at the switch. -/
theorem canonicalDuals_descends (h : Inv (sparsePart s.rowDense) cost s)
    (hu : ∀ i, s.rowDense i = false → s.u i ≤ s.hybridResetU i)
    (hfull : ∀ j, s.rowDense j = false → s.colToRow j ≠ none) :
    Descends (partCost (sparsePart s.rowDense) cost) {i | sparsePart s.rowDense i = true}
      {j | sparsePart s.rowDense j = true} s.hybridResetU s.canonicalDuals.u := by
  have hc := canonicalDuals_canonical h
  have hg := canonRun_greatest s
  refine ⟨fun i hi => ?_, fun x hx hle i hi => ?_⟩
  · have hi' := sparsePart_iff.mp hi
    have hstart := hg.short.start i hi'
    -- the start distance is the room up to the duals at the switch
    rw [max_eq_right (by linarith [hu i hi'])] at hstart
    have hui : s.u i + s.canonRun.delta i ≤ s.hybridResetU i := by
      have : s.canonRun.delta i ≤ s.hybridResetU i - s.u i := hstart
      linarith
    exact (hc.row i).trans_le hui
  · -- an optimal dual is tight on this matching as well, so it meets the constraints
    obtain ⟨m, hm, hrow⟩ := h.sound.bijOn fun j hj => hfull j (sparsePart_iff.mp hj)
    obtain ⟨z, hz, hzt⟩ :=
      hx.tight_on h.sound.feasible hm fun j hj => h.sound.tight _ _ (hrow j hj)
    have hshort : Short s.g s.rowDense s.toMatchArrays s.hybridResetU fun i => x i - s.u i := by
      refine ⟨fun i hi => ?_, fun k j e hk hkj he hed => ?_⟩
      · have := hle i (sparsePart_iff.mpr hi)
        exact (sub_le_sub_right this _).trans (le_max_right _ _)
      · obtain ⟨-, hj, hkc⟩ := h.sound.edge hkj
        have hmk : m j = k := Paired.row_injective h.sound.inverse (hrow j hj) hkj
        have hxk : partCost (sparsePart s.rowDense) cost k j = ((x k + z j : K) : WithTop K) :=
          hmk ▸ hzt j hj
        have huk : partCost (sparsePart s.rowDense) cost k j = ((s.u k + s.v j : K) : WithTop K) :=
          h.sound.tight k j hkj
        have hsum : x k + z j = s.u k + s.v j := WithTop.coe_inj.mp (hxk.symm.trans huk)
        have hxe := hz e.1 j e.2 (partCost_eq.mpr
          ⟨sparsePart_iff.mpr hed, hj, (h.lists.mem_iff e.1 j e.2).mp he⟩)
        have hmax := le_max_right 0 (e.2 - s.u e.1 - s.v j)
        linarith
    have hdelta := hg.greatest _ hshort i (sparsePart_iff.mp hi)
    rw [hc.row i]
    linarith

end Duals

end Matching
end SmfSolver
