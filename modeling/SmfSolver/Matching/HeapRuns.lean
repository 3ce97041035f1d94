/-
  SmfSolver.Matching.HeapRuns

  Whole runs of `IndexedMinHeap`.  What the heap is for is a map from the present
  ids to their last keys; a run of pushes, pops and clears moves that map, and the
  heap the operations build from the empty one holds it all along.

  * `Holds`: the entries are those of the map, in a well-formed heap.
  * `Run`: the operation sequences the header allows, with their maps.
  * `pops_sorted`: consecutive pops come out in ascending order.
-/
import SmfSolver.Matching.MinHeapSpec

namespace SmfSolver
namespace Matching
namespace IndexedMinHeap

variable {n : ℕ} {K : Type*} [LinearOrder K]

/-! ## Clearing -/

omit [LinearOrder K] in
/-- Clearing forgets the positions of the entries, which are all the positions there are. -/
theorem clear_eq_reset {h : IndexedMinHeap n K} (hi : h.Indexed) : h.clear = reset := by
  have hfold : ∀ (l : List (K × Fin n)) (pos : Fin n → Option ℕ) (id : Fin n),
      l.foldl (fun (pos : Fin n → Option ℕ) e => Function.update pos e.2 none) pos id =
        if ∃ e ∈ l, e.2 = id then none else pos id := by
    intro l
    induction l with
    | nil => intro pos id; simp
    | cons e l ih =>
      intro pos id
      rw [List.foldl_cons, ih]
      by_cases hid : id = e.2
      · rw [hid, Function.update_self, ite_self, if_pos ⟨e, List.mem_cons_self, rfl⟩]
      · rw [Function.update_of_ne hid]
        refine if_congr ?_ rfl rfl
        simp only [List.mem_cons, exists_eq_or_imp]
        exact ⟨.inr, fun h => h.resolve_left (Ne.symm hid)⟩
  unfold clear reset
  congr 1
  funext id
  rw [hfold]
  by_cases hmem : ∃ e ∈ h.heap, e.2 = id
  · rw [if_pos hmem]
  · rw [if_neg hmem]
    refine Option.eq_none_iff_forall_ne_some.mpr fun p hp => hmem ?_
    obtain ⟨e, he, hid⟩ := (hi id p).mp hp
    exact ⟨e, List.mem_of_getElem? he, hid⟩

/-! ## The map of last keys -/

/-- The heap holds the ids of `m` with their last keys. -/
structure Holds (h : IndexedMinHeap n K) (m : Fin n → Option K) : Prop where
  ok : h.Ok
  mem_iff : ∀ e : K × Fin n, e ∈ h.heap ↔ m e.2 = some e.1

variable {h : IndexedMinHeap n K} {m : Fin n → Option K}

theorem reset_holds : Holds (reset : IndexedMinHeap n K) fun _ => none :=
  ⟨reset_ok, fun e => by simp [reset]⟩

/-- A key that does not rise over the present one. -/
theorem Holds.push (hm : h.Holds m) {id : Fin n} {key : K} (hdec : ∀ k, m id = some k → key ≤ k) :
    (h.pushOrDecrease id key).Holds (Function.update m id (some key)) := by
  obtain ⟨hok, hmem⟩ := pushOrDecrease_ok hm.ok id key fun k hk => hdec k ((hm.mem_iff _).mp hk)
  refine ⟨hok, fun e => (hmem e).trans ?_⟩
  by_cases hid : e.2 = id
  · rw [hid, Function.update_self, Option.some.injEq]
    refine ⟨?_, fun hk => .inl (Prod.ext hk.symm hid)⟩
    rintro (rfl | ⟨-, hne⟩)
    · rfl
    · exact absurd rfl hne
  · rw [Function.update_of_ne hid, ← hm.mem_iff e]
    refine ⟨?_, fun he => .inr ⟨he, hid⟩⟩
    rintro (rfl | ⟨he, -⟩)
    · exact absurd rfl hid
    · exact he

/-- `id` is present with `key` and comes before every other present id. -/
structure Least (m : Fin n → Option K) (key : K) (id : Fin n) : Prop where
  present : m id = some key
  le : ∀ id' key', m id' = some key' → toLex (key, id) ≤ toLex (key', id')

theorem Least.unique {key key' : K} {id id' : Fin n} (h : Least m key id) (h' : Least m key' id') :
    (key, id) = (key', id') :=
  toLex.injective ((h.le id' key' h'.present).antisymm (h'.le id key h.present))

/-- The top is the least present entry, and there is one unless nothing is present. -/
theorem Holds.top_iff (hm : h.Holds m) (key : K) (id : Fin n) :
    h.top? = some (key, id) ↔ Least m key id := by
  have hof : ∀ e, h.top? = some e → Least m e.1 e.2 := by
    intro e he
    obtain ⟨hmem, hle⟩ := top_least hm.ok he
    exact ⟨(hm.mem_iff e).mp hmem, fun id' key' hk =>
      hle (key', id') ((hm.mem_iff (key', id')).mpr hk)⟩
  refine ⟨hof (key, id), fun hl => ?_⟩
  cases htop : h.top? with
  | none =>
    have hmem := (hm.mem_iff (key, id)).mpr hl.present
    rw [top_none.mp htop] at hmem
    cases hmem
  | some e => exact congrArg some ((hof e htop).unique hl)

theorem Holds.pop (hm : h.Holds m) {key : K} {id : Fin n} (hl : Least m key id) :
    h.pop.Holds (Function.update m id none) := by
  obtain ⟨hok, hmem⟩ := pop_ok hm.ok ((hm.top_iff key id).mpr hl)
  refine ⟨hok, fun e => (hmem e).trans ?_⟩
  by_cases hid : e.2 = id
  · rw [hid, Function.update_self]
    exact iff_of_false (fun h => h.2 rfl) nofun
  · rw [Function.update_of_ne hid, ← hm.mem_iff e]
    exact and_iff_left hid

theorem Holds.clear (hm : h.Holds m) : h.clear.Holds fun _ => none := by
  rw [clear_eq_reset hm.ok.indexed]
  exact reset_holds

/-! ## Runs -/

/-- The operations of a heap. -/
inductive Op (n : ℕ) (K : Type*) where
  | push (id : Fin n) (key : K)
  | pop
  | clear

/-- What an operation does to the heap. -/
def apply (h : IndexedMinHeap n K) : Op n K → IndexedMinHeap n K
  | .push id key => h.pushOrDecrease id key
  | .pop => h.pop
  | .clear => h.clear

/-- The operations allowed at `m`, and what they make of it: the key of a present id does not
    rise, and there is something to pop. -/
inductive Step (m : Fin n → Option K) : Op n K → (Fin n → Option K) → Prop where
  | push (id : Fin n) (key : K) (hdec : ∀ k, m id = some k → key ≤ k) :
      Step m (.push id key) (Function.update m id (some key))
  | pop {key : K} {id : Fin n} (hl : Least m key id) : Step m .pop (Function.update m id none)
  | clear : Step m .clear fun _ => none

/-- A sequence of allowed operations from the empty map, last one last. -/
inductive Run : List (Op n K) → (Fin n → Option K) → Prop where
  | nil : Run [] fun _ => none
  | snoc {ops : List (Op n K)} {m m' : Fin n → Option K} {op : Op n K} (hrun : Run ops m)
      (hstep : Step m op m') : Run (ops ++ [op]) m'

/-- One operation. -/
theorem Holds.step (hm : h.Holds m) {op : Op n K} {m' : Fin n → Option K} (hs : Step m op m') :
    (h.apply op).Holds m' := by
  cases hs with
  | push id key hdec => exact hm.push hdec
  | pop hl => exact hm.pop hl
  | clear => exact hm.clear

/-- A whole run. -/
theorem Run.holds {ops : List (Op n K)} (hr : Run ops m) : (ops.foldl apply reset).Holds m := by
  induction hr with
  | nil => exact reset_holds
  | snoc hrun hstep ih =>
    rw [List.foldl_append]
    exact ih.step hstep

/-! ## Consecutive pops -/

/-- The entries that `k` pops in a row take off. -/
def pops : ℕ → IndexedMinHeap n K → List (K × Fin n)
  | 0, _ => []
  | k + 1, h =>
    match h.top? with
    | none => []
    | some e => e :: pops k h.pop

/-- They are present entries, in ascending order. -/
theorem Holds.pops_sorted (k : ℕ) (hm : h.Holds m) :
    (∀ e ∈ pops k h, m e.2 = some e.1) ∧
      (pops k h).Pairwise fun a b => toLex a < toLex b := by
  induction k generalizing h m with
  | zero => exact ⟨nofun, List.Pairwise.nil⟩
  | succ k ih =>
    unfold pops
    cases htop : h.top? with
    | none => exact ⟨nofun, List.Pairwise.nil⟩
    | some e =>
      have hl : Least m e.1 e.2 := (hm.top_iff e.1 e.2).mp htop
      obtain ⟨hmem, hsorted⟩ := ih (hm.pop hl)
      -- what is left is present, and not the top's id
      have hleft : ∀ e' ∈ pops k h.pop, e'.2 ≠ e.2 ∧ m e'.2 = some e'.1 := by
        intro e' he'
        have hk := hmem e' he'
        by_cases hid : e'.2 = e.2
        · rw [hid, Function.update_self] at hk
          cases hk
        · rw [Function.update_of_ne hid] at hk
          exact ⟨hid, hk⟩
      refine ⟨fun e' he' => ?_, List.pairwise_cons.mpr ⟨fun e' he' => ?_, hsorted⟩⟩
      · rcases List.mem_cons.mp he' with rfl | he'
        · exact hl.present
        · exact (hleft e' he').2
      · obtain ⟨hid, hk⟩ := hleft e' he'
        refine lt_of_le_of_ne (hl.le e'.2 e'.1 hk) fun heq => hid ?_
        exact congrArg Prod.snd (toLex.injective heq).symm

/-- Heaps with the same last keys pop the same entries. -/
theorem pops_congr (k : ℕ) {h' : IndexedMinHeap n K} (hm : h.Holds m) (hm' : h'.Holds m) :
    pops k h = pops k h' := by
  induction k generalizing h h' m with
  | zero => rfl
  | succ k ih =>
    have htop : h.top? = h'.top? := by
      refine Option.ext fun e => ?_
      exact (hm.top_iff e.1 e.2).trans (hm'.top_iff e.1 e.2).symm
    unfold pops
    rw [← htop]
    cases he : h.top? with
    | none => rfl
    | some e =>
      have hl : Least m e.1 e.2 := (hm.top_iff e.1 e.2).mp he
      exact congrArg (e :: ·) (ih (hm.pop hl) (hm'.pop hl))

/-- Popping to the end takes off every present entry. -/
theorem Holds.pops_all {k : ℕ} (hm : h.Holds m) (hk : h.size ≤ k) (e : K × Fin n) :
    e ∈ pops k h ↔ m e.2 = some e.1 := by
  refine ⟨(hm.pops_sorted k).1 e, fun he => ?_⟩
  induction k generalizing h m with
  | zero =>
    have hnil : h.heap = [] := List.eq_nil_of_length_eq_zero (Nat.le_zero.mp hk)
    have hmem := (hm.mem_iff e).mpr he
    rw [hnil] at hmem
    cases hmem
  | succ k ih =>
    unfold pops
    cases htop : h.top? with
    | none =>
      have hmem := (hm.mem_iff e).mpr he
      rw [top_none.mp htop] at hmem
      cases hmem
    | some e₀ =>
      have hl : Least m e₀.1 e₀.2 := (hm.top_iff e₀.1 e₀.2).mp htop
      by_cases hid : e.2 = e₀.2
      · have heq : e = e₀ := by
          have := hl.present
          rw [← hid, he] at this
          exact Prod.ext (Option.some.inj this) hid
        exact heq ▸ List.mem_cons_self
      · refine List.mem_cons_of_mem _ (ih (hm.pop hl) ?_ ?_)
        · rw [pop_size]
          omega
        · rwa [Function.update_of_ne hid]

/-! ## The claims of the header -/

/-- After every run: an id is present at most once, the index and the array are inverse to each
    other, the top is the least present entry, a pop takes off exactly that one, and consecutive
    pops come out ascending, all present entries in the end, in an order the last keys fix. -/
theorem run_pops_ascending {ops : List (Op n K)} (hr : Run ops m) :
    let h := ops.foldl apply reset
    (h.heap.map Prod.snd).Nodup ∧ h.Indexed ∧
      (∀ e : K × Fin n, e ∈ h.heap ↔ m e.2 = some e.1) ∧
      (∀ key id, h.top? = some (key, id) ↔ Least m key id) ∧
      (∀ key id, Least m key id → ∀ e : K × Fin n, e ∈ h.pop.heap ↔ e ∈ h.heap ∧ e ≠ (key, id)) ∧
      (∀ k, (pops k h).Pairwise fun a b => toLex a < toLex b) ∧
      (∀ e : K × Fin n, e ∈ pops h.size h ↔ m e.2 = some e.1) ∧
      ∀ ops', Run ops' m → ∀ k, pops k (ops'.foldl apply reset) = pops k h := by
  intro h
  have hm : h.Holds m := hr.holds
  refine ⟨?_, hm.ok.indexed, hm.mem_iff, hm.top_iff, fun key id hl e => ?_,
    fun k => (hm.pops_sorted k).2, hm.pops_all le_rfl, fun ops' hr' k => pops_congr k hr'.holds hm⟩
  · refine List.pairwise_iff_getElem.mpr fun p q hp hq hpq heq => ?_
    rw [List.length_map] at hp hq
    rw [List.getElem_map, List.getElem_map] at heq
    have := (hm.ok.indexed.unique (List.getElem?_eq_getElem hp) (List.getElem?_eq_getElem hq) heq).1
    omega
  · have hpop := hm.pop hl
    rw [hpop.mem_iff, hm.mem_iff]
    by_cases hid : e.2 = id
    · rw [hid, Function.update_self]
      refine iff_of_false nofun fun h => h.2 ?_
      rw [hl.present] at h
      exact Prod.ext (Option.some.inj h.1).symm hid
    · rw [Function.update_of_ne hid]
      exact (and_iff_left fun he => hid (congrArg Prod.snd he)).symm

/-- Two ids, one of them lowered. -/
theorem run_pops_ascending_lowered :
    let ops : List (Op 2 ℤ) := [.push 1 5, .push 0 5, .push 1 3]
    (pops 2 (ops.foldl apply reset)).Pairwise fun a b => toLex a < toLex b := by
  have h1 : Run [Op.push (n := 2) (K := ℤ) 1 5] _ := Run.nil.snoc (.push 1 5 nofun)
  have h2 := h1.snoc (.push 0 5 fun k hk => by simp at hk)
  have h3 := h2.snoc (.push 1 3 fun k hk => by simp at hk; omega)
  exact (run_pops_ascending h3).2.2.2.2.2.1 2

end IndexedMinHeap
end Matching
end SmfSolver
