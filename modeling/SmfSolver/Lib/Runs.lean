/-
  SmfSolver.Lib.Runs

  Sorting by a key and merging the runs of equal keys.  A sort is any function that returns
  a sorted rearrangement, so that nothing depends on how it treats equal keys.

  * `merged_eq`: the merged list has the keys in strictly ascending order, each with the sum
    of its values.
  * `merged_congr`: rearranging the items does not change it.
-/
import Mathlib.Algebra.BigOperators.Group.List.Basic
import Mathlib.Data.List.Sort
import Mathlib.Data.List.TakeWhile

namespace SmfSolver
namespace Lib

variable {α κ K : Type*} [LinearOrder κ] {key : α → κ}

/-- A sort by `key`: the order of items with equal keys is left open. -/
structure SortBy (key : α → κ) where
  run : List α → List α
  perm : ∀ l, (run l).Perm l
  sorted : ∀ l, (run l).Pairwise fun a b => key a ≤ key b

/-- Insertion sort is one. -/
def insertionSortBy (key : α → κ) : SortBy key where
  run l := l.insertionSort fun a b => key a ≤ key b
  perm l := List.perm_insertionSort _ l
  sorted l := by
    have : Std.Total fun a b : α => key a ≤ key b := ⟨fun _ _ => le_total _ _⟩
    have : IsTrans α fun a b : α => key a ≤ key b := ⟨fun _ _ _ => le_trans⟩
    exact List.pairwise_insertionSort _ l

/-- A list that is strictly ascending stays as it is. -/
theorem SortBy.run_eq (sort : SortBy key) {l : List α} (h : l.Pairwise fun a b => key a < key b) :
    sort.run l = l := by
  have hnodup : (l.map key).Nodup := List.pairwise_map.mpr (h.imp fun hlt => hlt.ne)
  have hinj : ∀ a b, a ∈ sort.run l → b ∈ l → key a ≤ key b → key b ≤ key a → a = b :=
    fun a b ha hb hab hba => List.inj_on_of_nodup_map hnodup ((sort.perm l).mem_iff.mp ha) hb
      (le_antisymm hab hba)
  exact (sort.perm l).eq_of_pairwise hinj (sort.sorted l) (h.imp fun hlt => hlt.le)

/-! ## Runs -/

/-- The list in runs of equal keys: each run's first item and the others. -/
def runs (key : α → κ) : List α → List (α × List α)
  | [] => []
  | a :: l =>
    (a, l.takeWhile fun b => key b = key a) :: runs key (l.dropWhile fun b => key b = key a)
  termination_by l => l.length
  decreasing_by exact Nat.lt_succ_of_le (List.dropWhile_sublist _).length_le

theorem runs_nil : runs key [] = [] := by
  rw [runs]

theorem runs_cons (a : α) (l : List α) :
    runs key (a :: l) = (a, l.takeWhile fun b => key b = key a) ::
      runs key (l.dropWhile fun b => key b = key a) := by
  rw [runs]

variable (key) in
/-- The runs one after the other are the list. -/
theorem runs_flatten (l : List α) : ((runs key l).flatMap fun r => r.1 :: r.2) = l := by
  fun_induction runs key l with
  | case1 => rfl
  | case2 a l ih =>
    rw [List.flatMap_cons, ih, List.cons_append, List.takeWhile_append_dropWhile]

variable (key) in
theorem runs_key (l : List α) : ∀ r ∈ runs key l, ∀ b ∈ r.2, key b = key r.1 := by
  fun_induction runs key l with
  | case1 => exact fun r hr => absurd hr List.not_mem_nil
  | case2 a l ih =>
    rintro r (_ | ⟨_, hr⟩) b hb
    · simpa using List.mem_takeWhile_imp hb
    · exact ih r hr b hb

/-- The keys of the runs are the keys of the list. -/
theorem mem_runs_key {l : List α} {k : κ} :
    (∃ r ∈ runs key l, key r.1 = k) ↔ ∃ a ∈ l, key a = k := by
  constructor
  · rintro ⟨r, hr, hk⟩
    refine ⟨r.1, ?_, hk⟩
    rw [← runs_flatten key l]
    exact List.mem_flatMap.mpr ⟨r, hr, List.mem_cons_self ..⟩
  · rintro ⟨a, ha, hk⟩
    rw [← runs_flatten key l] at ha
    obtain ⟨r, hr, ha⟩ := List.mem_flatMap.mp ha
    refine ⟨r, hr, ?_⟩
    rcases List.mem_cons.mp ha with rfl | ha
    · exact hk
    · exact (runs_key key l r hr a ha).symm.trans hk

/-- In a sorted list every key has one run. -/
theorem runs_sorted {l : List α} (h : l.Pairwise fun a b => key a ≤ key b) :
    (runs key l).Pairwise fun r s => key r.1 < key s.1 := by
  fun_induction runs key l with
  | case1 => exact List.Pairwise.nil
  | case2 a l ih =>
    obtain ⟨hhead, htail⟩ := List.pairwise_cons.mp h
    have hsuffix := List.dropWhile_suffix (l := l) fun b => decide (key b = key a)
    have hrest := htail.sublist hsuffix.sublist
    refine List.pairwise_cons.mpr ⟨fun r hr => ?_, ih hrest⟩
    obtain ⟨b, hb, hbr⟩ := mem_runs_key.mp ⟨r, hr, rfl⟩
    rw [← hbr]
    -- the first item past the run has another key, and the others are not below it
    cases hdrop : l.dropWhile fun b => decide (key b = key a) with
    | nil =>
      rw [hdrop] at hb
      exact absurd hb List.not_mem_nil
    | cons c l' =>
      have hc : key a < key c := by
        refine lt_of_le_of_ne (hhead c (hsuffix.subset ?_)) fun heq => ?_
        · rw [hdrop]
          exact List.mem_cons_self ..
        · have hnot := List.head?_dropWhile_not (fun b => decide (key b = key a)) l
          rw [hdrop] at hnot
          exact of_decide_eq_false hnot heq.symm
      rw [hdrop] at hb hrest
      rcases List.mem_cons.mp hb with rfl | hb
      · exact hc
      · exact hc.trans_le ((List.pairwise_cons.mp hrest).1 b hb)

/-- A strictly ascending list is its own runs. -/
theorem runs_of_strict {l : List α} (h : l.Pairwise fun a b => key a < key b) :
    runs key l = l.map fun a => (a, []) := by
  induction l with
  | nil => exact runs_nil
  | cons a l ih =>
    obtain ⟨hhead, htail⟩ := List.pairwise_cons.mp h
    have hnone : ∀ b ∈ l, ¬key b = key a := fun b hb => (hhead b hb).ne'
    have htake : (l.takeWhile fun b => decide (key b = key a)) = [] := by
      cases l with
      | nil => rfl
      | cons b l => rw [List.takeWhile_cons_of_neg]; simpa using hnone b (List.mem_cons_self ..)
    have hdrop : (l.dropWhile fun b => decide (key b = key a)) = l := by
      have := List.takeWhile_append_dropWhile (p := fun b => decide (key b = key a)) (l := l)
      rwa [htake] at this
    rw [runs_cons, htake, hdrop, ih htail]
    rfl

/-! ## Merging -/

/-- Each run's key with the sum of its values. -/
def merged [Add K] (key : α → κ) (val : α → K) (l : List α) : List (κ × K) :=
  (runs key l).map fun r => (key r.1, r.2.foldl (fun s b => s + val b) (val r.1))

theorem merged_of_strict [Add K] {l : List α} (val : α → K)
    (h : l.Pairwise fun a b => key a < key b) :
      merged key val l = l.map fun a => (key a, val a) := by
  rw [merged, runs_of_strict h, List.map_map]
  rfl

theorem length_merged [Add K] (val : α → K) (l : List α) :
    (merged key val l).length = (runs key l).length :=
  List.length_map ..

/-- The merged list is strictly ascending. -/
theorem merged_sorted [Add K] (val : α → K) {l : List α}
    (h : l.Pairwise fun a b => key a ≤ key b) :
    (merged key val l).Pairwise fun e f => e.1 < f.1 :=
  List.pairwise_map.mpr (runs_sorted h)

variable [AddCommMonoid K]

/-- The sum of the values at key `k`. -/
def sumAt (key : α → κ) (val : α → K) (l : List α) (k : κ) : K :=
  ((l.filter fun a => key a = k).map val).sum

theorem sumAt_perm {val : α → K} {l l' : List α} (h : l.Perm l') (k : κ) :
    sumAt key val l k = sumAt key val l' k :=
  ((h.filter _).map val).sum_eq

/-- The items with a run's key are the run. -/
theorem filter_flatMap_runs {R : List (α × List α)} (hkey : ∀ r ∈ R, ∀ b ∈ r.2, key b = key r.1)
    (hne : R.Pairwise fun r s => key r.1 ≠ key s.1) {r : α × List α} (hr : r ∈ R) :
    ((R.flatMap fun r => r.1 :: r.2).filter fun a => key a = key r.1) = r.1 :: r.2 := by
  have hall : ∀ s ∈ R, ∀ b ∈ s.1 :: s.2, key b = key s.1 := fun s hs b hb =>
    (List.mem_cons.mp hb).elim (fun h => h ▸ rfl) (hkey s hs b)
  induction R with
  | nil => exact absurd hr List.not_mem_nil
  | cons s R ih =>
    obtain ⟨hhead, htail⟩ := List.pairwise_cons.mp hne
    rw [List.flatMap_cons, List.filter_append]
    have hkey' := fun s' hs' => hkey s' (List.mem_cons_of_mem s hs')
    have hall' := fun s' hs' => hall s' (List.mem_cons_of_mem s hs')
    rcases List.mem_cons.mp hr with rfl | hr
    · rw [List.filter_eq_self.mpr fun b hb => decide_eq_true (hall r (List.mem_cons_self ..) b hb),
        List.filter_eq_nil_iff.mpr, List.append_nil]
      intro b hb
      obtain ⟨s', hs', hb⟩ := List.mem_flatMap.mp hb
      simpa [hall' s' hs' b hb] using (hhead s' hs').symm
    · rw [List.filter_eq_nil_iff.mpr, List.nil_append, ih hkey' htail hr hall']
      intro b hb
      simpa [hall s (List.mem_cons_self ..) b hb] using hhead r hr

theorem foldl_add_val (val : α → K) (l : List α) (s : K) :
    l.foldl (fun s b => s + val b) s = s + (l.map val).sum := by
  induction l generalizing s with
  | nil => exact (add_zero s).symm
  | cons b l ih => rw [List.foldl_cons, ih, List.map_cons, List.sum_cons, add_assoc]

theorem sumAt_run {val : α → K} {l : List α} (h : l.Pairwise fun a b => key a ≤ key b)
    {r : α × List α} (hr : r ∈ runs key l) :
    sumAt key val l (key r.1) = r.2.foldl (fun s b => s + val b) (val r.1) := by
  have hfilter := filter_flatMap_runs (runs_key key l) ((runs_sorted h).imp fun hlt => hlt.ne) hr
  rw [runs_flatten] at hfilter
  rw [sumAt, hfilter, List.map_cons, List.sum_cons, foldl_add_val]

/-- The merged list of a sorted list: every key with the sum of its values. -/
theorem mem_merged {val : α → K} {l : List α} (h : l.Pairwise fun a b => key a ≤ key b)
    {k : κ} {v : K} :
    (k, v) ∈ merged key val l ↔ (∃ a ∈ l, key a = k) ∧ v = sumAt key val l k := by
  rw [merged, List.mem_map]
  constructor
  · rintro ⟨r, hr, heq⟩
    cases heq
    exact ⟨mem_runs_key.mp ⟨r, hr, rfl⟩, (sumAt_run h hr).symm⟩
  · rintro ⟨ha, rfl⟩
    obtain ⟨r, hr, rfl⟩ := mem_runs_key.mpr ha
    exact ⟨r, hr, Prod.ext rfl (sumAt_run h hr).symm⟩

/-- The order the items came in leaves no trace. -/
theorem merged_congr {val : α → K} {l l' : List α} (hperm : l.Perm l')
    (h : l.Pairwise fun a b => key a ≤ key b) (h' : l'.Pairwise fun a b => key a ≤ key b) :
    merged key val l = merged key val l' := by
  have : Std.Antisymm fun e f : κ × K => e.1 < f.1 := ⟨fun _ _ h₁ h₂ => absurd h₁ h₂.asymm⟩
  have : Std.Irrefl fun e f : κ × K => e.1 < f.1 := ⟨fun _ => lt_irrefl _⟩
  refine (merged_sorted val h).eq_of_mem_iff (merged_sorted val h') fun e => ?_
  rw [mem_merged h, mem_merged h', sumAt_perm hperm]
  simp only [hperm.mem_iff]

end Lib
end SmfSolver
