/-
  SmfSolver.Lib.Buckets

  Items sorted into buckets by a key below `m`: one counting pass, running sums for
  where each bucket starts, and a pass that puts every item where its key's cursor
  stands.  A bucket then holds its items in the order they came (`ofItems_slice`), and where
  each was put can be noted under its number (`scatterNoting_noted`).

  `foldl_zipIdx_update`: where the elements of a list stand, written one after another.
-/
import Mathlib.Data.List.Count
import Mathlib.Data.List.Induction
import Mathlib.Logic.Function.Basic
import Mathlib.Order.Nat

namespace SmfSolver
namespace Lib

/-- Lists stored one behind the other: list `k` from `ptr k` to `ptr (k + 1)`. -/
structure Csr (α : Type*) where
  ptr : ℕ → ℕ
  item : ℕ → α

namespace Csr

variable {α : Type*}

/-- List `k`. -/
def slice (b : Csr α) (k : ℕ) : List α :=
  (List.range' (b.ptr k) (b.ptr (k + 1) - b.ptr k)).map b.item

/-- Element `i` of list `k`, read from the arrays. -/
def get? (b : Csr α) (k i : ℕ) : Option α :=
  if b.ptr k + i < b.ptr (k + 1) then some (b.item (b.ptr k + i)) else none

theorem get?_eq (b : Csr α) (k i : ℕ) : b.get? k i = (b.slice k)[i]? := by
  unfold get? slice
  rw [List.getElem?_map]
  split_ifs with h
  · rw [List.getElem?_range' (by omega), Nat.one_mul]
    rfl
  · rw [List.getElem?_eq_none (by rw [List.length_range']; omega)]
    rfl

/-! ## Counting -/

/-- One more at `key + 1` for every item. -/
def countKeys (l : List (ℕ × α)) : ℕ → ℕ :=
  l.foldl (fun c e => Function.update c (e.1 + 1) (c (e.1 + 1) + 1)) fun _ => 0

/-- The running sums of the first `m` counts, in place. -/
def runningSums (m : ℕ) (c : ℕ → ℕ) : ℕ → ℕ :=
  (List.range m).foldl (fun c k => Function.update c (k + 1) (c (k + 1) + c k)) c

theorem countKeys_append (l : List (ℕ × α)) (e : ℕ × α) :
    countKeys (l ++ [e]) = Function.update (countKeys l) (e.1 + 1) (countKeys l (e.1 + 1) + 1) := by
  unfold countKeys
  rw [List.foldl_append]
  rfl

theorem countKeys_zero (l : List (ℕ × α)) : countKeys l 0 = 0 := by
  induction l using List.reverseRecOn with
  | nil => rfl
  | append_singleton l e ih =>
    rw [countKeys_append, Function.update_of_ne (Nat.succ_ne_zero e.1).symm, ih]

theorem countKeys_succ (l : List (ℕ × α)) (k : ℕ) :
    countKeys l (k + 1) = l.countP fun e => e.1 = k := by
  induction l using List.reverseRecOn with
  | nil => rfl
  | append_singleton l e ih =>
    rw [countKeys_append, List.countP_append, ← ih, List.countP_singleton]
    by_cases hk : e.1 = k
    · rw [hk, Function.update_self]
      simp
    · rw [Function.update_of_ne (by omega)]
      simp [hk]

theorem runningSums_succ (m : ℕ) (c : ℕ → ℕ) :
    runningSums (m + 1) c
      = Function.update (runningSums m c) (m + 1) (runningSums m c (m + 1) +
        runningSums m c m) := by
  unfold runningSums
  rw [List.range_succ, List.foldl_append]
  rfl

theorem runningSums_of_lt {m k : ℕ} (c : ℕ → ℕ) (h : m < k) : runningSums m c k = c k := by
  induction m with
  | zero => rfl
  | succ m ih => rw [runningSums_succ, Function.update_of_ne (by omega), ih (by omega)]

/-- The keys below `k + 1` are `k` and those below it. -/
theorem countP_lt_succ (l : List (ℕ × α)) (k : ℕ) :
    (l.countP fun e => e.1 < k + 1) = (l.countP fun e => e.1 < k) + l.countP fun e => e.1 = k := by
  induction l with
  | nil => rfl
  | cons e l ih =>
    simp only [List.countP_cons, decide_eq_true_eq, ih]
    split_ifs <;> omega

/-- A bucket starts where the items of the smaller keys end. -/
theorem runningSums_countKeys (l : List (ℕ × α)) {m k : ℕ} (h : k ≤ m) :
    runningSums m (countKeys l) k = l.countP fun e => e.1 < k := by
  induction m generalizing k with
  | zero =>
    obtain rfl := Nat.le_zero.mp h
    rw [runningSums, List.range_zero, List.foldl_nil, countKeys_zero]
    exact (List.countP_eq_zero.mpr (by simp)).symm
  | succ m ih =>
    rw [runningSums_succ]
    rcases Nat.lt_or_ge m k with hlt | hge
    · obtain rfl : k = m + 1 := by omega
      rw [Function.update_self, runningSums_of_lt _ (Nat.lt_succ_self m), ih le_rfl, countKeys_succ,
        countP_lt_succ, Nat.add_comm]
    · rw [Function.update_of_ne (by omega), ih hge]

/-! ## Filling -/

/-- Every item goes where the cursor of its key stands, and the cursor moves on. -/
def scatter (l : List (ℕ × α)) (s : (ℕ → ℕ) × (ℕ → α)) : (ℕ → ℕ) × (ℕ → α) :=
  l.foldl (fun s e => (Function.update s.1 e.1 (s.1 e.1 + 1), Function.update s.2 (s.1 e.1) e.2)) s

/-- The items of `l` in buckets by their key, over arrays that held `out` before. -/
def ofItems (m : ℕ) (l : List (ℕ × α)) (out : ℕ → α) : Csr α where
  ptr := runningSums m (countKeys l)
  item := (scatter l (runningSums m (countKeys l), out)).2

/-- The items with key `k`, in order. -/
def bucket (l : List (ℕ × α)) (k : ℕ) : List α := (l.filter fun e => e.1 = k).map (·.2)

theorem bucket_append (l l' : List (ℕ × α)) (k : ℕ) :
    bucket (l ++ l') k = bucket l k ++ bucket l' k := by
  unfold bucket
  rw [List.filter_append, List.map_append]

theorem bucket_length (l : List (ℕ × α)) (k : ℕ) :
    (bucket l k).length = l.countP fun e => e.1 = k := by
  rw [bucket, List.length_map, List.countP_eq_length_filter]

theorem mem_bucket {l : List (ℕ × α)} {k : ℕ} {a : α} : a ∈ bucket l k ↔ (k, a) ∈ l := by
  unfold bucket
  simp only [List.mem_map, List.mem_filter, decide_eq_true_eq]
  constructor
  · rintro ⟨⟨k', a'⟩, ⟨he, rfl⟩, rfl⟩
    exact he
  · exact fun h => ⟨(k, a), ⟨h, rfl⟩, rfl⟩

/-- After the items of `done`: each cursor has passed its key's items, which stand from the
    bucket's start on. -/
structure Filled (ptr : ℕ → ℕ) (done : List (ℕ × α)) (s : (ℕ → ℕ) × (ℕ → α)) : Prop where
  cursor : ∀ k, s.1 k = ptr k + (bucket done k).length
  stored : ∀ k i a, (bucket done k)[i]? = some a → s.2 (ptr k + i) = a

theorem Filled.next {ptr : ℕ → ℕ} {l done rest : List (ℕ × α)} {s : (ℕ → ℕ) × (ℕ → α)} {e : ℕ × α}
    {m : ℕ} (h : Filled ptr done s) (hl : l = done ++ e :: rest) (hm : ∀ e ∈ l, e.1 < m)
    (hptr : ∀ k ≤ m, ptr k = l.countP fun e => e.1 < k) :
    Filled ptr (done ++ [e])
      (Function.update s.1 e.1 (s.1 e.1 + 1), Function.update s.2 (s.1 e.1) e.2) := by
  have hnew : ∀ k, bucket (done ++ [e]) k = bucket done k ++ if e.1 = k then [e.2] else [] := by
    intro k
    rw [bucket_append]
    unfold bucket
    by_cases hk : e.1 = k <;> simp [hk]
  refine ⟨fun k => ?_, fun k i a ha => ?_⟩
  · dsimp only
    rw [hnew]
    by_cases hk : e.1 = k
    · subst hk
      rw [Function.update_self, h.cursor, if_pos rfl, List.length_append, List.length_singleton]
      omega
    · rw [Function.update_of_ne (Ne.symm hk), h.cursor, if_neg hk, List.append_nil]
  · dsimp only
    rw [hnew] at ha
    rw [h.cursor]
    -- buckets lie one behind the other, so only the last place of `e`'s bucket is written
    have hlen : ∀ k', (bucket done k').length ≤ l.countP fun e' => e'.1 = k' := by
      intro k'
      rw [bucket_length, hl, List.countP_append]
      omega
    have hlt : (bucket done e.1).length < l.countP fun e' => e'.1 = e.1 := by
      rw [bucket_length, hl, List.countP_append, List.countP_cons, if_pos (decide_eq_true rfl)]
      omega
    have hend : ∀ k' < m, ptr (k' + 1) = ptr k' + l.countP fun e' => e'.1 = k' := by
      intro k' hk'
      rw [hptr _ hk', hptr _ hk'.le, countP_lt_succ]
    have hmono : ∀ k₁ k₂, k₁ ≤ k₂ → k₂ ≤ m → ptr k₁ ≤ ptr k₂ := by
      intro k₁ k₂ hle hk₂
      rw [hptr _ (hle.trans hk₂), hptr _ hk₂]
      exact List.countP_mono_left fun e' _ h' => by simp at h' ⊢; omega
    by_cases hk : e.1 = k
    · subst hk
      rw [if_pos rfl] at ha
      by_cases hi : i < (bucket done e.1).length
      · rw [Function.update_of_ne (by omega)]
        rw [List.getElem?_append_left hi] at ha
        exact h.stored _ i a ha
      · rw [List.getElem?_append_right (by omega)] at ha
        obtain ⟨hlast, hval⟩ := List.getElem?_eq_some_iff.mp ha
        rw [List.length_singleton] at hlast
        obtain rfl : i = (bucket done e.1).length := by omega
        rw [Function.update_self, ← hval]
        simp
    · rw [if_neg hk, List.append_nil] at ha
      have hi := (List.getElem?_eq_some_iff.mp ha).1
      have hik : i < l.countP fun e' => e'.1 = k := hi.trans_le (hlen k)
      have hem : e.1 < m := hm e (by rw [hl]; simp)
      have hkm : k < m := by
        obtain ⟨e', he', hek⟩ := List.countP_pos_iff.mp (Nat.zero_lt_of_lt hik)
        rw [← of_decide_eq_true hek]
        exact hm e' he'
      have hne : ptr k + i ≠ ptr e.1 + (bucket done e.1).length := by
        have h₁ := hend k hkm
        have h₂ := hend e.1 hem
        rcases Nat.lt_or_gt_of_ne hk with hlt' | hgt
        · have := hmono (e.1 + 1) k hlt' hkm.le
          omega
        · have := hmono (k + 1) e.1 hgt hem.le
          omega
      rw [Function.update_of_ne hne]
      exact h.stored k i a ha

theorem scatter_filled {ptr : ℕ → ℕ} {l done rest : List (ℕ × α)} {s : (ℕ → ℕ) × (ℕ → α)} {m : ℕ}
    (h : Filled ptr done s) (hl : l = done ++ rest) (hm : ∀ e ∈ l, e.1 < m)
    (hptr : ∀ k ≤ m, ptr k = l.countP fun e => e.1 < k) : Filled ptr l (scatter rest s) := by
  induction rest generalizing done s with
  | nil =>
    rw [hl, List.append_nil]
    exact h
  | cons e rest ih => exact ih (h.next hl hm hptr) (by rw [hl]; simp)

/-- A bucket holds the items of its key in the order they came. -/
theorem ofItems_slice {m k : ℕ} {l : List (ℕ × α)} (hm : ∀ e ∈ l, e.1 < m) (hk : k < m)
    (out : ℕ → α) : (ofItems m l out).slice k = bucket l k := by
  have hptr : ∀ k ≤ m, runningSums m (countKeys l) k = l.countP fun e => e.1 < k :=
    fun k hk => runningSums_countKeys l hk
  have hfill := @scatter_filled _ (runningSums m (countKeys l)) l [] l
    (runningSums m (countKeys l), out) _
    ⟨fun k => rfl, fun k i a ha => by simp [bucket] at ha⟩ rfl hm hptr
  have hlen : (ofItems m l out).ptr (k + 1) - (ofItems m l out).ptr k = (bucket l k).length := by
    change runningSums m (countKeys l) (k + 1) - runningSums m (countKeys l) k = _
    rw [hptr _ hk, hptr _ hk.le, bucket_length, countP_lt_succ, Nat.add_sub_cancel_left]
  refine List.ext_getElem? fun i => ?_
  rw [slice, hlen, List.getElem?_map]
  by_cases hi : i < (bucket l k).length
  · rw [List.getElem?_range' hi, Nat.one_mul, Option.map_some]
    obtain ⟨a, ha⟩ : ∃ a, (bucket l k)[i]? = some a := ⟨_, List.getElem?_eq_getElem hi⟩
    rw [ha]
    exact congrArg some (hfill.stored k i a ha)
  · rw [List.getElem?_eq_none (not_lt.mp hi),
      List.getElem?_eq_none (by rw [List.length_range']; exact not_lt.mp hi)]
    rfl

/-- Past the keys there is nothing. -/
theorem ofItems_slice_of_le {m k : ℕ} {l : List (ℕ × α)} (hm : ∀ e ∈ l, e.1 < m) (hk : m ≤ k)
    (out : ℕ → α) : (ofItems m l out).slice k = [] := by
  have hnone : (ofItems m l out).ptr (k + 1) = 0 := by
    change runningSums m (countKeys l) (k + 1) = 0
    rw [runningSums_of_lt _ (by omega), countKeys_succ, List.countP_eq_zero]
    intro e he hek
    exact absurd (hm e he) (not_lt.mpr (of_decide_eq_true hek ▸ hk))
  rw [slice, hnone, Nat.zero_sub, List.range'_zero, List.map_nil]

/-- Membership in a bucket, wherever it is. -/
theorem mem_ofItems_slice {m k : ℕ} {l : List (ℕ × α)} (hm : ∀ e ∈ l, e.1 < m) {out : ℕ → α}
    {a : α} : a ∈ (ofItems m l out).slice k ↔ (k, a) ∈ l := by
  rcases Nat.lt_or_ge k m with hk | hk
  · rw [ofItems_slice hm hk, mem_bucket]
  · rw [ofItems_slice_of_le hm hk]
    exact ⟨fun h => (nomatch h), fun h => absurd (hm _ h) (not_lt.mpr hk)⟩

/-! ## The places of the items -/

/-- As `scatter`, of items that come with a number: where each is put is noted under its
    number. -/
def scatterNoting (l : List (ℕ × α × ℕ)) (s : (ℕ → ℕ) × (ℕ → α) × (ℕ → ℕ)) :
    (ℕ → ℕ) × (ℕ → α) × (ℕ → ℕ) :=
  l.foldl (fun s e =>
    (Function.update s.1 e.1 (s.1 e.1 + 1), Function.update s.2.1 (s.1 e.1) e.2.1,
      Function.update s.2.2 e.2.2 (s.1 e.1))) s

/-- The items without their numbers. -/
def unnumbered (l : List (ℕ × α × ℕ)) : List (ℕ × α) := l.map fun e => (e.1, e.2.1)

theorem scatterNoting_item (l : List (ℕ × α × ℕ)) (s : (ℕ → ℕ) × (ℕ → α) × (ℕ → ℕ)) :
    (scatterNoting l s).2.1 = (scatter (unnumbered l) (s.1, s.2.1)).2 := by
  induction l generalizing s with
  | nil => rfl
  | cons e l ih => exact ih _

/-- After the items of `done`: each is noted at its place in its bucket, and each place of a
    bucket is noted for an item. -/
structure Noted (ptr : ℕ → ℕ) (done : List (ℕ × α × ℕ))
    (s : (ℕ → ℕ) × (ℕ → α) × (ℕ → ℕ)) : Prop where
  cursor : ∀ k, s.1 k = ptr k + (bucket (unnumbered done) k).length
  place : ∀ e ∈ done, ∃ i, (bucket (unnumbered done) e.1)[i]? = some e.2.1 ∧
    s.2.2 e.2.2 = ptr e.1 + i
  onto : ∀ k, ∀ i < (bucket (unnumbered done) k).length, ∃ e ∈ done, e.1 = k ∧
    s.2.2 e.2.2 = ptr k + i

theorem Noted.next {ptr : ℕ → ℕ} {done : List (ℕ × α × ℕ)} {s : (ℕ → ℕ) × (ℕ → α) × (ℕ → ℕ)}
    {e : ℕ × α × ℕ} (h : Noted ptr done s) (hnew : ∀ e' ∈ done, e'.2.2 ≠ e.2.2) :
    Noted ptr (done ++ [e]) (scatterNoting [e] s) := by
  -- the bucket of the new item grows by one, the others stay
  have hbucket : ∀ k, bucket (unnumbered (done ++ [e])) k =
      bucket (unnumbered done) k ++ if e.1 = k then [e.2.1] else [] := by
    intro k
    rw [unnumbered, List.map_append, bucket_append]
    unfold bucket unnumbered
    by_cases hk : e.1 = k <;> simp [hk]
  have hold : ∀ e' ∈ done, (scatterNoting [e] s).2.2 e'.2.2 = s.2.2 e'.2.2 := fun e' he' =>
    Function.update_of_ne (hnew e' he') ..
  have hself : (scatterNoting [e] s).2.2 e.2.2 = s.1 e.1 := Function.update_self ..
  refine ⟨fun k => ?_, fun e' he' => ?_, fun k i hi => ?_⟩
  · rw [hbucket, List.length_append]
    change Function.update s.1 e.1 (s.1 e.1 + 1) k = _
    by_cases hk : e.1 = k
    · subst hk
      rw [Function.update_self, h.cursor, if_pos rfl, List.length_singleton, Nat.add_assoc]
    · rw [Function.update_of_ne (Ne.symm hk), h.cursor, if_neg hk, List.length_nil, Nat.add_zero]
  · rcases List.mem_append.mp he' with he' | he'
    · obtain ⟨i, hi, hplace⟩ := h.place e' he'
      have hlt := (List.getElem?_eq_some_iff.mp hi).1
      refine ⟨i, ?_, (hold e' he').trans hplace⟩
      rw [hbucket, List.getElem?_append_left hlt, hi]
    · obtain rfl := List.mem_singleton.mp he'
      refine ⟨(bucket (unnumbered done) e'.1).length, ?_, hself.trans (h.cursor _)⟩
      rw [hbucket, if_pos rfl, List.getElem?_append_right le_rfl, Nat.sub_self]
      rfl
  · rw [hbucket, List.length_append] at hi
    rcases Nat.lt_or_ge i (bucket (unnumbered done) k).length with hlt | hge
    · obtain ⟨e', he', hk, hplace⟩ := h.onto k i hlt
      exact ⟨e', List.mem_append_left _ he', hk, (hold e' he').trans hplace⟩
    · split_ifs at hi with hk
      · obtain rfl : i = (bucket (unnumbered done) k).length := by
          rw [List.length_singleton] at hi
          omega
        exact ⟨e, by simp, hk, hself.trans (hk ▸ h.cursor _)⟩
      · rw [List.length_nil] at hi
        omega

/-- All items, from the start of each bucket on. -/
theorem scatterNoting_noted {l : List (ℕ × α × ℕ)} (hnodup : (l.map fun e => e.2.2).Nodup)
    (ptr : ℕ → ℕ) (out : ℕ → α) (place : ℕ → ℕ) :
    Noted ptr l (scatterNoting l (ptr, out, place)) := by
  induction l using List.reverseRecOn with
  | nil =>
    exact ⟨fun k => rfl, fun e he => absurd he List.not_mem_nil, fun k i hi => absurd hi
      (Nat.not_lt_zero i)⟩
  | append_singleton l e ih =>
    rw [List.map_append, List.nodup_append] at hnodup
    obtain ⟨hl, -, hdisj⟩ := hnodup
    have hstep : scatterNoting (l ++ [e]) (ptr, out, place) =
        scatterNoting [e] (scatterNoting l (ptr, out, place)) := List.foldl_append
    rw [hstep]
    exact (ih hl).next fun e' he' =>
      hdisj _ (List.mem_map_of_mem he') _ (List.mem_map_of_mem (List.mem_singleton_self e))

/-- All buckets one behind the other hold the items. -/
theorem flatMap_bucket_perm {m : ℕ} {l : List (ℕ × α)} (hm : ∀ e ∈ l, e.1 < m) :
    ((List.range m).flatMap fun k => (bucket l k).map fun a => (k, a)).Perm l := by
  have hbucket : ∀ k, ((bucket l k).map fun a => (k, a)) = l.filter fun e => e.1 = k := fun k => by
    rw [bucket, List.map_map]
    refine (List.map_congr_left fun e he => ?_).trans (List.map_id _)
    exact congrArg (·, e.2) (of_decide_eq_true (List.mem_filter.mp he).2).symm
  -- the first `n` buckets hold the items with a key below `n`
  have hsplit : ∀ n, ((List.range n).flatMap fun k => (bucket l k).map fun a => (k, a)).Perm
      (l.filter fun e => e.1 < n) := by
    intro n
    induction n with
    | zero => simp
    | succ n ih =>
      rw [List.range_succ, List.flatMap_append, List.flatMap_singleton, hbucket]
      have hlt : (l.filter fun e => e.1 < n + 1).filter (fun e => e.1 < n) =
          l.filter fun e => e.1 < n := by
        rw [List.filter_filter]
        refine List.filter_congr fun e _ => Bool.eq_iff_iff.mpr ?_
        simp only [Bool.and_eq_true, decide_eq_true_eq]
        omega
      have hge : (l.filter fun e => e.1 < n + 1).filter (fun e => !decide (e.1 < n)) =
          l.filter fun e => e.1 = n := by
        rw [List.filter_filter]
        refine List.filter_congr fun e _ => Bool.eq_iff_iff.mpr ?_
        simp only [Bool.and_eq_true, Bool.not_eq_true', decide_eq_true_eq, decide_eq_false_iff_not]
        omega
      have hparts := List.filter_append_perm (fun e => decide (e.1 < n))
        (l.filter fun e => e.1 < n + 1)
      rw [hlt, hge] at hparts
      exact (ih.append_right _).trans hparts
  refine (hsplit m).trans (List.Perm.of_eq (List.filter_eq_self.mpr fun e he => ?_))
  exact decide_eq_true (hm e he)

end Csr

/-! ## Positions -/

/-- With each element's position written in turn, an element has its own. -/
theorem foldl_zipIdx_update {α β : Type*} [DecidableEq α] (f : ℕ → β) (init : α → β) {l : List α}
    (hnodup : l.Nodup) {i : ℕ} {x : α} (h : l[i]? = some x) :
    l.zipIdx.foldl (fun inv e => Function.update inv e.1 (f e.2)) init x = f i := by
  induction l using List.reverseRecOn with
  | nil => cases h
  | append_singleton l a ih =>
    rw [List.zipIdx_append, List.foldl_append, List.zipIdx_singleton, List.foldl_cons,
      List.foldl_nil, Nat.zero_add]
    obtain ⟨hl, -, hdisj⟩ := List.nodup_append.mp hnodup
    rcases Nat.lt_or_ge i l.length with hlt | hge
    · rw [List.getElem?_append_left hlt] at h
      have hne : x ≠ a := hdisj x (List.mem_of_getElem? h) a (List.mem_singleton_self a)
      rw [Function.update_of_ne hne]
      exact ih hl h
    · rw [List.getElem?_append_right hge] at h
      obtain ⟨hi, hval⟩ := List.getElem?_eq_some_iff.mp h
      rw [List.length_singleton] at hi
      obtain rfl : i = l.length := by omega
      have hxa : a = x := by simpa using h
      rw [← hxa, Function.update_self]

end Lib
end SmfSolver
