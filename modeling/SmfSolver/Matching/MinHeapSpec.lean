/-
  SmfSolver.Matching.MinHeapSpec

  What the operations of `IndexedMinHeap` do to the set of queued entries.  A heap is
  `Ok` when its position index and its array are inverse to each other and no entry
  is before its parent, in the lexicographic order of (key, id).

  A sift keeps a hole at a place `k` and an entry `x` to put there.  `Hole` is the
  bookkeeping half of its invariant, `UpOrder` and `DownOrder` the order half: off the
  hole everything is in order, and what is around the hole is in the order the sift's
  direction needs.

  * `top_least`: the top is the least entry.
  * `pushOrDecrease_ok`, `pop_ok`: the operations keep the heap, and change the set of
    entries as their names say.
-/
import SmfSolver.Matching.IndexedMinHeap
import Mathlib.Data.List.GetD
import Mathlib.Data.Prod.Lex
import Mathlib.Order.Fin.Basic
import Mathlib.Data.Set.Basic

namespace SmfSolver
namespace Matching
namespace IndexedMinHeap

open Lib

variable {n : ℕ} {K : Type*} [LinearOrder K]

/-! ## The order of the entries -/

theorem before_iff (a b : K × Fin n) : before a b = true ↔ toLex a < toLex b := by
  unfold before
  rw [Prod.Lex.toLex_lt_toLex, Bool.or_eq_true, Bool.and_eq_true, decide_eq_true_iff,
    decide_eq_true_iff, beq_iff_eq]

theorem not_before_iff (a b : K × Fin n) : ¬before a b = true ↔ toLex b ≤ toLex a := by
  rw [before_iff, not_lt]

/-- The entry at place `p`, `x` outside the array. -/
def slot (h : IndexedMinHeap n K) (x : K × Fin n) (p : ℕ) : K ×ₗ Fin n :=
  toLex (h.heap.getD p x)

omit [LinearOrder K] in
theorem slot_place {h : IndexedMinHeap n K} {k : ℕ} (hk : k < h.heap.length)
    (e x : K × Fin n) (p : ℕ) :
    (h.place k e).slot x p = if p = k then toLex e else h.slot x p := by
  unfold slot place
  dsimp only
  rw [List.getD_eq_getElem?_getD, List.getD_eq_getElem?_getD, List.getElem?_set]
  by_cases hp : p = k
  · subst hp
    rw [if_pos rfl, if_pos hk, if_pos rfl]
    rfl
  · rw [if_neg (Ne.symm hp), if_neg hp]

omit [LinearOrder K] in
theorem place_length (h : IndexedMinHeap n K) (k : ℕ) (e : K × Fin n) :
    (h.place k e).heap.length = h.heap.length := List.length_set ..

theorem up_lt {c : ℕ} (hc : 0 < c) : up c < c := by
  unfold up
  omega

/-! ## Well-formed heaps -/

/-- The position index and the array are inverse to each other. -/
def Indexed (h : IndexedMinHeap n K) : Prop :=
  ∀ id p, h.pos id = some p ↔ ∃ e, h.heap[p]? = some e ∧ e.2 = id

/-- No entry is before its parent. -/
def Ordered (h : IndexedMinHeap n K) : Prop :=
  ∀ c, 0 < c → c < h.heap.length → ∀ x, h.slot x (up c) ≤ h.slot x c

/-- The class invariant. -/
structure Ok (h : IndexedMinHeap n K) : Prop where
  indexed : h.Indexed
  ordered : h.Ordered

omit [LinearOrder K] in
/-- An id is present at most once. -/
theorem Indexed.unique {h : IndexedMinHeap n K} (hi : h.Indexed) {p q : ℕ} {e e' : K × Fin n}
    (hp : h.heap[p]? = some e) (hq : h.heap[q]? = some e') (hid : e.2 = e'.2) :
    p = q ∧ e = e' := by
  have hpos := (hi e.2 p).mpr ⟨e, hp, rfl⟩
  have hpos' := (hi e.2 q).mpr ⟨e', hq, hid.symm⟩
  have hpq : p = q := Option.some.inj (hpos.symm.trans hpos')
  subst hpq
  exact ⟨rfl, Option.some.inj (hp.symm.trans hq)⟩

theorem reset_ok : (reset : IndexedMinHeap n K).Ok where
  indexed := by
    intro id p
    simp [reset]
  ordered := fun c _ hc => absurd hc (Nat.not_lt_zero c)

/-- The root is before or level with every entry. -/
theorem Ordered.root_le {h : IndexedMinHeap n K} (ho : h.Ordered) (x : K × Fin n) (p : ℕ)
    (hp : p < h.heap.length) : h.slot x 0 ≤ h.slot x p := by
  induction p using Nat.strongRecOn with
  | _ p ih =>
    rcases Nat.eq_zero_or_pos p with rfl | hpos
    · exact le_rfl
    · have hup := up_lt hpos
      exact (ih _ hup (hup.trans hp)).trans (ho p hpos hp x)

/-- The top is the least entry. -/
theorem top_least {h : IndexedMinHeap n K} (hok : h.Ok) {e : K × Fin n} (htop : h.top? = some e) :
    e ∈ h.heap ∧ ∀ e' ∈ h.heap, toLex e ≤ toLex e' := by
  unfold top? at htop
  have h0 : h.heap[0]? = some e := by rw [← List.head?_eq_getElem?, htop]
  refine ⟨List.mem_of_getElem? h0, fun e' he' => ?_⟩
  obtain ⟨p, hp⟩ := List.mem_iff_getElem?.mp he'
  obtain ⟨hlt, -⟩ := List.getElem?_eq_some_iff.mp hp
  have hle := hok.ordered.root_le e p hlt
  unfold slot at hle
  rwa [List.getD_eq_getElem?_getD, List.getD_eq_getElem?_getD, h0, hp] at hle

omit [LinearOrder K] in
theorem top_none {h : IndexedMinHeap n K} : h.top? = none ↔ h.heap = [] := by
  unfold top?
  exact List.head?_eq_none_iff

/-! ## The hole of a sift -/

/-- The entries are `S`: `x` and those off the hole `k`, which the index knows. -/
structure Hole (h : IndexedMinHeap n K) (k : ℕ) (x : K × Fin n) (S : Set (K × Fin n)) : Prop where
  lt : k < h.heap.length
  mem_iff : ∀ e, e ∈ S ↔ e = x ∨ ∃ p, p ≠ k ∧ h.heap[p]? = some e
  fresh : ∀ p e, p ≠ k → h.heap[p]? = some e → e.2 ≠ x.2
  pos : ∀ p e, p ≠ k → h.heap[p]? = some e → h.pos e.2 = some p
  of_pos : ∀ id p, h.pos id = some p → id ≠ x.2 → p ≠ k ∧ ∃ e, h.heap[p]? = some e ∧ e.2 = id

omit [LinearOrder K] in
theorem getElem?_place {h : IndexedMinHeap n K} {k : ℕ} (hk : k < h.heap.length)
    (e : K × Fin n) (p : ℕ) :
    (h.place k e).heap[p]? = if p = k then some e else h.heap[p]? := by
  unfold place
  dsimp only
  rw [List.getElem?_set]
  by_cases hp : p = k
  · subst hp
    rw [if_pos rfl, if_pos hk, if_pos rfl]
  · rw [if_neg (Ne.symm hp), if_neg hp]

omit [LinearOrder K] in
/-- Moving the entry at `q` into the hole makes `q` the hole. -/
theorem Hole.move {h : IndexedMinHeap n K} {k q : ℕ} {x e : K × Fin n} {S : Set (K × Fin n)}
    (o : Hole h k x S) (hq : q ≠ k) (he : h.heap[q]? = some e) : Hole (h.place k e) q x S where
  lt := by
    rw [place_length]
    exact (List.getElem?_eq_some_iff.mp he).1
  mem_iff := by
    intro e'
    rw [o.mem_iff]
    refine or_congr_right ⟨?_, ?_⟩
    · rintro ⟨p, hp, hpe⟩
      by_cases hpq : p = q
      -- the entry at `q` is at `k` now
      · subst hpq
        refine ⟨k, Ne.symm hq, ?_⟩
        rw [getElem?_place o.lt, if_pos rfl]
        exact he.symm.trans hpe
      · refine ⟨p, hpq, ?_⟩
        rw [getElem?_place o.lt, if_neg hp]
        exact hpe
    · rintro ⟨p, hp, hpe⟩
      rw [getElem?_place o.lt] at hpe
      by_cases hpk : p = k
      · rw [if_pos hpk] at hpe
        exact ⟨q, hq, he.trans hpe⟩
      · rw [if_neg hpk] at hpe
        exact ⟨p, hpk, hpe⟩
  fresh := by
    intro p e' hp hpe
    rw [getElem?_place o.lt] at hpe
    by_cases hpk : p = k
    · rw [if_pos hpk] at hpe
      exact o.fresh q e' hq (he.trans hpe)
    · rw [if_neg hpk] at hpe
      exact o.fresh p e' hpk hpe
  pos := by
    intro p e' hp hpe
    rw [getElem?_place o.lt] at hpe
    unfold place
    dsimp only
    by_cases hpk : p = k
    · rw [if_pos hpk] at hpe
      rw [← Option.some.inj hpe, Function.update_self, hpk]
    · rw [if_neg hpk] at hpe
      -- two entries of one id would be in one place
      have hne : e'.2 ≠ e.2 := by
        intro hid
        have hpos := o.pos p e' hpk hpe
        rw [hid, o.pos q e hq he] at hpos
        exact hp (Option.some.inj hpos).symm
      rw [Function.update_of_ne hne]
      exact o.pos p e' hpk hpe
  of_pos := by
    intro id p hpos hid
    unfold place at hpos
    dsimp only at hpos
    by_cases hide : id = e.2
    · rw [hide, Function.update_self] at hpos
      obtain rfl := Option.some.inj hpos
      refine ⟨Ne.symm hq, e, ?_, hide.symm⟩
      rw [getElem?_place o.lt, if_pos rfl]
    · rw [Function.update_of_ne hide] at hpos
      obtain ⟨hpk, e', hpe, hid'⟩ := o.of_pos id p hpos hid
      refine ⟨?_, e', ?_, hid'⟩
      -- the position of another id is not `q`, which holds the entry that moves
      · rintro rfl
        exact hide (hid'.symm.trans (congrArg Prod.snd (Option.some.inj (hpe.symm.trans he))))
      · rw [getElem?_place o.lt, if_neg hpk]
        exact hpe

omit [LinearOrder K] in
/-- Filling the hole with `x` leaves an indexed heap with the entries `S`. -/
theorem Hole.fill {h : IndexedMinHeap n K} {k : ℕ} {x : K × Fin n} {S : Set (K × Fin n)}
    (o : Hole h k x S) : (h.place k x).Indexed ∧ ∀ e, e ∈ (h.place k x).heap ↔ e ∈ S := by
  constructor
  · intro id p
    rw [getElem?_place o.lt]
    unfold place
    dsimp only
    -- `pos` of the new entry is the hole, and no other entry has its id
    by_cases hid : id = x.2
    · rw [hid, Function.update_self]
      constructor
      · intro hp
        obtain rfl := Option.some.inj hp
        exact ⟨x, if_pos rfl, rfl⟩
      · rintro ⟨e, he, hex⟩
        by_cases hp : p = k
        · rw [hp]
        · rw [if_neg hp] at he
          exact absurd hex (o.fresh p e hp he)
    · rw [Function.update_of_ne hid]
      constructor
      · intro hp
        obtain ⟨hpk, e, he, hide⟩ := o.of_pos id p hp hid
        exact ⟨e, by rw [if_neg hpk]; exact he, hide⟩
      · rintro ⟨e, he, rfl⟩
        by_cases hp : p = k
        · rw [if_pos hp] at he
          exact absurd (congrArg Prod.snd (Option.some.inj he)).symm hid
        · rw [if_neg hp] at he
          exact o.pos p e hp he
  · intro e
    rw [o.mem_iff, List.mem_iff_getElem?]
    constructor
    · rintro ⟨p, hp⟩
      rw [getElem?_place o.lt] at hp
      by_cases hpk : p = k
      · rw [if_pos hpk] at hp
        exact .inl (Option.some.inj hp).symm
      · rw [if_neg hpk] at hp
        exact .inr ⟨p, hpk, hp⟩
    · rintro (rfl | ⟨p, hpk, hp⟩)
      · exact ⟨k, by rw [getElem?_place o.lt, if_pos rfl]⟩
      · exact ⟨p, by rw [getElem?_place o.lt, if_neg hpk]; exact hp⟩

/-! ## Sifting up -/

/-- Off the hole everything is in order, and the hole's children are after both `x`
    and the hole's parent. -/
structure UpOrder (h : IndexedMinHeap n K) (k : ℕ) (x : K × Fin n) : Prop where
  except : ∀ c, 0 < c → c < h.heap.length → c ≠ k → up c ≠ k → h.slot x (up c) ≤ h.slot x c
  below : ∀ c, 0 < c → c < h.heap.length → up c = k →
    toLex x ≤ h.slot x c ∧ (k ≠ 0 → h.slot x (up k) ≤ h.slot x c)

theorem UpOrder.move {h : IndexedMinHeap n K} {k : ℕ} {x e : K × Fin n} (o : UpOrder h k x)
    (hk : k ≠ 0) (hlt : k < h.heap.length) (he : h.heap.getD (up k) x = e)
    (hb : toLex x < toLex e) : UpOrder (h.place k e) (up k) x := by
  have hup : up k < k := up_lt (Nat.pos_of_ne_zero hk)
  have heslot : h.slot x (up k) = toLex e := congrArg toLex he
  constructor
  · intro c hc hcl hck hck'
    rw [place_length] at hcl
    rw [slot_place hlt, slot_place hlt]
    by_cases hc' : c = k
    · exact absurd (hc' ▸ rfl) hck'
    · rw [if_neg hc']
      by_cases hu : up c = k
      · rw [if_pos hu, ← heslot]
        exact (o.below c hc hcl hu).2 hk
      · rw [if_neg hu]
        exact o.except c hc hcl hc' hu
  · intro c hc hcl hu
    rw [place_length] at hcl
    -- the parent moves into the hole; its own parent is before it
    have hparent : up k ≠ 0 → h.slot x (up (up k)) ≤ toLex e := by
      intro h0
      have hup2 := up_lt (Nat.pos_of_ne_zero h0)
      rw [← heslot]
      exact o.except (up k) (Nat.pos_of_ne_zero h0) (hup.trans hlt) hup.ne (by omega)
    have hpp : up k ≠ 0 → (h.place k e).slot x (up (up k)) = h.slot x (up (up k)) := by
      intro h0
      have hup2 := up_lt (Nat.pos_of_ne_zero h0)
      rw [slot_place hlt, if_neg (by omega)]
    rw [slot_place hlt]
    by_cases hc' : c = k
    · rw [if_pos hc']
      exact ⟨hb.le, fun h0 => (hpp h0).le.trans (hparent h0)⟩
    · rw [if_neg hc']
      have hce : toLex e ≤ h.slot x c := by
        rw [← heslot, ← hu]
        exact o.except c hc hcl hc' (by omega)
      exact ⟨hb.le.trans hce, fun h0 => (hpp h0).le.trans ((hparent h0).trans hce)⟩

theorem UpOrder.fill {h : IndexedMinHeap n K} {k : ℕ} {x : K × Fin n} (o : UpOrder h k x)
    (hlt : k < h.heap.length) (hstop : k ≠ 0 → h.slot x (up k) ≤ toLex x) :
    (h.place k x).Ordered := by
  intro c hc hcl y
  rw [place_length] at hcl
  have hup := up_lt hc
  -- inside the array the default is not read
  have hy : ∀ p, p < h.heap.length → (h.place k x).slot y p = (h.place k x).slot x p := by
    intro p hp
    unfold slot
    rw [List.getD_eq_getElem _ _ (by rw [place_length]; exact hp),
      List.getD_eq_getElem _ _ (by rw [place_length]; exact hp)]
  rw [hy _ (hup.trans hcl), hy _ hcl, slot_place hlt, slot_place hlt]
  by_cases hck : c = k
  · subst hck
    rw [if_neg hup.ne, if_pos rfl]
    exact hstop (by omega)
  · rw [if_neg hck]
    by_cases hu : up c = k
    · rw [if_pos hu]
      exact (o.below c hc hcl hu).1
    · rw [if_neg hu]
      exact o.except c hc hcl hck hu

/-- `siftUp` fills a hole. -/
theorem siftUp_ok {h : IndexedMinHeap n K} {k : ℕ} {x : K × Fin n} {S : Set (K × Fin n)}
    (o : Hole h k x S) (ho : UpOrder h k x) :
    (h.siftUp k x).Ok ∧ ∀ e, e ∈ (h.siftUp k x).heap ↔ e ∈ S := by
  refine Loop.run_induct
    (P := fun s : IndexedMinHeap n K × ℕ => Hole s.1 s.2 x S ∧ UpOrder s.1 s.2 x)
    (Q := fun r : IndexedMinHeap n K => r.Ok ∧ ∀ e, e ∈ r.heap ↔ e ∈ S) ?_ ?_ ⟨o, ho⟩
  · rintro ⟨h, k⟩ s' ⟨o, ho⟩ hstep
    unfold siftUpStep at hstep
    dsimp only at hstep
    split_ifs at hstep with hk hb
    obtain rfl := Sum.inl.inj hstep
    have hup := up_lt (Nat.pos_of_ne_zero hk)
    have hget : h.heap[up k]? = some (h.heap.getD (up k) x) := by
      have hlt : k < h.heap.length := o.lt
      rw [List.getElem?_eq_getElem (by omega), List.getD_eq_getElem _ _ (by omega)]
    exact ⟨o.move hup.ne hget, ho.move hk o.lt rfl ((before_iff _ _).mp hb)⟩
  · rintro ⟨h, k⟩ r ⟨o, ho⟩ hstep
    unfold siftUpStep at hstep
    dsimp only at hstep
    obtain ⟨hi, hm⟩ := o.fill
    split_ifs at hstep with hk hb
    · obtain rfl := Sum.inr.inj hstep
      exact ⟨⟨hi, ho.fill o.lt fun hne => absurd hk hne⟩, hm⟩
    · obtain rfl := Sum.inr.inj hstep
      exact ⟨⟨hi, ho.fill o.lt fun _ => (not_before_iff _ _).mp hb⟩, hm⟩

/-! ## Sifting down -/

/-- The best child of `k` is the least of its children. -/
theorem best_least (h : IndexedMinHeap n K) (k : ℕ) (x : K × Fin n)
    {c : ℕ} (hc : 0 < c) (hcl : c < h.heap.length) (hu : up c = k) :
    h.slot x (h.best k x) ≤ h.slot x c := by
  -- the loop ends below its start and below each child that it compares
  have step : ∀ (l : List ℕ) (b : ℕ),
      h.slot x (l.foldl (fun best c =>
        if before (h.heap.getD c x) (h.heap.getD best x) then c else best) b) ≤ h.slot x b ∧
      ∀ c ∈ l, h.slot x (l.foldl (fun best c =>
        if before (h.heap.getD c x) (h.heap.getD best x) then c else best) b) ≤ h.slot x c := by
    intro l
    induction l with
    | nil => exact fun b => ⟨le_rfl, fun c hc => absurd hc List.not_mem_nil⟩
    | cons c l ih =>
      intro b
      rw [List.foldl_cons]
      obtain ⟨hb, hl⟩ := ih (if before (h.heap.getD c x) (h.heap.getD b x) then c else b)
      have hmin : h.slot x (if before (h.heap.getD c x) (h.heap.getD b x) then c else b)
          ≤ h.slot x b ∧
          h.slot x (if before (h.heap.getD c x) (h.heap.getD b x) then c else b)
          ≤ h.slot x c := by
        split_ifs with hbef
        · exact ⟨((before_iff _ _).mp hbef).le, le_rfl⟩
        · exact ⟨le_rfl, (not_before_iff _ _).mp hbef⟩
      refine ⟨hb.trans hmin.1, fun c' hc' => ?_⟩
      rcases List.mem_cons.mp hc' with rfl | hc'
      · exact hb.trans hmin.2
      · exact hl c' hc'
  obtain ⟨hfirst, hrest⟩ := step (List.range' (4 * k + 2)
    (min (4 * k + 5) h.heap.length - (4 * k + 2))) (4 * k + 1)
  unfold up at hu
  rcases Nat.lt_or_ge (4 * k + 1) c with hlt | hge
  · exact hrest c (List.mem_range'_1.mpr (by omega))
  · have hceq : c = 4 * k + 1 := by omega
    rw [hceq]
    exact hfirst

/-- Off the hole everything is in order, and both `x` and the hole's children are
    after the hole's parent. -/
structure DownOrder (h : IndexedMinHeap n K) (k : ℕ) (x : K × Fin n) : Prop where
  except : ∀ c, 0 < c → c < h.heap.length → c ≠ k → up c ≠ k → h.slot x (up c) ≤ h.slot x c
  above : k ≠ 0 → h.slot x (up k) ≤ toLex x
  grand : k ≠ 0 → ∀ c, 0 < c → c < h.heap.length → up c = k → h.slot x (up k) ≤ h.slot x c

theorem DownOrder.move {h : IndexedMinHeap n K} {k q : ℕ} {x e : K × Fin n} (o : DownOrder h k x)
    (hlt : k < h.heap.length) (hq : 0 < q) (hql : q < h.heap.length) (hqk : up q = k)
    (he : h.heap.getD q x = e) (hb : toLex e < toLex x)
    (hleast : ∀ c, 0 < c → c < h.heap.length → up c = k → toLex e ≤ h.slot x c) :
    DownOrder (h.place k e) q x := by
  have hup : k < q := hqk ▸ up_lt hq
  have heslot : h.slot x q = toLex e := congrArg toLex he
  constructor
  · intro c hc hcl hcq hcq'
    rw [place_length] at hcl
    rw [slot_place hlt, slot_place hlt]
    -- the old hole holds the moved child, between its new parent and the other children
    by_cases hck : c = k
    · have hk0 : k ≠ 0 := by omega
      have hupk := up_lt hc
      rw [hck] at hupk
      rw [if_pos hck, hck, if_neg hupk.ne, ← heslot]
      exact o.grand hk0 q hq hql hqk
    · rw [if_neg hck]
      by_cases hu : up c = k
      · rw [if_pos hu]
        exact hleast c hc hcl hu
      · rw [if_neg hu]
        exact o.except c hc hcl hck hu
  · intro _
    rw [slot_place hlt, if_pos hqk]
    exact hb.le
  · intro _ c hc hcl hu
    rw [place_length] at hcl
    have hcq := up_lt hc
    rw [slot_place hlt, slot_place hlt, if_pos hqk, if_neg (by omega), ← heslot, ← hu]
    exact o.except c hc hcl (by omega) (by omega)

theorem DownOrder.fill {h : IndexedMinHeap n K} {k : ℕ} {x : K × Fin n} (o : DownOrder h k x)
    (hlt : k < h.heap.length)
    (hstop : ∀ c, 0 < c → c < h.heap.length → up c = k → toLex x ≤ h.slot x c) :
    (h.place k x).Ordered := by
  refine UpOrder.fill ⟨o.except, fun c hc hcl hu => ⟨hstop c hc hcl hu, fun h0 => ?_⟩⟩ hlt o.above
  exact o.grand h0 c hc hcl hu

/-- `siftDown` fills a hole at the root. -/
theorem siftDown_ok {h : IndexedMinHeap n K} {x : K × Fin n} {S : Set (K × Fin n)}
    (o : Hole h 0 x S) (ho : DownOrder h 0 x) :
    (h.siftDown x).Ok ∧ ∀ e, e ∈ (h.siftDown x).heap ↔ e ∈ S := by
  -- a step moves the hole to the best child, and the loop ends where `x` fits
  refine Loop.run_induct
    (P := fun s : IndexedMinHeap n K × ℕ => Hole s.1 s.2 x S ∧ DownOrder s.1 s.2 x)
    (Q := fun r : IndexedMinHeap n K => r.Ok ∧ ∀ e, e ∈ r.heap ↔ e ∈ S) ?_ ?_ ⟨o, ho⟩
  · rintro ⟨h, k⟩ s' ⟨o, ho⟩ hstep
    unfold siftDownStep at hstep
    dsimp only at hstep o ho
    split_ifs at hstep with hlen hb
    obtain rfl := Sum.inl.inj hstep
    obtain ⟨hlo, hhi⟩ := h.best_mem k x (by omega)
    have hup : up (h.best k x) = k := by
      unfold up
      omega
    have hget : h.heap[h.best k x]? = some (h.heap.getD (h.best k x) x) := by
      rw [List.getElem?_eq_getElem (by omega), List.getD_eq_getElem _ _ (by omega)]
    exact ⟨o.move (by omega) hget, ho.move o.lt (by omega) (by omega) hup rfl
      ((before_iff _ _).mp hb) fun c hc hcl hu => h.best_least k x hc hcl hu⟩
  · rintro ⟨h, k⟩ r ⟨o, ho⟩ hstep
    unfold siftDownStep at hstep
    dsimp only at hstep
    obtain ⟨hi, hm⟩ := o.fill
    split_ifs at hstep with hlen hb
    · obtain rfl := Sum.inr.inj hstep
      refine ⟨⟨hi, ho.fill o.lt fun c hc hcl hu => ?_⟩, hm⟩
      dsimp only at hcl hu
      unfold up at hu
      omega
    · obtain rfl := Sum.inr.inj hstep
      refine ⟨⟨hi, ho.fill o.lt fun c hc hcl hu => ?_⟩, hm⟩
      exact ((not_before_iff _ _).mp hb).trans (h.best_least k x hc hcl hu)

/-! ## The operations -/

/-- A push replaces the id's entry, if there is one, by one with a key that is no
    larger. -/
theorem pushOrDecrease_ok {h : IndexedMinHeap n K} (hok : h.Ok) (id : Fin n) (key : K)
    (hdec : ∀ k', (k', id) ∈ h.heap → key ≤ k') :
    (h.pushOrDecrease id key).Ok ∧
      ∀ e, e ∈ (h.pushOrDecrease id key).heap ↔ e = (key, id) ∨ e ∈ h.heap ∧ e.2 ≠ id := by
  have hslot : ∀ {p : ℕ} {e : K × Fin n}, h.heap[p]? = some e → ∀ y, h.slot y p = toLex e := by
    intro p e hp y
    unfold slot
    rw [List.getD_eq_getElem?_getD, hp, Option.getD_some]
  unfold pushOrDecrease
  split
  · rename_i hnone
    -- the id is new: its entry is appended and sifted up
    have habsent : ∀ e ∈ h.heap, e.2 ≠ id := by
      intro e he hid
      obtain ⟨p, hp⟩ := List.mem_iff_getElem?.mp he
      rw [(hok.indexed id p).mpr ⟨e, hp, hid⟩] at hnone
      cases hnone
    have hold : ∀ {p : ℕ} {e : K × Fin n}, p ≠ h.heap.length →
        ((h.heap ++ [(key, id)])[p]? = some e ↔ h.heap[p]? = some e) := by
      intro p e hp
      rcases Nat.lt_or_gt_of_ne hp with hlt | hgt
      · rw [List.getElem?_append_left hlt]
      · rw [List.getElem?_eq_none (by simp; omega), List.getElem?_eq_none (by omega)]
    refine siftUp_ok (S := {e | e = (key, id) ∨ e ∈ h.heap ∧ e.2 ≠ id}) ⟨?_, ?_, ?_, ?_,
      ?_⟩ ⟨?_, ?_⟩
    · show h.heap.length < (h.heap ++ [(key, id)]).length
      simp
    · intro e
      refine or_congr_right ⟨?_, ?_⟩
      · rintro ⟨he, -⟩
        obtain ⟨p, hp⟩ := List.mem_iff_getElem?.mp he
        have hne : p ≠ h.heap.length := (List.getElem?_eq_some_iff.mp hp).1.ne
        exact ⟨p, hne, (hold hne).mpr hp⟩
      · rintro ⟨p, hne, hp⟩
        have he := List.mem_of_getElem? ((hold hne).mp hp)
        exact ⟨he, habsent e he⟩
    · intro p e hne hp
      exact habsent e (List.mem_of_getElem? ((hold hne).mp hp))
    · intro p e hne hp
      exact (hok.indexed e.2 p).mpr ⟨e, (hold hne).mp hp, rfl⟩
    · intro id' p hp _
      obtain ⟨e, he, hid'⟩ := (hok.indexed id' p).mp hp
      have hne : p ≠ h.heap.length := (List.getElem?_eq_some_iff.mp he).1.ne
      exact ⟨hne, e, (hold hne).mpr he, hid'⟩
    · intro c hc hcl hck hu
      have hlen : (h.heap ++ [(key, id)]).length = h.heap.length + 1 := by simp
      have hcl' : c < h.heap.length := by
        have : c < (h.heap ++ [(key, id)]).length := hcl
        omega
      have hup := up_lt hc
      have hold' : ∀ p, p < h.heap.length →
          slot { h with heap := h.heap ++ [(key, id)] } (key, id) p = h.slot (key, id) p := by
        intro p hp
        unfold slot
        dsimp only
        rw [List.getD_append _ _ _ _ hp]
      rw [hold' _ (hup.trans hcl'), hold' _ hcl']
      exact hok.ordered c hc hcl' _
    · intro c hc hcl hu
      have hcl' : c < (h.heap ++ [(key, id)]).length := hcl
      have hlen : (h.heap ++ [(key, id)]).length = h.heap.length + 1 := by simp
      have hup := up_lt hc
      omega
  · rename_i q hsome
    -- the id has an entry, at `q`: it is replaced there, by one that is no larger
    obtain ⟨eq, hq, hqid⟩ := (hok.indexed id q).mp hsome
    have hql : q < h.heap.length := (List.getElem?_eq_some_iff.mp hq).1
    have hkey : key ≤ eq.1 := hdec eq.1 (hqid ▸ List.mem_of_getElem? hq)
    have hle : toLex (key, id) ≤ toLex eq := by
      rw [Prod.Lex.toLex_le_toLex]
      rcases lt_or_eq_of_le hkey with hlt | heq
      · exact .inl hlt
      · exact .inr ⟨heq, hqid.ge⟩
    have hold : ∀ {p : ℕ} {e : K × Fin n}, p ≠ q →
        ((h.heap.set q (key, id))[p]? = some e ↔ h.heap[p]? = some e) := by
      intro p e hp
      rw [List.getElem?_set_ne (Ne.symm hp)]
    have hold' : ∀ p, p ≠ q →
        slot { h with heap := h.heap.set q (key, id) } (key, id) p = h.slot (key, id) p := by
      intro p hp
      unfold slot
      dsimp only
      rw [List.getD_eq_getElem?_getD, List.getElem?_set_ne (Ne.symm hp),
        List.getD_eq_getElem?_getD]
    refine siftUp_ok (S := {e | e = (key, id) ∨ e ∈ h.heap ∧ e.2 ≠ id}) ⟨?_, ?_, ?_, ?_,
      ?_⟩ ⟨?_, ?_⟩
    · show q < (h.heap.set q (key, id)).length
      rw [List.length_set]
      exact hql
    · intro e
      refine or_congr_right ⟨?_, ?_⟩
      · rintro ⟨he, hid⟩
        obtain ⟨p, hp⟩ := List.mem_iff_getElem?.mp he
        have hne : p ≠ q := by
          rintro rfl
          exact hid (Option.some.inj (hp.symm.trans hq) ▸ hqid)
        exact ⟨p, hne, (hold hne).mpr hp⟩
      · rintro ⟨p, hne, hp⟩
        have hp' := (hold hne).mp hp
        refine ⟨List.mem_of_getElem? hp', fun hid => hne ?_⟩
        exact (hok.indexed.unique hp' hq (hid.trans hqid.symm)).1
    · intro p e hne hp hid
      exact hne (hok.indexed.unique ((hold hne).mp hp) hq (hid.trans hqid.symm)).1
    · intro p e hne hp
      exact (hok.indexed e.2 p).mpr ⟨e, (hold hne).mp hp, rfl⟩
    · intro id' p hp hid
      obtain ⟨e, he, hid'⟩ := (hok.indexed id' p).mp hp
      have hne : p ≠ q := by
        rintro rfl
        exact hid (hid'.symm.trans (Option.some.inj (he.symm.trans hq) ▸ hqid))
      exact ⟨hne, e, (hold hne).mpr he, hid'⟩
    · intro c hc hcl hck hu
      have hcl' : c < h.heap.length := by
        have : c < (h.heap.set q (key, id)).length := hcl
        rwa [List.length_set] at this
      rw [hold' _ hu, hold' _ hck]
      exact hok.ordered c hc hcl' _
    · intro c hc hcl hu
      have hcl' : c < h.heap.length := by
        have : c < (h.heap.set q (key, id)).length := hcl
        rwa [List.length_set] at this
      have hup := up_lt hc
      have hcq : c ≠ q := by omega
      -- the children of `q` are above the old entry, and so above the new one
      have hchild : toLex eq ≤ h.slot (key, id) c := by
        have := hok.ordered c hc hcl' (key, id)
        rwa [hu, hslot hq] at this
      rw [hold' c hcq]
      refine ⟨hle.trans hchild, fun h0 => ?_⟩
      have hupq := up_lt (Nat.pos_of_ne_zero h0)
      rw [hold' _ hupq.ne]
      refine le_trans ?_ hchild
      have := hok.ordered q (Nat.pos_of_ne_zero h0) hql (key, id)
      rwa [hslot hq] at this

/-- A pop removes exactly the top entry. -/
theorem pop_ok {h : IndexedMinHeap n K} (hok : h.Ok) {e₀ : K × Fin n} (htop : h.top? = some e₀) :
    h.pop.Ok ∧ ∀ e, e ∈ h.pop.heap ↔ e ∈ h.heap ∧ e.2 ≠ e₀.2 := by
  unfold top? at htop
  have h0 : h.heap[0]? = some e₀ := by rw [← List.head?_eq_getElem?, htop]
  have hfirst : ∀ {p : ℕ} {e : K × Fin n}, h.heap[p]? = some e → (e.2 = e₀.2 ↔ p = 0) := by
    intro p e hp
    constructor
    · exact fun hid => (hok.indexed.unique hp h0 hid).1
    · rintro rfl
      rw [Option.some.inj (hp.symm.trans h0)]
  unfold pop
  split
  · rename_i hnil
    rw [hnil] at htop
    cases htop
  · rename_i e l heq
    rw [heq] at htop
    obtain rfl := Option.some.inj htop
    have hlen : h.heap.length = l.length + 1 := by rw [heq, List.length_cons]
    dsimp only
    split_ifs with hl
    -- the top was the only entry
    · subst hl
      refine ⟨⟨?_, ?_⟩, ?_⟩
      · intro id p
        constructor
        · intro hp
          dsimp only at hp
          by_cases hid : id = e.2
          · rw [hid, Function.update_self] at hp
            cases hp
          · rw [Function.update_of_ne hid] at hp
            obtain ⟨e', he', rfl⟩ := (hok.indexed id p).mp hp
            have := (List.getElem?_eq_some_iff.mp he').1
            rw [hlen] at this
            exact absurd ((hfirst he').mpr (Nat.lt_one_iff.mp this)) hid
        · rintro ⟨e', he', -⟩
          cases he'
      · exact fun c _ hc => absurd hc (Nat.not_lt_zero c)
      · intro e'
        rw [heq]
        refine ⟨fun hc => absurd hc List.not_mem_nil, ?_⟩
        rintro ⟨hmem, hid⟩
        rw [List.mem_singleton] at hmem
        exact absurd (hmem ▸ rfl) hid
    -- the last entry takes the top's place and is sifted down from there
    · have hpos : 0 < l.length := List.length_pos_iff.mpr hl
      set last := l.getLastD e with hlast
      have hlastget : h.heap[l.length]? = some last := by
        rw [heq, hlast, List.getLastD_eq_getLast?, List.getLast?_eq_getElem?]
        obtain ⟨m, hm⟩ := Nat.exists_eq_succ_of_ne_zero hpos.ne'
        rw [hm, List.getElem?_cons_succ, Nat.succ_sub_one, List.getElem?_eq_getElem (by omega)]
        rfl
      have hget : ∀ {p : ℕ}, p < l.length → (e :: l).dropLast[p]? = h.heap[p]? := by
        intro p hp
        rw [heq, List.getElem?_dropLast, if_pos (by rw [List.length_cons]; omega)]
      have hnone : ∀ {p : ℕ}, l.length ≤ p → (e :: l).dropLast[p]? = none := by
        intro p hp
        rw [List.getElem?_dropLast, if_neg (by rw [List.length_cons]; omega)]
      have hlt_of : ∀ {p : ℕ} {e' : K × Fin n}, (e :: l).dropLast[p]? = some e' →
          p < l.length ∧ h.heap[p]? = some e' := by
        intro p e' hp
        rcases Nat.lt_or_ge p l.length with hlt | hge
        · exact ⟨hlt, hget hlt ▸ hp⟩
        · rw [hnone hge] at hp
          cases hp
      have hlastid : last.2 ≠ e.2 := fun hid => hpos.ne' ((hfirst hlastget).mp hid)
      have hslot : ∀ p, p < l.length →
          slot { h with heap := (e :: l).dropLast, pos := Function.update h.pos e.2 none } last p
            = h.slot last p := by
        intro p hp
        unfold slot
        dsimp only
        rw [List.getD_eq_getElem?_getD, hget hp, List.getD_eq_getElem?_getD]
      refine siftDown_ok (S := {e' | e' ∈ h.heap ∧ e'.2 ≠ e.2}) ⟨?_, ?_, ?_, ?_, ?_⟩ ⟨?_, ?_, ?_⟩
      · show 0 < ((e :: l).dropLast).length
        rw [List.length_dropLast, List.length_cons]
        omega
      · intro e'
        constructor
        · rintro ⟨hmem, hid⟩
          obtain ⟨p, hp⟩ := List.mem_iff_getElem?.mp hmem
          have hp0 : p ≠ 0 := fun h => hid ((hfirst hp).mpr h)
          have hpl := (List.getElem?_eq_some_iff.mp hp).1
          rcases Nat.lt_or_ge p l.length with hlt | hge
          · exact .inr ⟨p, hp0, (hget hlt).trans hp⟩
          · have hpeq : p = l.length := by omega
            subst hpeq
            exact .inl (Option.some.inj (hp.symm.trans hlastget))
        · rintro (rfl | ⟨p, hp0, hp⟩)
          · exact ⟨List.mem_of_getElem? hlastget, hlastid⟩
          · obtain ⟨-, hp'⟩ := hlt_of hp
            exact ⟨List.mem_of_getElem? hp', fun hid => hp0 ((hfirst hp').mp hid)⟩
      · intro p e' _ hp hid
        obtain ⟨hlt, hp'⟩ := hlt_of hp
        exact hlt.ne (hok.indexed.unique hp' hlastget hid).1
      · intro p e' hp0 hp
        obtain ⟨-, hp'⟩ := hlt_of hp
        dsimp only
        rw [Function.update_of_ne fun hid => hp0 ((hfirst hp').mp hid)]
        exact (hok.indexed e'.2 p).mpr ⟨e', hp', rfl⟩
      · intro id p hp hid
        dsimp only at hp
        have hide : id ≠ e.2 := by
          rintro rfl
          rw [Function.update_self] at hp
          cases hp
        rw [Function.update_of_ne hide] at hp
        obtain ⟨e', he', hid'⟩ := (hok.indexed id p).mp hp
        have hpl := (List.getElem?_eq_some_iff.mp he').1
        have hne : p ≠ l.length := by
          rintro rfl
          exact hid (hid' ▸ congrArg Prod.snd (Option.some.inj (he'.symm.trans hlastget)))
        refine ⟨fun hp0 => hide (hid' ▸ (hfirst he').mpr hp0), e', ?_, hid'⟩
        exact (hget (by omega)).trans he'
      · intro c hc hcl _ hu
        have hcl' : c < l.length := by
          have : c < ((e :: l).dropLast).length := hcl
          rw [List.length_dropLast, List.length_cons] at this
          omega
        have hup := up_lt hc
        rw [hslot _ (hup.trans hcl'), hslot _ hcl']
        exact hok.ordered c hc (by omega) _
      · exact fun hc => absurd rfl hc
      · exact fun hc => absurd rfl hc

end IndexedMinHeap
end Matching
end SmfSolver
