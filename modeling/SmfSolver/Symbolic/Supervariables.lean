/-
  SmfSolver.Symbolic.Supervariables

  The compression of a graph by indistinguishable vertices (`compress_closed_adjacency` of
  `ordering_parallel_nd.cpp`).  A vertex claims those of its larger neighbours whose closed
  neighbourhood is its own; key sums and degrees only spare comparisons.

  * `tryClaim_spec`: one comparison claims the neighbour iff the closed neighbourhoods agree.
  * `ClaimInv.claim`: the vertices up to `i` have claimed the classes they are the first
    members of.
  * `compress_classes`: supervariables are the classes, numbered by their smallest members.
-/
import SmfSolver.Lib.FirstMember
import SmfSolver.Symbolic.GraphLists

namespace SmfSolver
namespace Symbolic

open Lib

/-! ## The program -/

/-- `key`: the sum of the closed neighbourhood, in 64 bits. -/
def closedKey (xadj adjncy : List ℕ) (v : ℕ) : UInt64 :=
  (adjacencyList xadj adjncy v).foldl (fun k w => k + UInt64.ofNat w) (UInt64.ofNat v)

/-- The representatives and the marks. -/
structure ClaimState where
  rep : ℕ → Option ℕ
  mark : ℕ → Option ℕ
  marked : Bool

/-- Mark the closed neighbourhood of `i`. -/
def ClaimState.markClosed (adj : List ℕ) (i : ℕ) (s : ClaimState) : ClaimState :=
  { s with mark := adj.foldl (fun mark w => Function.update mark w (some i))
             (Function.update s.mark i (some i))
           marked := true }

/-- Neighbour `j` of the representative `i`. -/
def tryClaim (xadj adjncy : List ℕ) (i : ℕ) (s : ClaimState) (j : ℕ) : ClaimState :=
  if j ≤ i ∨ s.rep j ≠ none ∨ closedKey xadj adjncy j ≠ closedKey xadj adjncy i ∨
      xadj.getD (j + 1) 0 - xadj.getD j 0 ≠ xadj.getD (i + 1) 0 - xadj.getD i 0 then s
  else
    let s := if s.marked then s else s.markClosed (adjacencyList xadj adjncy i) i
    if (adjacencyList xadj adjncy j).all fun w => s.mark w = some i then
      { s with rep := Function.update s.rep j (some i) }
    else s

/-- Vertex `i`: unless it is claimed, it represents itself and tries its neighbours. -/
def claim (xadj adjncy : List ℕ) (s : ClaimState) (i : ℕ) : ClaimState :=
  if s.rep i ≠ none then s
  else
    (adjacencyList xadj adjncy i).foldl (tryClaim xadj adjncy i)
      { s with rep := Function.update s.rep i (some i), marked := false }

/-- The supervariable of `v`: the next number for a representative, else that of its
    representative. -/
def numberSuper (rep : ℕ → Option ℕ) (acc : (ℕ → Option ℕ) × ℕ) (v : ℕ) :
    (ℕ → Option ℕ) × ℕ :=
  if rep v = some v then (Function.update acc.1 v (some acc.2), acc.2 + 1)
  else (Function.update acc.1 v ((rep v).bind acc.1), acc.2)

/-- `compress_closed_adjacency`: `super_of` and the number of supervariables. -/
def compressClosedAdjacency (n : ℕ) (xadj adjncy : List ℕ) : (ℕ → Option ℕ) × ℕ :=
  if n = 0 then (fun _ => none, 0)
  else
    let s := (List.range n).foldl (claim xadj adjncy) ⟨fun _ => none, fun _ => none, false⟩
    (List.range n).foldl (numberSuper s.rep) (fun _ => none, 0)

/-! ## Closed neighbourhoods -/

variable {n : ℕ} {xadj adjncy : List ℕ} {i j u v : ℕ}

/-- The same closed neighbourhood. -/
def SameClosed (xadj adjncy : List ℕ) (u v : ℕ) : Prop :=
  ∀ w, w ∈ u :: adjacencyList xadj adjncy u ↔ w ∈ v :: adjacencyList xadj adjncy v

theorem sameClosed_equivalence : Equivalence (SameClosed xadj adjncy) where
  refl _ _ := Iff.rfl
  symm h w := (h w).symm
  trans h₁ h₂ w := (h₁ w).trans (h₂ w)

theorem ListGraph.closed_nodup (g : ListGraph n xadj adjncy) (hu : u < n) :
    (u :: adjacencyList xadj adjncy u).Nodup :=
  List.nodup_cons.mpr ⟨g.loopless u hu, g.nodup u hu⟩

theorem ListGraph.closed_perm (g : ListGraph n xadj adjncy) (hu : u < n) (hv : v < n)
    (h : SameClosed xadj adjncy u v) :
    (u :: adjacencyList xadj adjncy u).Perm (v :: adjacencyList xadj adjncy v) :=
  (List.perm_ext_iff_of_nodup (g.closed_nodup hu) (g.closed_nodup hv)).mpr h

/-- Equal closed neighbourhoods have equal key sums. -/
theorem ListGraph.key_eq (g : ListGraph n xadj adjncy) (hu : u < n) (hv : v < n)
    (h : SameClosed xadj adjncy u v) : closedKey xadj adjncy u = closedKey xadj adjncy v := by
  have hsum : ∀ x, closedKey xadj adjncy x =
      (x :: adjacencyList xadj adjncy x).foldl (fun k w => k + UInt64.ofNat w) 0 := by
    intro x
    rw [List.foldl_cons, UInt64.zero_add]
    rfl
  rw [hsum, hsum]
  refine (g.closed_perm hu hv h).foldl_eq' (fun x _ y _ k => ?_) 0
  rw [UInt64.add_assoc, UInt64.add_assoc, UInt64.add_comm (UInt64.ofNat x)]

/-- Equal closed neighbourhoods have equal degrees. -/
theorem ListGraph.degree_eq (g : ListGraph n xadj adjncy) (hu : u < n) (hv : v < n)
    (h : SameClosed xadj adjncy u v) :
    xadj.getD (u + 1) 0 - xadj.getD u 0 = xadj.getD (v + 1) 0 - xadj.getD v 0 := by
  have hlen := (g.closed_perm hu hv h).length_eq
  rw [List.length_cons, List.length_cons, g.length hu, g.length hv] at hlen
  omega

/-- Neighbours of one degree have the same closed neighbourhood once one of them contains the
    other's neighbours. -/
theorem ListGraph.sameClosed_of_subset (g : ListGraph n xadj adjncy) (hi : i < n) (hj : j < n)
    (hadj : j ∈ adjacencyList xadj adjncy i)
    (hdeg : xadj.getD (j + 1) 0 - xadj.getD j 0 = xadj.getD (i + 1) 0 - xadj.getD i 0)
    (hsub : ∀ w ∈ adjacencyList xadj adjncy j, w ∈ i :: adjacencyList xadj adjncy i) :
    SameClosed xadj adjncy i j := by
  have hclosed : j :: adjacencyList xadj adjncy j ⊆ i :: adjacencyList xadj adjncy i := by
    refine List.cons_subset.mpr ⟨List.mem_cons_of_mem i hadj, hsub⟩
  have hperm : (j :: adjacencyList xadj adjncy j).Perm (i :: adjacencyList xadj adjncy i) := by
    refine ((g.closed_nodup hj).subperm hclosed).perm_of_length_le ?_
    rw [List.length_cons, List.length_cons, g.length hi, g.length hj, hdeg]
  exact fun w => hperm.mem_iff.symm

/-! ## One comparison -/

/-- The marks of representative `i`, set or not set. -/
def MarkOk (adj : List ℕ) (i : ℕ) (s : ClaimState) : Prop :=
  ∀ w, s.mark w = some i ↔ s.marked = true ∧ w ∈ i :: adj

theorem markClosed_mark (adj : List ℕ) (i : ℕ) (s : ClaimState) (w : ℕ) :
    (s.markClosed adj i).mark w = if w ∈ i :: adj then some i else s.mark w := by
  have hfold : ∀ (l : List ℕ) (mark : ℕ → Option ℕ),
      l.foldl (fun mark w => Function.update mark w (some i)) mark w =
        if w ∈ l then some i else mark w := by
    intro l
    induction l with
    | nil => intro mark; rfl
    | cons x l ih =>
      intro mark
      rw [List.foldl_cons, ih]
      by_cases hwx : w = x
      · rw [hwx, Function.update_self, ite_self, if_pos List.mem_cons_self]
      · rw [Function.update_of_ne hwx]
        exact if_congr (by rw [List.mem_cons, or_iff_right hwx]) rfl rfl
  exact hfold (i :: adj) s.mark

theorem markClosed_ok {adj : List ℕ} {s : ClaimState} (h : MarkOk adj i s) :
    MarkOk adj i (s.markClosed adj i) := by
  intro w
  rw [markClosed_mark]
  by_cases hw : w ∈ i :: adj
  · rw [if_pos hw]
    exact iff_of_true rfl ⟨rfl, hw⟩
  · rw [if_neg hw, h w]
    exact iff_of_false (fun hm => hw hm.2) fun hm => hw hm.2

/-- A comparison claims the neighbour iff it is larger, unclaimed and indistinguishable. -/
theorem tryClaim_spec (g : ListGraph n xadj adjncy) (hi : i < n)
    (hadj : j ∈ adjacencyList xadj adjncy i) {s : ClaimState}
    (hmark : MarkOk (adjacencyList xadj adjncy i) i s) :
    MarkOk (adjacencyList xadj adjncy i) i (tryClaim xadj adjncy i s j) ∧
      (∀ w k, (tryClaim xadj adjncy i s j).mark w = some k → k = i ∨ s.mark w = some k) ∧
      ∀ v r, (tryClaim xadj adjncy i s j).rep v = some r ↔
        s.rep v = some r ∨
          v = j ∧ r = i ∧ i < j ∧ s.rep j = none ∧ SameClosed xadj adjncy i j := by
  have hj := g.lt i hi j hadj
  unfold tryClaim
  by_cases hskip : j ≤ i ∨ s.rep j ≠ none ∨ closedKey xadj adjncy j ≠ closedKey xadj adjncy i ∨
      xadj.getD (j + 1) 0 - xadj.getD j 0 ≠ xadj.getD (i + 1) 0 - xadj.getD i 0
  · rw [if_pos hskip]
    refine ⟨hmark, fun w k h => .inr h, fun v r => ⟨.inl, ?_⟩⟩
    rintro (h | ⟨-, -, hlt, hnone, hsame⟩)
    · exact h
    · -- nothing that is passed over is indistinguishable
      rcases hskip with hle | hrep | hkey | hdeg
      · omega
      · exact absurd hnone hrep
      · exact absurd (g.key_eq hi hj hsame).symm hkey
      · exact absurd (g.degree_eq hi hj hsame).symm hdeg
  · rw [if_neg hskip]
    simp only [not_or, not_le, not_not] at hskip
    obtain ⟨hlt, hnone, -, hdeg⟩ := hskip
    dsimp only
    generalize ht : (if s.marked = true then s
      else s.markClosed (adjacencyList xadj adjncy i) i) = t
    -- the marks of `i` are set before its first comparison and stay for the rest
    obtain ⟨hmarked, hok, hmarks, hrep⟩ : t.marked = true ∧
        MarkOk (adjacencyList xadj adjncy i) i t ∧
        (∀ w k, t.mark w = some k → k = i ∨ s.mark w = some k) ∧ t.rep = s.rep := by
      by_cases hm : s.marked = true
      · rw [if_pos hm] at ht
        subst ht
        exact ⟨hm, hmark, fun w k h => .inr h, rfl⟩
      · rw [if_neg hm] at ht
        subst ht
        refine ⟨rfl, markClosed_ok hmark, fun w k h => ?_, rfl⟩
        rw [markClosed_mark] at h
        split_ifs at h with hw
        · exact .inl (Option.some.inj h).symm
        · exact .inr h
    -- equal degrees make the inclusion that the marks show an equality
    have hall : ((adjacencyList xadj adjncy j).all fun w => decide (t.mark w = some i)) = true ↔
        SameClosed xadj adjncy i j := by
      rw [List.all_eq_true]
      constructor
      · intro h
        exact g.sameClosed_of_subset hi hj hadj hdeg fun w hw =>
          ((hok w).mp (of_decide_eq_true (h w hw))).2
      · intro h w hw
        exact decide_eq_true ((hok w).mpr ⟨hmarked, (h w).mpr (List.mem_cons_of_mem j hw)⟩)
    by_cases hsame : SameClosed xadj adjncy i j
    · rw [if_pos (hall.mpr hsame)]
      refine ⟨hok, hmarks, fun v r => ?_⟩
      change Function.update t.rep j (some i) v = some r ↔ _
      by_cases hvj : v = j
      · rw [hvj, Function.update_self, hnone, Option.some.injEq]
        exact ⟨fun h => .inr ⟨rfl, h.symm, hlt, rfl, hsame⟩, fun h =>
          h.elim nofun fun h => h.2.1.symm⟩
      · rw [Function.update_of_ne hvj, hrep]
        exact ⟨.inl, fun h => h.elim id fun h => absurd h.1 hvj⟩
    · rw [if_neg (mt hall.mp hsame)]
      refine ⟨hok, hmarks, fun v r => ?_⟩
      rw [hrep]
      exact ⟨.inl, fun h => h.elim id fun h => absurd h.2.2.2.2 hsame⟩

/-- The comparisons of a representative with a list of neighbours. -/
theorem tryClaims_spec (g : ListGraph n xadj adjncy) (hi : i < n) {l : List ℕ}
    (hl : l ⊆ adjacencyList xadj adjncy i) {s : ClaimState}
    (hmark : MarkOk (adjacencyList xadj adjncy i) i s) :
    (∀ w k, (l.foldl (tryClaim xadj adjncy i) s).mark w = some k → k = i ∨ s.mark w = some k) ∧
      ∀ v r, (l.foldl (tryClaim xadj adjncy i) s).rep v = some r ↔
        s.rep v = some r ∨
          v ∈ l ∧ r = i ∧ i < v ∧ s.rep v = none ∧ SameClosed xadj adjncy i v := by
  -- on the list: a vertex is claimed at its first turn or not at all
  induction l generalizing s with
  | nil => exact ⟨fun w k h => .inr h, fun v r => by simp⟩
  | cons j l ih =>
    obtain ⟨hj, hl⟩ := List.cons_subset.mp hl
    obtain ⟨hok, hmarks, hrep⟩ := tryClaim_spec g hi hj hmark
    obtain ⟨hmarks', hrep'⟩ := ih hl hok
    rw [List.foldl_cons]
    refine ⟨fun w k h => ?_, fun v r => ?_⟩
    · exact (hmarks' w k h).elim .inl (hmarks w k)
    · rw [hrep']
      constructor
      · rintro (h | ⟨hv, hr, hlt, hnone, hsame⟩)
        · rcases (hrep v r).mp h with h | ⟨rfl, hr, hlt, hnone, hsame⟩
          · exact .inl h
          · exact .inr ⟨List.mem_cons_self, hr, hlt, hnone, hsame⟩
        · refine .inr ⟨List.mem_cons_of_mem j hv, hr, hlt, ?_, hsame⟩
          refine Option.eq_none_iff_forall_ne_some.mpr fun r' h => ?_
          rw [(hrep v r').mpr (.inl h)] at hnone
          cases hnone
      · rintro (h | ⟨hv, rfl, hlt, hnone, hsame⟩)
        · exact .inl ((hrep v r).mpr (.inl h))
        · by_cases hvj : v = j
          · subst hvj
            exact .inl ((hrep v r).mpr (.inr ⟨rfl, rfl, hlt, hnone, hsame⟩))
          · have hvl := (List.mem_cons.mp hv).resolve_left hvj
            refine .inr ⟨hvl, rfl, hlt, ?_, hsame⟩
            refine Option.eq_none_iff_forall_ne_some.mpr fun r' h => ?_
            rcases (hrep v r').mp h with h | h
            · rw [h] at hnone
              cases hnone
            · exact hvj h.1

/-! ## The search -/

/-- The vertices below `m` have claimed the classes they are the first members of. -/
structure ClaimInv (n : ℕ) (xadj adjncy : List ℕ) (m : ℕ) (s : ClaimState) : Prop where
  rep_iff : ∀ v < n, ∀ r, s.rep v = some r ↔ r < m ∧ IsFirst (SameClosed xadj adjncy) r v
  mark_lt : ∀ w k, s.mark w = some k → k < m

theorem ClaimInv.claim (g : ListGraph n xadj adjncy) {s : ClaimState}
    (inv : ClaimInv n xadj adjncy i s) (hi : i < n) :
    ClaimInv n xadj adjncy (i + 1) (claim xadj adjncy s i) := by
  have hR : Equivalence (SameClosed xadj adjncy) := sameClosed_equivalence
  unfold Symbolic.claim
  by_cases hrep : s.rep i ≠ none
  · -- a smaller vertex has claimed `i`, so `i` is the first member of no class
    rw [if_pos hrep]
    obtain ⟨r₀, hr₀⟩ := Option.ne_none_iff_exists'.mp hrep
    obtain ⟨hlt, hfirst⟩ := (inv.rep_iff i hi r₀).mp hr₀
    refine ⟨fun v hv r => (inv.rep_iff v hv r).trans ?_, fun w k h =>
      (inv.mark_lt w k h).trans (Nat.lt_succ_self i)⟩
    refine ⟨fun h => ⟨by omega, h.2⟩, fun h => ⟨?_, h.2⟩⟩
    rcases Nat.lt_succ_iff_lt_or_eq.mp h.1 with hr | rfl
    · exact hr
    · have := (h.2.self hR).unique hfirst
      omega
  · rw [if_neg hrep]
    have hnone : s.rep i = none := not_not.mp hrep
    -- unclaimed, `i` is the first of its class: a smaller first would have claimed it
    have hself : IsFirst (SameClosed xadj adjncy) i i := by
      obtain ⟨r, hle, hfirst⟩ := exists_isFirst hR i
      rcases hle.lt_or_eq with hlt | rfl
      · rw [(inv.rep_iff i hi r).mpr ⟨hlt, hfirst⟩] at hnone
        cases hnone
      · exact hfirst
    -- no vertex bears the mark of `i` yet
    have hmark : MarkOk (adjacencyList xadj adjncy i) i
        { s with rep := Function.update s.rep i (some i), marked := false } := by
      refine fun w => iff_of_false (fun h => ?_) fun h => Bool.noConfusion h.1
      exact lt_irrefl i (inv.mark_lt w i h)
    obtain ⟨hmarks, hreps⟩ := tryClaims_spec g hi (List.Subset.refl _) hmark
    refine ⟨fun v hv r => (hreps v r).trans ?_, fun w k h => ?_⟩
    · change Function.update s.rep i (some i) v = some r ∨ v ∈ _ ∧ r = i ∧ i < v ∧
        Function.update s.rep i (some i) v = none ∧ _ ↔ _
      by_cases hvi : v = i
      · rw [hvi, Function.update_self, Option.some.injEq]
        constructor
        · rintro (rfl | h)
          · exact ⟨Nat.lt_succ_self _, hself⟩
          · exact absurd h.2.2.1 (lt_irrefl i)
        · exact fun h => .inl (hself.unique h.2)
      · rw [Function.update_of_ne hvi, inv.rep_iff v hv]
        constructor
        · rintro (h | ⟨-, rfl, -, -, hsame⟩)
          · exact ⟨by omega, h.2⟩
          · exact ⟨Nat.lt_succ_self _, hself.of_rel hR hsame⟩
        · rintro ⟨hlt, hfirst⟩
          rcases Nat.lt_succ_iff_lt_or_eq.mp hlt with hr | rfl
          · exact .inl ⟨hr, hfirst⟩
          · -- an indistinguishable vertex is a neighbour
            have hmem := (hfirst.1 v).mpr List.mem_cons_self
            refine .inr ⟨(List.mem_cons.mp hmem).resolve_left hvi, rfl, ?_, ?_, hfirst.1⟩
            · exact (hfirst.le hR).lt_of_ne (Ne.symm hvi)
            · refine Option.eq_none_iff_forall_ne_some.mpr fun r' h => ?_
              obtain ⟨hlt', hfirst'⟩ := (inv.rep_iff v hv r').mp h
              exact hlt'.ne (hfirst'.unique hfirst)
    · rcases hmarks w k h with rfl | h
      · exact Nat.lt_succ_self k
      · exact (inv.mark_lt w k h).trans (Nat.lt_succ_self i)

/-- After the search every vertex has the first member of its class. -/
theorem claims_spec (g : ListGraph n xadj adjncy) {m : ℕ} (hm : m ≤ n) :
    ClaimInv n xadj adjncy m
      ((List.range m).foldl (claim xadj adjncy) ⟨fun _ => none, fun _ => none, false⟩) := by
  induction m with
  | zero =>
    exact ⟨fun v _ r => iff_of_false nofun fun h => Nat.not_lt_zero r h.1, nofun⟩
  | succ m ih =>
    rw [List.range_succ, List.foldl_append]
    exact (ih (by omega)).claim g (by omega)

/-! ## The numbering -/

open Classical in
/-- The numbers given to the vertices below `m`. -/
theorem numberSuper_spec {R : ℕ → ℕ → Prop} (hR : Equivalence R) {rep : ℕ → Option ℕ}
    (hrep : ∀ v < n, ∀ r, rep v = some r ↔ IsFirst R r v) {m : ℕ} (hm : m ≤ n) :
    ((List.range m).foldl (numberSuper rep) (fun _ => none, 0)).2 =
        Nat.count (fun w => IsFirst R w w) m ∧
      ∀ v < m, ∀ r, IsFirst R r v →
        ((List.range m).foldl (numberSuper rep) (fun _ => none, 0)).1 v =
          some (Nat.count (fun w => IsFirst R w w) r) := by
  induction m with
  | zero => exact ⟨rfl, fun v hv => absurd hv (Nat.not_lt_zero v)⟩
  | succ m ih =>
    obtain ⟨hcount, hnum⟩ := ih (by omega)
    rw [List.range_succ, List.foldl_append, List.foldl_cons, List.foldl_nil, Nat.count_succ]
    generalize (List.range m).foldl (numberSuper rep) (fun _ => none, 0) = acc at hcount hnum ⊢
    unfold numberSuper
    -- a representative gets the next number, any other vertex that of its representative
    by_cases hself : rep m = some m
    · have hfirst := (hrep m hm m).mp hself
      rw [if_pos hself, if_pos hfirst]
      refine ⟨congrArg (· + 1) hcount, fun v hv r hr => ?_⟩
      change Function.update acc.1 m (some acc.2) v = _
      rcases Nat.lt_succ_iff_lt_or_eq.mp hv with hv | rfl
      · rw [Function.update_of_ne hv.ne, hnum v hv r hr]
      · rw [Function.update_self, hcount, hr.unique hfirst]
    · rw [if_neg hself, if_neg fun h => hself ((hrep m hm m).mpr h)]
      refine ⟨hcount, fun v hv r hr => ?_⟩
      change Function.update acc.1 m ((rep m).bind acc.1) v = _
      rcases Nat.lt_succ_iff_lt_or_eq.mp hv with hv | rfl
      · rw [Function.update_of_ne hv.ne, hnum v hv r hr]
      · -- the representative is smaller and has its number already
        have hrv := (hrep v hm r).mpr hr
        have hlt : r < v := (hr.le hR).lt_of_ne fun h => hself (h ▸ hrv)
        rw [Function.update_self, hrv, Option.bind_some, hnum r hlt r (hr.self hR)]

/-- Two vertices are in one supervariable iff their closed neighbourhoods are equal, every
    vertex is in one, and the supervariables are numbered `0, 1, 2, …` in the order of their
    smallest members. -/
theorem compress_classes (g : ListGraph n xadj adjncy) :
    (∀ u < n, ∀ v < n, (compressClosedAdjacency n xadj adjncy).1 u =
      (compressClosedAdjacency n xadj adjncy).1 v ↔ SameClosed xadj adjncy u v) ∧
    (∀ v < n, ∃ k, (compressClosedAdjacency n xadj adjncy).1 v = some k) ∧
    (∀ k, k < (compressClosedAdjacency n xadj adjncy).2 ↔
      ∃ v < n, (compressClosedAdjacency n xadj adjncy).1 v = some k) ∧
    ∀ u < n, ∀ v < n, ∀ k l r s, (compressClosedAdjacency n xadj adjncy).1 u = some k →
      (compressClosedAdjacency n xadj adjncy).1 v = some l →
      IsFirst (SameClosed xadj adjncy) r u → IsFirst (SameClosed xadj adjncy) s v →
        (k < l ↔ r < s) := by
  classical
  have hR : Equivalence (SameClosed xadj adjncy) := sameClosed_equivalence
  obtain ⟨hcount, hnum⟩ : (compressClosedAdjacency n xadj adjncy).2 =
        Nat.count (fun w => IsFirst (SameClosed xadj adjncy) w w) n ∧
      ∀ v < n, ∀ r, IsFirst (SameClosed xadj adjncy) r v →
        (compressClosedAdjacency n xadj adjncy).1 v =
          some (Nat.count (fun w => IsFirst (SameClosed xadj adjncy) w w) r) := by
    unfold compressClosedAdjacency
    by_cases hn : n = 0
    · rw [if_pos hn, hn]
      exact ⟨rfl, fun v hv => absurd hv (Nat.not_lt_zero v)⟩
    · rw [if_neg hn]
      have hclaims := (claims_spec g le_rfl).rep_iff
      refine numberSuper_spec hR (fun v hv r => (hclaims v hv r).trans ?_) le_rfl
      exact ⟨And.right, fun h => ⟨(h.le hR).trans_lt hv, h⟩⟩
  refine ⟨fun u hu v hv => ?_, fun v hv => ?_, fun k => ?_,
    fun u hu v hv k l r s hk hl hr hs => ?_⟩
  -- a vertex has the number of smallest members before its own
  · obtain ⟨r, -, hr⟩ := exists_isFirst hR u
    obtain ⟨s, -, hs⟩ := exists_isFirst hR v
    rw [hnum u hu r hr, hnum v hv s hs, Option.some.injEq]
    exact count_isFirst_eq_iff hR hr hs
  · obtain ⟨r, -, hr⟩ := exists_isFirst hR v
    exact ⟨_, hnum v hv r hr⟩
  · rw [hcount]
    constructor
    · intro hk
      obtain ⟨r, hr, hfirst, rfl⟩ := exists_isFirst_count hk
      exact ⟨r, hr, hnum r hr r hfirst⟩
    · rintro ⟨v, hv, hk⟩
      obtain ⟨r, hle, hr⟩ := exists_isFirst hR v
      rw [hnum v hv r hr, Option.some.injEq] at hk
      rw [← hk]
      exact Nat.count_strict_mono (p := fun w => IsFirst (SameClosed xadj adjncy) w w) (hr.self hR)
        (hle.trans_lt hv)
  · rw [hnum u hu r hr, Option.some.injEq] at hk
    rw [hnum v hv s hs, Option.some.injEq] at hl
    rw [← hk, ← hl]
    exact count_isFirst_lt_iff hR hr

/-- A triangle with one more vertex at its corner `2`: the other corners are one supervariable. -/
theorem compress_classes_triangle :
    (compressClosedAdjacency 4 [0, 2, 4, 7, 8] [2, 1, 0, 2, 3, 0, 1, 2]).2 = 3 ∧
      SameClosed [0, 2, 4, 7, 8] [2, 1, 0, 2, 3, 0, 1, 2] 0 1 := by
  have g : ListGraph 4 [0, 2, 4, 7, 8] [2, 1, 0, 2, 3, 0, 1, 2] :=
    ⟨by decide, by decide, by decide, by decide, by decide, by decide⟩
  refine ⟨by decide +kernel, ((compress_classes g).1 0 (by decide) 1 (by decide)).mp ?_⟩
  decide +kernel

end Symbolic
end SmfSolver
