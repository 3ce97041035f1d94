/-
  SmfSolver.Multifrontal.AssemblyTree

  The assembly tree as the analysis leaves it: supernodes with a parent link,
  children lists and front rows, numbered in postorder.

  A postorder is a list in which every node comes right after all its descendants
  (`Postorder`); a pass over the tree may also take only some ranges of whole
  subtrees, one after another in any order (`AssemblyTree.passOrder`), and its list
  is a postorder of the same forest (`postorder_passOrder`).

  At any point of a postorder, the nodes done whose parent is not done yet (`openNodes`)
  form a stack: those with the next node as their parent are its top, and that node
  then takes their place (`Postorder.openNodes_split`).
-/
import Mathlib.Logic.Relation
import Mathlib.Data.List.Nodup
import Mathlib.Data.List.Range

namespace SmfSolver
namespace Multifrontal

/-! ## Postorders -/

/-- `Below parent x s`: node `x` is a proper descendant of `s`. -/
abbrev Below (parent : ℕ → Option ℕ) : ℕ → ℕ → Prop :=
  Relation.TransGen fun c s => parent c = some s

/-- Every node of the list comes right after all its descendants. -/
structure Postorder (parent : ℕ → Option ℕ) (order : List ℕ) : Prop where
  nodup : order.Nodup
  block : ∀ pre s post, order = pre ++ s :: post →
    ∃ head sub, pre = head ++ sub ∧ ∀ x, x ∈ sub ↔ Below parent x s

/-- The parent of `c` is not among `done`. -/
def isOpen (parent : ℕ → Option ℕ) (done : List ℕ) (c : ℕ) : Bool :=
  match parent c with
  | none => true
  | some s => decide (s ∉ done)

/-- The nodes done whose parent is not. -/
def openNodes (parent : ℕ → Option ℕ) (done : List ℕ) : List ℕ :=
  done.filter (isOpen parent done)

section Postorder

variable {parent : ℕ → Option ℕ} {order pre post done : List ℕ} {s c x : ℕ}

theorem isOpen_of_parent (h : parent c = some s) : isOpen parent done c = true ↔ s ∉ done := by
  simp only [isOpen, h, decide_eq_true_eq]

theorem isOpen_of_root (h : parent c = none) : isOpen parent done c = true := by
  simp only [isOpen, h]

theorem mem_openNodes : c ∈ openNodes parent done ↔
    c ∈ done ∧ ∀ s, parent c = some s → s ∉ done := by
  rw [openNodes, List.mem_filter]
  refine and_congr_right fun _ => ?_
  cases h : parent c with
  | none => simp only [isOpen_of_root h, reduceCtorEq, false_imp_iff, implies_true]
  | some s => simp only [isOpen_of_parent h, Option.some.injEq, forall_eq']

/-- A descendant of a node is a child of it, or the descendant of a child. -/
theorem Below.cases_parent (h : Below parent x s) :
    parent x = some s ∨ ∃ b, parent x = some b ∧ Below parent b s := by
  induction h using Relation.TransGen.head_induction_on with
  | single h => exact .inl h
  | head h hb _ => exact .inr ⟨_, h, hb⟩

theorem Postorder.notMem_pre (h : Postorder parent (pre ++ s :: post)) : s ∉ pre := by
  intro hs
  exact (List.nodup_append.mp h.nodup).2.2 s hs s (List.mem_cons_self ..) rfl

/-- The descendants of a node come before it. -/
theorem Postorder.mem_of_below (h : Postorder parent (pre ++ s :: post))
    (hx : Below parent x s) : x ∈ pre := by
  obtain ⟨head, sub, rfl, hsub⟩ := h.block pre s post rfl
  exact List.mem_append_right _ ((hsub x).mpr hx)

/-- The parent of a node comes after it, if at all. -/
theorem Postorder.parent_notMem (h : Postorder parent (pre ++ s :: post)) {t : ℕ}
    (ht : parent s = some t) : t ∉ pre ++ [s] := by
  have hbelow : Below parent s t := .single ht
  intro hmem
  rcases List.mem_append.mp hmem with hpre | hs
  · obtain ⟨a, b, rfl⟩ := List.append_of_mem hpre
    have h' : Postorder parent (a ++ t :: (b ++ s :: post)) := by
      rwa [List.append_assoc, List.cons_append] at h
    exact h.notMem_pre (List.mem_append_left _ (h'.mem_of_below hbelow))
  · rw [List.mem_singleton] at hs
    exact h.notMem_pre (h.mem_of_below (hs ▸ hbelow))

/-- The open nodes are a stack: the next node's children are its top, and the node
    takes their place. -/
theorem Postorder.openNodes_split (h : Postorder parent (pre ++ s :: post)) :
    ∃ low kids, openNodes parent pre = low ++ kids ∧
      (∀ c, c ∈ kids ↔ parent c = some s) ∧
      openNodes parent (pre ++ [s]) = low ++ [s] := by
  -- postorder has the subtree of `s` right before it
  obtain ⟨head, sub, hpre, hsub⟩ := h.block pre s post rfl
  have hs : s ∉ pre := h.notMem_pre
  have hkid : ∀ c, parent c = some s → c ∈ sub := fun c hc => (hsub c).mpr (.single hc)
  have hnodup : pre.Nodup := (List.nodup_append.mp h.nodup).1
  refine ⟨head.filter (isOpen parent pre), sub.filter (isOpen parent pre), ?_, fun c => ?_, ?_⟩
  · rw [← List.filter_append, ← hpre, openNodes]
  · rw [List.mem_filter]
    constructor
    · rintro ⟨hc, hopen⟩
      rcases ((hsub c).mp hc).cases_parent with hc' | ⟨b, hc', hb⟩
      · exact hc'
      · -- an inner descendant's parent is done
        have hb' : b ∈ pre := hpre ▸ List.mem_append_right _ ((hsub b).mpr hb)
        exact absurd hb' ((isOpen_of_parent hc').mp hopen)
    · exact fun hc => ⟨hkid c hc, (isOpen_of_parent hc).mpr hs⟩
  · have hself : isOpen parent (pre ++ [s]) s = true := by
      cases hp : parent s with
      | none => exact isOpen_of_root hp
      | some t => exact (isOpen_of_parent hp).mpr (h.parent_notMem hp)
    have hlow : ∀ c ∈ head, isOpen parent (pre ++ [s]) c = isOpen parent pre c := by
      intro c hc
      cases hp : parent c with
      | none => rw [isOpen_of_root hp, isOpen_of_root hp]
      | some t =>
        have hts : t ≠ s := by
          rintro rfl
          rw [hpre] at hnodup
          exact (List.nodup_append.mp hnodup).2.2 c hc c (hkid c hp) rfl
        rw [Bool.eq_iff_iff, isOpen_of_parent hp, isOpen_of_parent hp, List.mem_append,
          List.mem_singleton, not_or, and_iff_left hts]
    have hsub' : sub.filter (isOpen parent (pre ++ [s])) = [] := by
      refine List.filter_eq_nil_iff.mpr fun c hc hopen => ?_
      rcases ((hsub c).mp hc).cases_parent with hc' | ⟨b, hc', hb⟩
      · exact (isOpen_of_parent hc').mp hopen (List.mem_append_right _ (List.mem_singleton_self s))
      · refine (isOpen_of_parent hc').mp hopen (List.mem_append_left _ ?_)
        exact hpre ▸ List.mem_append_right _ ((hsub b).mpr hb)
    rw [openNodes, List.filter_append, List.filter_singleton, hself, cond_true]
    conv_lhs => rw [hpre, List.filter_append, hpre.symm, hsub', List.append_nil]
    rw [List.filter_congr hlow]

/-- The nodes by number are in postorder when the descendants of each are a range that ends
    at it. -/
theorem postorder_of_first {n : ℕ} (first : ℕ → ℕ) (hle : ∀ s < n, first s ≤ s)
    (h : ∀ s < n, ∀ x, Below parent x s ↔ first s ≤ x ∧ x < s) :
    Postorder parent (List.range n) := by
  refine ⟨List.nodup_range, fun pre s post hsplit => ?_⟩
  have hs : s < n := List.mem_range.mp (hsplit ▸ List.mem_append_right _ (List.mem_cons_self ..))
  have hlen : pre.length = s := by
    have hget := congrArg (·[pre.length]?) hsplit
    have hlt : pre.length < n := by
      have hl := congrArg List.length hsplit
      rw [List.length_range, List.length_append, List.length_cons] at hl
      omega
    rw [List.getElem?_range hlt, List.getElem?_append_right le_rfl, Nat.sub_self] at hget
    exact Option.some.inj hget
  have hpre : pre = List.range s := by
    have htake := congrArg (List.take s) hsplit
    rwa [List.take_range, Nat.min_eq_left hs.le, ← hlen, List.take_left, hlen, eq_comm] at htake
  refine ⟨List.range (first s), List.range' (first s) (s - first s), ?_, fun x => ?_⟩
  · rw [hpre, List.range_eq_range', List.range_eq_range']
    conv_lhs => rw [← Nat.add_sub_cancel' (hle s hs), ← List.range'_append_1, Nat.zero_add]
  · rw [h s hs x, List.mem_range'_1, Nat.add_sub_cancel' (hle s hs)]

end Postorder

/-! ## The tree -/

/-- A supernode: columns `[colStart, colEnd)`; a root has no parent. -/
structure Supernode where
  colStart : ℕ
  colEnd : ℕ
  parent : Option ℕ

/-- Number of pivot columns of the supernode. -/
def Supernode.width (sn : Supernode) : ℕ := sn.colEnd - sn.colStart

/-- The supernode tree of the analysis (`AnalysisKeep`), numbered in postorder. -/
structure AssemblyTree where
  /-- Number of supernodes. -/
  ns : ℕ
  supernodes : ℕ → Supernode
  children : ℕ → List ℕ
  frontRows : ℕ → List ℕ
  mem_children : ∀ s c, c ∈ children s ↔ (supernodes c).parent = some s
  children_nodup : ∀ s, (children s).Nodup
  postorder : Postorder (fun s => (supernodes s).parent) (List.range ns)

namespace AssemblyTree

variable (T : AssemblyTree)

/-- The parent of a supernode. -/
abbrev parent (s : ℕ) : Option ℕ := (T.supernodes s).parent

theorem range_split {n s : ℕ} (hs : s < n) :
    List.range n = List.range s ++ s :: List.range' (s + 1) (n - (s + 1)) := by
  conv_lhs => rw [← Nat.add_sub_cancel' hs, List.range_eq_range', ← List.range'_append_1]
  rw [List.range'_1_concat, List.append_assoc, Nat.zero_add, Nat.zero_add, ← List.range_eq_range']
  rfl

/-- A parent has a larger number. -/
theorem lt_parent {s t : ℕ} (hs : s < T.ns) (ht : T.parent s = some t) : s < t := by
  have hnot := (range_split hs ▸ T.postorder).parent_notMem ht
  rw [← List.range_succ, List.mem_range] at hnot
  omega

/-- A child has a smaller number. -/
theorem child_lt {s c : ℕ} (hs : s < T.ns) (hc : c ∈ T.children s) : c < s := by
  have hbelow : Below T.parent c s := .single ((T.mem_children s c).mp hc)
  exact List.mem_range.mp ((range_split hs ▸ T.postorder).mem_of_below hbelow)

/-- A postorder index range `[lo, hi]` of whole subtrees. -/
structure IsTask (r : ℕ × ℕ) : Prop where
  le : r.1 ≤ r.2
  lt : r.2 < T.ns
  whole : ∀ s, r.1 ≤ s → s ≤ r.2 → ∀ x, Below T.parent x s → r.1 ≤ x

/-- The fronts of a range, in order. -/
def taskFronts (r : ℕ × ℕ) : List ℕ := List.range' r.1 (r.2 + 1 - r.1)

theorem mem_taskFronts {r : ℕ × ℕ} {s : ℕ} : s ∈ taskFronts r ↔ r.1 ≤ s ∧ s ≤ r.2 := by
  rw [taskFronts, List.mem_range'_1]
  omega

/-- What one pass runs: ranges of whole subtrees, no two with a front in common. -/
structure Tasks where
  ranges : List (ℕ × ℕ)
  isTask : ∀ r ∈ ranges, T.IsTask r
  disjoint : ranges.Pairwise fun r r' => r.2 < r'.1 ∨ r'.2 < r.1

/-- The fronts of a pass, in the order it takes them. -/
def Tasks.fronts {T : AssemblyTree} (P : T.Tasks) : List ℕ := P.ranges.flatMap taskFronts

/-- In a range, a front's descendants come right before it. -/
theorem IsTask.block {T : AssemblyTree} {r : ℕ × ℕ} (h : T.IsTask r) {pre post : List ℕ} {s : ℕ}
    (hsplit : taskFronts r = pre ++ s :: post) :
    ∃ head sub, pre = head ++ sub ∧ ∀ x, x ∈ sub ↔ Below T.parent x s := by
  have hs : r.1 ≤ s ∧ s ≤ r.2 := by
    rw [← mem_taskFronts, hsplit]
    exact List.mem_append_right _ (List.mem_cons_self ..)
  have hglobal := range_split (hs.2.trans_lt h.lt)
  have hpre : pre = List.range' r.1 (s - r.1) := by
    have hcut : taskFronts r = List.range' r.1 (s - r.1) ++ s :: List.range' (s + 1) (r.2 - s) := by
      have hlen : r.2 + 1 - r.1 = (s - r.1) + (r.2 - s + 1) := by omega
      have hadd : r.1 + (s - r.1) = s := Nat.add_sub_cancel' hs.1
      rw [taskFronts, hlen, ← List.range'_append_1, hadd, List.range'_succ]
    have hnodup : (pre ++ s :: post).Nodup := hsplit ▸ List.nodup_range'
    have heq := hsplit.symm.trans hcut
    refine (List.append_inj heq ?_).1
    have hmem₁ : s ∉ pre := fun hc =>
      (List.nodup_append.mp hnodup).2.2 s hc s (List.mem_cons_self ..) rfl
    have hmem₂ : s ∉ List.range' r.1 (s - r.1) := by
      rw [List.mem_range'_1]
      omega
    have hidx := congrArg (List.idxOf s) heq
    rw [List.idxOf_append_of_notMem hmem₁, List.idxOf_append_of_notMem hmem₂] at hidx
    simpa using hidx
  obtain ⟨head, sub, hrange, hsub⟩ := T.postorder.block _ s _ hglobal
  have hsuffix : ∀ x ∈ sub, r.1 ≤ x := fun x hx => h.whole s hs.1 hs.2 x ((hsub x).mp hx)
  -- the part of `[0, s)` below the range holds no descendant, so it lies in `head`
  have hcut : List.range s = List.range r.1 ++ List.range' r.1 (s - r.1) := by
    conv_lhs => rw [← Nat.add_sub_cancel' hs.1, List.range_eq_range', ← List.range'_append_1]
    rw [Nat.zero_add, ← List.range_eq_range']
  rw [hcut] at hrange
  rcases List.append_eq_append_iff.mp hrange with ⟨mid, hhead, hmid⟩ | ⟨mid, hhead, hmid⟩
  · exact ⟨mid, sub, hpre.trans hmid, hsub⟩
  · have hnil : mid = [] := by
      refine List.eq_nil_iff_forall_not_mem.mpr fun x hx => ?_
      have hlo : x < r.1 := List.mem_range.mp (hhead ▸ List.mem_append_right _ hx)
      exact absurd (hsuffix x (hmid ▸ List.mem_append_left _ hx)) (not_le.mpr hlo)
    rw [hnil, List.nil_append] at hmid
    exact ⟨[], sub, by rw [hpre, hmid, List.nil_append], hsub⟩

/-- A pass takes its fronts in a postorder of the tree. -/
theorem Tasks.postorder {T : AssemblyTree} (P : T.Tasks) : Postorder T.parent P.fronts where
  nodup := by
    refine List.nodup_flatMap.mpr ⟨fun r _ => List.nodup_range', P.disjoint.imp fun {r r'} h => ?_⟩
    intro x hx hx'
    rw [mem_taskFronts] at hx hx'
    omega
  block := by
    intro pre s post hsplit
    rw [Tasks.fronts] at hsplit
    -- the range the front is in
    have key : ∀ (rs : List (ℕ × ℕ)), (∀ r ∈ rs, T.IsTask r) → ∀ pre,
        rs.flatMap taskFronts = pre ++ s :: post →
        ∃ head sub, pre = head ++ sub ∧ ∀ x, x ∈ sub ↔ Below T.parent x s := by
      intro rs
      induction rs with
      | nil =>
        intro _ pre h
        cases pre <;> cases h
      | cons r rs ih =>
        intro hrs pre h
        rw [List.flatMap_cons] at h
        rcases List.append_eq_append_iff.mp h with ⟨mid, hpre, hrest⟩ | ⟨mid, hr, hrest⟩
        · obtain ⟨head, sub, hmid, hsub⟩ :=
            ih (fun r' hr' => hrs r' (List.mem_cons_of_mem _ hr')) mid hrest
          exact ⟨taskFronts r ++ head, sub, by rw [hpre, hmid, List.append_assoc], hsub⟩
        · cases mid with
          | nil =>
            rw [List.nil_append] at hrest
            obtain ⟨head, sub, hmid, hsub⟩ :=
              ih (fun r' hr' => hrs r' (List.mem_cons_of_mem _ hr')) [] hrest.symm
            obtain ⟨rfl, rfl⟩ := List.append_eq_nil_iff.mp hmid.symm
            exact ⟨pre, [], (List.append_nil pre).symm, hsub⟩
          | cons a mid =>
            obtain ⟨rfl, -⟩ := List.cons_eq_cons.mp hrest
            exact (hrs r (List.mem_cons_self ..)).block hr
    exact key P.ranges P.isTask pre hsplit

end AssemblyTree

end Multifrontal
end SmfSolver
