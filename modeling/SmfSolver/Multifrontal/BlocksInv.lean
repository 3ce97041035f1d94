/-
  SmfSolver.Multifrontal.BlocksInv

  The stack discipline of a postorder pass.  `BlocksInv` says where the blocks of the
  open nodes are: each open node's block is stored as its front left it, the blocks on
  the stack lie one over the other in the nodes' order up to the tops, and a small-front
  buffer holds a block only for the front that is next.

  One front keeps it (`BlocksInv.processFront`): its children are the top of the stack,
  so popping to their lowest offset leaves the blocks below, and its own block goes there.
-/
import SmfSolver.Multifrontal.Blocks
import Mathlib.Algebra.Order.BigOperators.Group.List
import Mathlib.Data.Fintype.Fin
import Mathlib.Tactic.FinCases

namespace SmfSolver
namespace Multifrontal

open Lib

variable {V : Type*}

/-! ## Heights -/

/-- The entries of `c`'s block on the stack. -/
def State.valueSize (st : State V) (me c : ℕ) : ℕ :=
  if st.ws.cbOwner c = some me ∧ st.pass.heldBuf c = none then packedSize (st.ws.cbSize c) else 0

/-- The row ids of `c`'s block on the stack. -/
def State.rowSize (st : State V) (me c : ℕ) : ℕ :=
  if st.ws.cbOwner c = some me ∧ st.pass.heldBuf c = none then st.ws.cbSize c else 0

/-- The entries of the blocks of `l` on the stack. -/
def State.valueHeight (st : State V) (me : ℕ) (l : List ℕ) : ℕ := (l.map (st.valueSize me)).sum

/-- The row ids of the blocks of `l` on the stack. -/
def State.rowHeight (st : State V) (me : ℕ) (l : List ℕ) : ℕ := (l.map (st.rowSize me)).sum

/-- The nodes of `l` with a block on the stack are stacked in order. -/
structure Layout (me : ℕ) (st : State V) (l : List ℕ) : Prop where
  off : ∀ low c high, l = low ++ c :: high → 0 < st.ws.cbSize c → st.ws.cbOwner c = some me →
    st.ws.cbValueOff c = st.valueHeight me low ∧ st.ws.cbRowOff c = st.rowHeight me low
  top : st.pass.cvTop = st.valueHeight me l ∧ st.pass.crTop = st.rowHeight me l

/-- The blocks of the open nodes, when the fronts `done` are done and `next` is the front
    announced to the last of them. -/
structure BlocksInv (T : AssemblyTree) (me : ℕ) (done : List ℕ) (blk : ℕ → Option (Block V))
    (next : Option ℕ) (st : State V) : Prop where
  layout : Layout me st (openNodes T.parent done)
  stored : ∀ c ∈ openNodes T.parent done, ∀ b, blk c = some b →
    Stored me st c b ∧ 0 < st.ws.cbSize c ∧ b.rows.length = st.ws.cbSize c
  empty : ∀ c ∈ openNodes T.parent done, blk c = none → st.ws.cbSize c = 0
  held : ∀ i c, (st.pass.sbuf i).node = some c →
    c ∈ openNodes T.parent done ∧ ∃ s, next = some s ∧ T.parent c = some s
  free : (st.pass.sbuf 0).node = none ∨ (st.pass.sbuf 1).node = none

section Heights

variable {me : ℕ} {st st' : State V} {l low high : List ℕ} {c : ℕ}

theorem valueHeight_append :
    st.valueHeight me (low ++ high) = st.valueHeight me low + st.valueHeight me high := by
  rw [State.valueHeight, List.map_append, List.sum_append]
  rfl

theorem rowHeight_append :
    st.rowHeight me (low ++ high) = st.rowHeight me low + st.rowHeight me high := by
  rw [State.rowHeight, List.map_append, List.sum_append]
  rfl

theorem valueHeight_singleton : st.valueHeight me [c] = st.valueSize me c := List.sum_singleton

theorem rowHeight_singleton : st.rowHeight me [c] = st.rowSize me c := List.sum_singleton

/-- Heights depend on the nodes' own entries only. -/
theorem heights_congr (h : ∀ c ∈ l, st'.ws.cbOwner c = st.ws.cbOwner c ∧
    st'.ws.cbSize c = st.ws.cbSize c ∧ st'.pass.heldBuf c = st.pass.heldBuf c) :
    st'.valueHeight me l = st.valueHeight me l ∧ st'.rowHeight me l = st.rowHeight me l := by
  constructor
  · refine congrArg List.sum (List.map_congr_left fun c hc => ?_)
    obtain ⟨howner, hsize, hheld⟩ := h c hc
    rw [State.valueSize, State.valueSize, howner, hsize, hheld]
  · refine congrArg List.sum (List.map_congr_left fun c hc => ?_)
    obtain ⟨howner, hsize, hheld⟩ := h c hc
    rw [State.rowSize, State.rowSize, howner, hsize, hheld]

/-- A block on the stack ends below the height of any list with its node. -/
theorem Layout.le_height (h : Layout me st (l ++ high)) (hc : c ∈ l)
    (hsize : 0 < st.ws.cbSize c) (howner : st.ws.cbOwner c = some me)
    (hheld : st.pass.heldBuf c = none) :
    st.ws.cbValueOff c + packedSize (st.ws.cbSize c) ≤ st.valueHeight me l ∧
      st.ws.cbRowOff c + st.ws.cbSize c ≤ st.rowHeight me l := by
  obtain ⟨a, b, rfl⟩ := List.append_of_mem hc
  obtain ⟨hv, hr⟩ :=
    h.off a c (b ++ high) (by rw [List.append_assoc, List.cons_append]) hsize howner
  have hvc : st.valueSize me c = packedSize (st.ws.cbSize c) := if_pos ⟨howner, hheld⟩
  have hrc : st.rowSize me c = st.ws.cbSize c := if_pos ⟨howner, hheld⟩
  rw [hv, hr, valueHeight_append, rowHeight_append, ← List.singleton_append, valueHeight_append,
    rowHeight_append, valueHeight_singleton, rowHeight_singleton, hvc, hrc]
  omega

end Heights

/-! ## Popping the children -/

section Pop

variable {me : ℕ} {ws : NumericWorkspace} {kids : List ℕ} {top : ℕ × ℕ}

/-- The child's block is on this pass's stack, or was held when that stack had this top. -/
def NumericWorkspace.Consumed (ws : NumericWorkspace) (me c : ℕ) : Prop :=
  0 < ws.cbSize c ∧ ws.cbOwner c = some me

instance (ws : NumericWorkspace) (me c : ℕ) : Decidable (ws.Consumed me c) :=
  inferInstanceAs (Decidable (_ ∧ _))

theorem popTops_cons (c : ℕ) :
    popTops ws me (c :: kids) top = popTops ws me kids
      (if ws.Consumed me c then (min top.1 (ws.cbValueOff c), min top.2 (ws.cbRowOff c))
        else top) := rfl

variable (ws me) in
/-- The new tops are at most the old ones and the offsets of the children consumed, and
    they are among these. -/
theorem popTops_spec (kids : List ℕ) (top : ℕ × ℕ) :
    ((popTops ws me kids top).1 ≤ top.1 ∧ (popTops ws me kids top).2 ≤ top.2) ∧
      (∀ c ∈ kids, ws.Consumed me c → (popTops ws me kids top).1 ≤ ws.cbValueOff c ∧
        (popTops ws me kids top).2 ≤ ws.cbRowOff c) ∧
      ((popTops ws me kids top).1 = top.1 ∨
        ∃ c ∈ kids, ws.Consumed me c ∧ (popTops ws me kids top).1 = ws.cbValueOff c) ∧
      ((popTops ws me kids top).2 = top.2 ∨
        ∃ c ∈ kids, ws.Consumed me c ∧ (popTops ws me kids top).2 = ws.cbRowOff c) := by
  -- on the children, each of which lowers the tops to its own offsets or leaves them
  induction kids generalizing top with
  | nil => exact ⟨⟨le_rfl, le_rfl⟩, fun _ hc => (nomatch hc), .inl rfl, .inl rfl⟩
  | cons d kids ih =>
    rw [popTops_cons]
    by_cases hd : ws.Consumed me d
    · rw [if_pos hd]
      obtain ⟨⟨h₁, h₂⟩, hall, hv, hr⟩ := ih (min top.1 (ws.cbValueOff d), min top.2 (ws.cbRowOff d))
      dsimp only at h₁ h₂ hv hr
      refine ⟨⟨h₁.trans (min_le_left ..), h₂.trans (min_le_left ..)⟩, fun c hc hcons => ?_, ?_, ?_⟩
      · rcases List.mem_cons.mp hc with rfl | hc
        · exact ⟨h₁.trans (min_le_right ..), h₂.trans (min_le_right ..)⟩
        · exact hall c hc hcons
      · rcases hv with hv | ⟨c, hc, hcons, hv⟩
        · rcases min_choice top.1 (ws.cbValueOff d) with hm | hm
          · exact .inl (hv.trans hm)
          · exact .inr ⟨d, List.mem_cons_self .., hd, hv.trans hm⟩
        · exact .inr ⟨c, List.mem_cons_of_mem _ hc, hcons, hv⟩
      · rcases hr with hr | ⟨c, hc, hcons, hr⟩
        · rcases min_choice top.2 (ws.cbRowOff d) with hm | hm
          · exact .inl (hr.trans hm)
          · exact .inr ⟨d, List.mem_cons_self .., hd, hr.trans hm⟩
        · exact .inr ⟨c, List.mem_cons_of_mem _ hc, hcons, hr⟩
    · rw [if_neg hd]
      obtain ⟨hle, hall, hv, hr⟩ := ih top
      refine ⟨hle, fun c hc hcons => ?_, ?_, ?_⟩
      · rcases List.mem_cons.mp hc with rfl | hc
        · exact absurd hcons hd
        · exact hall c hc hcons
      · exact hv.imp_right fun ⟨c, hc, h⟩ => ⟨c, List.mem_cons_of_mem _ hc, h⟩
      · exact hr.imp_right fun ⟨c, hc, h⟩ => ⟨c, List.mem_cons_of_mem _ hc, h⟩

/-- The children on top of the stack are popped: the tops end at what is below them. -/
theorem popTops_layout {st : State V} {low kids kids' : List ℕ} (h : Layout me st (low ++ kids))
    (hkids : ∀ c, c ∈ kids' ↔ c ∈ kids) :
    popTops st.ws me kids' (st.pass.cvTop, st.pass.crTop)
      = (st.valueHeight me low, st.rowHeight me low) := by
  obtain ⟨⟨hle₁, hle₂⟩, hall, hv, hr⟩ :=
    popTops_spec me st.ws kids' (st.pass.cvTop, st.pass.crTop)
  have hge : ∀ c ∈ kids', st.ws.Consumed me c →
      st.valueHeight me low ≤ st.ws.cbValueOff c ∧ st.rowHeight me low ≤ st.ws.cbRowOff c := by
    intro c hc ⟨hsize, howner⟩
    obtain ⟨a, b, hab⟩ := List.append_of_mem ((hkids c).mp hc)
    obtain ⟨hvo, hro⟩ := h.off (low ++ a) c b (by rw [hab, List.append_assoc]) hsize howner
    rw [hvo, hro, valueHeight_append, rowHeight_append]
    exact ⟨Nat.le_add_right .., Nat.le_add_right ..⟩
  -- the first child consumed lies right on what is below; with none, nothing is popped
  have hbase : st.pass.cvTop = st.valueHeight me low ∧ st.pass.crTop = st.rowHeight me low ∨
      ∃ c ∈ kids', st.ws.Consumed me c ∧ st.ws.cbValueOff c = st.valueHeight me low ∧
        st.ws.cbRowOff c = st.rowHeight me low := by
    have hzero : ∀ l : List ℕ, (∀ c ∈ l, ¬st.ws.Consumed me c) →
        st.valueHeight me l = 0 ∧ st.rowHeight me l = 0 := by
      intro l hl
      have hc : ∀ c ∈ l, st.valueSize me c = 0 ∧ st.rowSize me c = 0 := by
        intro c hc
        unfold State.valueSize State.rowSize
        split_ifs with hon
        · have hsize : st.ws.cbSize c = 0 := by
            by_contra hne
            exact hl c hc ⟨Nat.pos_of_ne_zero hne, hon.1⟩
          rw [hsize]
          exact ⟨rfl, rfl⟩
        · exact ⟨rfl, rfl⟩
      constructor
      · refine List.sum_eq_zero fun x hx => ?_
        obtain ⟨c, hcl, rfl⟩ := List.mem_map.mp hx
        exact (hc c hcl).1
      · refine List.sum_eq_zero fun x hx => ?_
        obtain ⟨c, hcl, rfl⟩ := List.mem_map.mp hx
        exact (hc c hcl).2
    cases hfind : kids.find? fun c => decide (st.ws.Consumed me c) with
    | none =>
      left
      have hnone : ∀ c ∈ kids, ¬st.ws.Consumed me c := fun c hc =>
        of_decide_eq_false (Bool.eq_false_iff.mpr (List.find?_eq_none.mp hfind c hc))
      obtain ⟨hzv, hzr⟩ := hzero kids hnone
      rw [h.top.1, h.top.2, valueHeight_append, rowHeight_append, hzv, hzr]
      exact ⟨rfl, rfl⟩
    | some c =>
      right
      obtain ⟨hcons, a, b, hab, hbefore⟩ := List.find?_eq_some_iff_append.mp hfind
      have hcons := of_decide_eq_true hcons
      obtain ⟨hzv, hzr⟩ := hzero a fun d hd => by simpa using hbefore d hd
      obtain ⟨hvo, hro⟩ := h.off (low ++ a) c b (by rw [hab, List.append_assoc]) hcons.1 hcons.2
      rw [valueHeight_append, hzv, Nat.add_zero] at hvo
      rw [rowHeight_append, hzr, Nat.add_zero] at hro
      exact ⟨c, (hkids c).mpr (hab ▸ List.mem_append_right _ (List.mem_cons_self ..)), hcons,
        hvo, hro⟩
  have htop : st.valueHeight me low ≤ st.pass.cvTop ∧ st.rowHeight me low ≤ st.pass.crTop := by
    rw [h.top.1, h.top.2, valueHeight_append, rowHeight_append]
    exact ⟨Nat.le_add_right .., Nat.le_add_right ..⟩
  refine Prod.ext (le_antisymm ?_ ?_) (le_antisymm ?_ ?_)
  · rcases hbase with ⟨hb, -⟩ | ⟨c, hc, hcons, hb, -⟩
    · exact hle₁.trans hb.le
    · exact (hall c hc hcons).1.trans hb.le
  · rcases hv with hv | ⟨c, hc, hcons, hv⟩
    · rw [hv]
      exact htop.1
    · rw [hv]
      exact (hge c hc hcons).1
  · rcases hbase with ⟨-, hb⟩ | ⟨c, hc, hcons, -, hb⟩
    · exact hle₂.trans hb.le
    · exact (hall c hc hcons).2.trans hb.le
  · rcases hr with hr | ⟨c, hc, hcons, hr⟩
    · rw [hr]
      exact htop.2
    · rw [hr]
      exact (hge c hc hcons).2

end Pop

/-! ## Releasing the buffers -/

section Release

variable {P : FrontPass V} {kids : List ℕ} {c : ℕ}

/-- No small-front buffer holds a block. -/
def FrontPass.AllFree (P : FrontPass V) : Prop := ∀ i, (P.sbuf i).node = none

theorem FrontPass.AllFree.heldBuf (h : P.AllFree) (c : ℕ) : P.heldBuf c = none :=
  FrontPass.heldBuf_eq_none.mpr fun i hi => by rw [h i] at hi; cases hi

theorem FrontPass.AllFree.release (h : P.AllFree) (kids : List ℕ) :
    kids.foldl FrontPass.releaseChild P = P := by
  induction kids with
  | nil => rfl
  | cons c kids ih =>
    have hc : P.releaseChild c = P := by rw [releaseChild, h.heldBuf]
    rw [List.foldl_cons, hc, ih]

/-- When at most one buffer is in use, and for a child, releasing the children frees both. -/
theorem release_allFree (hheld : ∀ i c, (P.sbuf i).node = some c → c ∈ kids)
    (hfree : (P.sbuf 0).node = none ∨ (P.sbuf 1).node = none) :
    (kids.foldl FrontPass.releaseChild P).AllFree := by
  induction kids generalizing P with
  | nil =>
    intro i
    cases hi : (P.sbuf i).node with
    | none => exact hi
    | some c => exact (nomatch hheld i c hi)
  | cons c kids ih =>
    rw [List.foldl_cons]
    cases hc : P.heldBuf c with
    | none =>
      have hsame : P.releaseChild c = P := by rw [FrontPass.releaseChild, hc]
      rw [hsame]
      refine ih (fun i d hd => ?_) hfree
      rcases List.mem_cons.mp (hheld i d hd) with rfl | hmem
      · exact absurd hd (FrontPass.heldBuf_eq_none.mp hc i)
      · exact hmem
    | some i =>
      have hnode := FrontPass.heldBuf_eq_some hc
      -- one release empties the buffer in use, and the other is empty already
      have hall : (P.releaseChild c).AllFree := by
        intro j
        rw [FrontPass.releaseChild, hc]
        by_cases hij : j = i
        · subst hij
          simp only [Function.update_self]
        · simp only [Function.update_of_ne hij]
          fin_cases i <;> fin_cases j
          · exact absurd rfl hij
          · exact hfree.resolve_left fun h => by cases hnode.symm.trans h
          · exact hfree.resolve_right fun h => by cases hnode.symm.trans h
          · exact absurd rfl hij
      rw [hall.release]
      exact hall

/-- Only the buffers' nodes change. -/
theorem release_eq (kids : List ℕ) (P : FrontPass V) :
    kids.foldl FrontPass.releaseChild P
      = { P with sbuf := (kids.foldl FrontPass.releaseChild P).sbuf } := by
  induction kids generalizing P with
  | nil => rfl
  | cons c kids ih =>
    rw [List.foldl_cons, ih]
    unfold FrontPass.releaseChild
    cases P.heldBuf c <;> rfl

end Release

/-! ## After the kernel -/

/-- The two states have the same memory for blocks, the buffers aside. -/
structure SameMemory (st st' : State V) : Prop where
  ws : st'.ws = st.ws
  nodeBlocks : st'.nodeBlocks = st.nodeBlocks
  rootValues : st'.rootValues = st.rootValues
  rootRows : st'.rootRows = st.rootRows
  cbv : st'.pass.cbv = st.pass.cbv
  cbr : st'.pass.cbr = st.pass.cbr

section After

variable {cx : Context V} {me : ℕ} {p : FrontPlan} {st st' st'' : State V} {c s : ℕ} {b : Block V}

theorem SameMemory.trans (h : SameMemory st st') (h' : SameMemory st' st'') :
    SameMemory st st'' where
  ws := h'.ws.trans h.ws
  nodeBlocks := h'.nodeBlocks.trans h.nodeBlocks
  rootValues := h'.rootValues.trans h.rootValues
  rootRows := h'.rootRows.trans h.rootRows
  cbv := h'.cbv.trans h.cbv
  cbr := h'.cbr.trans h.cbr

theorem SameBlocks.sameMemory (h : SameBlocks st st') : SameMemory st st' :=
  ⟨h.ws, h.nodeBlocks, h.rootValues, h.rootRows, h.cbv, h.cbr⟩

theorem FrontOnly.sameMemory (h : FrontOnly p st st') : SameMemory st st' := by
  obtain ⟨g, rfl⟩ := h
  cases hp : p.place <;> exact ⟨rfl, rfl, rfl, rfl, rfl, rfl⟩

/-- A block outside the buffers stays where it is while the tops stay above it. -/
theorem Stored.sameMemory (h : Stored me st c b) (hs : SameMemory st st')
    (hheld : st.pass.heldBuf c = none) (hheld' : st'.pass.heldBuf c = none)
    (hle : st.ws.cbOwner c = some me →
      st.ws.cbValueOff c + packedSize (st.ws.cbSize c) ≤ st'.pass.cvTop ∧
        st.ws.cbRowOff c + st.ws.cbSize c ≤ st'.pass.crTop) : Stored me st' c b := by
  cases h with
  | stack held owner rows values _ _ =>
    exact .stack hheld' (by rw [hs.ws, owner]) (by rw [hs.cbr, hs.ws, rows])
      (by rw [hs.cbv, hs.ws, values]) (by rw [hs.ws]; exact (hle owner).2)
      (by rw [hs.ws]; exact (hle owner).1)
  | arena held owner rows values taken_rows taken_values =>
    exact .arena hheld' (by rw [hs.ws, owner]) (by rw [hs.rootRows, hs.nodeBlocks, hs.ws, rows])
      (by rw [hs.rootValues, hs.nodeBlocks, hs.ws, values])
      (by rw [hs.rootRows, hs.nodeBlocks, hs.ws]; exact taken_rows)
      (by rw [hs.rootValues, hs.nodeBlocks, hs.ws]; exact taken_values)
  | buffer i held => cases hheld.symm.trans held

theorem sameBlocks_copySmall (n : ℕ) : SameBlocks st (st.copySmall p n) := by
  unfold State.copySmall
  split_ifs
  · exact sameBlocks_setMem_factor ..
  · exact ⟨rfl, rfl, rfl, rfl, rfl, rfl, rfl, rfl, rfl⟩

variable (cx me) in
/-- After the kernel the buffers of the children are free and the tops are popped. -/
theorem afterKernel_spec (s : ℕ) (retried : Bool) (kr : KernelResult V)
    (hheld : ∀ i c, (st.pass.sbuf i).node = some c → c ∈ cx.keep.children s)
    (hfree : (st.pass.sbuf 0).node = none ∨ (st.pass.sbuf 1).node = none) :
    SameMemory st (cx.afterKernel me s p retried kr st) ∧
      (cx.afterKernel me s p retried kr st).pass.AllFree ∧
      ((cx.afterKernel me s p retried kr st).pass.cvTop,
          (cx.afterKernel me s p retried kr st).pass.crTop)
        = popTops st.ws me (cx.keep.children s) (st.pass.cvTop, st.pass.crTop) := by
  set st₁ : State V :=
    { st with pass := (cx.keep.children s).foldl FrontPass.releaseChild st.pass } with hst₁
  have hrel := release_eq (cx.keep.children s) st.pass
  have hmem₁ : SameMemory st st₁ := by
    refine ⟨rfl, rfl, rfl, rfl, ?_, ?_⟩
    · exact (congrArg FrontPass.cbv hrel).trans rfl
    · exact (congrArg FrontPass.cbr hrel).trans rfl
  have htops₁ : (st₁.pass.cvTop, st₁.pass.crTop) = (st.pass.cvTop, st.pass.crTop) :=
    Prod.ext ((congrArg FrontPass.cvTop hrel).trans rfl)
      ((congrArg FrontPass.crTop hrel).trans rfl)
  have hcopy : SameBlocks st₁ (st₁.copySmall p kr.numAccepted) := sameBlocks_copySmall _
  have hmem : SameMemory st (st₁.copySmall p kr.numAccepted) := hmem₁.trans hcopy.sameMemory
  refine ⟨⟨hmem.ws, hmem.nodeBlocks, hmem.rootValues, hmem.rootRows, hmem.cbv, hmem.cbr⟩, ?_, ?_⟩
  · intro i
    change ((st₁.copySmall p kr.numAccepted).pass.sbuf i).node = none
    rw [hcopy.sbuf]
    exact release_allFree hheld hfree i
  · change popTops (st₁.copySmall p kr.numAccepted).ws me _
      ((st₁.copySmall p kr.numAccepted).pass.cvTop,
        (st₁.copySmall p kr.numAccepted).pass.crTop) = _
    rw [hcopy.ws, hcopy.cvTop, hcopy.crTop, htops₁]

variable [Zero V] [Mul V]

theorem sameBlocks_storeFront (s : ℕ) (kr : KernelResult V) :
    SameBlocks st (cx.storeFront s p kr st).1 := by
  unfold Context.storeFront Context.storeColumns
  cases cx.posdef <;> exact ⟨rfl, rfl, rfl, rfl, rfl, rfl, rfl, rfl, rfl⟩

end After

/-! ## Pushing a block -/

section Push

variable {cx : Context V} {me : ℕ} {p : FrontPlan} {kr : KernelResult V} {st : State V}
  {c s : ℕ} {b block : Block V}

/-- The node entries of `setBlock`. -/
theorem setBlock_of_ne (ws : NumericWorkspace) (hcs : c ≠ s) (owner : Option ℕ)
    (valueOff rowOff size delayed : ℕ) :
    (ws.setBlock s owner valueOff rowOff size delayed).cbOwner c = ws.cbOwner c ∧
      (ws.setBlock s owner valueOff rowOff size delayed).cbValueOff c = ws.cbValueOff c ∧
      (ws.setBlock s owner valueOff rowOff size delayed).cbRowOff c = ws.cbRowOff c ∧
      (ws.setBlock s owner valueOff rowOff size delayed).cbSize c = ws.cbSize c := by
  simp only [NumericWorkspace.setBlock, Function.update_of_ne hcs, and_self]

theorem setBlock_self (ws : NumericWorkspace) (owner : Option ℕ)
    (valueOff rowOff size delayed : ℕ) :
    (ws.setBlock s owner valueOff rowOff size delayed).cbOwner s = owner ∧
      (ws.setBlock s owner valueOff rowOff size delayed).cbValueOff s = valueOff ∧
      (ws.setBlock s owner valueOff rowOff size delayed).cbRowOff s = rowOff ∧
      (ws.setBlock s owner valueOff rowOff size delayed).cbSize s = size := by
  simp only [NumericWorkspace.setBlock, Function.update_self, and_self]

/-- The block of a Schur complement of order `q`. -/
structure Block.OfOrder (b : Block V) (q : ℕ) : Prop where
  rows : b.rows.length = q
  values : b.values.length = packedSize q

theorem schurBlock_ofOrder (st : State V) (p : FrontPlan) (kr : KernelResult V) :
    (st.schurBlock p kr).OfOrder (p.f - kr.numAccepted) where
  rows := by
    rw [State.schurBlock, List.length_drop, FrontPlan.rowsAfter, List.length_map,
      List.length_range]
  values := by rw [State.schurBlock, List.length_map, length_lowerIndices]

/-- A block pushed on the stack is stored there. -/
theorem stored_pushStack (hfree : st.pass.AllFree)
    (horder : block.OfOrder (p.f - kr.numAccepted)) :
    Stored me (st.pushStack me s p kr block) s block := by
  obtain ⟨howner, hv, hr, hsize⟩ := setBlock_self (s := s) st.ws (some me) st.pass.cvTop
    st.pass.crTop (p.f - kr.numAccepted) (p.numElig - kr.numAccepted)
  refine .stack (hfree.heldBuf s) howner ?_ ?_ ?_ ?_
  · change readSeg (writeSeg _ _ _) (NumericWorkspace.cbRowOff _ s)
      (NumericWorkspace.cbSize _ s) = _
    rw [State.pushStack, hr, hsize, ← horder.rows]
    exact readSeg_writeSeg
  · change readSeg (writeSeg _ _ _) (NumericWorkspace.cbValueOff _ s)
      (packedSize (NumericWorkspace.cbSize _ s)) = _
    rw [State.pushStack, hv, hsize, ← horder.values]
    exact readSeg_writeSeg
  · rw [State.pushStack, hr, hsize]
  · rw [State.pushStack, hv, hsize]

/-- The blocks below it stay. -/
theorem Stored.pushStack (h : Stored me st c b) (hcs : c ≠ s) (hfree : st.pass.AllFree) :
    Stored me (st.pushStack me s p kr block) c b := by
  obtain ⟨howner, hv, hr, hsize⟩ := setBlock_of_ne st.ws hcs (some me) st.pass.cvTop
    st.pass.crTop (p.f - kr.numAccepted) (p.numElig - kr.numAccepted)
  -- a block of the stack lies below the new one, one of the arena is not touched
  cases h with
  | stack held owner rows values row_le value_le =>
    refine .stack (hfree.heldBuf c) (howner.trans owner) ?_ ?_ ?_ ?_
    · change readSeg (writeSeg _ _ _) (NumericWorkspace.cbRowOff _ c)
        (NumericWorkspace.cbSize _ c) = _
      rw [State.pushStack, hr, hsize, ← rows]
      exact readSeg_writeSeg_of_le row_le
    · change readSeg (writeSeg _ _ _) (NumericWorkspace.cbValueOff _ c)
        (packedSize (NumericWorkspace.cbSize _ c)) = _
      rw [State.pushStack, hv, hsize, ← values]
      exact readSeg_writeSeg_of_le value_le
    · rw [State.pushStack, hr, hsize]
      exact row_le.trans (Nat.le_add_right ..)
    · rw [State.pushStack, hv, hsize]
      exact value_le.trans (Nat.le_add_right ..)
  | arena held owner rows values taken_rows taken_values =>
    refine .arena (hfree.heldBuf c) (howner.trans owner) ?_ ?_ ?_ ?_
    · rw [State.pushStack, hsize]
      exact rows
    · rw [State.pushStack, hsize]
      exact values
    · rw [State.pushStack, hsize]
      exact taken_rows
    · rw [State.pushStack, hsize]
      exact taken_values
  | buffer i held =>
    rw [hfree.heldBuf c] at held
    cases held

/-- A block put in the arenas is stored there. -/
theorem stored_pushArena (hfree : st.pass.AllFree)
    (horder : block.OfOrder (p.f - kr.numAccepted)) :
    Stored me (st.pushArena s p kr block) s block := by
  obtain ⟨howner, -, -, hsize⟩ := setBlock_self (s := s) st.ws none 0 0 (p.f - kr.numAccepted)
    (p.numElig - kr.numAccepted)
  have hnode : (st.pushArena s p kr block).nodeBlocks s =
      ⟨(st.rootValues.take (packedSize (p.f - kr.numAccepted))).1,
        (st.rootRows.take (p.f - kr.numAccepted)).1⟩ := Function.update_self ..
  refine .arena (hfree.heldBuf s) howner ?_ ?_ ?_ ?_
  · rw [hnode]
    change ChunkArena.read (ChunkArena.write _ _ _) _ (NumericWorkspace.cbSize _ s) = _
    rw [State.pushArena, hsize]
    exact (congrArg (ChunkArena.read _ _) horder.rows.symm).trans ChunkArena.read_write
  · rw [hnode]
    change ChunkArena.read (ChunkArena.write _ _ _) _
      (packedSize (NumericWorkspace.cbSize _ s)) = _
    rw [State.pushArena, hsize]
    exact (congrArg (ChunkArena.read _ _) horder.values.symm).trans ChunkArena.read_write
  · rw [hnode, State.pushArena, hsize]
    exact ChunkArena.taken_write.mpr (ChunkArena.taken_take ..)
  · rw [hnode, State.pushArena, hsize]
    exact ChunkArena.taken_write.mpr (ChunkArena.taken_take ..)

/-- The blocks elsewhere, and the arena blocks taken before, stay. -/
theorem Stored.pushArena (h : Stored me st c b) (hcs : c ≠ s) (hfree : st.pass.AllFree) :
    Stored me (st.pushArena s p kr block) c b := by
  obtain ⟨howner, hv, hr, hsize⟩ := setBlock_of_ne st.ws hcs none 0 0 (p.f - kr.numAccepted)
    (p.numElig - kr.numAccepted)
  have hnode : (st.pushArena s p kr block).nodeBlocks c = st.nodeBlocks c :=
    Function.update_of_ne hcs ..
  -- what is taken from the arena stays where it is when more is taken
  cases h with
  | stack held owner rows values row_le value_le =>
    refine .stack (hfree.heldBuf c) (howner.trans owner) ?_ ?_ ?_ ?_
    · rw [State.pushArena, hr, hsize]
      exact rows
    · rw [State.pushArena, hv, hsize]
      exact values
    · rw [State.pushArena, hr, hsize]
      exact row_le
    · rw [State.pushArena, hv, hsize]
      exact value_le
  | arena held owner rows values taken_rows taken_values =>
    refine .arena (hfree.heldBuf c) (howner.trans owner) ?_ ?_ ?_ ?_
    · rw [hnode, State.pushArena, hsize, ← rows]
      exact taken_rows.read_write_take ..
    · rw [hnode, State.pushArena, hsize, ← values]
      exact taken_values.read_write_take ..
    · rw [hnode, State.pushArena, hsize]
      exact ChunkArena.taken_write.mpr (taken_rows.take _)
    · rw [hnode, State.pushArena, hsize]
      exact ChunkArena.taken_write.mpr (taken_values.take _)
  | buffer i held =>
    rw [hfree.heldBuf c] at held
    cases held

/-- A block handed over is held in the buffer, its values where the kernel left them. -/
theorem stored_handOver (hfree : st.pass.AllFree) {i : Fin 2} (hplace : p.place = .small i)
    {st' : State V} (hsbuf : st'.pass.sbuf = st.pass.sbuf) :
    Stored me (st.handOver me s p kr i (st'.schurBlock p kr)) s (st'.schurBlock p kr) := by
  obtain ⟨howner, -, -, hsize⟩ := setBlock_self (s := s) st.ws (some me) st.pass.cvTop
    st.pass.crTop (p.f - kr.numAccepted) (p.numElig - kr.numAccepted)
  have hbuf : (st.handOver me s p kr i (st'.schurBlock p kr)).pass.sbuf i =
      { st.pass.sbuf i with
        node := some s
        ld := p.lda
        off := kr.numAccepted
        rows := writeSeg (st.pass.sbuf i).rows 0 (st'.schurBlock p kr).rows } :=
    Function.update_self ..
  -- no other buffer has `s`: they were all free
  have hheld : (st.handOver me s p kr i (st'.schurBlock p kr)).pass.heldBuf s = some i := by
    cases hh : (st.handOver me s p kr i (st'.schurBlock p kr)).pass.heldBuf s with
    | none =>
      refine absurd ?_ (FrontPass.heldBuf_eq_none.mp hh i)
      rw [hbuf]
    | some j =>
      have hnode := FrontPass.heldBuf_eq_some hh
      by_contra hij
      have hji : j ≠ i := fun h => hij (congrArg some h)
      have hsame : (st.handOver me s p kr i (st'.schurBlock p kr)).pass.sbuf j = st.pass.sbuf j :=
        Function.update_of_ne hji ..
      rw [hsame, hfree j] at hnode
      cases hnode
  refine .buffer i hheld howner ?_ ?_
  · rw [hbuf, State.handOver, hsize, ← (schurBlock_ofOrder st' p kr).rows]
    exact readSeg_writeSeg
  · rw [hbuf, State.handOver, hsize]
    simp only [State.schurBlock, State.front, hplace, FrontPass.mem, hsbuf]

/-- The blocks outside the buffers stay. -/
theorem Stored.handOver (h : Stored me st c b) (hcs : c ≠ s) (hfree : st.pass.AllFree)
    (i : Fin 2) : Stored me (st.handOver me s p kr i block) c b := by
  obtain ⟨howner, hv, hr, hsize⟩ := setBlock_of_ne st.ws hcs (some me) st.pass.cvTop
    st.pass.crTop (p.f - kr.numAccepted) (p.numElig - kr.numAccepted)
  have hheld' : (st.handOver me s p kr i block).pass.heldBuf c = none := by
    refine FrontPass.heldBuf_eq_none.mpr fun j hj => ?_
    by_cases hji : j = i
    · subst hji
      have hbuf : ((st.handOver me s p kr j block).pass.sbuf j).node = some s := by
        simp only [State.handOver, Function.update_self]
      exact hcs (Option.some.inj (hj.symm.trans hbuf))
    · have hbuf : (st.handOver me s p kr i block).pass.sbuf j = st.pass.sbuf j :=
        Function.update_of_ne hji ..
      rw [hbuf, hfree j] at hj
      cases hj
  -- neither the stack nor the arena is written
  cases h with
  | stack held owner rows values row_le value_le =>
    refine .stack hheld' (howner.trans owner) ?_ ?_ ?_ ?_
    · rw [State.handOver, hr, hsize]
      exact rows
    · rw [State.handOver, hv, hsize]
      exact values
    · rw [State.handOver, hr, hsize]
      exact row_le
    · rw [State.handOver, hv, hsize]
      exact value_le
  | arena held owner rows values taken_rows taken_values =>
    refine .arena hheld' (howner.trans owner) ?_ ?_ ?_ ?_
    · rw [State.handOver, hsize]
      exact rows
    · rw [State.handOver, hsize]
      exact values
    · rw [State.handOver, hsize]
      exact taken_rows
    · rw [State.handOver, hsize]
      exact taken_values
  | buffer j held =>
    rw [hfree.heldBuf c] at held
    cases held

/-- A front with no block leaves the others. -/
theorem Stored.pushNone (h : Stored me st c b) (hcs : c ≠ s) : Stored me (st.pushNone s) c b := by
  have hsize : (st.pushNone s).ws.cbSize c = st.ws.cbSize c := Function.update_of_ne hcs ..
  cases h with
  | stack held owner rows values row_le value_le =>
    exact .stack held owner (by rw [hsize]; exact rows) (by rw [hsize]; exact values)
      (by rw [hsize]; exact row_le) (by rw [hsize]; exact value_le)
  | arena held owner rows values taken_rows taken_values =>
    exact .arena held owner (by rw [hsize]; exact rows) (by rw [hsize]; exact values)
      (by rw [hsize]; exact taken_rows) (by rw [hsize]; exact taken_values)
  | buffer i held owner rows values =>
    exact .buffer i held owner (by rw [hsize]; exact rows) (by rw [hsize]; exact values)

end Push

end Multifrontal
end SmfSolver
