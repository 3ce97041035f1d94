/-
  SmfSolver.Multifrontal.PassBlocks

  The contribution blocks over a whole pass.  `runPass_blocks`: every call of
  `process_front` assembles exactly its children's non-empty blocks, once in each
  assembly and as the children pushed them; a block stays readable as pushed until its
  parent's kernel has run; the stack tops end at the lowest offset of the children
  consumed, with the front's own block on top; and a small front always finds a
  small-front buffer that holds no block.
-/
import SmfSolver.Multifrontal.AssembledFront
import SmfSolver.Multifrontal.BlocksInv

namespace SmfSolver
namespace Multifrontal

open Lib

variable {V : Type*}

/-! ## One front -/

/-- The state `st'` after a front's kernel, its children popped: the blocks of `low` are
    all that is left of `st`'s, and the tops are right above them. -/
structure Popped (me : ℕ) (st : State V) (low : List ℕ) (st' : State V) : Prop where
  memory : SameMemory st st'
  allFree : st'.pass.AllFree
  cvTop : st'.pass.cvTop = st.valueHeight me low
  crTop : st'.pass.crTop = st.rowHeight me low
  stored : ∀ c ∈ low, ∀ b, Stored me st c b → 0 < st.ws.cbSize c → Stored me st' c b

/-- The state `st'` after the push: the blocks of `low`, and `s`'s block `pushed`. -/
structure Pushed (T : AssemblyTree) (me : ℕ) (st : State V) (low : List ℕ) (s : ℕ)
    (next : Option ℕ) (pushed : Option (Block V)) (st' : State V) : Prop where
  keeps : ∀ c ∈ low, st'.ws.cbOwner c = st.ws.cbOwner c ∧
    st'.ws.cbValueOff c = st.ws.cbValueOff c ∧ st'.ws.cbRowOff c = st.ws.cbRowOff c ∧
    st'.ws.cbSize c = st.ws.cbSize c
  stored : ∀ c ∈ low, ∀ b, Stored me st c b → 0 < st.ws.cbSize c → Stored me st' c b
  empty : pushed = none → st'.ws.cbSize s = 0
  self : ∀ b, pushed = some b → Stored me st' s b ∧ 0 < st'.ws.cbSize s ∧
    b.rows.length = st'.ws.cbSize s
  off : 0 < st'.ws.cbSize s → st'.ws.cbOwner s = some me →
    st'.ws.cbValueOff s = st.valueHeight me low ∧ st'.ws.cbRowOff s = st.rowHeight me low
  cvTop : st'.pass.cvTop = st.valueHeight me low + st'.valueSize me s
  crTop : st'.pass.crTop = st.rowHeight me low + st'.rowSize me s
  held : ∀ i c, (st'.pass.sbuf i).node = some c → c = s ∧ ∃ t, next = some t ∧ T.parent s = some t
  free : (st'.pass.sbuf 0).node = none ∨ (st'.pass.sbuf 1).node = none

section Push

variable {T : AssemblyTree} {me s : ℕ} {st st' : State V} {low : List ℕ} {next : Option ℕ}
  {p : FrontPlan} {kr : KernelResult V} {block : Block V}

variable (me) in
theorem valueSize_of_empty (h : st.ws.cbSize s = 0) :
    st.valueSize me s = 0 ∧ st.rowSize me s = 0 := by
  unfold State.valueSize State.rowSize
  rw [h]
  constructor <;> split_ifs <;> rfl

theorem Popped.pushNone (h : Popped me st low st') (hs : s ∉ low) :
    Pushed T me st low s next none (st'.pushNone s) := by
  have hsize : (st'.pushNone s).ws.cbSize s = 0 := Function.update_self ..
  obtain ⟨hv, hr⟩ := valueSize_of_empty me hsize
  have hne : ∀ c ∈ low, c ≠ s := fun c hc hcs => hs (hcs ▸ hc)
  refine ⟨fun c hc => ?_, fun c hc b hb hpos => (h.stored c hc b hb hpos).pushNone (hne c hc),
    fun _ => hsize, fun _ hb => (nomatch hb), fun hpos => absurd hsize hpos.ne', ?_, ?_, ?_,
    .inl (h.allFree 0)⟩
  · have hc' : (st'.pushNone s).ws.cbSize c = st'.ws.cbSize c := Function.update_of_ne (hne c hc) ..
    rw [hc', ← h.memory.ws]
    exact ⟨rfl, rfl, rfl, rfl⟩
  · rw [hv]
    exact h.cvTop
  · rw [hr]
    exact h.crTop
  · intro i c hc
    cases (h.allFree i).symm.trans hc

theorem Popped.pushStack (h : Popped me st low st') (hs : s ∉ low)
    (horder : block.OfOrder (p.f - kr.numAccepted)) (hpos : p.f - kr.numAccepted ≠ 0) :
    Pushed T me st low s next (some block) (st'.pushStack me s p kr block) := by
  obtain ⟨howner, hvo, hro, hsize⟩ := setBlock_self (s := s) st'.ws (some me) st'.pass.cvTop
    st'.pass.crTop (p.f - kr.numAccepted) (p.numElig - kr.numAccepted)
  have hne : ∀ c ∈ low, c ≠ s := fun c hc hcs => hs (hcs ▸ hc)
  have hon : (st'.pushStack me s p kr block).ws.cbOwner s = some me ∧
      (st'.pushStack me s p kr block).pass.heldBuf s = none := ⟨howner, h.allFree.heldBuf s⟩
  refine ⟨fun c hc => ?_,
    fun c hc b hb hpos => (h.stored c hc b hb hpos).pushStack (hne c hc) h.allFree,
    fun hn => absurd hn (Option.some_ne_none _), fun b hb => ?_,
    fun _ _ => ⟨hvo.trans h.cvTop, hro.trans h.crTop⟩,
    ?_, ?_, fun i c hc => ?_, .inl (h.allFree 0)⟩
  · rw [← h.memory.ws]
    exact setBlock_of_ne st'.ws (hne c hc) ..
  · obtain rfl := Option.some.inj hb
    exact ⟨stored_pushStack h.allFree horder, hsize ▸ Nat.pos_of_ne_zero hpos,
      horder.rows.trans hsize.symm⟩
  · rw [State.valueSize, if_pos hon, ← h.cvTop]
    exact congrArg (fun q => st'.pass.cvTop + packedSize q) hsize.symm
  · rw [State.rowSize, if_pos hon, ← h.crTop]
    exact congrArg (fun q => st'.pass.crTop + q) hsize.symm
  · cases (h.allFree i).symm.trans hc

theorem Popped.pushArena (h : Popped me st low st') (hs : s ∉ low)
    (horder : block.OfOrder (p.f - kr.numAccepted)) (hpos : p.f - kr.numAccepted ≠ 0) :
    Pushed T me st low s next (some block) (st'.pushArena s p kr block) := by
  obtain ⟨howner, -, -, hsize⟩ := setBlock_self (s := s) st'.ws none 0 0
    (p.f - kr.numAccepted) (p.numElig - kr.numAccepted)
  have hne : ∀ c ∈ low, c ≠ s := fun c hc hcs => hs (hcs ▸ hc)
  have hoff : ¬((st'.pushArena s p kr block).ws.cbOwner s = some me ∧
      (st'.pushArena s p kr block).pass.heldBuf s = none) :=
    fun hon => (nomatch howner.symm.trans hon.1)
  refine ⟨fun c hc => ?_,
    fun c hc b hb hpos => (h.stored c hc b hb hpos).pushArena (hne c hc) h.allFree,
    fun hn => absurd hn (Option.some_ne_none _), fun b hb => ?_, fun _ hown =>
      (nomatch howner.symm.trans hown),
    ?_, ?_, fun i c hc => ?_, .inl (h.allFree 0)⟩
  · rw [← h.memory.ws]
    exact setBlock_of_ne st'.ws (hne c hc) ..
  · obtain rfl := Option.some.inj hb
    exact ⟨stored_pushArena h.allFree horder, hsize ▸ Nat.pos_of_ne_zero hpos,
      horder.rows.trans hsize.symm⟩
  · rw [State.valueSize, if_neg hoff]
    exact h.cvTop
  · rw [State.rowSize, if_neg hoff]
    exact h.crTop
  · cases (h.allFree i).symm.trans hc

theorem Popped.handOver (h : Popped me st low st') (hs : s ∉ low) {i : Fin 2} {t : ℕ}
    (hplace : p.place = .small i) (hpos : p.f - kr.numAccepted ≠ 0)
    (hnext : next = some t) (hparent : T.parent s = some t)
    {st₀ : State V} (hsbuf : st₀.pass.sbuf = st'.pass.sbuf) :
    Pushed T me st low s next (some (st₀.schurBlock p kr))
      (st'.handOver me s p kr i (st₀.schurBlock p kr)) := by
  obtain ⟨howner, hvo, hro, hsize⟩ := setBlock_self (s := s) st'.ws (some me) st'.pass.cvTop
    st'.pass.crTop (p.f - kr.numAccepted) (p.numElig - kr.numAccepted)
  have hne : ∀ c ∈ low, c ≠ s := fun c hc hcs => hs (hcs ▸ hc)
  have hbuf : ((st'.handOver me s p kr i (st₀.schurBlock p kr)).pass.sbuf i).node = some s := by
    simp only [State.handOver, Function.update_self]
  have hbuf' : ∀ j, j ≠ i →
      ((st'.handOver me s p kr i (st₀.schurBlock p kr)).pass.sbuf j).node = none := by
    intro j hj
    simp only [State.handOver, Function.update_of_ne hj]
    exact h.allFree j
  -- the block handed over takes no room on the stack
  have hoff : ¬((st'.handOver me s p kr i (st₀.schurBlock p kr)).ws.cbOwner s = some me ∧
      (st'.handOver me s p kr i (st₀.schurBlock p kr)).pass.heldBuf s = none) :=
    fun hon => FrontPass.heldBuf_eq_none.mp hon.2 i hbuf
  refine ⟨fun c hc => ?_,
    fun c hc b hb hpos => (h.stored c hc b hb hpos).handOver (hne c hc) h.allFree i,
    fun hn => absurd hn (Option.some_ne_none _), fun b hb => ?_,
    fun _ _ => ⟨hvo.trans h.cvTop, hro.trans h.crTop⟩,
    ?_, ?_, fun j c hc => ?_, ?_⟩
  · rw [← h.memory.ws]
    exact setBlock_of_ne st'.ws (hne c hc) ..
  · obtain rfl := Option.some.inj hb
    exact ⟨stored_handOver h.allFree hplace hsbuf, hsize ▸ Nat.pos_of_ne_zero hpos,
      (schurBlock_ofOrder st₀ p kr).rows.trans hsize.symm⟩
  · rw [State.valueSize, if_neg hoff]
    exact h.cvTop
  · rw [State.rowSize, if_neg hoff]
    exact h.crTop
  · by_cases hj : j = i
    · subst hj
      exact ⟨Option.some.inj (hc.symm.trans hbuf), t, hnext, hparent⟩
    · cases (hbuf' j hj).symm.trans hc
  · by_cases h0 : (0 : Fin 2) = i
    · exact .inr (hbuf' 1 fun h1 => absurd (h0.trans h1.symm) (by decide))
    · exact .inl (hbuf' 0 h0)

end Push

section Front

variable {cx : Context V} {me s : ℕ} {st : State V} {done post low kids : List ℕ}
  {blk : ℕ → Option (Block V)} {next : Option ℕ} {p : FrontPlan}

variable (cx) in
/-- Whatever becomes of the block, the blocks below are kept. -/
theorem Popped.pushBlock {T : AssemblyTree} (hT : cx.keep = T) {st' : State V} (st₀ : State V)
    (h : Popped me st low st') (hs : s ∉ low) (next : Option ℕ) (kr : KernelResult V)
    (hsbuf : st₀.pass.sbuf = st'.pass.sbuf) :
    Pushed T me st low s next (cx.pushBlock me s next p kr (st₀.schurBlock p kr) st').2
      (cx.pushBlock me s next p kr (st₀.schurBlock p kr) st').1 := by
  have horder := schurBlock_ofOrder st₀ p kr
  unfold Context.pushBlock
  cases hparent : cx.keep.parent s with
  | none => exact h.pushNone hs
  | some t =>
    dsimp only
    by_cases hq : p.f - kr.numAccepted = 0
    · rw [if_pos hq]
      exact h.pushNone hs
    · rw [if_neg hq]
      have hrest : ∀ r, r = (if cx.rootBlock t (p.f - kr.numAccepted) then
          (st'.pushArena s p kr (st₀.schurBlock p kr), some (st₀.schurBlock p kr))
          else (st'.pushStack me s p kr (st₀.schurBlock p kr), some (st₀.schurBlock p kr))) →
          Pushed T me st low s next r.2 r.1 := by
        rintro r rfl
        split_ifs
        · exact h.pushArena hs horder hq
        · exact h.pushStack hs horder hq
      split
      · next i hplace hnext =>
        exact h.handOver hs hplace hq (of_decide_eq_true hnext) (hT ▸ hparent) hsbuf
      · exact hrest _ rfl

/-- The invariant after a push. -/
theorem Pushed.blocksInv {T : AssemblyTree} {st' : State V} {pushed : Option (Block V)}
    (hinv : BlocksInv T me done blk next st) (hs : s ∉ low)
    (hopen : openNodes T.parent done = low ++ kids)
    (hopen' : openNodes T.parent (done ++ [s]) = low ++ [s])
    (hlow : ∀ c ∈ low, st.pass.heldBuf c = none) {next' : Option ℕ}
    (h : Pushed T me st low s next' pushed st') :
    BlocksInv T me (done ++ [s]) (Function.update blk s pushed) next' st' := by
  have hne : ∀ c ∈ low, c ≠ s := fun c hc hcs => hs (hcs ▸ hc)
  have hmem : ∀ c ∈ low, c ∈ openNodes T.parent done := fun c hc =>
    hopen ▸ List.mem_append_left _ hc
  have hheld : ∀ c ∈ low, st'.pass.heldBuf c = none := fun c hc =>
    FrontPass.heldBuf_eq_none.mpr fun i hi => hne c hc (h.held i c hi).1
  -- the blocks that stay keep their sizes, so the heights below the new one are as before
  have hheights : ∀ l, (∀ c ∈ l, c ∈ low) →
      st'.valueHeight me l = st.valueHeight me l ∧ st'.rowHeight me l = st.rowHeight me l :=
    fun l hl => heights_congr fun c hc =>
      ⟨(h.keeps c (hl c hc)).1, (h.keeps c (hl c hc)).2.2.2,
        (hheld c (hl c hc)).trans (hlow c (hl c hc)).symm⟩
  refine ⟨⟨fun a c b hab hsize howner => ?_, ?_⟩, fun c hc b hb => ?_, fun c hc hb => ?_,
    fun i c hc => ?_, h.free⟩
  · rw [hopen'] at hab
    rcases List.eq_nil_or_concat b with rfl | ⟨b, d, rfl⟩
    · obtain ⟨rfl, hcs⟩ := List.append_inj' hab rfl
      obtain rfl := List.singleton_inj.mp hcs
      obtain ⟨hv, hr⟩ := hheights low fun _ hc => hc
      rw [hv, hr]
      exact h.off hsize howner
    · rw [List.concat_eq_append, ← List.cons_append, ← List.append_assoc] at hab
      obtain ⟨hlowEq, -⟩ := List.append_inj' hab rfl
      -- a block that stays keeps its place: under it the same blocks
      have hc : c ∈ low := hlowEq ▸ List.mem_append_right _ (List.mem_cons_self ..)
      obtain ⟨ho, hvo, hro, hsz⟩ := h.keeps c hc
      obtain ⟨hv, hr⟩ := hheights a fun d hd => hlowEq ▸ List.mem_append_left _ hd
      rw [hvo, hro, hv, hr]
      refine hinv.layout.off a c (b ++ kids) ?_ (hsz ▸ hsize) (ho ▸ howner)
      rw [hopen, hlowEq, List.append_assoc, List.cons_append]
  · obtain ⟨hv, hr⟩ := hheights low fun _ hc => hc
    rw [hopen', valueHeight_append, rowHeight_append, hv, hr, valueHeight_singleton,
      rowHeight_singleton]
    exact ⟨h.cvTop, h.crTop⟩
  · rw [hopen'] at hc
    rcases List.mem_append.mp hc with hc | hc
    · rw [Function.update_of_ne (hne c hc)] at hb
      obtain ⟨hst, hpos, hlen⟩ := hinv.stored c (hmem c hc) b hb
      rw [(h.keeps c hc).2.2.2]
      exact ⟨h.stored c hc b hst hpos, hpos, hlen⟩
    · obtain rfl := List.mem_singleton.mp hc
      rw [Function.update_self] at hb
      exact h.self b hb
  · rw [hopen'] at hc
    rcases List.mem_append.mp hc with hc | hc
    · rw [Function.update_of_ne (hne c hc)] at hb
      rw [(h.keeps c hc).2.2.2]
      exact hinv.empty c (hmem c hc) hb
    · obtain rfl := List.mem_singleton.mp hc
      rw [Function.update_self] at hb
      exact h.empty hb
  · obtain ⟨rfl, t, ht⟩ := h.held i c hc
    exact ⟨hopen' ▸ List.mem_append_right _ (List.mem_singleton_self _), t, ht⟩

/-- A small front is assembled in a buffer that holds no block. -/
theorem plan_placeFree (hfree : (st.pass.sbuf 0).node = none ∨ (st.pass.sbuf 1).node = none)
    (s : ℕ) : PlaceFree (cx.plan me st s) st := by
  have hbuf : (st.pass.sbuf st.pass.freeBuf).node = none := by
    unfold FrontPass.freeBuf
    split_ifs with h0
    · exact hfree.resolve_left fun hn => by rw [hn] at h0; cases h0
    · exact Option.not_isSome_iff_eq_none.mp h0
  intro i hi
  simp only [Context.plan] at hi
  split_ifs at hi
  obtain rfl := FrontMem.small.inj hi
  exact hbuf

/-- The children of the next front are open, and a buffer holds a block for it only. -/
theorem BlocksInv.held_mem (hinv : BlocksInv cx.keep me done blk next st)
    (hnext : next = none ∨ next = some s) {i : Fin 2} {c : ℕ}
    (hc : (st.pass.sbuf i).node = some c) : c ∈ cx.keep.children s := by
  obtain ⟨-, t, ht, hparent⟩ := hinv.held i c hc
  rcases hnext with hn | hs
  · cases hn.symm.trans ht
  · obtain rfl := Option.some.inj (hs.symm.trans ht)
    exact (cx.keep.mem_children s c).mpr hparent

/-- Every child of the next front reads as it was pushed. -/
theorem BlocksInv.childBlock (hinv : BlocksInv cx.keep me done blk next st)
    (hpost : Postorder cx.keep.parent (done ++ s :: post)) {c : ℕ}
    (hc : c ∈ cx.keep.children s) :
    cx.childBlock me st c = (blk c).map fun b => (c, b) := by
  obtain ⟨low, kids, hopen, hkids, -⟩ := hpost.openNodes_split
  have hmem : c ∈ openNodes cx.keep.parent done := by
    rw [hopen]
    exact List.mem_append_right _ ((hkids c).mpr ((cx.keep.mem_children s c).mp hc))
  unfold Context.childBlock
  cases hb : blk c with
  | none => rw [if_pos (hinv.empty c hmem hb), Option.map_none]
  | some b =>
    obtain ⟨hst, hpos, -⟩ := hinv.stored c hmem b hb
    rw [if_neg hpos.ne', hst.readBlock, Option.map_some]

variable [Zero V] [Add V] [Mul V]

omit [Zero V] [Add V] [Mul V] in
/-- After the kernel and the store, the children are popped. -/
theorem BlocksInv.popped (hinv : BlocksInv cx.keep me done blk next st)
    (hnext : next = none ∨ next = some s) (hnodup : done.Nodup)
    (hopen : openNodes cx.keep.parent done = low ++ kids)
    (hkids : ∀ c, c ∈ kids ↔ cx.keep.parent c = some s)
    {st₁ : State V} (honly : FrontOnly p st st₁) (retried : Bool) (kr : KernelResult V) :
    Popped me st low (cx.afterKernel me s p retried kr st₁) ∧
      ∀ c ∈ low, st.pass.heldBuf c = none := by
  have hkids' : ∀ c, c ∈ cx.keep.children s ↔ c ∈ kids := fun c =>
    (cx.keep.mem_children s c).trans (hkids c).symm
  have hheld : ∀ c ∈ low, st.pass.heldBuf c = none := by
    refine fun c hc => FrontPass.heldBuf_eq_none.mpr fun i hi => ?_
    have hk : c ∈ kids := (hkids' c).mp (hinv.held_mem hnext hi)
    have hn : (low ++ kids).Nodup := hopen ▸ hnodup.filter _
    exact (List.nodup_append.mp hn).2.2 c hc c hk rfl
  have hlayout : Layout me st (low ++ kids) := hopen ▸ hinv.layout
  have hws : st₁.ws = st.ws := honly.ws
  have htops₁ : (st₁.pass.cvTop, st₁.pass.crTop) = (st.pass.cvTop, st.pass.crTop) := by
    obtain ⟨g, rfl⟩ := honly
    cases hp : p.place <;> rfl
  obtain ⟨hmem, hfree, htops⟩ := afterKernel_spec cx me (p := p) s retried kr
    (fun i c hc => hinv.held_mem hnext ((honly.node i).symm.trans hc))
    (hinv.free.imp (fun h => (honly.node 0).trans h) fun h => (honly.node 1).trans h)
  rw [htops₁, hws, popTops_layout hlayout hkids', Prod.mk.injEq] at htops
  refine ⟨⟨honly.sameMemory.trans hmem, hfree, htops.1, htops.2, fun c hc b hb hpos => ?_⟩, hheld⟩
  refine hb.sameMemory (honly.sameMemory.trans hmem) (hheld c hc) (hfree.heldBuf c) fun howner => ?_
  rw [htops.1, htops.2]
  exact hlayout.le_height hc hpos howner (hheld c hc)

variable (cx) in
omit [Add V] in
theorem Popped.storeFront {st' : State V} (h : Popped me st low st') (s : ℕ) (kr : KernelResult V) :
    Popped me st low (cx.storeFront s p kr st').1 := by
  have hs : SameBlocks st' (cx.storeFront s p kr st').1 := sameBlocks_storeFront s kr
  refine ⟨h.memory.trans hs.sameMemory, fun i => ?_, hs.cvTop.trans h.cvTop,
    hs.crTop.trans h.crTop, fun c hc b hb hpos => (h.stored c hc b hb hpos).congr hs⟩
  rw [hs.sbuf]
  exact h.allFree i

omit [Add V] in
/-- A front that ends without an error keeps the invariant; its tops are those below its
    children's blocks, and its own block on top. -/
theorem BlocksInv.finishFront (hinv : BlocksInv cx.keep me done blk next st)
    (hpost : Postorder cx.keep.parent (done ++ s :: post)) (hnext : next = none ∨ next = some s)
    {st₁ : State V} (honly : FrontOnly p st st₁) (retried : Bool) (kr : KernelResult V)
    (next' : Option ℕ) {r : ErrorCode × State V × Option (Block V)}
    (hr : r = cx.finishFront me s next' p retried kr st₁)
    (hcode : r.1 ≠ .notPositiveDefinite) :
    BlocksInv cx.keep me (done ++ [s]) (Function.update blk s r.2.2) next' r.2.1 ∧
      (∀ b, r.2.2 = some b → b.rows ≠ []) ∧
      r.2.1.pass.cvTop = (popTops st.ws me (cx.keep.children s)
        (st.pass.cvTop, st.pass.crTop)).1 + r.2.1.valueSize me s ∧
      r.2.1.pass.crTop = (popTops st.ws me (cx.keep.children s)
        (st.pass.cvTop, st.pass.crTop)).2 + r.2.1.rowSize me s := by
  obtain ⟨low, kids, hopen, hkids, hopen'⟩ := hpost.openNodes_split
  have hnodup : done.Nodup := (List.nodup_append.mp hpost.nodup).1
  have hs : s ∉ low := fun hc => hpost.notMem_pre
    (mem_openNodes.mp (hopen ▸ List.mem_append_left _ hc)).1
  -- first the children's blocks go, then the front's own comes
  obtain ⟨hpop, hheld⟩ := hinv.popped hnext hnodup hopen hkids honly retried kr
  have hpop' := hpop.storeFront cx (p := p) s kr
  have hlayout : Layout me st (low ++ kids) := hopen ▸ hinv.layout
  rw [popTops_layout hlayout fun c => (cx.keep.mem_children s c).trans (hkids c).symm]
  unfold Context.finishFront at hr
  dsimp only at hr
  by_cases hposdef : cx.posdef = true ∧ kr.numAccepted < p.numElig
  · rw [if_pos hposdef] at hr
    exact absurd (congrArg Prod.fst hr) hcode
  · rw [if_neg hposdef] at hr
    subst hr
    have hpush := hpop'.pushBlock cx (p := p) rfl
      { (cx.storeFront s p kr (cx.afterKernel me s p retried kr st₁)).1 with
        pass := { (cx.storeFront s p kr (cx.afterKernel me s p retried kr st₁)).1.pass with
          fo := (cx.afterKernel me s p retried kr st₁).pass.fo } } hs next' kr rfl
    refine ⟨hpush.blocksInv hinv hs hopen hopen' hheld, fun b hb => ?_, hpush.cvTop,
      hpush.crTop⟩
    obtain ⟨-, hpos, hlen⟩ := hpush.self b hb
    exact List.ne_nil_of_length_pos (hlen ▸ hpos)

end Front

/-! ## Calls and runs -/

/-- The block a front left for its parent. -/
def pushedBy (calls : List (Call V)) (c : ℕ) : Option (Block V) :=
  (calls.find? fun k => k.front = c).bind fun k => k.run.pushed

/-- The fronts of the calls. -/
def fronts (calls : List (Call V)) : List ℕ := calls.map Call.front

/-- `c` left the block `b`, and its parent has not run. -/
def Live (T : AssemblyTree) (calls : List (Call V)) (c : ℕ) (b : Block V) : Prop :=
  c ∈ openNodes T.parent (fronts calls) ∧ pushedBy calls c = some b

/-- A call of `process_front` after the calls `earlier` of the pass. -/
structure CallOk [Zero V] [Add V] (cx : Context V) (me : ℕ) (earlier : List (Call V))
    (k : Call V) : Prop where
  /-- Each assembly adds every child's non-empty block, once and as it was pushed, and no
      other block. -/
  assembled : ∀ a ∈ k.run.attempts, a.blocks =
    (cx.keep.children k.front).filterMap fun c => (pushedBy earlier c).map fun b => (c, b)
  /-- Each kernel gets the sum of the original entries of the pivot columns and of these
      blocks. -/
  front : ∀ a ∈ k.run.attempts,
    let plan := cx.plan me k.before k.front
    (∃ kern prm, a.result = cx.kernel kern prm plan.numElig plan.rows a.front) ∧
      ∀ i j, j ≤ i → i < plan.f → a.front i j = sumAt (cx.assembly k.front plan a.blocks) i j
  /-- Every block not consumed yet is intact before the front. -/
  before : ∀ c b, Live cx.keep earlier c b → cx.readBlock me k.before c = b
  /-- It is still intact when the front's kernel has run, the children's own included. -/
  intact : ∀ a ∈ k.run.attempts, ∀ c b, Live cx.keep earlier c b →
    cx.readBlock me a.state c = b
  /-- A block that is pushed is not empty. -/
  nonempty : ∀ b, k.run.pushed = some b → b.rows ≠ []
  /-- A small-front buffer is free of blocks, and a small front takes such a one. -/
  buffers : (∃ i, (k.before.pass.sbuf i).node = none) ∧
    ∀ i, (cx.plan me k.before k.front).place = .small i → (k.before.pass.sbuf i).node = none
  /-- The tops are at the lowest offset of the children consumed, the front's own block
      on top if it is on the stack. -/
  tops : k.run.code = .success →
    k.run.state.pass.cvTop = (popTops k.before.ws me (cx.keep.children k.front)
      (k.before.pass.cvTop, k.before.pass.crTop)).1 + k.run.state.valueSize me k.front ∧
    k.run.state.pass.crTop = (popTops k.before.ws me (cx.keep.children k.front)
      (k.before.pass.cvTop, k.before.pass.crTop)).2 + k.run.state.rowSize me k.front
  /-- The stack holds the live blocks and nothing else. -/
  noGap : k.run.code = .success →
    k.run.state.pass.cvTop = k.run.state.valueHeight me
      (openNodes cx.keep.parent (fronts earlier ++ [k.front])) ∧
    k.run.state.pass.crTop = k.run.state.rowHeight me
      (openNodes cx.keep.parent (fronts earlier ++ [k.front]))

/-- A pass's memory at the start: an empty stack, no block in the small-front buffers. -/
structure Fresh (st : State V) : Prop where
  cvTop : st.pass.cvTop = 0
  crTop : st.pass.crTop = 0
  allFree : st.pass.AllFree

section Runs

variable {cx : Context V} {me s : ℕ} {st st' : State V} {done post : List ℕ}
  {blk blk' : ℕ → Option (Block V)} {next : Option ℕ} {calls : List (Call V)}

theorem BlocksInv.congr {T : AssemblyTree} (h : BlocksInv T me done blk next st)
    (hs : SameBlocks st st') (hblk : ∀ c ∈ done, blk' c = blk c) :
    BlocksInv T me done blk' next st' := by
  have hheld : ∀ c, st'.pass.heldBuf c = st.pass.heldBuf c := fun c => hs.heldBuf
  have hheights : ∀ l, st'.valueHeight me l = st.valueHeight me l ∧
      st'.rowHeight me l = st.rowHeight me l := fun l =>
    heights_congr fun c _ => by rw [hs.ws]; exact ⟨rfl, rfl, hheld c⟩
  refine ⟨⟨fun a c b hab hsize howner => ?_, ?_⟩, fun c hc b hb => ?_, fun c hc hb => ?_,
    fun i c hc => ?_, ?_⟩
  · rw [(hheights a).1, (hheights a).2]
    rw [hs.ws] at hsize howner ⊢
    exact h.layout.off a c b hab hsize howner
  · rw [hs.cvTop, hs.crTop, (hheights _).1, (hheights _).2]
    exact h.layout.top
  · rw [hblk c (mem_openNodes.mp hc).1] at hb
    obtain ⟨hst, hpos, hlen⟩ := h.stored c hc b hb
    rw [hs.ws]
    exact ⟨hst.congr hs, hpos, hlen⟩
  · rw [hblk c (mem_openNodes.mp hc).1] at hb
    rw [hs.ws]
    exact h.empty c hc hb
  · rw [hs.sbuf] at hc
    exact h.held i c hc
  · rw [hs.sbuf]
    exact h.free

theorem Fresh.blocksInv (h : Fresh st) (T : AssemblyTree) (me : ℕ) :
    BlocksInv T me [] (pushedBy []) none st where
  layout :=
    { off := fun low c high hab => by cases low <;> cases hab
      top := ⟨h.cvTop, h.crTop⟩ }
  stored := fun _ hc => (nomatch hc)
  empty := fun _ hc => (nomatch hc)
  held := fun i c hc => by cases (h.allFree i).symm.trans hc
  free := .inl (h.allFree 0)

theorem BlocksInv.readBlock (h : BlocksInv cx.keep me (fronts calls) (pushedBy calls) next st)
    {c : ℕ} {b : Block V} (hc : Live cx.keep calls c b) : cx.readBlock me st c = b :=
  (h.stored c hc.1 b hc.2).1.readBlock

/-- What a front pushed is looked up under its number. -/
theorem pushedBy_snoc {k : Call V} (hk : k.front ∉ fronts calls) :
    ∀ c ∈ fronts calls ++ [k.front],
      pushedBy (calls ++ [k]) c = Function.update (pushedBy calls) k.front k.run.pushed c := by
  intro c hc
  unfold pushedBy
  rw [List.find?_append]
  by_cases hck : c = k.front
  · subst hck
    have hnone : calls.find? (fun k' => k'.front = k.front) = none := by
      refine List.find?_eq_none.mpr fun k' hk' heq => hk ?_
      exact List.mem_map.mpr ⟨k', hk', of_decide_eq_true heq⟩
    rw [hnone, Function.update_self, Option.none_or, List.find?_singleton, if_pos (by simp)]
    rfl
  · have hmem : c ∈ fronts calls := by
      rcases List.mem_append.mp hc with h | h
      · exact h
      · exact absurd (List.mem_singleton.mp h) hck
    obtain ⟨k', hk', rfl⟩ := List.mem_map.mp hmem
    obtain ⟨k'', hfind⟩ : ∃ k'', calls.find? (fun x => x.front = k'.front) = some k'' :=
      Option.isSome_iff_exists.mp (List.find?_isSome.mpr ⟨k', hk', decide_eq_true rfl⟩)
    rw [Function.update_of_ne hck, hfind, Option.some_or]

variable [Zero V] [Add V] [Mul V]

/-- The attempts of a call are those of the front, or none. -/
theorem processFront_attempts (s : ℕ) (next : Option ℕ) (st : State V) {a : Attempt V}
    (ha : a ∈ (cx.processFront me s next st).attempts) :
    a ∈ cx.attempts me s (cx.plan me st s) st := by
  unfold Context.processFront at ha
  dsimp only at ha
  split at ha
  · cases ha
  · split at ha
    · cases ha
    · split at ha
      · exact ha
      · exact ha

/-- A call that is not stopped ends as the front's last kernel does. -/
theorem processFront_finish (s : ℕ) (next : Option ℕ) (st : State V)
    (hcode : (cx.processFront me s next st).code = .success ∨
      ∃ b, (cx.processFront me s next st).pushed = some b) :
    ∃ a ∈ cx.attempts me s (cx.plan me st s) st, ∃ retried,
      cx.finishFront me s next (cx.plan me st s) retried a.result a.state =
        ((cx.processFront me s next st).code, (cx.processFront me s next st).state,
          (cx.processFront me s next st).pushed) := by
  unfold Context.processFront at hcode ⊢
  dsimp only at hcode ⊢
  split at hcode
  · rcases hcode with h | ⟨b, h⟩ <;> cases h
  · next hstop =>
    rw [if_neg hstop]
    split at hcode
    · rcases hcode with h | ⟨b, h⟩ <;> cases h
    · next a ha =>
      split at hcode
      · rcases hcode with h | ⟨b, h⟩ <;> cases h
      · next hover =>
        simp only [if_neg hover]
        exact ⟨a, List.mem_of_getLast? ha, _, rfl⟩

/-- One call of the pass. -/
theorem BlocksInv.call {T : AssemblyTree} (hT : cx.keep = T)
    (hinv : BlocksInv T me (fronts calls) (pushedBy calls) next st)
    (hpost : Postorder T.parent (fronts calls ++ s :: post))
    (hnext : next = none ∨ next = some s) (next' : Option ℕ) :
    CallOk cx me calls ⟨s, next', st, cx.processFront me s next' st⟩ ∧
      ((cx.processFront me s next' st).code = .success →
        BlocksInv T me (fronts calls ++ [s])
          (Function.update (pushedBy calls) s (cx.processFront me s next' st).pushed) next'
          (cx.processFront me s next' st).state) := by
  subst hT
  have hplace : PlaceFree (cx.plan me st s) st := plan_placeFree hinv.free s
  have hattempt : ∀ a ∈ (cx.processFront me s next' st).attempts,
      FrontOnly (cx.plan me st s) st a.state ∧
        a.blocks = cx.childBlocks me st (cx.keep.children s) :=
    fun a ha => attempts_spec hplace s (processFront_attempts s next' st ha)
  -- what holds after the front, for any code that leaves a state to go on from
  have hfinish : ((cx.processFront me s next' st).code = .success ∨
      ∃ b, (cx.processFront me s next' st).pushed = some b) →
      BlocksInv cx.keep me (fronts calls ++ [s])
        (Function.update (pushedBy calls) s (cx.processFront me s next' st).pushed) next'
        (cx.processFront me s next' st).state ∧
      (∀ b, (cx.processFront me s next' st).pushed = some b → b.rows ≠ []) ∧
      (cx.processFront me s next' st).state.pass.cvTop
        = (popTops st.ws me (cx.keep.children s) (st.pass.cvTop, st.pass.crTop)).1
          + (cx.processFront me s next' st).state.valueSize me s ∧
      (cx.processFront me s next' st).state.pass.crTop
        = (popTops st.ws me (cx.keep.children s) (st.pass.cvTop, st.pass.crTop)).2
          + (cx.processFront me s next' st).state.rowSize me s := by
    intro hcode
    obtain ⟨a, ha, retried, heq⟩ := processFront_finish s next' st hcode
    have hnot : (cx.processFront me s next' st).code ≠ .notPositiveDefinite := by
      intro hpd
      rcases hcode with h | ⟨b, h⟩
      · cases h.symm.trans hpd
      · unfold Context.finishFront at heq
        dsimp only at heq
        by_cases hposdef : cx.posdef = true ∧ a.result.numAccepted < (cx.plan me st s).numElig
        · rw [if_pos hposdef] at heq
          cases (congrArg (fun r => r.2.2) heq).trans h
        · rw [if_neg hposdef] at heq
          have hc := (congrArg Prod.fst heq).trans hpd
          dsimp only at hc
          split_ifs at hc
    exact hinv.finishFront hpost hnext (attempts_spec hplace s ha).1 retried a.result next'
      heq.symm hnot
  refine ⟨⟨fun a ha => ?_, fun a ha => attempts_front hplace (plan_fits cx me st s) s
      (processFront_attempts s next' st ha), fun c b hc => hinv.readBlock hc, fun a ha c b hc => ?_,
    fun b hb => (hfinish (.inr ⟨b, hb⟩)).2.1 b hb, ⟨?_, hplace⟩, fun hcode => ?_,
    fun hcode => (hfinish (.inl hcode)).1.layout.top⟩, fun hcode => (hfinish (.inl hcode)).1⟩
  · rw [(hattempt a ha).2]
    exact List.filterMap_congr fun c hc => hinv.childBlock hpost hc
  · rw [(hattempt a ha).1.readBlock hplace]
    exact hinv.readBlock hc
  · rcases hinv.free with h | h
    · exact ⟨0, h⟩
    · exact ⟨1, h⟩
  · exact (hfinish (.inl hcode)).2.2

/-- What a pass has done well: its fronts so far, the calls, and the invariant as long as
    nothing stopped it. -/
structure RunOk (cx : Context V) (me : ℕ) (order : List ℕ) (next : Option ℕ) (r : PassRun V) :
    Prop where
  isPrefix : fronts r.calls <+: order
  calls : ∀ pre k post, r.calls = pre ++ k :: post → CallOk cx me pre k
  inv : r.code = .success →
    BlocksInv cx.keep me (fronts r.calls) (pushedBy r.calls) next r.state

/-- One more call. -/
theorem RunOk.step {order : List ℕ} {r : PassRun V} (h : RunOk cx me order next r)
    (hcode : r.code = .success) (hpost : Postorder cx.keep.parent order)
    (horder : order = fronts r.calls ++ s :: post) (hnext : next = none ∨ next = some s)
    (next' : Option ℕ) {before : State V} (hbefore : SameBlocks r.state before) (code : ErrorCode)
    (hok : code = .success → (cx.processFront me s next' before).code = .success) :
    RunOk cx me order next'
      ⟨r.calls ++ [⟨s, next', before, cx.processFront me s next' before⟩], code,
        (cx.processFront me s next' before).state⟩ := by
  have hinv := (h.inv hcode).congr hbefore fun _ _ => rfl
  have hpost' : Postorder cx.keep.parent (fronts r.calls ++ s :: post) := horder ▸ hpost
  obtain ⟨hcall, hkeep⟩ := hinv.call rfl hpost' hnext next'
  have hfronts : ∀ k : Call V, fronts (r.calls ++ [k]) = fronts r.calls ++ [k.front] := fun k => by
    rw [fronts, List.map_append]
    rfl
  refine ⟨?_, fun pre k post' hsplit => ?_, fun hc => ?_⟩
  · rw [hfronts, horder]
    exact ⟨post, by rw [List.append_assoc]; rfl⟩
  · rcases List.eq_nil_or_concat post' with rfl | ⟨post', d, rfl⟩
    · obtain ⟨rfl, hk⟩ := List.append_inj' hsplit rfl
      obtain rfl := List.singleton_inj.mp hk
      exact hcall
    · rw [List.concat_eq_append, ← List.cons_append, ← List.append_assoc] at hsplit
      exact h.calls pre k post' (List.append_inj' hsplit rfl).1
  · rw [hfronts]
    exact (hkeep (hok hc)).congr ⟨rfl, rfl, rfl, rfl, rfl, rfl, rfl, rfl, rfl⟩
      (pushedBy_snoc (k := ⟨s, next', before, cx.processFront me s next' before⟩)
        hpost'.notMem_pre)

/-- A range of fronts, the last of them with no front announced. -/
theorem RunOk.runTask {order : List ℕ} (hpost : Postorder cx.keep.parent order) (todo rest : List ℕ)
    {r : PassRun V} (h : RunOk cx me order next r) (hcode : r.code = .success)
    (horder : order = fronts r.calls ++ (todo ++ rest))
    (hnext : next = none ∨ next = todo.head?) :
    RunOk cx me order none (cx.runTask me todo r) ∧
      ((cx.runTask me todo r).code = .success →
        order = fronts (cx.runTask me todo r).calls ++ rest) := by
  -- on the fronts left: each announces its successor in the range
  induction todo generalizing r next with
  | nil =>
    have hn : next = none := hnext.elim id id
    subst hn
    exact ⟨h, fun _ => horder⟩
  | cons s todo ih =>
    rw [Context.runTask]
    dsimp only
    set before : State V := { r.state with budget := cx.enterRegion s r.state.budget }
    set run := cx.processFront me s todo.head? before with hrun
    set code := if run.code = .success then cx.interrupts s run.state.pass else run.code
      with hcodeDef
    have hok : code = .success → run.code = .success := by
      intro hc
      by_contra hne
      rw [hcodeDef, if_neg hne] at hc
      exact hne hc
    have hsame : SameBlocks r.state before := ⟨rfl, rfl, rfl, rfl, rfl, rfl, rfl, rfl, rfl⟩
    have hstep := h.step hcode hpost horder hnext todo.head? hsame code hok
    by_cases hc : code = .success
    · rw [if_pos hc]
      refine ih hstep hc ?_ (.inr rfl)
      rw [fronts, List.map_append, List.append_assoc]
      exact horder
    · rw [if_neg hc]
      exact ⟨⟨hstep.isPrefix, hstep.calls, fun hs => absurd hs hc⟩, fun hs => absurd hs hc⟩

theorem RunOk.runTasks {order : List ℕ} (hpost : Postorder cx.keep.parent order)
    (tasks : List (List ℕ)) {r : PassRun V} (h : RunOk cx me order none r)
    (hcode : r.code = .success) (horder : order = fronts r.calls ++ tasks.flatten) :
    RunOk cx me order none (cx.runTasks me tasks r) ∧
      ((cx.runTasks me tasks r).code = .success →
        fronts (cx.runTasks me tasks r).calls = order) := by
  induction tasks generalizing r with
  | nil =>
    rw [List.flatten_nil, List.append_nil] at horder
    exact ⟨h, fun _ => horder.symm⟩
  | cons t tasks ih =>
    rw [List.flatten_cons] at horder
    obtain ⟨htask, hdone⟩ := h.runTask hpost t tasks.flatten hcode horder (.inl rfl)
    rw [Context.runTasks]
    by_cases hc : (cx.runTask me t r).code = .success
    · rw [if_pos hc]
      exact ih htask hc (hdone hc)
    · rw [if_neg hc]
      exact ⟨htask, fun hs => absurd hs hc⟩

/-- The contribution blocks of a pass over ranges of whole subtrees, the serial engine's
    one range or the tasks of a thread: the fronts are called in postorder, each at most
    once; every call assembles its children's blocks as they were pushed, with the original
    entries of its pivot columns, finds every block that is still to be read intact, and
    leaves the stack as it should; and a pass
    that nothing stops calls all its fronts and ends with the blocks of its roots intact. -/
theorem runPass_blocks (cx : Context V) (me : ℕ) (P : cx.keep.Tasks) (st : State V)
    (hst : Fresh st) :
    fronts (cx.runPass me P st).calls <+: P.fronts ∧
      (fronts (cx.runPass me P st).calls).Nodup ∧
      (∀ pre k post, (cx.runPass me P st).calls = pre ++ k :: post → CallOk cx me pre k) ∧
      ((cx.runPass me P st).code = .success →
        fronts (cx.runPass me P st).calls = P.fronts ∧
        ∀ c b, Live cx.keep (cx.runPass me P st).calls c b →
          cx.readBlock me (cx.runPass me P st).state c = b) := by
  have hstart : RunOk cx me P.fronts none ⟨[], .success, st⟩ :=
    ⟨List.nil_prefix, fun pre k post h => (by cases pre <;> cases h),
      fun _ => hst.blocksInv cx.keep me⟩
  have horder : P.fronts = fronts ([] : List (Call V)) ++
      (P.ranges.map AssemblyTree.taskFronts).flatten := by
    rw [AssemblyTree.Tasks.fronts, List.flatMap_def]
    rfl
  obtain ⟨hrun, hdone⟩ := hstart.runTasks P.postorder _ rfl horder
  exact ⟨hrun.isPrefix, hrun.isPrefix.sublist.nodup P.postorder.nodup, hrun.calls,
    fun hcode => ⟨hdone hcode, fun c b hc => (hrun.inv hcode).readBlock hc⟩⟩

end Runs

/-! ## A chain of three fronts -/

/-- The parent of column `s` is the next column. -/
def chainParent (s : ℕ) : Option ℕ := if s < 2 then some (s + 1) else none

theorem chainParent_eq_some {c s : ℕ} : chainParent c = some s ↔ c < 2 ∧ c + 1 = s := by
  unfold chainParent
  split_ifs with h <;> simp [h]

theorem below_chain {x s : ℕ} (hs : s < 3) : Below chainParent x s ↔ x < s := by
  constructor
  · intro h
    induction h with
    | single h =>
      have h := chainParent_eq_some.mp h
      omega
    | tail _ h ih =>
      have h := chainParent_eq_some.mp h
      have ih := ih (by omega)
      omega
  · intro h
    induction s with
    | zero => exact absurd h (Nat.not_lt_zero x)
    | succ s ih =>
      have hup : chainParent s = some (s + 1) := chainParent_eq_some.mpr ⟨by omega, rfl⟩
      rcases Nat.lt_succ_iff_lt_or_eq.mp h with h | rfl
      · exact (ih (by omega) h).tail hup
      · exact .single hup

/-- Three columns, each with the next one's row. -/
def chainTree : AssemblyTree where
  ns := 3
  supernodes := fun s => ⟨s, s + 1, chainParent s⟩
  children := fun s => if 0 < s ∧ s < 3 then [s - 1] else []
  frontRows := fun s => if s < 2 then [s, s + 1] else [s]
  mem_children := by
    intro s c
    rw [chainParent_eq_some]
    split_ifs with h
    · rw [List.mem_singleton]
      omega
    · refine iff_of_false List.not_mem_nil ?_
      omega
  children_nodup := by
    intro s
    split_ifs
    · exact List.nodup_singleton _
    · exact List.nodup_nil
  postorder := postorder_of_first (fun _ => 0) (fun _ _ => Nat.zero_le _) fun _ hs x => by
    rw [and_iff_right (Nat.zero_le x)]
    exact below_chain hs

/-- A kernel that leaves the front as it is and delays its columns, unless the delay budget
    of two is spent. -/
def chainContext : Context ℤ where
  keep := chainTree
  acp := fun j => min (2 * j) 5
  ari := fun k => (k + 1) / 2
  av := fun k => k + 1
  posdef := false
  kernel := fun _ prm numElig rows F =>
    let accepted := match prm with
      | .plain => 0
      | .fallback | .budget => numElig
    { rows := fun t => rows.getD t 0
      front := F
      tags := fun _ => 1
      numAccepted := accepted
      inertia := ⟨accepted, 0, 0⟩
      overran := false }
  fallbackStatic := false
  aprm := false
  aptpMinElig := 0
  delayBudget := some 2
  tileAprm := false
  tileMin := 0
  smallFronts := true
  blockedMinFront := 96
  nb := 32
  posdefLapack := 0
  top := none
  stops := fun _ _ _ => false
  enterRegion := fun _ b => b
  interrupts := fun _ _ => .success
  passStacks := fun _ => ⟨fun _ => 0, fun _ => 0⟩
  sqrt := id
  isFinite := fun _ => true

/-- The serial engine's tasks: the whole postorder. -/
def chainTasks : chainContext.keep.Tasks where
  ranges := [(0, 2)]
  isTask := by
    intro r hr
    obtain rfl := List.mem_singleton.mp hr
    exact ⟨Nat.zero_le _, by decide, fun _ _ _ _ _ => Nat.zero_le _⟩
  disjoint := List.pairwise_singleton ..

def chainStart : State ℤ where
  pass :=
    { fv := fun _ => 0, sri := fun _ => 0, steps := [], diag := [], cbv := fun _ => 0
      cbr := fun _ => 0, fo := 0, ro := 0, cvTop := 0, crTop := 0
      sbuf := fun _ => ⟨fun _ => 0, fun _ => 0, none, 0, 0⟩, inertia := {}, frontWork := 0 }
  ws := ⟨fun _ => none, fun _ => 0, fun _ => 0, fun _ => 0, fun _ => 0⟩
  nodeBlocks := fun _ => ⟨.chunk 0 0, .chunk 0 0⟩
  rootValues := ⟨1, fun _ _ => 0, 0, 0, fun _ => ⟨fun _ => 0, 0, false⟩, 0⟩
  rootRows := ⟨1, fun _ _ => 0, 0, 0, fun _ => ⟨fun _ => 0, 0, false⟩, 0⟩
  budget := {}
  pivotTypes := fun _ => []
  factorColPtr := fun _ => 0

/-- Front 0 delays its column and hands its block over in a small-front buffer; front 1
    would delay that column and its own, and is assembled again. -/
theorem runPass_blocks_chain :
    let run := chainContext.runPass 0 chainTasks chainStart
    fronts run.calls = [0, 1, 2] ∧
      (run.calls.map fun k => (chainContext.numDelayed k.before k.front,
        (k.before.pass.sbuf 0).node, k.run.attempts.length)) =
        [(0, none, 1), (1, some 0, 2), (0, none, 1)] ∧
      ∀ pre k post, run.calls = pre ++ k :: post → CallOk chainContext 0 pre k := by
  obtain ⟨-, -, hcalls, hdone⟩ := runPass_blocks chainContext 0 chainTasks chainStart
    ⟨rfl, rfl, fun _ => rfl⟩
  have hcode : (chainContext.runPass 0 chainTasks chainStart).code = .success := by decide +kernel
  exact ⟨(hdone hcode).1, by decide +kernel, hcalls⟩

end Multifrontal
end SmfSolver
