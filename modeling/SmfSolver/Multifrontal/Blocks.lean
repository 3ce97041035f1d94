/-
  SmfSolver.Multifrontal.Blocks

  Where a contribution block is, and what keeps it there.

  * `Stored`: a block is on the stack below the tops, in the arenas, or in a small-front
    buffer; `Stored.readBlock`: it reads as it was written.
  * `SameBlocks`: two states with the same memory for blocks; a write to the front under
    assembly (`setMem`) is the other frame rule (`Stored.setMem`).
  * `stored_pushStack`, `stored_pushArena`, `stored_handOver`: a pushed block is stored;
    `Stored.pushStack` and its like: the others stay.
-/
import SmfSolver.Multifrontal.ProcessFront
import Mathlib.Data.Fin.VecNotation
import Mathlib.Tactic.Ring

namespace SmfSolver
namespace Multifrontal

open Lib

variable {V : Type*}

/-! ## Packed triangles -/

/-- Number of entries of a packed lower triangle. -/
abbrev packedSize (q : ℕ) : ℕ := q * (q + 1) / 2

theorem packedCol_formula (q : ℕ) {k : ℕ} (h : k ≤ q) :
    2 * packedCol q k + k * k = k * (2 * q + 1) := by
  induction k with
  | zero => simp [packedCol]
  | succ k ih =>
    have ih := ih (Nat.le_of_succ_le h)
    obtain ⟨d, rfl⟩ := Nat.exists_eq_add_of_le h
    have hd : k + 1 + d - k = d + 1 := by omega
    rw [packedCol, hd]
    calc 2 * (packedCol (k + 1 + d) k + (d + 1)) + (k + 1) * (k + 1)
        = (2 * packedCol (k + 1 + d) k + k * k) + (2 * d + 2 + 2 * k + 1) := by ring
      _ = (k + 1) * (2 * (k + 1 + d) + 1) := by rw [ih]; ring

theorem packedCol_self (q : ℕ) : packedCol q q = packedSize q := by
  have h := packedCol_formula q (le_refl q)
  have hq : q * (q + 1) = 2 * packedCol q q := by
    have hexp : q * (2 * q + 1) = q * q + q * (q + 1) := by ring
    omega
  rw [packedSize, hq, Nat.mul_div_cancel_left _ (by decide)]

/-- The packed order visits the packed places in order. -/
theorem map_packedCol (q : ℕ) :
    (lowerIndices q).map (fun e => packedCol q e.1 + (e.2 - e.1)) = List.range (packedSize q) := by
  have key : ∀ k ≤ q,
      ((List.range k).flatMap fun jj => (List.range' jj (q - jj)).map fun ii => (jj, ii)).map
        (fun e => packedCol q e.1 + (e.2 - e.1)) = List.range (packedCol q k) := by
    intro k
    induction k with
    | zero => exact fun _ => rfl
    | succ k ih =>
      intro hk
      rw [List.range_succ, List.flatMap_append, List.map_append, ih (Nat.le_of_succ_le hk),
        packedCol, List.range_add]
      congr 1
      rw [List.flatMap_singleton, List.map_map, List.range'_eq_map_range, List.map_map]
      refine List.map_congr_left fun t _ => ?_
      simp only [Function.comp_apply, Nat.add_sub_cancel_left]
  rw [← packedCol_self]
  exact key q (le_refl q)

@[simp] theorem length_lowerIndices (q : ℕ) : (lowerIndices q).length = packedSize q := by
  have h := congrArg List.length (map_packedCol q)
  rwa [List.length_map, List.length_range] at h

theorem mem_lowerIndices {q : ℕ} {e : ℕ × ℕ} :
    e ∈ lowerIndices q ↔ e.1 < q ∧ e.1 ≤ e.2 ∧ e.2 < q := by
  simp only [lowerIndices, List.mem_flatMap, List.mem_range, List.mem_map, List.mem_range'_1]
  constructor
  · rintro ⟨jj, hjj, ii, hii, rfl⟩
    exact ⟨hjj, hii.1, by omega⟩
  · rintro ⟨h₁, h₂, h₃⟩
    exact ⟨e.1, h₁, e.2, ⟨h₂, by omega⟩, rfl⟩

/-- A packed triangle in memory is a segment. -/
theorem map_packed (mem : ℕ → V) (off q : ℕ) :
    (lowerIndices q).map (fun e => mem (off + (packedCol q e.1 + (e.2 - e.1))))
      = readSeg mem off (packedSize q) := by
  rw [readSeg, ← map_packedCol, List.map_map]
  rfl

/-! ## Reading a block -/

section Read

variable {cx : Context V} {me : ℕ} {st st' : State V} {c : ℕ}

theorem FrontPass.heldBuf_eq_some {P : FrontPass V} {i : Fin 2} (h : P.heldBuf c = some i) :
    (P.sbuf i).node = some c := by
  unfold heldBuf at h
  split_ifs at h with h₀ h₁
  · obtain rfl := Option.some.inj h
    exact h₀
  · obtain rfl := Option.some.inj h
    exact h₁

theorem FrontPass.heldBuf_eq_none {P : FrontPass V} :
    P.heldBuf c = none ↔ ∀ i, (P.sbuf i).node ≠ some c := by
  rw [Fin.forall_fin_two]
  unfold heldBuf
  split_ifs with h₀ h₁
  · exact ⟨fun h => (nomatch h), fun h => absurd h₀ h.1⟩
  · exact ⟨fun h => (nomatch h), fun h => absurd h₁ h.2⟩
  · exact ⟨fun _ => ⟨h₀, h₁⟩, fun _ => rfl⟩

theorem FrontPass.heldBuf_congr {P P' : FrontPass V}
    (h : ∀ i, (P.sbuf i).node = (P'.sbuf i).node) : P.heldBuf c = P'.heldBuf c := by
  unfold heldBuf
  rw [h 0, h 1]

/-- A block on the stack is a segment of it. -/
theorem readBlock_stack (hheld : st.pass.heldBuf c = none) (howner : st.ws.cbOwner c = some me) :
    cx.readBlock me st c =
      ⟨readSeg st.pass.cbr (st.ws.cbRowOff c) (st.ws.cbSize c),
        readSeg st.pass.cbv (st.ws.cbValueOff c) (packedSize (st.ws.cbSize c))⟩ := by
  have hrow : cx.childRow me st c = fun t => st.pass.cbr (st.ws.cbRowOff c + t) := by
    funext t
    simp only [Context.childRow, hheld, howner, Context.stackRows, if_pos]
  have hval : ∀ jj ii, cx.childValue me st c jj ii =
      st.pass.cbv (st.ws.cbValueOff c + (packedCol (st.ws.cbSize c) jj + (ii - jj))) :=
    fun jj ii => by
      simp only [Context.childValue, hheld, howner, Context.stackValues, if_pos]
  simp only [Context.readBlock, hrow, hval, map_packed]
  rfl

/-- A block in the arenas is one block of each. -/
theorem readBlock_arena (hheld : st.pass.heldBuf c = none) (howner : st.ws.cbOwner c = none) :
    cx.readBlock me st c =
      ⟨st.rootRows.read (st.nodeBlocks c).r (st.ws.cbSize c),
        st.rootValues.read (st.nodeBlocks c).v (packedSize (st.ws.cbSize c))⟩ := by
  have hrow : cx.childRow me st c = st.rootRows.get (st.nodeBlocks c).r := by
    funext t
    simp only [Context.childRow, hheld, howner]
  have hval : ∀ jj ii, cx.childValue me st c jj ii =
      st.rootValues.get (st.nodeBlocks c).v (packedCol (st.ws.cbSize c) jj + (ii - jj)) :=
    fun jj ii => by simp only [Context.childValue, hheld, howner]
  simp only [Context.readBlock, hrow, hval, ChunkArena.read, ← map_packedCol, List.map_map]
  rfl

/-- A block in a small-front buffer is the trailing part of the front assembled there. -/
theorem readBlock_held {i : Fin 2} (hheld : st.pass.heldBuf c = some i) :
    cx.readBlock me st c =
      ⟨readSeg (st.pass.sbuf i).rows 0 (st.ws.cbSize c),
        (lowerIndices (st.ws.cbSize c)).map fun e =>
          (st.pass.sbuf i).v (((st.pass.sbuf i).off + e.1) * (st.pass.sbuf i).ld
            + ((st.pass.sbuf i).off + e.2))⟩ := by
  have hrow : cx.childRow me st c = fun t => (st.pass.sbuf i).rows (0 + t) := by
    funext t
    rw [Nat.zero_add]
    simp only [Context.childRow, hheld]
  simp only [Context.readBlock, hrow, readSeg]
  congr 1
  refine List.map_congr_left fun e he => ?_
  obtain ⟨-, hle, -⟩ := mem_lowerIndices.mp he
  simp only [Context.childValue, hheld]
  congr 1
  obtain ⟨d, hd⟩ := Nat.exists_eq_add_of_le hle
  rw [hd, Nat.add_sub_cancel_left]
  ring

end Read

/-! ## Where a block is -/

/-- The block `b` of node `c` is on the pass's stack, below its tops; in the arenas; or
    in a small-front buffer. -/
inductive Stored (me : ℕ) (st : State V) (c : ℕ) (b : Block V) : Prop
  | stack (held : st.pass.heldBuf c = none) (owner : st.ws.cbOwner c = some me)
      (rows : readSeg st.pass.cbr (st.ws.cbRowOff c) (st.ws.cbSize c) = b.rows)
      (values : readSeg st.pass.cbv (st.ws.cbValueOff c) (packedSize (st.ws.cbSize c)) = b.values)
      (row_le : st.ws.cbRowOff c + st.ws.cbSize c ≤ st.pass.crTop)
      (value_le : st.ws.cbValueOff c + packedSize (st.ws.cbSize c) ≤ st.pass.cvTop)
  | arena (held : st.pass.heldBuf c = none) (owner : st.ws.cbOwner c = none)
      (rows : st.rootRows.read (st.nodeBlocks c).r (st.ws.cbSize c) = b.rows)
      (values : st.rootValues.read (st.nodeBlocks c).v (packedSize (st.ws.cbSize c)) = b.values)
      (taken_rows : st.rootRows.Taken (st.nodeBlocks c).r (st.ws.cbSize c))
      (taken_values : st.rootValues.Taken (st.nodeBlocks c).v (packedSize (st.ws.cbSize c)))
  | buffer (i : Fin 2) (held : st.pass.heldBuf c = some i) (owner : st.ws.cbOwner c = some me)
      (rows : readSeg (st.pass.sbuf i).rows 0 (st.ws.cbSize c) = b.rows)
      (values : ((lowerIndices (st.ws.cbSize c)).map fun e =>
        (st.pass.sbuf i).v (((st.pass.sbuf i).off + e.1) * (st.pass.sbuf i).ld
          + ((st.pass.sbuf i).off + e.2))) = b.values)

/-- The two states have the same blocks in the same places. -/
structure SameBlocks (st st' : State V) : Prop where
  ws : st'.ws = st.ws
  nodeBlocks : st'.nodeBlocks = st.nodeBlocks
  rootValues : st'.rootValues = st.rootValues
  rootRows : st'.rootRows = st.rootRows
  cbv : st'.pass.cbv = st.pass.cbv
  cbr : st'.pass.cbr = st.pass.cbr
  cvTop : st'.pass.cvTop = st.pass.cvTop
  crTop : st'.pass.crTop = st.pass.crTop
  sbuf : st'.pass.sbuf = st.pass.sbuf

section Stored

variable {cx : Context V} {me : ℕ} {st st' st'' : State V} {c s : ℕ} {b : Block V}

theorem Stored.readBlock (h : Stored me st c b) : cx.readBlock me st c = b := by
  cases h with
  | stack held owner rows values => rw [readBlock_stack held owner, rows, values]
  | arena held owner rows values => rw [readBlock_arena held owner, rows, values]
  | buffer i held _ rows values => rw [readBlock_held held, rows, values]

theorem SameBlocks.trans (h : SameBlocks st st') (h' : SameBlocks st' st'') :
    SameBlocks st st'' where
  ws := h'.ws.trans h.ws
  nodeBlocks := h'.nodeBlocks.trans h.nodeBlocks
  rootValues := h'.rootValues.trans h.rootValues
  rootRows := h'.rootRows.trans h.rootRows
  cbv := h'.cbv.trans h.cbv
  cbr := h'.cbr.trans h.cbr
  cvTop := h'.cvTop.trans h.cvTop
  crTop := h'.crTop.trans h.crTop
  sbuf := h'.sbuf.trans h.sbuf

theorem SameBlocks.heldBuf (h : SameBlocks st st') : st'.pass.heldBuf c = st.pass.heldBuf c :=
  FrontPass.heldBuf_congr fun i => by rw [h.sbuf]

theorem Stored.congr (hs : SameBlocks st st') (h : Stored me st c b) : Stored me st' c b := by
  cases h with
  | stack held owner rows values row_le value_le =>
    exact .stack (hs.heldBuf.trans held) (by rw [hs.ws, owner]) (by rw [hs.cbr, hs.ws, rows])
      (by rw [hs.cbv, hs.ws, values]) (by rw [hs.ws, hs.crTop]; exact row_le)
      (by rw [hs.ws, hs.cvTop]; exact value_le)
  | arena held owner rows values taken_rows taken_values =>
    exact .arena (hs.heldBuf.trans held) (by rw [hs.ws, owner])
      (by rw [hs.rootRows, hs.nodeBlocks, hs.ws, rows])
      (by rw [hs.rootValues, hs.nodeBlocks, hs.ws, values])
      (by rw [hs.rootRows, hs.nodeBlocks, hs.ws]; exact taken_rows)
      (by rw [hs.rootValues, hs.nodeBlocks, hs.ws]; exact taken_values)
  | buffer i held owner rows values =>
    exact .buffer i (hs.heldBuf.trans held) (by rw [hs.ws, owner]) (by rw [hs.sbuf, hs.ws, rows])
      (by rw [hs.sbuf, hs.ws, values])

/-! ## Writes to the front -/

/-- The node of a small-front buffer is no front entry. -/
theorem node_setMem (P : FrontPass V) (m : FrontMem) (g : ℕ → V) (i : Fin 2) :
    ((P.setMem m g).sbuf i).node = (P.sbuf i).node := by
  cases m with
  | factor => rfl
  | small j =>
    by_cases hij : i = j
    · subst hij
      simp only [FrontPass.setMem, Function.update_self]
    · simp only [FrontPass.setMem, Function.update_of_ne hij]

theorem heldBuf_setMem (P : FrontPass V) (m : FrontMem) (g : ℕ → V) :
    (P.setMem m g).heldBuf c = P.heldBuf c :=
  FrontPass.heldBuf_congr (node_setMem P m g)

theorem setMem_setMem (P : FrontPass V) (m : FrontMem) (g g' : ℕ → V) :
    (P.setMem m g).setMem m g' = P.setMem m g' := by
  cases m with
  | factor =>
    simp only [FrontPass.setMem]
    congr 1
    funext a
    split_ifs <;> rfl
  | small i => simp only [FrontPass.setMem, Function.update_self, Function.update_idem]

theorem State.setMem_setMem (st : State V) (m : FrontMem) (g g' : ℕ → V) :
    (st.setMem m g).setMem m g' = st.setMem m g' := by
  simp only [State.setMem, Multifrontal.setMem_setMem]

theorem sameBlocks_setMem_factor (st : State V) (g : ℕ → V) :
    SameBlocks st (st.setMem .factor g) :=
  ⟨rfl, rfl, rfl, rfl, rfl, rfl, rfl, rfl, rfl⟩

/-- A write to the front disturbs no block but one held where the front is assembled. -/
theorem Stored.setMem (h : Stored me st c b) {m : FrontMem}
    (hm : ∀ i, m = .small i → (st.pass.sbuf i).node = none) (g : ℕ → V) :
    Stored me (st.setMem m g) c b := by
  cases m with
  | factor => exact h.congr (sameBlocks_setMem_factor st g)
  | small j =>
    have hheld : ((st.setMem (.small j) g).pass).heldBuf c = st.pass.heldBuf c :=
      heldBuf_setMem st.pass (.small j) g
    cases h with
    | stack held owner rows values row_le value_le =>
      exact .stack (hheld.trans held) owner rows values row_le value_le
    | arena held owner rows values taken_rows taken_values =>
      exact .arena (hheld.trans held) owner rows values taken_rows taken_values
    | buffer i held owner rows values =>
      have hij : i ≠ j := by
        rintro rfl
        have hnode := FrontPass.heldBuf_eq_some held
        rw [hm i rfl] at hnode
        cases hnode
      have hbuf : (st.setMem (.small j) g).pass.sbuf i = st.pass.sbuf i :=
        Function.update_of_ne hij ..
      exact .buffer i (hheld.trans held) owner (by rw [hbuf]; exact rows)
        (by rw [hbuf]; exact values)

/-- A block reads the same whatever is written to the front, unless it is held there. -/
theorem readBlock_setMem {m : FrontMem} (hm : ∀ i, m = .small i → (st.pass.sbuf i).node = none)
    (g : ℕ → V) :
    cx.childRow me (st.setMem m g) c = cx.childRow me st c ∧
      cx.childValue me (st.setMem m g) c = cx.childValue me st c := by
  have hheld : ((st.setMem m g).pass).heldBuf c = st.pass.heldBuf c := heldBuf_setMem st.pass _ g
  cases m with
  | factor => exact ⟨rfl, rfl⟩
  | small j =>
    unfold Context.childRow Context.childValue
    rw [hheld]
    cases hc : st.pass.heldBuf c with
    | none => exact ⟨rfl, rfl⟩
    | some i =>
      have hij : i ≠ j := by
        rintro rfl
        have hnode := FrontPass.heldBuf_eq_some hc
        rw [hm i rfl] at hnode
        cases hnode
      have hbuf : (st.setMem (.small j) g).pass.sbuf i = st.pass.sbuf i :=
        Function.update_of_ne hij ..
      simp only [hbuf, and_self]

end Stored

/-! ## The assembly only writes the front -/

/-- `st'` is `st` but for the front under assembly. -/
def FrontOnly (p : FrontPlan) (st st' : State V) : Prop := ∃ g, st' = st.setMem p.place g

section Assembly

variable {cx : Context V} {me : ℕ} {p : FrontPlan} {st st' st'' : State V}

theorem setMem_mem (P : FrontPass V) (m : FrontMem) : P.setMem m (P.mem m) = P := by
  cases m with
  | factor =>
    simp only [FrontPass.setMem, FrontPass.mem]
    congr 1
    funext a
    split_ifs with h
    · rw [Nat.add_sub_cancel' h]
    · rfl
  | small i => simp only [FrontPass.setMem, FrontPass.mem, Function.update_eq_self]

theorem FrontOnly.refl : FrontOnly p st st :=
  ⟨st.pass.mem p.place, by rw [State.setMem, setMem_mem]⟩

theorem FrontOnly.trans (h : FrontOnly p st st') (h' : FrontOnly p st' st'') :
    FrontOnly p st st'' := by
  obtain ⟨g, rfl⟩ := h
  obtain ⟨g', rfl⟩ := h'
  exact ⟨g', State.setMem_setMem ..⟩

theorem FrontOnly.foldl {ι : Type*} {step : State V → ι → State V}
    (hstep : ∀ st i, FrontOnly p st (step st i)) (l : List ι) (st : State V) :
    FrontOnly p st (l.foldl step st) := by
  induction l generalizing st with
  | nil => exact .refl
  | cons i l ih => exact (hstep st i).trans (ih _)

theorem FrontOnly.ws (h : FrontOnly p st st') : st'.ws = st.ws := by
  obtain ⟨g, rfl⟩ := h
  rfl

theorem FrontOnly.node (h : FrontOnly p st st') (i : Fin 2) :
    (st'.pass.sbuf i).node = (st.pass.sbuf i).node := by
  obtain ⟨g, rfl⟩ := h
  exact node_setMem ..

/-- The place of the front holds no block. -/
def PlaceFree (p : FrontPlan) (st : State V) : Prop :=
  ∀ i, p.place = .small i → (st.pass.sbuf i).node = none

theorem FrontOnly.placeFree (h : FrontOnly p st st') (hfree : PlaceFree p st) : PlaceFree p st' :=
  fun i hi => (h.node i).trans (hfree i hi)

theorem FrontOnly.stored (h : FrontOnly p st st') (hfree : PlaceFree p st) {c : ℕ} {b : Block V}
    (hb : Stored me st c b) : Stored me st' c b := by
  obtain ⟨g, rfl⟩ := h
  exact hb.setMem hfree g

theorem FrontOnly.childRow (h : FrontOnly p st st') (hfree : PlaceFree p st) (c : ℕ) :
    cx.childRow me st' c = cx.childRow me st c := by
  obtain ⟨g, rfl⟩ := h
  exact (readBlock_setMem hfree g).1

theorem FrontOnly.childValue (h : FrontOnly p st st') (hfree : PlaceFree p st) (c : ℕ) :
    cx.childValue me st' c = cx.childValue me st c := by
  obtain ⟨g, rfl⟩ := h
  exact (readBlock_setMem hfree g).2

theorem FrontOnly.readBlock (h : FrontOnly p st st') (hfree : PlaceFree p st) (c : ℕ) :
    cx.readBlock me st' c = cx.readBlock me st c := by
  simp only [Context.readBlock, h.ws, h.childRow hfree, h.childValue hfree]

variable [Zero V] [Add V]

omit [Zero V] in
theorem frontOnly_addAt (i j : ℕ) (v : V) : FrontOnly p st (st.addAt p.place p.lda i j v) :=
  ⟨_, rfl⟩

omit [Zero V] in
theorem frontOnly_addOriginal (sn : Supernode) : FrontOnly p st (cx.addOriginal p sn st) :=
  FrontOnly.foldl (fun st _ => FrontOnly.foldl (fun _ _ => frontOnly_addAt ..) _ st) _ st

variable (cx me) in
omit [Zero V] in
/-- While a child's block is added, its values are read as they were. -/
theorem foldl_addEntry (hfree : PlaceFree p st) {c : ℕ} {cm : ℕ → ℕ} {monotone : Bool}
    (l : List (ℕ × ℕ)) (acc : State V × List V) (hacc : FrontOnly p st acc.1) :
    FrontOnly p st (l.foldl (cx.addEntry me p c cm monotone) acc).1 ∧
      (l.foldl (cx.addEntry me p c cm monotone) acc).2
        = acc.2 ++ l.map fun e => cx.childValue me st c e.1 e.2 := by
  induction l generalizing acc with
  | nil => exact ⟨hacc, (List.append_nil _).symm⟩
  | cons e l ih =>
    obtain ⟨honly, hread⟩ := ih (cx.addEntry me p c cm monotone acc e)
      (hacc.trans (frontOnly_addAt ..))
    refine ⟨honly, hread.trans ?_⟩
    rw [Context.addEntry, hacc.childValue hfree, List.append_assoc, List.map_cons]
    rfl

variable (cx me) in
omit [Zero V] in
theorem extendAdd_spec (hfree : PlaceFree p st) (c : ℕ) :
    FrontOnly p st (cx.extendAdd me p st c).1 ∧
      (cx.extendAdd me p st c).2 = cx.readBlock me st c := by
  refine ⟨(foldl_addEntry cx me hfree _ (st, []) .refl).1, congrArg (Block.mk _) ?_⟩
  exact (foldl_addEntry cx me hfree _ (st, []) .refl).2

/-- A child that has a block, with it. -/
def Context.childBlock (cx : Context V) (me : ℕ) (st : State V) (c : ℕ) : Option (ℕ × Block V) :=
  if st.ws.cbSize c = 0 then none else some (c, cx.readBlock me st c)

/-- The children of `kids` that have a block, with it. -/
def Context.childBlocks (cx : Context V) (me : ℕ) (st : State V) (kids : List ℕ) :
    List (ℕ × Block V) :=
  kids.filterMap (cx.childBlock me st)

omit [Zero V] [Add V] in
theorem FrontOnly.childBlock (h : FrontOnly p st st') (hfree : PlaceFree p st) :
    cx.childBlock me st' = cx.childBlock me st := by
  funext c
  simp only [Context.childBlock, h.ws, h.readBlock hfree]

omit [Zero V] in
theorem foldl_addChild (hfree : PlaceFree p st) (kids : List ℕ)
    (acc : State V × List (ℕ × Block V)) (hacc : FrontOnly p st acc.1) :
    FrontOnly p st (kids.foldl (cx.addChild me p) acc).1 ∧
      (kids.foldl (cx.addChild me p) acc).2 = acc.2 ++ cx.childBlocks me st kids := by
  induction kids generalizing acc with
  | nil => exact ⟨hacc, (List.append_nil _).symm⟩
  | cons c kids ih =>
    rw [List.foldl_cons]
    by_cases hc : st.ws.cbSize c = 0
    · have hskip : cx.addChild me p acc c = acc := if_pos (by rw [hacc.ws, hc])
      rw [hskip, Context.childBlocks,
        List.filterMap_cons_none (f := cx.childBlock me st) (if_pos hc)]
      exact ih acc hacc
    · obtain ⟨honly, hread⟩ := extendAdd_spec cx me (hacc.placeFree hfree) c
      have hstep : cx.addChild me p acc c
          = ((cx.extendAdd me p acc.1 c).1, acc.2 ++ [(c, cx.readBlock me st c)]) := by
        rw [← hacc.readBlock hfree, ← hread]
        exact if_neg (by rw [hacc.ws]; exact hc)
      rw [hstep, Context.childBlocks,
        List.filterMap_cons_some (f := cx.childBlock me st) (if_neg hc)]
      obtain ⟨honly', hread'⟩ := ih (_, _) (hacc.trans honly)
      exact ⟨honly', hread'.trans (List.append_assoc ..)⟩

variable (cx me) in
omit [Zero V] in
theorem addChildren_spec (hfree : PlaceFree p st) (kids : List ℕ) :
    FrontOnly p st (cx.addChildren me p kids st).1 ∧
      (cx.addChildren me p kids st).2 = cx.childBlocks me st kids :=
  foldl_addChild hfree kids (st, []) .refl

variable (cx me) in
theorem attempt_spec (hfree : PlaceFree p st) (s : ℕ) (k : FrontKernel) (prm : PivotParams) :
    FrontOnly p st (cx.attempt me s p k prm st).state ∧
      (cx.attempt me s p k prm st).blocks = cx.childBlocks me st (cx.keep.children s) := by
  have horig : FrontOnly p st (cx.addOriginal p (cx.keep.supernodes s) (st.clear p)) :=
    FrontOnly.trans ⟨_, rfl⟩ (frontOnly_addOriginal _)
  obtain ⟨honly, hread⟩ := addChildren_spec cx me (horig.placeFree hfree)
    (cx.keep.children s)
  refine ⟨(horig.trans honly).trans ⟨_, rfl⟩, hread.trans ?_⟩
  rw [Context.childBlocks, horig.childBlock hfree, Context.childBlocks]

/-- Every assembly of a front reads the children's blocks as they were before the front. -/
theorem attempts_spec (hfree : PlaceFree p st) (s : ℕ) {a : Attempt V}
    (ha : a ∈ cx.attempts me s p st) :
    FrontOnly p st a.state ∧ a.blocks = cx.childBlocks me st (cx.keep.children s) := by
  obtain ⟨honly, hread⟩ := attempt_spec cx me hfree s p.kernel p.params
  unfold Context.attempts at ha
  dsimp only at ha
  split_ifs at ha with hretry
  · rcases List.mem_cons.mp ha with rfl | ha
    · exact ⟨honly, hread⟩
    · obtain rfl := List.mem_singleton.mp ha
      obtain ⟨honly', hread'⟩ := attempt_spec cx me (honly.placeFree hfree) s
        (Context.retryKernel p) .budget
      refine ⟨honly.trans honly', hread'.trans ?_⟩
      rw [Context.childBlocks, honly.childBlock hfree, Context.childBlocks]
  · obtain rfl := List.mem_singleton.mp ha
    exact ⟨honly, hread⟩

end Assembly

end Multifrontal
end SmfSolver
