/-
  SmfSolver.Multifrontal.AssembledFront

  What the entries of an assembled front are.

  * `Added`: one addition to a cell of the front; `sumAt`: a cell as the sum of what is
    added to it, in order, from zero.
  * `front_addAll`: the front after additions, cell by cell.
  * `addOriginal_eq`, `addChildren_eq`: the assembly adds the original entries of the
    pivot columns and the entries of the children's blocks, at the positions of their rows.
  * `attempts_front`: the front every kernel of a supernode gets.
-/
import SmfSolver.Multifrontal.Blocks

namespace SmfSolver
namespace Multifrontal

open Lib

variable {V : Type*}

/-! ## Additions -/

/-- `Fa[col * lda + row] += value`. -/
structure Added (V : Type*) where
  row : ℕ
  col : ℕ
  value : V

/-- The values added at `(i, j)` on top of `v`, one after the other. -/
def addedTo [Add V] (v : V) (l : List (Added V)) (i j : ℕ) : V :=
  (l.filter fun a => a.row = i ∧ a.col = j).foldl (fun v a => v + a.value) v

/-- The sum of what is added at `(i, j)`. -/
def sumAt [Zero V] [Add V] (l : List (Added V)) (i j : ℕ) : V := addedTo 0 l i j

/-- The original entries of the pivot columns, at the positions of their rows. -/
def Context.originals (cx : Context V) (p : FrontPlan) (sn : Supernode) : List (Added V) :=
  (List.range' sn.colStart sn.width).flatMap fun j =>
    (List.range' (cx.acp j) (cx.acp (j + 1) - cx.acp j)).map fun k =>
      ⟨p.position (cx.ari k), p.position j, cx.av k⟩

/-- The entry `(ii, jj)` of a child's block in the lower triangle of the front, its rows
    at the positions `cm`. -/
def blockEntry (cm : ℕ → ℕ) (e : ℕ × ℕ) (v : V) : Added V :=
  ⟨max (cm e.1) (cm e.2), min (cm e.1) (cm e.2), v⟩

/-- The entries of a child's block. -/
def FrontPlan.blockEntries (p : FrontPlan) (b : Block V) : List (Added V) :=
  ((lowerIndices b.rows.length).zip b.values).map fun ev =>
    blockEntry (fun t => p.position (b.rows.getD t 0)) ev.1 ev.2

/-- What is assembled into a front: the original entries of its pivot columns, and the
    blocks. -/
def Context.assembly (cx : Context V) (s : ℕ) (p : FrontPlan) (blocks : List (ℕ × Block V)) :
    List (Added V) :=
  cx.originals p (cx.keep.supernodes s) ++ blocks.flatMap fun b => p.blockEntries b.2

/-- All additions, in order. -/
def State.addAll [Add V] (st : State V) (p : FrontPlan) (l : List (Added V)) : State V :=
  l.foldl (fun st a => st.addAt p.place p.lda a.row a.col a.value) st

section Additions

variable {cx : Context V} {me : ℕ} {p : FrontPlan} {st : State V} {i j : ℕ}

theorem mem_setMem (P : FrontPass V) (m : FrontMem) (g : ℕ → V) : (P.setMem m g).mem m = g := by
  cases m with
  | factor =>
    funext a
    show (if P.fo ≤ P.fo + a then g (P.fo + a - P.fo) else P.fv (P.fo + a)) = g a
    rw [if_pos (Nat.le_add_right _ _), Nat.add_sub_cancel_left]
  | small b => simp only [FrontPass.setMem, FrontPass.mem, Function.update_self]

/-- The row and the column of a place in the front. -/
theorem cell_mod_div {lda i j : ℕ} (hi : i < lda) :
    (j * lda + i) % lda = i ∧ (j * lda + i) / lda = j := by
  rw [Nat.mul_comm]
  constructor
  · rw [Nat.mul_add_mod, Nat.mod_eq_of_lt hi]
  · rw [Nat.mul_add_div (Nat.zero_lt_of_lt hi), Nat.div_eq_of_lt hi, Nat.add_zero]

variable [Add V]

theorem front_addAt {a : Added V} (ha : a.row < p.lda) (hi : i < p.lda) :
    (st.addAt p.place p.lda a.row a.col a.value).front p i j =
      addedTo (st.front p i j) [a] i j := by
  unfold State.addAt State.front State.setMem addedTo
  rw [mem_setMem]
  by_cases h : a.row = i ∧ a.col = j
  · obtain ⟨rfl, rfl⟩ := h
    simp
  · have hne : j * p.lda + i ≠ a.col * p.lda + a.row := by
      intro heq
      obtain ⟨hmod, hdiv⟩ := cell_mod_div (j := j) hi
      obtain ⟨hmod', hdiv'⟩ := cell_mod_div (j := a.col) ha
      rw [heq] at hmod hdiv
      exact h ⟨hmod'.symm.trans hmod, hdiv'.symm.trans hdiv⟩
    rw [Function.update_of_ne hne, List.filter_cons_of_neg (by simpa using h)]
    rfl

theorem addedTo_cons (v : V) (a : Added V) (l : List (Added V)) :
    addedTo v (a :: l) i j = addedTo (addedTo v [a] i j) l i j := by
  unfold addedTo
  rw [← List.singleton_append, List.filter_append, List.foldl_append]

theorem front_addAll (l : List (Added V)) (st : State V) (hl : ∀ a ∈ l, a.row < p.lda)
    (hi : i < p.lda) : (st.addAll p l).front p i j = addedTo (st.front p i j) l i j := by
  induction l generalizing st with
  | nil => rfl
  | cons a l ih =>
    rw [addedTo_cons, ← front_addAt (hl a List.mem_cons_self) hi]
    exact ih _ fun b hb => hl b (List.mem_cons_of_mem a hb)

theorem addAll_append (l l' : List (Added V)) (st : State V) :
    st.addAll p (l ++ l') = (st.addAll p l).addAll p l' := List.foldl_append

theorem frontOnly_addAll (l : List (Added V)) (st : State V) : FrontOnly p st (st.addAll p l) :=
  FrontOnly.foldl (fun _ _ => frontOnly_addAt ..) l st

/-! ## The assembly as additions -/

theorem addOriginal_eq (sn : Supernode) (st : State V) :
    cx.addOriginal p sn st = st.addAll p (cx.originals p sn) := by
  unfold Context.addOriginal Context.originals State.addAll
  rw [List.foldl_flatMap]
  simp only [List.foldl_map]

variable (cx me p) in
/-- Whether the positions are known to be in order or not, an entry is added in the lower
    triangle. -/
theorem addEntry_eq {q : ℕ} {cm : ℕ → ℕ} {monotone : Bool}
    (hmono : monotone = true → ((List.range q).map cm).IsChain (· < ·)) (c : ℕ) {e : ℕ × ℕ}
    (he : e ∈ lowerIndices q) (acc : State V × List V) :
    (cx.addEntry me p c cm monotone acc e).1 =
      acc.1.addAll p [blockEntry cm e (cx.childValue me acc.1 c e.1 e.2)] := by
  obtain ⟨h₁, hle, h₂⟩ := mem_lowerIndices.mp he
  unfold Context.addEntry blockEntry State.addAll
  cases monotone with
  | true =>
    have hcm : cm e.1 ≤ cm e.2 := by
      have hsorted := List.pairwise_map.mp (hmono rfl).pairwise
      rcases hle.eq_or_lt with heq | hlt
      · rw [heq]
      · have hget := List.pairwise_iff_getElem.mp hsorted e.1 e.2 (by simpa) (by simpa) hlt
        simpa only [List.getElem_range] using hget.le
    simp [hcm]
  | false =>
    by_cases hcm : cm e.1 ≤ cm e.2
    · simp [hcm]
    · simp [hcm, (Nat.le_of_lt (not_le.mp hcm))]

/-- While a child's block is added, its values are read as they were. -/
theorem foldl_addEntry_eq (hfree : PlaceFree p st) {c q : ℕ} {cm : ℕ → ℕ} {monotone : Bool}
    (hmono : monotone = true → ((List.range q).map cm).IsChain (· < ·)) (l : List (ℕ × ℕ))
    (hl : l ⊆ lowerIndices q) (acc : State V × List V) (hacc : FrontOnly p st acc.1) :
    (l.foldl (cx.addEntry me p c cm monotone) acc).1 =
      acc.1.addAll p (l.map fun e => blockEntry cm e (cx.childValue me st c e.1 e.2)) := by
  induction l generalizing acc with
  | nil => rfl
  | cons e l ih =>
    have hstep := addEntry_eq cx me p hmono c (hl List.mem_cons_self) acc
    rw [hacc.childValue hfree] at hstep
    rw [List.foldl_cons, List.map_cons, ← List.singleton_append, addAll_append, ← hstep]
    refine ih (fun _ h => hl (List.mem_cons_of_mem e h)) _ ?_
    rw [hstep]
    exact hacc.trans (frontOnly_addAll ..)

theorem extendAdd_eq (hfree : PlaceFree p st) (c : ℕ) :
    (cx.extendAdd me p st c).1 = st.addAll p (p.blockEntries (cx.readBlock me st c)) := by
  have hmono : decide (((List.range (st.ws.cbSize c)).map fun t =>
      p.position (cx.childRow me st c t)).IsChain (· < ·)) = true →
      ((List.range (st.ws.cbSize c)).map fun t =>
        p.position (cx.childRow me st c t)).IsChain (· < ·) := of_decide_eq_true
  refine (foldl_addEntry_eq hfree hmono _ (List.Subset.refl _) (st, []) .refl).trans ?_
  have hzip : ∀ (l : List (ℕ × ℕ)) (f : ℕ × ℕ → V), l.zip (l.map f) = l.map fun e => (e, f e) :=
    fun l f => by simpa using List.zip_map' (f := id) (g := f) (l := l)
  congr 1
  unfold FrontPlan.blockEntries Context.readBlock
  rw [List.length_map, List.length_range, hzip, List.map_map]
  refine List.map_congr_left fun e he => ?_
  obtain ⟨h₁, -, h₂⟩ := mem_lowerIndices.mp he
  simp [blockEntry, h₁, h₂]

theorem foldl_addChild_eq (hfree : PlaceFree p st) (kids : List ℕ)
    (acc : State V × List (ℕ × Block V)) (hacc : FrontOnly p st acc.1) :
    (kids.foldl (cx.addChild me p) acc).1 =
      acc.1.addAll p ((cx.childBlocks me st kids).flatMap fun b => p.blockEntries b.2) := by
  induction kids generalizing acc with
  | nil => rfl
  | cons c kids ih =>
    rw [List.foldl_cons]
    by_cases hc : st.ws.cbSize c = 0
    · have hskip : cx.addChild me p acc c = acc := if_pos (by rw [hacc.ws, hc])
      rw [hskip, Context.childBlocks,
        List.filterMap_cons_none (f := cx.childBlock me st) (if_pos hc)]
      exact ih acc hacc
    · have hstep : (cx.addChild me p acc c).1 =
          acc.1.addAll p (p.blockEntries (cx.readBlock me st c)) := by
        rw [← hacc.readBlock hfree, ← extendAdd_eq (hacc.placeFree hfree)]
        exact congrArg Prod.fst (if_neg (by rw [hacc.ws]; exact hc))
      rw [Context.childBlocks, List.filterMap_cons_some (f := cx.childBlock me st) (if_neg hc),
        List.flatMap_cons, addAll_append, ← hstep]
      refine ih _ ?_
      rw [hstep]
      exact hacc.trans (frontOnly_addAll ..)

theorem addChildren_eq (hfree : PlaceFree p st) (kids : List ℕ) :
    (cx.addChildren me p kids st).1 =
      st.addAll p ((cx.childBlocks me st kids).flatMap fun b => p.blockEntries b.2) :=
  foldl_addChild_eq hfree kids (st, []) .refl

end Additions

/-! ## The front a plan lays out -/

/-- Every row has its place in the front, and a column holds them all. -/
structure FrontPlan.Fits (p : FrontPlan) : Prop where
  le_lda : p.f ≤ p.lda
  pos_lt : ∀ r t, p.pos r = some t → t < p.f

theorem le_smallFrontLd {f : ℕ} (h : f ≤ kSmallFrontMax) : f ≤ smallFrontLd f := by
  unfold smallFrontLd
  split_ifs <;> assumption

/-- A position is below the number of rows. -/
def FrontRows.Bounded (fr : FrontRows) : Prop := ∀ r t, fr.pos r = some t → t < fr.rows.length

theorem FrontRows.Bounded.push {fr : FrontRows} (h : fr.Bounded) (r : ℕ) :
    (fr.push r).Bounded := by
  intro r' t ht
  unfold FrontRows.push at ht ⊢
  dsimp only at ht ⊢
  rw [List.length_append, List.length_singleton]
  by_cases hr : r' = r
  · subst hr
    rw [Function.update_self] at ht
    exact Option.some.inj ht ▸ Nat.lt_succ_self _
  · rw [Function.update_of_ne hr] at ht
    exact (h r' t ht).trans (Nat.lt_succ_self _)

section Plan

variable (cx : Context V) (me : ℕ)

theorem frontRows_bounded (st : State V) (s : ℕ) : (cx.frontRows me st s).Bounded := by
  have hfold : ∀ (step : FrontRows → ℕ → FrontRows),
      (∀ fr r, fr.Bounded → (step fr r).Bounded) →
      ∀ (l : List ℕ) (fr : FrontRows), fr.Bounded → (l.foldl step fr).Bounded := by
    intro step hstep l
    induction l with
    | nil => exact fun _ h => h
    | cons r l ih => exact fun fr h => ih _ (hstep fr r h)
  unfold Context.frontRows
  refine hfold _ (fun fr r h => ?_) _ _ (hfold _ (fun fr r h => h.push r) _ _ nofun)
  split_ifs
  · exact h.push r
  · exact h

theorem plan_fits (st : State V) (s : ℕ) : (cx.plan me st s).Fits := by
  refine ⟨?_, frontRows_bounded cx me st s⟩
  unfold Context.plan FrontPlan.f
  dsimp only
  split_ifs with hsmall
  · simp only [Bool.and_eq_true, decide_eq_true_eq] at hsmall
    exact le_smallFrontLd hsmall.1.1.1.2
  · exact le_rfl

end Plan

section Fits

variable {p : FrontPlan} {i j : ℕ}

theorem FrontPlan.Fits.position_lt (h : p.Fits) (hf : 0 < p.f) (r : ℕ) : p.position r < p.lda := by
  unfold FrontPlan.position
  cases hr : p.pos r with
  | none => exact hf.trans_le h.le_lda
  | some t => exact (h.pos_lt r t hr).trans_le h.le_lda

/-- The assembly starts from zero. -/
theorem FrontPlan.Fits.front_clear [Zero V] (h : p.Fits) (st : State V) (hji : j ≤ i)
    (hi : i < p.f) : (st.clear p).front p i j = 0 := by
  have hlda : i < p.lda := hi.trans_le h.le_lda
  unfold State.clear State.front State.setMem
  rw [mem_setMem]
  obtain ⟨hmod, hdiv⟩ := cell_mod_div (j := j) hlda
  rw [hmod, hdiv]
  refine if_pos ?_
  unfold FrontPlan.cleared
  split_ifs
  · exact decide_eq_true ⟨by omega, by omega, by omega⟩
  · exact decide_eq_true ⟨by omega, hji, hi⟩

variable {cx : Context V} {me : ℕ} {st : State V} [Zero V] [Add V]

variable (cx) in
omit [Zero V] [Add V] in
theorem FrontPlan.Fits.assembly_lt (h : p.Fits) (hf : 0 < p.f) (s : ℕ)
    (blocks : List (ℕ × Block V)) : ∀ a ∈ cx.assembly s p blocks, a.row < p.lda := by
  intro a ha
  rcases List.mem_append.mp ha with ha | ha
  · obtain ⟨j, -, ha⟩ := List.mem_flatMap.mp ha
    obtain ⟨k, -, rfl⟩ := List.mem_map.mp ha
    exact h.position_lt hf _
  · obtain ⟨b, -, ha⟩ := List.mem_flatMap.mp ha
    obtain ⟨ev, -, rfl⟩ := List.mem_map.mp ha
    exact max_lt (h.position_lt hf _) (h.position_lt hf _)

variable (cx me) in
theorem attempt_front (hfree : PlaceFree p st) (h : p.Fits) (s : ℕ) (k : FrontKernel)
    (prm : PivotParams) :
    let a := cx.attempt me s p k prm st
    a.result = cx.kernel k prm p.numElig p.rows a.front ∧
      ∀ i j, j ≤ i → i < p.f → a.front i j = sumAt (cx.assembly s p a.blocks) i j := by
  refine ⟨rfl, fun i j hji hi => ?_⟩
  have hclear : FrontOnly p st (st.clear p) := ⟨_, rfl⟩
  have horig : FrontOnly p st (cx.addOriginal p (cx.keep.supernodes s) (st.clear p)) :=
    hclear.trans (frontOnly_addOriginal _)
  have hblocks := (addChildren_spec cx me (horig.placeFree hfree) (cx.keep.children s)).2
  have hlt := h.assembly_lt cx (Nat.zero_lt_of_lt hi) s
    (cx.childBlocks me (cx.addOriginal p (cx.keep.supernodes s) (st.clear p))
      (cx.keep.children s))
  have hsum := front_addAll (j := j) _ (st.clear p) hlt (hi.trans_le h.le_lda)
  rw [h.front_clear st hji hi, Context.assembly, addAll_append, ← addOriginal_eq,
    ← addChildren_eq (horig.placeFree hfree), ← hblocks] at hsum
  exact hsum

/-- Every kernel of a supernode gets the sum of the original entries and the blocks. -/
theorem attempts_front (hfree : PlaceFree p st) (h : p.Fits) (s : ℕ) {a : Attempt V}
    (ha : a ∈ cx.attempts me s p st) :
    (∃ k prm, a.result = cx.kernel k prm p.numElig p.rows a.front) ∧
      ∀ i j, j ≤ i → i < p.f → a.front i j = sumAt (cx.assembly s p a.blocks) i j := by
  obtain ⟨hresult, hfront⟩ := attempt_front cx me hfree h s p.kernel p.params
  unfold Context.attempts at ha
  dsimp only at ha
  split_ifs at ha with hretry
  · rcases List.mem_cons.mp ha with rfl | ha
    · exact ⟨⟨_, _, hresult⟩, hfront⟩
    · obtain rfl := List.mem_singleton.mp ha
      have honly := (attempt_spec cx me hfree s p.kernel p.params).1
      obtain ⟨hresult', hfront'⟩ := attempt_front cx me (honly.placeFree hfree) h s
        (Context.retryKernel p) .budget
      exact ⟨⟨_, _, hresult'⟩, hfront'⟩
  · obtain rfl := List.mem_singleton.mp ha
    exact ⟨⟨_, _, hresult⟩, hfront⟩

end Fits

end Multifrontal
end SmfSolver
