/-
  SmfSolver.Parallel.PassMerge

  What a pass keeps of the fronts it factored, and phase 3 of the tree-parallel
  factorization in deterministic mode: the passes' factors are put one after another, the
  D entries are listed by the fronts' places in the postorder, and the solve steps are
  sorted by them.

  `merge_eq`: whichever pass factored a front and when, the merged factor lists the same
  fronts and the same D entries as one pass over the whole postorder.

  The fronts are numbered in postorder, so a front's place in it is its number.
-/
import SmfSolver.Lib.Slice
import Mathlib.Data.List.Perm.Basic
import Mathlib.Data.List.Sort

namespace SmfSolver
namespace Parallel

open Lib

/-- An entry of D: a 1x1 or 2x2 pivot. -/
structure DiagSolveEntry (α : Type) where
  tag : ℤ
  wasZero : Bool
  row0 : ℕ
  row1 : ℕ
  d00 : α
  d10 : α
  d11 : α

structure SolveStep where
  rowOffset : ℕ
  factorOffset : ℕ
  p : ℕ
  f : ℕ

/-- What a front leaves in the factor: pivot count, row ids, L panel, and D. -/
structure FrontFactor (α : Type) where
  p : ℕ
  rows : List ℕ
  panel : List α
  diag : List (DiagSolveEntry α)
  panel_length : panel.length = rows.length * p

/-- A pass: the filled parts of its buffers, and (front, end in `diag`) of each front. -/
structure FrontPass (α : Type) where
  fv : List α := []
  sri : List ℕ := []
  steps : List SolveStep := []
  diag : List (DiagSolveEntry α) := []
  diagMarks : List (ℕ × ℕ) := []

variable {α : Type}

/-- Front `s` is stored in the pass, and marked. -/
def FrontPass.store (P : FrontPass α) (s : ℕ) (o : FrontFactor α) : FrontPass α where
  fv := P.fv ++ o.panel
  sri := P.sri ++ o.rows
  steps := P.steps ++ [⟨P.sri.length, P.fv.length, o.p, o.rows.length⟩]
  diag := P.diag ++ o.diag
  diagMarks := P.diagMarks ++ [(s, (P.diag ++ o.diag).length)]

/-- The factor that a solve reads. -/
structure FactorKeep (α : Type) where
  factorValues : List α
  solveRowIndices : List ℕ
  solveSteps : List SolveStep
  diagEntries : List (DiagSolveEntry α)

/-- The factor of the one-thread engine: its pass writes there. -/
def FrontPass.toKeep (P : FrontPass α) : FactorKeep α := ⟨P.fv, P.sri, P.steps, P.diag⟩

/-- What a solve step stands for: pivot count, row ids and panel. -/
def FactorKeep.front (F : FactorKeep α) (step : SolveStep) : ℕ × List ℕ × List α :=
  (step.p, slice F.solveRowIndices step.rowOffset step.f,
    slice F.factorValues step.factorOffset (step.f * step.p))

/-- The fronts in the order of the solve steps. -/
def FactorKeep.fronts (F : FactorKeep α) : List (ℕ × List ℕ × List α) := F.solveSteps.map F.front

/-! ## Phase 3 -/

/-- A front's D entries `[b, e)` in a pass. -/
structure Chunk where
  pass : ℕ := 0
  b : ℕ := 0
  e : ℕ := 0

/-- The loop over the marks of pass `t`: the chunks that are not empty. -/
def chunksOf (t : ℕ) : ℕ → List (ℕ × ℕ) → List (ℕ × Chunk)
  | _, [] => []
  | b, (node, e) :: marks => (if b < e then [(node, ⟨t, b, e⟩)] else []) ++ chunksOf t e marks

section Merge

variable (passes : List (FrontPass α))

def fbase (t : ℕ) : ℕ := offset (passes.map (·.fv)) t

def rbase (t : ℕ) : ℕ := offset (passes.map (·.sri)) t

def relocated (t : ℕ) (step : SolveStep) : SolveStep :=
  { step with
    factorOffset := fbase passes t + step.factorOffset
    rowOffset := rbase passes t + step.rowOffset }

/-- Each front's chunk. -/
def chunks : ℕ → Chunk :=
  assign (passes.zipIdx.flatMap fun P => chunksOf P.2 0 P.1.diagMarks) fun _ => {}

/-- A chunk's entries. -/
def entriesOf (c : Chunk) : List (DiagSolveEntry α) :=
  match passes[c.pass]? with
  | some P => slice P.diag c.b (c.e - c.b)
  | none => []

structure StepRef where
  post : ℕ
  pass : ℕ
  k : ℕ

def refs : List StepRef :=
  passes.zipIdx.flatMap fun P => P.1.diagMarks.zipIdx.map fun m => ⟨m.1.1, P.2, m.2⟩

/-- The step a reference names, relocated. -/
def stepOf (r : StepRef) : Option SolveStep :=
  (passes[r.pass]?.bind (·.steps[r.k]?)).map (relocated passes r.pass)

/-- Phase 3, for a tree of `ns` fronts. -/
def merge (ns : ℕ) : FactorKeep α where
  factorValues := (passes.map (·.fv)).flatten
  solveRowIndices := (passes.map (·.sri)).flatten
  solveSteps := ((refs passes).mergeSort fun a b => a.post ≤ b.post).filterMap (stepOf passes)
  diagEntries := (List.range ns).flatMap fun s => entriesOf passes (chunks passes s)

end Merge

/-! ## A pass and its fronts -/

section Passes

variable (out : ℕ → FrontFactor α)

/-- The pass that factored these fronts, in this order. -/
def FrontPass.storeAll (P : FrontPass α) (order : List ℕ) : FrontPass α :=
  order.foldl (fun P s => P.store s (out s)) P

/-- What a front looks like to a solve. -/
def frontOf (s : ℕ) : ℕ × List ℕ × List α := ((out s).p, (out s).rows, (out s).panel)

variable {out} {P : FrontPass α} {order : List ℕ} {s t k : ℕ} {passes : List (FrontPass α)}

/-- A step stays inside the buffers of its pass. -/
def FrontPass.InBounds (P : FrontPass α) (step : SolveStep) : Prop :=
  step.rowOffset + step.f ≤ P.sri.length ∧ step.factorOffset + step.f * step.p ≤ P.fv.length

/-- The pass holds these fronts. -/
structure FrontPass.Holds (out : ℕ → FrontFactor α) (P : FrontPass α) (order : List ℕ) : Prop where
  inBounds : ∀ step ∈ P.steps, P.InBounds step
  fronts : P.toKeep.fronts = order.map (frontOf out)
  marked : P.diagMarks.map Prod.fst = order
  diag : P.diag = order.flatMap fun s => (out s).diag

theorem holds_empty : FrontPass.Holds out {} [] := ⟨nofun, rfl, rfl, rfl⟩

/-- Storing a front adds it and leaves the others. -/
theorem FrontPass.Holds.store (h : P.Holds out order) :
    (P.store s (out s)).Holds out (order ++ [s]) where
  inBounds step hstep := by
    rcases List.mem_append.mp hstep with hold | hnew
    · obtain ⟨hrow, hfactor⟩ := h.inBounds step hold
      have hr : (P.store s (out s)).sri.length = P.sri.length + (out s).rows.length :=
        List.length_append
      have hf : (P.store s (out s)).fv.length = P.fv.length + (out s).panel.length :=
        List.length_append
      exact ⟨by omega, by omega⟩
    · rw [List.mem_singleton.mp hnew]
      refine ⟨List.length_append.ge, ?_⟩
      rw [← (out s).panel_length]
      exact List.length_append.ge
  fronts := by
    have hnew : (P.store s (out s)).toKeep.front
        ⟨P.sri.length, P.fv.length, (out s).p, (out s).rows.length⟩ = frontOf out s := by
      rw [FactorKeep.front, frontOf, ← (out s).panel_length]
      exact congrArg₂ (fun a b => ((out s).p, a, b)) slice_append_all slice_append_all
    -- what is appended lies behind the segments of the steps before
    have hold : ∀ step ∈ P.steps, (P.store s (out s)).toKeep.front step = P.toKeep.front step := by
      intro step hstep
      obtain ⟨hrow, hfactor⟩ := h.inBounds step hstep
      exact congrArg₂ (fun a b => (step.p, a, b)) (slice_append_left hrow)
        (slice_append_left hfactor)
    have hsteps : (P.store s (out s)).toKeep.fronts =
      P.steps.map (P.store s (out s)).toKeep.front ++
        [(P.store s (out s)).toKeep.front ⟨P.sri.length, P.fv.length, (out s).p,
          (out s).rows.length⟩] := List.map_append
    rw [hsteps, hnew, List.map_congr_left hold, List.map_append, ← h.fronts]
    rfl
  marked := by
    rw [← h.marked]
    exact List.map_append
  diag := by
    rw [List.flatMap_append, ← h.diag, List.flatMap_singleton]
    rfl

theorem FrontPass.Holds.storeAll {rest : List ℕ} (h : P.Holds out order) :
    (P.storeAll out rest).Holds out (order ++ rest) := by
  induction rest generalizing P order with
  | nil => rwa [List.append_nil]
  | cons s rest ih =>
    have hrest := ih (h.store (s := s))
    rwa [List.append_assoc] at hrest

/-- The one-thread engine's factor. -/
theorem holds_serial : (FrontPass.storeAll out {} order).Holds out order :=
  holds_empty.storeAll

/-- The marks of a pass: each front with the end of its entries, the next one's begin. -/
def marksFrom (out : ℕ → FrontFactor α) : ℕ → List ℕ → List (ℕ × ℕ)
  | _, [] => []
  | b, s :: rest => (s, b + (out s).diag.length) :: marksFrom out (b + (out s).diag.length) rest

theorem diagMarks_storeAll : (P.storeAll out order).diagMarks =
    P.diagMarks ++ marksFrom out P.diag.length order := by
  induction order generalizing P with
  | nil => exact (List.append_nil _).symm
  | cons s rest ih =>
    have hlen : (P.store s (out s)).diag.length = P.diag.length + (out s).diag.length :=
      List.length_append
    have hmarks : (P.store s (out s)).diagMarks =
        P.diagMarks ++ [(s, P.diag.length + (out s).diag.length)] := by
      rw [← hlen]
      rfl
    have hrest := ih (P := P.store s (out s))
    rw [hlen, hmarks, List.append_assoc] at hrest
    exact hrest

/-- A chunk is the entries of its front. -/
theorem chunksOf_spec {c : Chunk} {b : ℕ} {pre : List (DiagSolveEntry α)}
    (h : (s, c) ∈ chunksOf t b (marksFrom out b order)) (hpre : pre.length = b) :
    s ∈ order ∧ c.pass = t ∧
      slice (pre ++ order.flatMap fun s => (out s).diag) c.b (c.e - c.b) = (out s).diag := by
  induction order generalizing b pre with
  | nil => cases h
  | cons z rest ih =>
    rw [marksFrom, chunksOf] at h
    rw [List.flatMap_cons]
    rcases List.mem_append.mp h with h | h
    · split_ifs at h
      · cases List.mem_singleton.mp h
        refine ⟨List.mem_cons_self .., rfl, ?_⟩
        dsimp only
        rw [Nat.add_sub_cancel_left, ← hpre, ← Nat.add_zero pre.length, slice_append_right,
          slice_append_left (by omega), slice, List.drop_zero, List.take_length]
      · cases h
    · have hpre' : (pre ++ (out z).diag).length = b + (out z).diag.length := by
        rw [List.length_append, hpre]
      obtain ⟨hs, hpass, hslice⟩ := ih h hpre'
      rw [List.append_assoc] at hslice
      exact ⟨List.mem_cons_of_mem _ hs, hpass, hslice⟩

theorem chunksOf_sublist (b : ℕ) :
    ((chunksOf t b (marksFrom out b order)).map Prod.fst).Sublist order := by
  induction order generalizing b with
  | nil => exact .slnil
  | cons z rest ih =>
    rw [marksFrom, chunksOf, List.map_append]
    split_ifs
    · exact (ih _).cons_cons z
    · exact (ih _).cons z

/-- A front with entries has a chunk. -/
theorem exists_chunk {b : ℕ} (hs : s ∈ order) (hne : (out s).diag ≠ []) :
    ∃ c, (s, c) ∈ chunksOf t b (marksFrom out b order) := by
  induction order generalizing b with
  | nil => cases hs
  | cons z rest ih =>
    rw [marksFrom, chunksOf]
    rcases List.mem_cons.mp hs with rfl | hs
    · have hlt : b < b + (out s).diag.length :=
        Nat.lt_add_of_pos_right (List.length_pos_iff.mpr hne)
      rw [if_pos hlt]
      exact ⟨_, List.mem_append_left _ (List.mem_singleton_self _)⟩
    · obtain ⟨c, hc⟩ := ih hs
      exact ⟨c, List.mem_append_right _ hc⟩

/-! ## The merged factor -/

section Merged

variable {orders : List (List ℕ)} {ns : ℕ}

/-- The passes that factored these fronts. -/
def passesOf (out : ℕ → FrontFactor α) (orders : List (List ℕ)) : List (FrontPass α) :=
  orders.map (FrontPass.storeAll out {})

theorem holds_of_getElem? (h : (passesOf out orders)[t]? = some P) :
    ∃ order, orders[t]? = some order ∧ P = FrontPass.storeAll out {} order ∧ P.Holds out order := by
  rw [passesOf, List.getElem?_map, Option.map_eq_some_iff] at h
  obtain ⟨order, ho, rfl⟩ := h
  exact ⟨order, ho, rfl, holds_serial⟩

/-- A relocated step reads from the merged buffers what it read from its pass. -/
theorem front_relocated {step : SolveStep} {ns : ℕ} (h : passes[t]? = some P)
    (hin : P.InBounds step) :
    (merge passes ns).front (relocated passes t step) = P.toKeep.front step := by
  have hsri : (passes.map (·.sri))[t]? = some P.sri := by rw [List.getElem?_map, h]; rfl
  have hfv : (passes.map (·.fv))[t]? = some P.fv := by rw [List.getElem?_map, h]; rfl
  exact congrArg₂ (fun a b => (step.p, a, b)) (slice_flatten hsri hin.1) (slice_flatten hfv hin.2)

/-- What a reference of phase 3 leads to: the front it is sorted by. -/
theorem stepOf_spec {r : StepRef} (h : r ∈ refs (passesOf out orders)) :
    ∃ step, stepOf (passesOf out orders) r = some step ∧
      (merge (passesOf out orders) ns).front step = frontOf out r.post := by
  obtain ⟨⟨P, t⟩, hP, hr⟩ := List.mem_flatMap.mp h
  obtain ⟨⟨m, k⟩, hm, rfl⟩ := List.mem_map.mp hr
  have hPt : (passesOf out orders)[t]? = some P := List.mem_zipIdx_iff_getElem?.mp hP
  have hmk : P.diagMarks[k]? = some m := List.mem_zipIdx_iff_getElem?.mp hm
  obtain ⟨order, -, -, hholds⟩ := holds_of_getElem? hPt
  have hnode : order[k]? = some m.1 := by
    rw [← hholds.marked, List.getElem?_map, hmk]
    rfl
  -- the pass's k-th step is the front of its k-th mark
  have hstep : (P.steps.map P.toKeep.front)[k]? = some (frontOf out m.1) := by
    have hfronts : P.steps.map P.toKeep.front = order.map (frontOf out) := hholds.fronts
    rw [hfronts, List.getElem?_map, hnode]
    rfl
  rw [List.getElem?_map, Option.map_eq_some_iff] at hstep
  obtain ⟨step, hk, hfront⟩ := hstep
  refine ⟨relocated (passesOf out orders) t step, ?_, ?_⟩
  · rw [stepOf, hPt, Option.bind_some, hk]
    rfl
  · rw [front_relocated hPt (hholds.inBounds step (List.mem_of_getElem? hk)), hfront]

theorem refs_post : (refs (passesOf out orders)).map (·.post) = orders.flatten := by
  have key : ∀ (rest : List (List ℕ)) (i : ℕ),
      (((passesOf out rest).zipIdx i).flatMap fun P =>
        P.1.diagMarks.zipIdx.map fun m => StepRef.mk m.1.1 P.2 m.2).map (·.post) =
      rest.flatten := by
    intro rest
    induction rest with
    | nil => intro i; rfl
    | cons order rest ih =>
      intro i
      have hmarks : ((FrontPass.storeAll out {} order).diagMarks.zipIdx.map
          fun m => StepRef.mk m.1.1 i m.2).map (·.post) = order := by
        have hholds : (FrontPass.storeAll out {} order).Holds out order := holds_serial
        have hmarked := hholds.marked
        have hfst := List.zipIdx_map_fst 0 (FrontPass.storeAll out {} order).diagMarks
        rw [List.map_map]
        calc
          _ = ((FrontPass.storeAll out {} order).diagMarks.zipIdx.map Prod.fst).map Prod.fst :=
            List.map_map.symm
          _ = order := by rw [hfst, hmarked]
      have hrest := ih (i + 1)
      rw [passesOf, List.map_cons, List.zipIdx_cons, List.flatMap_cons, List.map_append, hmarks,
        List.flatten_cons]
      exact congrArg _ hrest
  exact key orders 0

/-- The sorted references are the fronts in postorder. -/
theorem sorted_post (h : orders.flatten.Perm (List.range ns)) :
    ((refs (passesOf out orders)).mergeSort fun a b => a.post ≤ b.post).map (·.post) =
      List.range ns := by
  have htrans : ∀ a b c : StepRef, decide (a.post ≤ b.post) = true →
    decide (b.post ≤ c.post) = true →
      decide (a.post ≤ c.post) = true := fun a b c hab hbc =>
    decide_eq_true ((of_decide_eq_true hab).trans (of_decide_eq_true hbc))
  have htotal : ∀ a b : StepRef, (decide (a.post ≤ b.post) || decide (b.post ≤ a.post)) = true := by
    intro a b
    rcases le_total a.post b.post with h | h <;> simp [h]
  have hsorted := List.pairwise_mergeSort htrans htotal (refs (passesOf out orders))
  have hperm := ((List.mergeSort_perm (refs (passesOf out orders))
    fun a b => decide (a.post ≤ b.post)).map (·.post)).trans (refs_post ▸ h)
  refine hperm.eq_of_sortedLE ?_ ?_
  · exact (List.pairwise_map.mpr (hsorted.imp of_decide_eq_true)).sortedLE
  · exact (List.pairwise_lt_range.imp le_of_lt).sortedLE

theorem map_filterMap_eq {β γ : Type} {l : List StepRef} {f : StepRef → Option β} {g : β → γ}
    {q : StepRef → γ} (h : ∀ r ∈ l, ∃ x, f r = some x ∧ g x = q r) :
    (l.filterMap f).map g = l.map q := by
  induction l with
  | nil => rfl
  | cons r l ih =>
    obtain ⟨x, hx, hg⟩ := h r (List.mem_cons_self ..)
    rw [List.filterMap_cons, hx, List.map_cons, List.map_cons, hg,
      ih fun r' hr' => h r' (List.mem_cons_of_mem _ hr')]

theorem chunkWrites_sublist :
    (((passesOf out orders).zipIdx.flatMap fun P => chunksOf P.2 0 P.1.diagMarks).map
      Prod.fst).Sublist orders.flatten := by
  have key : ∀ (rest : List (List ℕ)) (i : ℕ),
      ((((passesOf out rest).zipIdx i).flatMap fun P => chunksOf P.2 0 P.1.diagMarks).map
        Prod.fst).Sublist rest.flatten := by
    intro rest
    induction rest with
    | nil => intro i; exact .slnil
    | cons order rest ih =>
      intro i
      rw [passesOf, List.map_cons, List.zipIdx_cons, List.flatMap_cons, List.map_append,
        List.flatten_cons]
      refine .append ?_ (ih (i + 1))
      dsimp only
      rw [diagMarks_storeAll]
      exact chunksOf_sublist 0
  exact key orders 0

/-- A front's chunk has its D entries. -/
theorem entriesOf_chunks (hnodup : orders.flatten.Nodup) (hs : s ∈ orders.flatten) :
    entriesOf (passesOf out orders) (chunks (passesOf out orders) s) = (out s).diag := by
  by_cases hw : s ∈ ((passesOf out orders).zipIdx.flatMap
      fun P => chunksOf P.2 0 P.1.diagMarks).map Prod.fst
  · obtain ⟨⟨s', c⟩, hc, rfl⟩ := List.mem_map.mp hw
    have hchunk : chunks (passesOf out orders) s' = c :=
      assign_of_mem (hnodup.sublist chunkWrites_sublist) hc
    obtain ⟨⟨P, t⟩, hP, hct⟩ := List.mem_flatMap.mp hc
    have hPt : (passesOf out orders)[t]? = some P := List.mem_zipIdx_iff_getElem?.mp hP
    obtain ⟨order, -, rfl, hholds⟩ := holds_of_getElem? hPt
    rw [diagMarks_storeAll] at hct
    obtain ⟨-, hpass, hslice⟩ := chunksOf_spec hct (List.length_nil (α := DiagSolveEntry α))
    rw [hchunk, entriesOf, hpass, hPt]
    dsimp only
    rw [hholds.diag]
    exact hslice
  -- no chunk was written, so the front has no entries
  · have hnone : chunks (passesOf out orders) s = {} := assign_of_notMem hw
    have hdiag : (out s).diag = [] := by
      by_contra hne
      obtain ⟨order, ho, hso⟩ := List.mem_flatten.mp hs
      obtain ⟨t, ht⟩ := List.mem_iff_getElem?.mp ho
      obtain ⟨c, hc⟩ := exists_chunk (t := t) (b := 0) hso hne
      have hPt : (passesOf out orders)[t]? = some (FrontPass.storeAll out {} order) := by
        rw [passesOf, List.getElem?_map, ht]
        rfl
      refine hw (List.mem_map.mpr ⟨(s, c), List.mem_flatMap.mpr
        ⟨(_, t), List.mem_zipIdx_iff_getElem?.mpr hPt, ?_⟩, rfl⟩)
      change (s, c) ∈ chunksOf t 0 (FrontPass.storeAll out {} order).diagMarks
      rw [diagMarks_storeAll]
      exact hc
    rw [hnone, entriesOf, hdiag]
    cases (passesOf out orders)[(({} : Chunk)).pass]? <;> rfl

/-- However the fronts were dealt to the passes, the merged factor lists the fronts and the
    D entries as the one-thread engine does. -/
theorem merge_eq (h : orders.flatten.Perm (List.range ns)) :
    (merge (passesOf out orders) ns).fronts =
        (FrontPass.storeAll out {} (List.range ns)).toKeep.fronts ∧
      (merge (passesOf out orders) ns).diagEntries =
        (FrontPass.storeAll out {} (List.range ns)).toKeep.diagEntries := by
  have hserial : (FrontPass.storeAll out {} (List.range ns)).Holds out (List.range ns) :=
    holds_serial
  constructor
  · rw [hserial.fronts, ← sorted_post h, List.map_map]
    exact map_filterMap_eq fun r hr =>
      stepOf_spec ((List.mergeSort_perm _ _).subset hr)
  · have hdiag : (FrontPass.storeAll out {} (List.range ns)).toKeep.diagEntries =
        (List.range ns).flatMap fun s => (out s).diag := hserial.diag
    rw [hdiag]
    have hnodup : orders.flatten.Nodup := h.nodup_iff.mpr List.nodup_range
    refine List.flatMap_congr fun s hs => ?_
    exact entriesOf_chunks hnodup (h.symm.subset hs)

end Merged

end Passes

end Parallel
end SmfSolver
