/-
Every access of the a posteriori pivoting kernel stays in its buffer.

A tile keeps its pivots in whole blocks and its moves inside the tile (`TileOk`), a sweep does so
for the columns before `c0`, and it has as many failed columns as these allow (`SweepOk`).  With
that each step stays inside the buffers of its level, whatever its tests decide: a block column
keeps the invariant (`blockStep_ok`), so does a sweep (`sweep_ok`), at both levels.  The buffers
come out of the work array one after the other, and `aptp_work_size` covers their sum.
-/
import SmfSolver.Kernel.AptpWork
import SmfSolver.Kernel.AptpSweep

namespace SmfSolver.Kernel.AptpWork

open Lib

/-! ## Accesses inside the buffers -/

section Fits

variable {c : Shape} {l l' : List Access} {b : Buffer} {k n : ℕ}

/-- The accesses stay in their buffers. -/
def Fits (c : Shape) (l : List Access) : Prop := ∀ a ∈ l, a.2 < c.size a.1

@[simp] theorem fits_nil : Fits c [] := nofun

@[simp] theorem fits_cons {a : Access} :
    Fits c (a :: l) ↔ a.2 < c.size a.1 ∧ Fits c l := List.forall_mem_cons

@[simp] theorem fits_append : Fits c (l ++ l') ↔ Fits c l ∧ Fits c l' := List.forall_mem_append

theorem fits_flatMap {α : Type*} {xs : List α} {g : α → List Access} :
    Fits c (xs.flatMap g) ↔ ∀ x ∈ xs, Fits c (g x) := by
  constructor
  · intro h x hx a ha
    exact h a (List.mem_flatMap.mpr ⟨x, hx, ha⟩)
  · intro h a ha
    obtain ⟨x, hx, hax⟩ := List.mem_flatMap.mp ha
    exact h x hx a hax

theorem fits_map {α : Type*} {xs : List α} {g : α → ℕ} :
    Fits c (xs.map fun x => (b, g x)) ↔ ∀ x ∈ xs, g x < c.size b :=
  List.forall_mem_map

theorem fits_row {g : ℕ → ℕ} : Fits c (row b n g) ↔ ∀ t < n, g t < c.size b := by
  rw [row, fits_map]
  simp only [List.mem_range]

theorem fits_block {g : ℕ → ℕ → ℕ} :
    Fits c (block b k n g) ↔ ∀ t < k, ∀ i < n, g t i < c.size b := by
  rw [block, fits_flatMap]
  simp only [List.mem_range, fits_row]

end Fits

/-- Column `t`, row `i` of `k` columns of `n` rows. -/
theorem cell_lt {t k i n : ℕ} (ht : t < k) (hi : i < n) : t * n + i < k * n :=
  calc t * n + i < t * n + n := Nat.add_lt_add_left hi _
    _ = (t + 1) * n := (Nat.succ_mul t n).symm
    _ ≤ k * n := Nat.mul_le_mul_right n ht

/-! ## The shapes of the kernel -/

/-- What `effective_sizes` and the callers see to: the eligible columns are columns of the front, a
block column is no wider than these, and a block of a tile no wider than the tile. -/
structure Shape.Ok (c : Shape) : Prop where
  elig_le : c.numElig ≤ c.f
  nb_le : c.nb ≤ c.numElig
  ib_le : c.ib ≤ c.nb
  ib_pos : 0 < c.ib

/-- A sweep over `ne` columns of an `m x m` view has its buffers: the backup holds `bs` columns of
the view, and the lists and moves have room. -/
structure Site (c : Shape) (ℓ : Level) (lp : Buffer) (m ne bs : ℕ) : Prop where
  pos : 0 < bs
  width : bs ≤ c.nb
  rows : bs ≤ c.f
  columns : ne ≤ m
  backup : bs * m ≤ c.size (.bk ℓ)
  failed : ne ≤ c.size (.q ℓ)
  child : bs ≤ c.size (.lpc ℓ)
  moves : ne ≤ c.size lp

theorem Shape.Ok.front {c : Shape} (h : c.Ok) : Site c .front .topLp c.f c.numElig c.nb where
  pos := h.ib_pos.trans_le h.ib_le
  width := le_rfl
  rows := h.nb_le.trans h.elig_le
  columns := h.elig_le
  backup := (Nat.mul_comm _ _).le
  failed := le_rfl
  child := le_rfl
  moves := le_rfl

/-- The sweep inside a tile of width `w`. -/
theorem Shape.Ok.tile {c : Shape} (h : c.Ok) {w : ℕ} (hw : w ≤ c.nb) :
    Site c .tile (.lpc .front) w w c.ib where
  pos := h.ib_pos
  width := h.ib_le
  rows := h.ib_le.trans (h.nb_le.trans h.elig_le)
  columns := le_rfl
  backup := by
    rw [Nat.mul_comm]
    exact Nat.mul_le_mul_right _ hw
  failed := hw
  child := le_rfl
  moves := hw

/-! ## Complete pivoting -/

/-- A factored `n x n` view: its pivots are whole blocks, the other columns have no tag, and its
moves stay inside. -/
structure TileOk (n : ℕ) (t : Tile Unit) : Prop where
  le : t.ne ≤ n
  tagged : Tagged t.tags t.ne
  rest : ∀ i, t.ne ≤ i → t.tags i = 0
  moves : ∀ i < n, t.lp i < n

section CompletePivoting

variable {c : Shape} {lp : Buffer} {n p q : ℕ} {s : Tile Unit} {v : View Unit}

theorem swap_lt {i : ℕ} (hp : p < n) (hq : q < n) (hi : i < n) : Equiv.swap p q i < n := by
  rw [Equiv.swap_apply_def]
  split_ifs <;> assumption

theorem fits_swapCells (hlp : n ≤ c.size lp) (hp : p < n) (hq : q < n) :
    Fits c (swapCells lp p q) := by
  unfold swapCells
  split_ifs
  · exact fits_nil
  · simp only [fits_cons, fits_nil, and_true]
    exact ⟨hp.trans_le hlp, hq.trans_le hlp⟩

/-- Moves stay inside a view when two of its positions trade places. -/
theorem moves_swap (h : ∀ i < n, v.lp i < n) (hp : p < n) (hq : q < n) :
    ∀ i < n, (v.swap n p q).lp i < n := by
  intro i hi
  rw [View.swap_lp]
  exact h _ (swap_lt hp hq hi)

theorem takePivot_ok (h : TileOk n s) (hlp : n ≤ c.size lp) {pc : PivotChoice}
    (hpc : within s.ne n pc = true) :
    TileOk n (takePivot lp n s pc).1 ∧ Fits c (takePivot lp n s pc).2 := by
  cases pc with
  | one a =>
    obtain ⟨ha, han⟩ := of_decide_eq_true hpc
    have htags : (s.toView.swap n s.ne a).tags = s.tags := View.swap_tags_eq n h.rest le_rfl ha
    refine ⟨⟨by simp only [takePivot]; omega, ?_, fun i hi => ?_, ?_⟩,
      fits_swapCells hlp (by omega) han⟩
    · simp only [takePivot, htags]
      exact h.tagged.one
    · simp only [takePivot, htags] at hi ⊢
      rw [Function.update_of_ne (by omega)]
      exact h.rest i (by omega)
    · exact moves_swap h.moves (by omega) han
  | two a b =>
    obtain ⟨ha, hab, hbn⟩ := of_decide_eq_true hpc
    set v := if a ≠ s.ne then s.toView.swap n s.ne a else s.toView with hv
    set partner := if a ≠ s.ne ∧ b = s.ne then a else b with hpartner
    set v' := if partner ≠ s.ne + 1 then v.swap n (s.ne + 1) partner else v with hv'
    -- the partner stands behind the first column, also when the first swap moved it
    have hpos : s.ne + 1 ≤ partner ∧ partner < n := by
      rw [hpartner]
      split_ifs <;> omega
    have htags : v.tags = s.tags := by
      rw [hv]
      split_ifs
      · exact View.swap_tags_eq n h.rest le_rfl ha
      · rfl
    have htags' : v'.tags = s.tags := by
      rw [hv']
      split_ifs
      · rw [View.swap_tags_eq (k := s.ne) n (fun i hi => htags ▸ h.rest i hi) (by omega) (by omega),
          htags]
      · exact htags
    have hmoves : ∀ i < n, v.lp i < n := by
      rw [hv]
      split_ifs
      · exact moves_swap h.moves (by omega) (by omega)
      · exact h.moves
    have hmoves' : ∀ i < n, v'.lp i < n := by
      rw [hv']
      split_ifs
      · exact moves_swap hmoves (by omega) hpos.2
      · exact hmoves
    refine ⟨⟨by simp only [takePivot]; omega, ?_, fun i hi => ?_, hmoves'⟩, ?_⟩
    · show Tagged (Function.update (Function.update v'.tags s.ne 2) (s.ne + 1) (-1)) (s.ne + 2)
      rw [htags']
      exact h.tagged.two
    · have hi : s.ne + 2 ≤ i := hi
      show Function.update (Function.update v'.tags s.ne 2) (s.ne + 1) (-1) i = 0
      rw [Function.update_of_ne (by omega), Function.update_of_ne (by omega), htags']
      exact h.rest i (by omega)
    · rw [takePivot, fits_append]
      exact ⟨fits_swapCells hlp (by omega) (by omega), fits_swapCells hlp (by omega) hpos.2⟩

theorem cpLoop_ok (hlp : n ≤ c.size lp) (pivots : List PivotChoice) (h : TileOk n s) :
    TileOk n (cpLoop lp n pivots s).1 ∧ Fits c (cpLoop lp n pivots s).2 := by
  induction pivots generalizing s with
  | nil => exact ⟨h, fits_nil⟩
  | cons pc rest ih =>
    rw [cpLoop]
    split_ifs with hpc
    · obtain ⟨hok, hfit⟩ := takePivot_ok h hlp hpc
      obtain ⟨hok', hfit'⟩ := ih hok
      exact ⟨hok', fits_append.mpr ⟨hfit, hfit'⟩⟩
    · exact ⟨h, fits_nil⟩

theorem cpFactor_ok (hlp : n ≤ c.size lp) (pivots : List PivotChoice) :
    TileOk n (cpFactor lp pivots n).1 ∧ Fits c (cpFactor lp pivots n).2 := by
  have hstart : TileOk n { unmarked with ne := 0 } :=
    ⟨Nat.zero_le n, fun i hi => absurd hi (Nat.not_lt_zero i), fun _ _ => rfl, fun _ hi => hi⟩
  obtain ⟨hok, hfit⟩ := cpLoop_ok hlp pivots hstart
  refine ⟨hok, fits_append.mpr ⟨fits_row.mpr fun t ht => ?_, hfit⟩⟩
  exact ht.trans_le hlp

end CompletePivoting

/-! ## The steps of a block column -/

section BlockColumn

variable {χ : Type*} {c : Shape} {ℓ : Level} {lp : Buffer} {m ne bs c0 w k n nq p : ℕ}
  {tags : ℕ → ℤ} {t : Tile Unit}

theorem Site.cell (hs : Site c ℓ lp m ne bs) {t i : ℕ} (ht : t < bs) (hi : i < bs) :
    t * bs + i < c.nb * c.nb :=
  (cell_lt ht hi).trans_le (Nat.mul_le_mul hs.width hs.width)

theorem Site.backup_lt (hs : Site c ℓ lp m ne bs) {t i ld : ℕ} (ht : t < bs) (hi : i < ld)
    (hld : ld ≤ m) : t * ld + i < c.size (.bk ℓ) :=
  (cell_lt ht hi).trans_le ((Nat.mul_le_mul_left _ hld).trans hs.backup)

theorem fits_factorCells (hs : Site c ℓ lp m ne bs) (hk : k ≤ bs) : Fits c (factorCells bs k) := by
  refine fits_flatMap.mpr fun col hcol => fits_map.mpr fun r hr => ?_
  rw [List.mem_range] at hcol
  rw [mem_positions] at hr
  exact hs.cell (by omega) (by omega)

/-- A 2x2 pivot never starts in the last of the columns. -/
theorem fits_inverseCells (hs : Site c ℓ lp m ne bs) (ht : Tagged tags k) (hk : k ≤ bs) (j : ℕ) :
    Fits c (inverseCells bs k tags j) := by
  have hwidth := hs.width
  have hdinv : ∀ i, i < 2 * k → i < c.size .dinv := fun i hi => by
    show i < 2 * c.nb
    omega
  fun_induction inverseCells bs k tags j with
  | case1 j hj h2 ih =>
    have hj1 := ht.pair_lt hj h2
    simp only [fits_append, fits_cons, fits_nil, and_true]
    exact ⟨⟨hs.cell (by omega) (by omega), hdinv _ (by omega), hdinv _ (by omega),
      hdinv _ (by omega), hdinv _ (by omega)⟩, ih⟩
  | case2 j hj h2 ih =>
    simp only [fits_append, fits_cons, fits_nil, and_true]
    exact ⟨⟨hdinv _ (by omega), hdinv _ (by omega)⟩, ih⟩
  | case3 j hj => exact fits_nil

/-- The test may end before a second column of a 2x2 pivot, but not before one of a later column
than those of the tile. -/
theorem scaleAndCheck_ok (hs : Site c ℓ lp m ne bs) (ht : Tagged tags n) (hn : n ≤ bs) (hk : k ≤ n)
    (ok : ℕ → Bool) {column : ℕ → List Access} (hcol : ∀ t < n, Fits c (column t)) (t : ℕ) :
    (scaleAndCheck k tags ok column t).1 ≤ k ∧ Fits c (scaleAndCheck k tags ok column t).2 := by
  have hwidth := hs.width
  have hdinv : ∀ i, i < 2 * n → i < c.size .dinv := fun i hi => by
    show i < 2 * c.nb
    omega
  have htwo : ∀ t, t < k → tags t = 2 →
      Fits c ([(.dinv, 2 * t), (.dinv, 2 * t + 1), (.dinv, 2 * (t + 1))] ++ column t ++
        column (t + 1)) := by
    intro t htk h2
    have ht1 := ht.pair_lt (htk.trans_le hk) h2
    simp only [fits_append, fits_cons, fits_nil, and_true]
    exact ⟨⟨⟨hdinv _ (by omega), hdinv _ (by omega), hdinv _ (by omega)⟩, hcol t (by omega)⟩,
      hcol (t + 1) ht1⟩
  have hone : ∀ t, t < k → Fits c ([(.dinv, 2 * t)] ++ column t) := by
    intro t htk
    simp only [fits_append, fits_cons, fits_nil, and_true]
    exact ⟨hdinv _ (by omega), hcol t (by omega)⟩
  fun_induction scaleAndCheck k tags ok column t with
  | case1 t htk h2 here hok r ih => exact ⟨ih.1, fits_append.mpr ⟨htwo t htk h2, ih.2⟩⟩
  | case2 t htk h2 here hok => exact ⟨htk.le, htwo t htk h2⟩
  | case3 t htk h2 here hok r ih => exact ⟨ih.1, fits_append.mpr ⟨hone t htk, ih.2⟩⟩
  | case4 t htk h2 here hok => exact ⟨htk.le, hone t htk⟩
  | case5 t htk => exact ⟨le_rfl, fits_nil⟩

theorem fits_timesD (ht : Tagged tags n) (hk : k ≤ n) {out : ℕ → Access}
    (hout : ∀ t < n, (out t).2 < c.size (out t).1) (t : ℕ) : Fits c (timesD k tags out t) := by
  fun_induction timesD k tags out t with
  | case1 t htk h2 ih =>
    have ht1 := ht.pair_lt (htk.trans_le hk) h2
    simp only [fits_append, fits_cons, fits_nil, and_true]
    exact ⟨⟨hout t (by omega), hout (t + 1) ht1⟩, ih⟩
  | case2 t htk h2 ih => exact fits_cons.mpr ⟨hout t (by omega), ih⟩
  | case3 t htk => exact fits_nil

/-- A piece of the failed columns stands in the list of these. -/
theorem pieceLength_lt {i : ℕ} (hi : i < pieceLength bs nq p) : p * bs + i < nq ∧ i < bs := by
  unfold pieceLength at hi
  omega

theorem fits_gather (hs : Site c ℓ lp m ne bs) (hk : k ≤ bs) (hnq : nq ≤ ne) (p : ℕ) :
    Fits c (gather ℓ bs nq k p) := by
  have hfailed := hs.failed
  refine fits_flatMap.mpr fun t ht => fits_append.mpr ⟨?_, ?_⟩
  · refine fits_row.mpr fun i hi => ?_
    have := (pieceLength_lt hi).1
    omega
  · rw [List.mem_range] at ht
    exact fits_row.mpr fun i hi => hs.cell (by omega) (pieceLength_lt hi).2

theorem applyT_ok (hs : Site c ℓ lp m ne bs) (ht : Tagged tags n) (hn : n ≤ bs) (hk : k ≤ n)
    (hnq : nq ≤ ne) (ok : ℕ → Bool) (p : ℕ) :
    (applyT ℓ bs tags ok nq k p).1 ≤ k ∧ Fits c (applyT ℓ bs tags ok nq k p).2 := by
  have hcol : ∀ t < n, Fits c (row .ga (pieceLength bs nq p) fun i => t * bs + i) := fun t htn =>
    fits_row.mpr fun i hi => hs.cell (by omega) (pieceLength_lt hi).2
  obtain ⟨hle, hfit⟩ := scaleAndCheck_ok hs ht hn hk ok hcol 0
  refine ⟨hle, ?_⟩
  simp only [applyT, fits_append]
  exact ⟨⟨⟨fits_gather hs (by omega) hnq p, fits_factorCells hs (by omega)⟩,
    fits_block.mpr fun t htk i hi => hs.cell (by omega) (pieceLength_lt hi).2⟩, hfit⟩

theorem applyPieces_ok (hs : Site c ℓ lp m ne bs) (ht : Tagged t.tags t.ne) (hn : t.ne ≤ bs)
    (hk : k ≤ t.ne) (hnq : nq ≤ ne) (piece : ℕ → ℕ → Bool) :
    (applyPieces ℓ bs t piece nq k).1 ≤ k ∧ Fits c (applyPieces ℓ bs t piece nq k).2 := by
  unfold applyPieces
  induction numPieces bs nq with
  | zero => exact ⟨le_rfl, fits_nil⟩
  | succ p ih =>
    rw [List.range_succ, List.foldl_append, List.foldl_cons, List.foldl_nil]
    obtain ⟨hle, hfit⟩ := ih
    split_ifs with h0
    · exact ⟨hle, hfit⟩
    · obtain ⟨hle', hfit'⟩ := applyT_ok hs ht hn (hle.trans hk) hnq (piece p) p
      exact ⟨hle'.trans hle, fits_append.mpr ⟨hfit, hfit'⟩⟩

/-- The accepted pivots are whole blocks. -/
theorem acceptedPivots_ok (hs : Site c ℓ lp m ne bs) (ht : Tagged t.tags t.ne) (hn : t.ne ≤ bs)
    (hk : k ≤ t.ne) (hnq : nq ≤ ne) (piece : ℕ → ℕ → Bool) :
    (acceptedPivots ℓ bs t piece nq k).1 ≤ k ∧
      Tagged t.tags (acceptedPivots ℓ bs t piece nq k).1 ∧
      Fits c (acceptedPivots ℓ bs t piece nq k).2 := by
  obtain ⟨hle, hfit⟩ := applyPieces_ok hs ht hn hk hnq piece
  unfold acceptedPivots
  set r := applyPieces ℓ bs t piece nq k
  by_cases h0 : t.ne = 0
  · rw [if_pos h0]
    exact ⟨le_rfl, ht.cut hk (Or.inl (by omega)), fits_nil⟩
  · rw [if_neg h0]
    dsimp only
    -- a cut inside a 2x2 pivot moves one column back
    by_cases hsplit : 0 < r.1 ∧ t.tags (r.1 - 1) = 2
    · rw [if_pos hsplit]
      refine ⟨by omega, ht.cut (by omega) ?_, hfit⟩
      by_cases hone : r.1 = 1
      · exact Or.inl (by omega)
      · -- the column before a first column is not one itself
        refine Or.inr fun h2 => ?_
        rcases ht (r.1 - 1 - 1) (by omega) with h1 | ⟨-, -, h1⟩ | ⟨h1, -⟩
        · omega
        · rw [show r.1 - 1 - 1 + 1 = r.1 - 1 by omega] at h1
          omega
        · omega
    · rw [if_neg hsplit]
      refine ⟨hle, ht.cut (hle.trans hk) ?_, hfit⟩
      by_cases hr : r.1 = 0
      · exact Or.inl hr
      · exact Or.inr fun h2 => hsplit ⟨Nat.pos_of_ne_zero hr, h2⟩

theorem applyN_ok (c0 w : ℕ) (hs : Site c ℓ lp m ne bs) (ht : Tagged t.tags t.ne) (hn : t.ne ≤ bs)
    (below : ℕ → Bool) :
    (applyN m bs c0 w t below).1 ≤ t.ne ∧ Fits c (applyN m bs c0 w t below).2 := by
  unfold applyN
  split_ifs
  · exact ⟨le_rfl, fits_nil⟩
  · obtain ⟨hle, hfit⟩ := scaleAndCheck_ok hs ht hn le_rfl below (fun _ _ => fits_nil) 0
    exact ⟨hle, fits_append.mpr ⟨fits_factorCells hs hn, hfit⟩⟩

theorem fits_restoreCells (hs : Site c ℓ lp m ne bs) (ht : TileOk w t) (hw : w ≤ bs)
    (hc : c0 + w ≤ m) (nelim : ℕ) : Fits c (restoreCells ℓ m c0 w t.lp nelim) := by
  have hlpc := hs.child
  refine fits_flatMap.mpr fun s2 hs2 => fits_append.mpr ⟨fits_flatMap.mpr fun s1 hs1 => ?_, ?_⟩
  · rw [mem_positions] at hs1 hs2
    have h1 := ht.moves s1 hs1.2
    have h2 := ht.moves s2 hs2.2
    simp only [fits_cons, fits_nil, and_true]
    exact ⟨by omega, by omega, hs.backup_lt (by omega) (by omega) (Nat.sub_le m c0)⟩
  · rw [mem_positions] at hs2
    have h2 := ht.moves s2 hs2.2
    exact fits_row.mpr fun r hr => hs.backup_lt (by omega) (by omega) (Nat.sub_le m c0)

theorem fits_writeCells (hs : Site c ℓ lp m ne bs) (ht : Tagged t.tags t.ne) (hn : t.ne ≤ bs)
    (hk : k ≤ t.ne) (hnq : nq ≤ ne) (again : ℕ → ℕ → Bool) :
    Fits c (writeCells ℓ bs t again nq k) := by
  refine fits_flatMap.mpr fun p _ => fits_append.mpr ⟨?_, fits_gather hs (hk.trans hn) hnq p⟩
  split_ifs
  · exact (applyT_ok hs ht hn hk hnq (again p) p).2
  · exact fits_nil

/-- The backup has room for the product of a piece with all rows from the pivots on. -/
theorem fits_updateCells (hs : Site c ℓ lp m ne bs) (ht : Tagged t.tags t.ne) (hn : t.ne ≤ bs)
    (hk : k ≤ t.ne) (hnq : nq ≤ ne) : Fits c (updateCells ℓ m bs c0 t nq k) := by
  have hfailed := hs.failed
  have hgb : ∀ p, Fits c (block .gb k (pieceLength bs nq p) fun t jj => t * bs + jj) := fun p =>
    fits_block.mpr fun t htk jj hjj => hs.cell (by omega) (pieceLength_lt hjj).2
  refine fits_flatMap.mpr fun p _ => ?_
  rw [fits_append, fits_append]
  refine ⟨⟨fits_flatMap.mpr fun jj hjj => fits_cons.mpr ⟨?_, ?_⟩, ?_⟩,
    fits_flatMap.mpr fun i _ => ?_⟩
  · have := (pieceLength_lt (List.mem_range.mp hjj)).1
    exact show p * bs + jj < c.size (.q ℓ) by omega
  · exact fits_timesD ht hk (fun t htn =>
      hs.cell (by omega) (pieceLength_lt (List.mem_range.mp hjj)).2) 0
  · split_ifs
    · refine fits_append.mpr ⟨hgb p, fits_block.mpr fun jj hjj r hr => ?_⟩
      exact hs.backup_lt (pieceLength_lt hjj).2 hr (Nat.sub_le _ _)
    · exact fits_nil
  · rw [fits_append, fits_append]
    exact ⟨⟨fits_gather hs (hk.trans hn) hnq i, hgb p⟩, fits_block.mpr fun jj hjj ii hii =>
      hs.cell (pieceLength_lt hjj).2 (pieceLength_lt hii).2⟩

theorem fits_blockFactor (hs : Site c ℓ lp m ne bs) {child : TileRun χ} {x : χ} {s : Sweep Unit}
    (hw : w ≤ bs) (hc : c0 + w ≤ ne) (ht : TileOk w (child x w).1) (hfit : Fits c (child x w).2) :
    Fits c (blockFactor child ℓ lp m bs c0 w x s).2.2 := by
  -- the bounds that `omega` needs: each slice is as wide as its site says
  have hwidth := hs.width
  have hrows := hs.rows
  have hcolumns := hs.columns
  have hlpc := hs.child
  have hmoves := hs.moves
  have hlp : ∀ i < w, c0 + i < c.size lp := fun i hi => by omega
  have hitmp : ∀ i < w, i < c.size .itmp := fun i hi => by
    show i < c.nb
    omega
  have hcolbuf : ∀ i < w, i < c.size .colbuf := fun i hi => by
    show i < c.f
    omega
  unfold blockFactor
  simp only [fits_append]
  refine ⟨⟨⟨⟨⟨fits_flatMap.mpr fun i hi => fits_row.mpr fun r hr => ?_, hfit⟩,
    fits_row.mpr fun i hi => ?_⟩, ?_⟩, fits_factorCells hs (ht.le.trans hw)⟩,
    fits_inverseCells hs ht.tagged (ht.le.trans hw) 0⟩
  · -- the backup of column `i` starts at its diagonal
    rw [List.mem_range] at hi
    rw [Nat.add_assoc]
    exact hs.backup_lt (by omega) (by omega) (Nat.sub_le m c0)
  · exact show i < c.size (.lpc ℓ) by omega
  · split_ifs
    · exact fits_nil
    · simp only [fits_append]
      refine ⟨⟨⟨⟨fits_row.mpr hcolbuf, fits_block.mpr fun i hi r hr => ?_⟩,
        fits_row.mpr fun i hi => hlp _ (ht.moves i hi)⟩, fits_row.mpr hitmp⟩, fits_row.mpr hlp⟩
      have := ht.moves i hi
      exact hs.backup_lt (by omega) (by omega) (Nat.sub_le m c0)

/-- The sweep before column `c0`: the pivots stand in whole blocks, no later column has a tag, the
moves stay among the eligible columns, and every column is a pivot or failed. -/
structure SweepOk (ne c0 : ℕ) (s : Sweep Unit) : Prop where
  scattered : Scattered s.tags c0
  rest : ∀ i, c0 ≤ i → s.tags i = 0
  moves : ∀ i < ne, s.lp i < ne
  count : s.numElim = Nat.count (fun i => s.tags i ≠ 0) c0
  failed : s.Q.length + s.numElim = c0

theorem sweepOk_start (ne : ℕ) : SweepOk ne 0 { unmarked with Q := [], numElim := 0 } where
  scattered i hi := absurd hi (Nat.not_lt_zero i)
  rest _ _ := rfl
  moves _ hi := hi
  count := (Nat.count_zero _).symm
  failed := rfl

/-- What a block column makes of the sweep, with `nelim` pivots of the tile. -/
theorem SweepOk.next {s s' : Sweep Unit} (h : SweepOk ne c0 s) (ht : TileOk w t) {nelim : ℕ}
    (hk : Tagged t.tags nelim) (hkt : nelim ≤ t.ne) (hc : c0 + w ≤ ne)
    (htags : s'.tags = fun i => if c0 + nelim ≤ i ∧ i < c0 + w then 0 else
      patch s.tags c0 w t.tags i)
    (hlp : s'.lp = patch s.lp c0 w fun i => s.lp (c0 + t.lp i))
    (hQ : s'.Q = s.Q ++ (positions nelim w).map (c0 + ·))
    (hnum : s'.numElim = s.numElim + nelim) : SweepOk ne (c0 + w) s' := by
  have hkw : nelim ≤ w := hkt.trans ht.le
  -- the tags of the sweep with the kept ones of the tile after them
  have hjoined : Joined s.tags s'.tags t.tags c0 w nelim := by
    refine ⟨fun i hi => ?_, fun a ha => ?_⟩
    · rw [htags]
      dsimp only
      rw [if_neg (by omega), patch_out (Or.inl hi)]
    · rw [htags]
      dsimp only
      rw [patch_in ha]
      split_ifs <;> first | rfl | omega
  refine ⟨hjoined.scattered h.scattered hk hkw, fun i hi => ?_, fun i hi => ?_, ?_, ?_⟩
  · rw [htags]
    dsimp only
    rw [if_neg (by omega), patch_out (Or.inr hi)]
    exact h.rest i (by omega)
  · rw [hlp]
    rcases Nat.lt_or_ge i c0 with hlt | hge
    · rw [patch_out (Or.inl hlt)]
      exact h.moves i hi
    · obtain ⟨a, rfl⟩ : ∃ a, i = c0 + a := ⟨i - c0, by omega⟩
      rcases Nat.lt_or_ge a w with haw | hwa
      · rw [patch_in haw]
        have := ht.moves a haw
        exact h.moves _ (by omega)
      · rw [patch_out (Or.inr (by omega))]
        exact h.moves _ hi
  · rw [hnum, h.count, hjoined.count hk hkw]
  · have := h.failed
    rw [hQ, hnum, List.length_append, List.length_map, positions, List.length_range']
    omega

/-- One block column, whatever its tests decide. -/
theorem blockStep_ok (hs : Site c ℓ lp m ne bs) {child : TileRun χ} {x : BlockTests χ}
    {s : Sweep Unit × List Access} (hw : w ≤ bs) (hc : c0 + w ≤ ne)
    (hchild : TileOk w (child x.tile w).1 ∧ Fits c (child x.tile w).2) (h : SweepOk ne c0 s.1)
    (hfit : Fits c s.2) : SweepOk ne (c0 + w) (blockStep child ℓ lp m bs c0 w x s).1 ∧
      Fits c (blockStep child ℓ lp m bs c0 w x s).2 := by
  obtain ⟨ht, htfit⟩ := hchild
  have hcolumns := hs.columns
  have hn : (child x.tile w).1.ne ≤ bs := ht.le.trans hw
  have hnq : s.1.Q.length ≤ ne := by
    have := h.failed
    omega
  have hstart := fits_blockFactor hs (s := s.1) hw hc ht htfit
  obtain ⟨hk, hbelow⟩ := applyN_ok c0 w hs ht.tagged hn x.below
  obtain ⟨hle, htag, hpieces⟩ := acceptedPivots_ok hs ht.tagged hn hk hnq x.piece
  refine ⟨h.next ht htag (hle.trans hk) hc rfl rfl rfl rfl, ?_⟩
  unfold blockStep blockFinish
  simp only [fits_append]
  refine ⟨⟨⟨hfit, hstart⟩, hbelow⟩, ⟨⟨hpieces, fits_restoreCells hs ht hw (by omega) _⟩, ?_⟩,
    fits_row.mpr fun i hi => ?_⟩
  · split_ifs
    · exact fits_append.mpr ⟨fits_writeCells hs ht.tagged hn (hle.trans hk) hnq x.again,
        fits_updateCells hs ht.tagged hn (hle.trans hk) hnq⟩
    · exact fits_nil
  · -- the failed columns of the tile have not been counted before
    have hlen : (blockFactor child ℓ lp m bs c0 w x.tile s.1).1.Q.length = s.1.Q.length := rfl
    have hfailed := hs.failed
    have := h.failed
    rw [hlen]
    omega

end BlockColumn

/-! ## The sweep, the tile and the front -/

section Sweep

variable {χ : Type*} {c : Shape} {ℓ : Level} {lp : Buffer} {m ne bs n : ℕ} {child : TileRun χ}

/-- The block columns, one after the other. -/
theorem columns_ok (hs : Site c ℓ lp m ne bs)
    (hchild : ∀ x w, w ≤ bs → w ≤ ne → TileOk w (child x w).1 ∧ Fits c (child x w).2)
    (x : ℕ → BlockTests χ) (n : ℕ) (hn : n ≤ (ne + bs - 1) / bs) :
    let r := (List.range n).foldl
      (fun s b => blockStep child ℓ lp m bs (b * bs) (min bs (ne - b * bs)) (x b) s)
      ({ unmarked with Q := [], numElim := 0 }, row lp ne id)
    SweepOk ne (min (n * bs) ne) r.1 ∧ Fits c r.2 := by
  induction n with
  | zero =>
    rw [Nat.zero_mul, Nat.zero_min]
    exact ⟨sweepOk_start ne, fits_row.mpr fun i hi => hi.trans_le hs.moves⟩
  | succ n ih =>
    obtain ⟨h, hfit⟩ := ih (by omega)
    have hpos := hs.pos
    have hlt : n * bs < ne := by
      have := (Nat.le_div_iff_mul_le hpos).mp hn
      rw [Nat.succ_mul] at this
      omega
    have hnext : min ((n + 1) * bs) ne = n * bs + min bs (ne - n * bs) := by
      rw [Nat.succ_mul]
      omega
    rw [Nat.min_eq_left hlt.le] at h
    rw [List.range_succ, List.foldl_append, List.foldl_cons, List.foldl_nil, hnext]
    exact blockStep_ok hs (Nat.min_le_left _ _) (by omega)
      (hchild _ _ (Nat.min_le_left _ _) (by omega)) h hfit

theorem fits_compactCells (hlp : ne ≤ c.size lp) (hm : ne ≤ m) (v : View Unit) :
    Fits c (compactCells lp m v ne) := by
  refine fits_flatMap.mpr fun src hsrc => ?_
  rw [List.mem_range] at hsrc
  obtain ⟨κ, hκ⟩ := compact_run m v src (by omega)
  have hdst : ((List.range src).foldl (compactStep m) (v, 0)).2 ≤ src :=
    hκ.count.le.trans (Nat.count_le _)
  dsimp only
  split_ifs
  · exact fits_nil
  · exact fits_swapCells hlp (by omega) hsrc

/-- A sweep, whatever its tests decide, given that its tiles do well. -/
theorem sweep_ok (hs : Site c ℓ lp m ne bs)
    (hchild : ∀ x w, w ≤ bs → w ≤ ne → TileOk w (child x w).1 ∧ Fits c (child x w).2)
    (x : ℕ → BlockTests χ) : TileOk ne (sweep child ℓ lp m ne bs x).1 ∧
      Fits c (sweep child ℓ lp m ne bs x).2 := by
  have hall : ne ≤ (ne + bs - 1) / bs * bs := by
    have := Nat.lt_div_mul_add hs.pos (a := ne + bs - 1)
    omega
  obtain ⟨h, hfit⟩ := columns_ok hs hchild x _ le_rfl
  rw [Nat.min_eq_right hall] at h
  obtain ⟨κ, hκ⟩ := sweepCompact_compacted hs.columns h.count
  unfold sweep
  set r := (List.range ((ne + bs - 1) / bs)).foldl
    (fun s b => blockStep child ℓ lp m bs (b * bs) (min bs (ne - b * bs)) (x b) s)
    ({ unmarked with Q := [], numElim := 0 }, row lp ne id)
  have hnum : (sweepCompact m ne r.1).numElim = r.1.numElim := by
    unfold sweepCompact
    split_ifs <;> rfl
  have htags : (sweepCompact m ne r.1).tags = fun i => r.1.tags (κ i) := funext hκ.tags
  -- the compaction is injective and fixes what lies behind, so it stays inside
  have hinside : ∀ i < ne, κ i < ne := by
    intro i hi
    by_contra hge
    have hfix := hκ.fixed (κ i) (by omega)
    have := κ.injective hfix
    omega
  refine ⟨⟨?_, ?_, fun i hi => ?_, fun i hi => ?_⟩, fits_append.mpr ⟨hfit, ?_⟩⟩
  · show (sweepCompact m ne r.1).numElim ≤ ne
    rw [hnum, h.count]
    exact Nat.count_le _
  · show Tagged (sweepCompact m ne r.1).tags (sweepCompact m ne r.1).numElim
    rw [hnum, htags]
    exact hκ.gathered.tagged h.scattered
  · show (sweepCompact m ne r.1).tags i = 0
    rw [htags]
    refine hκ.gathered.zero_of_ge h.rest ?_
    rwa [← hnum]
  · show (sweepCompact m ne r.1).lp i < ne
    rw [hκ.lp]
    exact h.moves _ (hinside i hi)
  · split_ifs
    · exact fits_compactCells hs.moves hs.columns _
    · exact fits_nil

end Sweep

section Front

variable {c : Shape}

/-- Complete pivoting on the columns that failed in a tile, put behind its pivots. -/
theorem TileOk.append {w : ℕ} {s t s' : Tile Unit} (hs : TileOk w s) (ht : TileOk (w - s.ne) t)
    (htags : s'.tags = patch s.tags s.ne (w - s.ne) t.tags)
    (hlp : s'.lp = patch s.lp s.ne (w - s.ne) fun i => s.lp (s.ne + t.lp i))
    (hne : s'.ne = s.ne + t.ne) : TileOk w s' := by
  have hle := hs.le
  -- no 2x2 pivot spans the two parts: each is whole in its own tags
  have hjoined : Joined s.tags s'.tags t.tags s.ne (w - s.ne) t.ne := by
    refine ⟨fun i hi => by rw [htags, patch_out (Or.inl hi)], fun a ha => ?_⟩
    rw [htags, patch_in ha]
    split_ifs with hlt
    · rfl
    · exact ht.rest a (by omega)
  refine ⟨?_, ?_, fun i hi => ?_, fun i hi => ?_⟩
  · have := ht.le
    omega
  · rw [hne]
    exact hjoined.tagged hs.tagged ht.tagged ht.le
  · rcases Nat.lt_or_ge i (s.ne + (w - s.ne)) with hlt | hge
    · obtain ⟨a, rfl⟩ : ∃ a, i = s.ne + a := ⟨i - s.ne, by omega⟩
      rw [htags, patch_in (by omega)]
      exact ht.rest a (by omega)
    · rw [htags, patch_out (Or.inr hge)]
      exact hs.rest i (by omega)
  · rw [hlp]
    rcases Nat.lt_or_ge i s.ne with hlt | hge
    · rw [patch_out (Or.inl hlt)]
      exact hs.moves i hi
    · obtain ⟨a, rfl⟩ : ∃ a, i = s.ne + a := ⟨i - s.ne, by omega⟩
      rw [patch_in (by omega)]
      have := ht.moves a (by omega)
      exact hs.moves _ (by omega)

/-- A tile of the front. -/
theorem factorTile_ok (hc : c.Ok) (x : TileTests) {w : ℕ} (hw : w ≤ c.nb) :
    TileOk w (factorTile c.ib x w).1 ∧ Fits c (factorTile c.ib x w).2 := by
  have hcp : ∀ x w', w' ≤ c.ib → w' ≤ w →
      TileOk w' (cpFactor (.lpc .tile) x w').1 ∧ Fits c (cpFactor (.lpc .tile) x w').2 :=
    fun x w' hw' _ => cpFactor_ok hw' x
  have hnb : c.nb ≤ c.f := hc.nb_le.trans hc.elig_le
  unfold factorTile
  -- a narrow tile is pivoted at once, a wide one after the sweep over its own columns
  by_cases hone : w ≤ c.ib
  · rw [if_pos hone]
    exact cpFactor_ok hw x.pivots
  · rw [if_neg hone]
    obtain ⟨hs, hfit⟩ := sweep_ok (hc.tile hw) hcp x.inner
    set s := sweep (cpFactor (.lpc .tile)) .tile (.lpc .front) w w c.ib x.inner
    dsimp only
    by_cases hlt : s.1.ne < w
    · rw [if_pos hlt]
      have hcp2 : w - s.1.ne ≤ c.size .cpLp := (Nat.sub_le _ _).trans hw
      obtain ⟨ht, htfit⟩ := cpFactor_ok hcp2 x.pivots
      refine ⟨hs.append ht rfl rfl rfl, ?_⟩
      have hin : ∀ b, c.nb ≤ c.size b → ∀ i < w, i < c.size b := fun b hb i hi => by omega
      simp only [fits_append]
      refine ⟨⟨⟨hfit, htfit⟩, fits_row.mpr fun i hi => hin .cpLp le_rfl _ (by simp; omega)⟩, ?_⟩
      split_ifs
      · exact fits_nil
      · simp only [fits_append]
        refine ⟨⟨⟨?_, ?_⟩, ?_⟩, ?_⟩
        · exact fits_row.mpr fun i hi => hin .colbuf hnb _ (by simp; omega)
        · refine fits_row.mpr fun i hi => hin (.lpc .front) le_rfl _ ?_
          have := ht.moves i hi
          omega
        · exact fits_row.mpr fun i hi => hin .itmp le_rfl _ (by simp; omega)
        · exact fits_row.mpr fun i hi => hin (.lpc .front) le_rfl _ (by omega)
    · rw [if_neg hlt]
      exact ⟨hs, hfit⟩

theorem shapeOf_ok {K : Type*} (prm : AptpParams K) {f numElig : ℕ} (hpos : 0 < numElig)
    (h : numElig ≤ f) : (shapeOf f numElig prm).Ok := by
  refine ⟨h, ?_, ?_, ?_⟩ <;> simp only [shapeOf, effectiveSizes] <;> omega

/-- Every access of a front stays in its buffer. -/
theorem ldltAptpFront_fits {K : Type*} (prm : AptpParams K) {f numElig : ℕ} (h : numElig ≤ f)
    (x : ℕ → BlockTests TileTests) :
    Fits (shapeOf f numElig prm) (ldltAptpFront prm f numElig x).2 := by
  unfold ldltAptpFront
  split_ifs with h0
  · exact fits_nil
  · have hok := shapeOf_ok prm (show 0 < numElig by omega) h
    exact (sweep_ok hok.front (fun x w hw _ => factorTile_ok hok x hw) x).2

end Front

/-! ## The work array -/

section WorkArray

variable {K : Type*}

theorem demand_le (prm : AptpParams K) (f numElig : ℕ) :
    demand (buffers.map fun b => (b, (shapeOf f numElig prm).size b * b.elemSize)) ≤
      8 * aptpWorkSize f numElig prm := by
  unfold aptpWorkSize
  simp only [demand, buffers, List.map_cons, List.map_nil, List.sum_cons, List.sum_nil, shapeOf,
    Shape.size, Buffer.elemSize]
  set nb := (effectiveSizes numElig prm).1
  set ib := (effectiveSizes numElig prm).2
  have hback : f * nb ≤ max f 1 * nb := Nat.mul_le_mul_right _ (le_max_left _ _)
  have hassoc : 4 * nb * nb = 4 * (nb * nb) := Nat.mul_assoc _ _ _
  omega

theorem mem_buffers (b : Buffer) : b ∈ buffers := by
  cases b with
  | bk ℓ => cases ℓ <;> simp [buffers]
  | q ℓ => cases ℓ <;> simp [buffers]
  | lpc ℓ => cases ℓ <;> simp [buffers]
  | _ => simp [buffers]

/-- The buffers of the kernel do not overlap and lie inside the work array, and whatever the
values of the front make the kernel do, every element it uses lies inside its buffer. -/
theorem work_in_bounds (prm : AptpParams K) (f numElig : ℕ) (h : numElig ≤ f)
    (x : ℕ → BlockTests TileTests) :
    ((makeCtx f numElig prm).Pairwise fun s t => Disjoint s.cells t.cells) ∧
      (∀ s ∈ makeCtx f numElig prm, s.stop ≤ 8 * aptpWorkSize f numElig prm) ∧
      ∀ a ∈ (ldltAptpFront prm f numElig x).2, ∃ s ∈ makeCtx f numElig prm,
        s.name = a.1 ∧ (a.2 + 1) * a.1.elemSize ≤ s.length := by
  refine ⟨carve_disjoint _ _, fun s hs => ?_, fun a ha => ?_⟩
  · have := carve_end_le hs
    rw [Nat.zero_add] at this
    exact this.trans (demand_le prm f numElig)
  · have hmem : (a.1, (shapeOf f numElig prm).size a.1 * a.1.elemSize) ∈
        buffers.map fun b => (b, (shapeOf f numElig prm).size b * b.elemSize) :=
      List.mem_map.mpr ⟨a.1, mem_buffers a.1, rfl⟩
    obtain ⟨s, hs, hname, hlength⟩ := exists_mem_carve 0 hmem
    refine ⟨s, hs, hname, ?_⟩
    rw [hlength]
    exact Nat.mul_le_mul_right _ (ldltAptpFront_fits prm h x a ha)

end WorkArray

/-- A front of three rows with two eligible columns, in one tile of two blocks.  The first column
fails in the tile and is then taken with the second as a 2x2 pivot. -/
theorem work_in_bounds_pair :
    let prm : AptpParams ℚ := ⟨1 / 100, 2, 1, 1 / 10 ^ 20⟩
    let failing : BlockTests (List PivotChoice) := ⟨[], fun _ => true, fun _ _ => true,
      fun _ _ => true⟩
    let x : ℕ → BlockTests TileTests := fun _ => ⟨⟨fun _ => failing, [.two 0 1]⟩, fun _ => true,
      fun _ _ => true, fun _ _ => true⟩
    (ldltAptpFront prm 3 2 x).1.ne = 2 ∧ (.dinv, 3) ∈ (ldltAptpFront prm 3 2 x).2 ∧
      ∀ a ∈ (ldltAptpFront prm 3 2 x).2, ∃ s ∈ makeCtx 3 2 prm,
        s.name = a.1 ∧ (a.2 + 1) * a.1.elemSize ≤ s.length :=
  ⟨by decide +kernel, by decide +kernel, (work_in_bounds _ 3 2 (by decide) _).2.2⟩

end SmfSolver.Kernel.AptpWork
