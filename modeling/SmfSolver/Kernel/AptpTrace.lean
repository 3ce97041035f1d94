/-
The run of complete pivoting in `ldlt_aptp_front` (`ldlt_aptp.cpp`): the blocks, in order, from
which it takes the pivots that stay.

A trace reads the state before each step and never a result of the kernel: `cpTrace` follows
`cp_factor`, block by block; `sweepTrace` follows the block columns and cuts the trace of a tile
where the rows below and the failed columns stop its pivots.  `mem_aptpTrace`: these are the blocks
of the pivots that the front is left with.
-/
import SmfSolver.Kernel.AptpFactor

namespace SmfSolver.Kernel

open Finset

section Trace

variable {K : Type*} [Field K] [LinearOrder K]

/-- The blocks from which complete pivoting takes its pivots, from `s` on. -/
def cpTrace (small : K) (inv : WithTop K) (n : ℕ) (s : Tile K) : List (CpBlock K) :=
  if s.ne < n then
    let b := s.block n
    if small ≤ b.largest.amax ∧ b.passes inv b.choice = true then
      b :: cpTrace small inv n (s.take n b.choice)
    else []
  else []
termination_by n - s.ne
decreasing_by exact Nat.sub_lt_sub_left ‹s.ne < n› (s.lt_take n _)

/-- The blocks of the first `kept` pivots of a tile of width `w`. -/
abbrev TileTrace (K : Type*) := ℕ → (ℕ → ℕ → K) → (ℕ → ℤ) → ℕ → List (CpBlock K)

/-- Those of a tile that complete pivoting factors. -/
def cpTileTrace (small : K) (inv : WithTop K) : TileTrace K := fun w A rows kept =>
  (cpTrace small inv w { View.start A rows with ne := 0 }).filter fun b => b.k < kept

/-- The sweep before block column `n`. -/
def sweepAt (child : TileFactor K) (inv : WithTop K) (m ne bs : ℕ) (A : ℕ → ℕ → K)
    (rows : ℕ → ℤ) (n : ℕ) : Sweep K :=
  (List.range n).foldl (fun s b => blockStep child inv m ne bs (b * bs) (min bs (ne - b * bs)) s)
    { View.start A rows with Q := [], numElim := 0 }

/-- Those of one block column: its tile keeps the pivots that the rows below and the failed
columns let stand. -/
def columnTrace (child : TileFactor K) (trace : TileTrace K) (inv : WithTop K) (m ne bs kept i : ℕ)
    (s : Sweep K) : List (CpBlock K) :=
  let w := min bs (ne - i * bs)
  trace w (tileOf s.A (i * bs)) (fun a => s.rows (i * bs + a))
    (min (keptPivots child inv m bs (i * bs) w s) (kept - s.numElim))

/-- Those of the first `kept` pivots of a sweep. -/
def sweepTrace (child : TileFactor K) (trace : TileTrace K) (inv : WithTop K) (m ne bs : ℕ)
    (A : ℕ → ℕ → K) (rows : ℕ → ℤ) (kept : ℕ) : List (CpBlock K) :=
  (List.range ((ne + bs - 1) / bs)).flatMap fun i =>
    columnTrace child trace inv m ne bs kept i (sweepAt child inv m ne bs A rows i)

/-- Those of a tile of the front: of its sweep, and of complete pivoting on what failed there. -/
def factorTileTrace (small : K) (inv : WithTop K) (ib : ℕ) : TileTrace K := fun w A rows kept =>
  if w ≤ ib then cpTileTrace small inv w A rows kept
  else
    let s := sweep (cpFactor small inv) inv w w ib A rows
    sweepTrace (cpFactor small inv) (cpTileTrace small inv) inv w w ib A rows kept ++
      cpTileTrace small inv (w - s.ne) (tileOf s.A s.ne) (fun i => s.rows (s.ne + i)) (kept - s.ne)

/-- The blocks from which `ldlt_aptp_front` takes the pivots that stay. -/
def aptpTrace (prm : AptpParams K) (f numElig : ℕ) (F : ℕ → ℕ → K) (rows : ℕ → ℤ) :
    List (CpBlock K) :=
  if f = 0 ∨ numElig = 0 then []
  else
    let sizes := effectiveSizes numElig prm
    let inv := invU prm.u
    sweepTrace (factorTile prm.small inv sizes.2) (factorTileTrace prm.small inv sizes.2) inv f
      numElig sizes.1 F rows numElig

end Trace

/-! ## Complete pivoting -/

section Tile

variable {K : Type*} [Field K] [LinearOrder K] {small : K} {inv : WithTop K} {n c kept : ℕ}
  {s t : Tile K} {b : CpBlock K}

/-- One of the first `kept` pivots of the tile was chosen in the block `b`. -/
def ChosenIn (t : Tile K) (kept : ℕ) (b : CpBlock K) : Prop :=
  ∃ c < kept, c < t.ne ∧ t.tags c ≠ -1 ∧ t.chosen c = some b

/-- The trace lists the blocks of the tile's pivots. -/
def Traces (child : TileFactor K) (trace : TileTrace K) : Prop :=
  ∀ w A rows kept b, b ∈ trace w A rows kept ↔ ChosenIn (child w A rows) kept b

/-- The pivot that a step takes: its tags and the block of its first column. -/
theorem Tile.take_new (n : ℕ) (s : Tile K) (pc : PivotChoice) :
    (s.take n pc).chosen s.ne = some (s.block n) ∧ (s.take n pc).tags s.ne ≠ -1 ∧
      ∀ c, s.ne < c → c < (s.take n pc).ne → (s.take n pc).tags c = -1 := by
  cases pc with
  | one a =>
    refine ⟨Function.update_self .., ?_, fun c hc hlt => absurd hlt (not_lt.mpr hc)⟩
    have htag : (s.take n (.one a)).tags s.ne = 1 := Function.update_self ..
    rw [htag]
    decide
  | two a e =>
    refine ⟨Function.update_self .., ?_, fun c hc hlt => ?_⟩
    · have htag : (s.take n (.two a e)).tags s.ne = 2 :=
        (Function.update_of_ne (Nat.lt_succ_self s.ne).ne _ _).trans (Function.update_self ..)
      rw [htag]
      decide
    · have hlt : c < s.ne + 2 := hlt
      obtain rfl : c = s.ne + 1 := by omega
      exact Function.update_self ..

variable [IsStrictOrderedRing K]

/-- A step leaves the pivots before it alone. -/
theorem Tile.take_low (hs : 0 < small) (hopen : (s.block n).Open small) (hc : c < s.ne) :
    (s.take n (s.block n).choice).tags c = s.tags c ∧
      (s.take n (s.block n).choice).chosen c = s.chosen c := by
  have huse := ((s.block n).choice_spec hopen).usable hs
  -- both swaps of a step exchange columns from `ne` on
  have hswap : ∀ p q, s.ne ≤ p → s.ne ≤ q → Equiv.swap p q c = c := fun p q hp hq =>
    Equiv.swap_apply_of_ne_of_ne (by omega) (by omega)
  cases hch : (s.block n).choice with
  | one a =>
    rw [hch] at huse
    have ha : s.ne ≤ a := huse.1
    have htags := (s.toView.swap_tags n c).trans (congrArg s.tags (hswap s.ne a le_rfl ha))
    have hchosen := (s.toView.swap_chosen n c).trans (congrArg s.chosen (hswap s.ne a le_rfl ha))
    exact ⟨(Function.update_of_ne hc.ne _ _).trans htags,
      (Function.update_of_ne hc.ne _ _).trans hchosen⟩
  | two a e =>
    rw [hch] at huse
    obtain ⟨ha, hae, -, -⟩ := huse
    have ha : s.ne ≤ a := ha
    have hpartner := (placed_bounds ha (ha.trans hae.le) hae.ne).1
    have hview := placeTwo_view s.toView n s.ne a e
    have htags : ((s.toView.swap n s.ne a).swap n (s.ne + 1) (partnerAt s.ne a e)).tags c =
        s.tags c := by
      rw [View.swap_tags, View.swap_tags, hswap _ _ (Nat.le_succ _) (by omega),
        hswap _ _ le_rfl ha]
    have hchosen : ((s.toView.swap n s.ne a).swap n (s.ne + 1) (partnerAt s.ne a e)).chosen c =
        s.chosen c := by
      rw [View.swap_chosen, View.swap_chosen, hswap _ _ (Nat.le_succ _) (by omega),
        hswap _ _ le_rfl ha]
    rw [← hview] at htags hchosen
    refine ⟨?_, (Function.update_of_ne hc.ne _ _).trans hchosen⟩
    exact (Function.update_of_ne (hc.trans (Nat.lt_succ_self _)).ne _ _).trans
      ((Function.update_of_ne hc.ne _ _).trans htags)

/-- Later steps leave the pivots before them alone. -/
theorem cpLoop_low (hs : 0 < small) (hc : c < s.ne) :
    s.ne ≤ (cpLoop small inv n s).ne ∧ (cpLoop small inv n s).tags c = s.tags c ∧
      (cpLoop small inv n s).chosen c = s.chosen c := by
  fun_induction cpLoop small inv n s with
  | case1 s hk b hpass ih =>
    have hnext := s.lt_take n b.choice
    obtain ⟨hle, htags, hchosen⟩ := ih (hc.trans hnext)
    obtain ⟨htags', hchosen'⟩ := Tile.take_low hs ⟨hk, hpass.1⟩ hc
    exact ⟨hnext.le.trans hle, htags.trans htags', hchosen.trans hchosen'⟩
  | case2 s hk b => exact ⟨le_rfl, rfl, rfl⟩
  | case3 s hk => exact ⟨le_rfl, rfl, rfl⟩

/-- The blocks of a trace are those of the pivots that complete pivoting leaves. -/
theorem mem_cpTrace (hs : 0 < small) : b ∈ cpTrace small inv n s ∧ b.k < kept ↔
    ∃ c < kept, s.ne ≤ c ∧ c < (cpLoop small inv n s).ne ∧ (cpLoop small inv n s).tags c ≠ -1 ∧
      (cpLoop small inv n s).chosen c = some b := by
  -- along the loop: the later pivots are the rest of the trace's
  fun_induction cpLoop small inv n s with
  | case1 s hk b' hpass ih =>
    obtain ⟨hblock, htag, hclosed⟩ := s.take_new n b'.choice
    have hnext := s.lt_take n b'.choice
    have hlow : ∀ {c}, c < (s.take n b'.choice).ne →
        (s.take n b'.choice).ne ≤ (cpLoop small inv n (s.take n b'.choice)).ne ∧
          (cpLoop small inv n (s.take n b'.choice)).tags c = (s.take n b'.choice).tags c ∧
          (cpLoop small inv n (s.take n b'.choice)).chosen c = (s.take n b'.choice).chosen c :=
      fun hc => cpLoop_low hs hc
    rw [cpTrace, if_pos hk, if_pos hpass, List.mem_cons, or_and_right, ih]
    constructor
    · rintro (⟨rfl, hkept⟩ | ⟨c, hck, hge, hlt, hne, hch⟩)
      · obtain ⟨hle, htags, hchosen⟩ := hlow hnext
        exact ⟨s.ne, hkept, le_rfl, hnext.trans_le hle, htags ▸ htag, hchosen.trans hblock⟩
      · exact ⟨c, hck, hnext.le.trans hge, hlt, hne, hch⟩
    · rintro ⟨c, hck, hge, hlt, hne, hch⟩
      rcases Nat.lt_or_ge c (s.take n b'.choice).ne with hin | hout
      · -- the pivot just taken
        obtain ⟨-, htags, hchosen⟩ := hlow hin
        obtain rfl : s.ne = c := by
          by_contra hsc
          exact hne (htags.trans (hclosed c (lt_of_le_of_ne hge hsc) hin))
        rw [hchosen, hblock] at hch
        obtain rfl := Option.some.inj hch
        exact Or.inl ⟨rfl, hck⟩
      · exact Or.inr ⟨c, hck, hout, hlt, hne, hch⟩
  | case2 s hk b' hpass =>
    rw [cpTrace, if_pos hk, if_neg hpass]
    constructor
    · rintro ⟨h, -⟩
      exact absurd h List.not_mem_nil
    · rintro ⟨c, -, hge, hlt, -⟩
      exact absurd hlt (not_lt.mpr hge)
  | case3 s hk =>
    rw [cpTrace, if_neg hk]
    constructor
    · rintro ⟨h, -⟩
      exact absurd h List.not_mem_nil
    · rintro ⟨c, -, hge, hlt, -⟩
      exact absurd hlt (not_lt.mpr hge)

theorem cpTileTrace_traces (hs : 0 < small) (inv : WithTop K) :
    Traces (cpFactor small inv) (cpTileTrace small inv) := by
  intro w A rows kept b
  rw [cpTileTrace, List.mem_filter, decide_eq_true_iff, mem_cpTrace hs]
  exact exists_congr fun c => and_congr_right fun _ => and_iff_right (Nat.zero_le c)

end Tile

/-! ## The sweep -/

/-- The place of a pivot is the number of pivots before it. -/
theorem Gathered.count_eq {tags : ℕ → ℤ} {n p i : ℕ} {κ : Equiv.Perm ℕ} (h : Gathered tags n p κ)
    (hi : i < p) : Nat.count (fun c => tags c ≠ 0) (κ i) = i := by
  have hbefore : (range (κ i)).filter (fun c => tags c ≠ 0) = (range i).image κ := by
    ext c
    rw [mem_filter, mem_image, mem_range]
    constructor
    · rintro ⟨hlt, hne⟩
      obtain ⟨j, hj, rfl⟩ := h.covers c (hlt.trans (h.pivot i hi).1) hne
      exact ⟨j, mem_range.mpr ((h.lt_iff hj hi).mp hlt), rfl⟩
    · rintro ⟨j, hj, rfl⟩
      have hji := mem_range.mp hj
      exact ⟨h.mono j i hji hi, (h.pivot j (hji.trans hi)).2⟩
  rw [Nat.count_eq_card_filter_range, hbefore, card_image_of_injective _ κ.injective, card_range]

section Sweep

variable {K : Type*} [Field K] [LinearOrder K] {small : K} {inv : WithTop K}
  {child : TileFactor K} {trace : TileTrace K} {m ne bs c0 w n kept : ℕ} {σ : Equiv.Perm ℕ}
  {s : Sweep K} {b : CpBlock K}

/-- One of the first `kept` pivots among the first `n` columns was chosen in the block `b`. -/
def ScatteredIn (s : View K) (n kept : ℕ) (b : CpBlock K) : Prop :=
  ∃ c < n, Nat.count (fun c => s.tags c ≠ 0) c < kept ∧ s.tags c ≠ 0 ∧ s.tags c ≠ -1 ∧
    s.chosen c = some b

variable [IsStrictOrderedRing K]

/-- A block column adds the pivots that its tile keeps. -/
theorem StepInput.scatteredIn_iff (h : StepInput small child m ne bs c0 w s σ)
    (hcount : s.numElim = Nat.count (fun c => s.tags c ≠ 0) c0) :
    ScatteredIn (blockStep child inv m ne bs c0 w s).toView (c0 + w) kept b ↔
      ScatteredIn s.toView c0 kept b ∨ ChosenIn (stepTile child c0 w s)
        (min (keptPivots child inv m bs c0 w s) (kept - s.numElim)) b := by
  have hfin := h.finished inv
  obtain ⟨-, hkt, hktag⟩ := h.kept inv
  have hkw := hkt.trans h.factored.le
  obtain ⟨-, -, hchosen, -, -⟩ := blockStep_frame child inv m ne bs c0 w s
  set s' := blockStep child inv m ne bs c0 w s
  set k := keptPivots child inv m bs c0 w s
  have hchosen_low : ∀ c < c0, s'.chosen c = s.chosen c := fun c hc => by
    rw [hchosen]
    dsimp only
    rw [if_neg (by omega), patch_out (Or.inl hc)]
  have hchosen_tile : ∀ a < k, s'.chosen (c0 + a) = (stepTile child c0 w s).chosen a :=
    fun a ha => by
      rw [hchosen]
      dsimp only
      rw [if_neg (by omega), patch_in (by omega)]
  have hcount_low : ∀ c ≤ c0, Nat.count (fun c => s'.tags c ≠ 0) c =
      Nat.count (fun c => s.tags c ≠ 0) c := fun c hc => by
    rw [Nat.count_eq_card_filter_range, Nat.count_eq_card_filter_range]
    refine congrArg card (filter_congr fun d hd => ?_)
    rw [hfin.tags_low d ((mem_range.mp hd).trans_le hc)]
  -- the tile keeps its first `k` columns and fails the others
  have hcount_tile : ∀ a ≤ k, Nat.count (fun c => s'.tags c ≠ 0) (c0 + a) = s.numElim + a := by
    intro a ha
    have hnew : Nat.count (fun e => s'.tags (c0 + e) ≠ 0) a = a := by
      refine Nat.count_iff_forall.mpr fun e he => ?_
      rw [hfin.tags_tile e (by omega), if_pos (by omega)]
      exact hktag.ne_zero (by omega)
    rw [Nat.count_add, hcount_low c0 le_rfl, hnew, hcount]
  constructor
  · rintro ⟨c, hc, hck, hne, hn1, hb⟩
    rcases Nat.lt_or_ge c c0 with hlt | hge
    · rw [hcount_low c hlt.le] at hck
      rw [hfin.tags_low c hlt] at hne hn1
      exact Or.inl ⟨c, hlt, hck, hne, hn1, (hchosen_low c hlt).symm.trans hb⟩
    · obtain ⟨a, rfl⟩ : ∃ a, c = c0 + a := ⟨c - c0, by omega⟩
      -- a column of the tile with a tag is one of the kept
      have hak : a < k := by
        by_contra hno
        exact hne ((hfin.tags_tile a (by omega)).trans (if_neg hno))
      rw [hcount_tile a hak.le] at hck
      rw [hfin.tags_tile a (by omega), if_pos hak] at hn1
      exact Or.inr ⟨a, lt_min hak (by omega), hak.trans_le hkt, hn1,
        (hchosen_tile a hak).symm.trans hb⟩
  · rintro (⟨c, hlt, hck, hne, hn1, hb⟩ | ⟨a, ha, -, hn1, hb⟩)
    · refine ⟨c, by omega, ?_, ?_, ?_, (hchosen_low c hlt).trans hb⟩
      · rwa [hcount_low c hlt.le]
      · rwa [hfin.tags_low c hlt]
      · rwa [hfin.tags_low c hlt]
    · obtain ⟨hak, hakept⟩ := lt_min_iff.mp ha
      have htag := (hfin.tags_tile a (by omega)).trans (if_pos hak)
      refine ⟨c0 + a, by omega, ?_, ?_, ?_, (hchosen_tile a hak).trans hb⟩
      · rw [hcount_tile a hak.le]
        omega
      · rw [htag]
        exact hktag.ne_zero hak
      · rwa [htag]

/-- The traces of the block columns so far list the blocks of the pivots so far. -/
theorem mem_columnTraces (hs : 0 < small) (hbs : 0 < bs) (hne : ne ≤ m)
    (hchild : Factors small child) (htrace : Traces child trace) (A : ℕ → ℕ → K) (rows : ℕ → ℤ)
    (hn : n ≤ (ne + bs - 1) / bs) :
    (b ∈ (List.range n).flatMap fun i =>
        columnTrace child trace inv m ne bs kept i (sweepAt child inv m ne bs A rows i)) ↔
      ScatteredIn (sweepAt child inv m ne bs A rows n).toView (min (n * bs) ne) kept b := by
  induction n with
  | zero =>
    rw [Nat.zero_mul, Nat.zero_min]
    exact ⟨fun h => absurd h List.not_mem_nil, fun ⟨c, hc, _⟩ => absurd hc (Nat.not_lt_zero c)⟩
  | succ n ih =>
    obtain ⟨σ, h⟩ := sweep_columns hs hbs hne hchild inv A rows n (by omega)
    have hlt : n * bs < ne := by
      have := (Nat.le_div_iff_mul_le hbs).mp hn
      rw [Nat.succ_mul] at this
      omega
    have hnext : min ((n + 1) * bs) ne = n * bs + min bs (ne - n * bs) := by
      rw [Nat.succ_mul]
      omega
    rw [Nat.min_eq_left hlt.le] at h ih
    obtain ⟨τ, hτ⟩ := hchild (min bs (ne - n * bs))
      (tileOf (sweepAt child inv m ne bs A rows n).A (n * bs)) fun i =>
        (sweepAt child inv m ne bs A rows n).rows (n * bs + i)
    have hin : StepInput small child m ne bs (n * bs) (min bs (ne - n * bs))
        (sweepAt child inv m ne bs A rows n) τ := ⟨hs, hbs, by omega, hne, h.rest, h.failed, hτ⟩
    -- the next column is one step, which adds its own trace
    have hstep : sweepAt child inv m ne bs A rows (n + 1) = blockStep child inv m ne bs (n * bs)
        (min bs (ne - n * bs)) (sweepAt child inv m ne bs A rows n) := by
      rw [sweepAt, List.range_succ, List.foldl_append]
      rfl
    rw [hstep, hnext, hin.scatteredIn_iff h.count, ← ih (by omega), List.range_succ,
      List.flatMap_append, List.mem_append, List.flatMap_singleton]
    exact or_congr_right (htrace ..)

theorem mem_sweepTrace (hs : 0 < small) (hbs : 0 < bs) (hne : ne ≤ m)
    (hchild : Factors small child) (htrace : Traces child trace) (inv : WithTop K)
    (A : ℕ → ℕ → K) (rows : ℕ → ℤ) :
    b ∈ sweepTrace child trace inv m ne bs A rows kept ↔
      ChosenIn (sweep child inv m ne bs A rows) kept b := by
  obtain ⟨σ, h⟩ := sweep_columns hs hbs hne hchild inv A rows _ le_rfl
  have hend : min ((ne + bs - 1) / bs * bs) ne = ne := by
    have hdiv := Nat.div_add_mod (ne + bs - 1) bs
    have hmod := Nat.mod_lt (ne + bs - 1) hbs
    rw [mul_comm] at hdiv
    omega
  rw [sweepTrace, mem_columnTraces hs hbs hne hchild htrace A rows le_rfl, hend]
  rw [hend] at h
  change SweepInv small A rows m ne ne σ
    (sweepAt child inv m ne bs A rows ((ne + bs - 1) / bs)) at h
  have hsweep : sweep child inv m ne bs A rows =
      let t := trailingUpdate m ne (sweepCompact m ne
        (sweepAt child inv m ne bs A rows ((ne + bs - 1) / bs)))
      { t.toView with ne := t.numElim } := rfl
  generalize sweepAt child inv m ne bs A rows ((ne + bs - 1) / bs) = s at h hsweep ⊢
  obtain ⟨κ, hc⟩ := sweepCompact_compacted hne h.count
  obtain ⟨htags, -, -, hchosen, hnum⟩ := trailingUpdate_frame m ne (sweepCompact m ne s)
  rw [sweepCompact_numElim] at hnum
  rw [hsweep, ScatteredIn, ChosenIn]
  dsimp only
  rw [htags, hchosen, hnum]
  -- compaction moves the pivots to the front, each with its tag and its block
  constructor
  · rintro ⟨c, hcn, hck, hne, hn1, hb⟩
    obtain ⟨i, hi, rfl⟩ := hc.gathered.covers c hcn hne
    rw [hc.gathered.count_eq hi] at hck
    exact ⟨i, hck, hi, (hc.tags i).symm ▸ hn1, (hc.chosen i).trans hb⟩
  · rintro ⟨i, hik, hi, hn1, hb⟩
    obtain ⟨hlt, hne⟩ := hc.gathered.pivot i hi
    refine ⟨κ i, hlt, ?_, hne, hc.tags i ▸ hn1, (hc.chosen i).symm.trans hb⟩
    rwa [hc.gathered.count_eq hi]

/-- The trace of a tile that is swept first. -/
theorem factorTileTrace_traces (hs : 0 < small) (inv : WithTop K) {ib : ℕ} (hib : 0 < ib) :
    Traces (factorTile small inv ib) (factorTileTrace small inv ib) := by
  intro w A rows kept b
  have hcp : Factors small (cpFactor small inv) := fun w A rows => cpFactor_spec hs inv w A rows
  have htrace := cpTileTrace_traces hs inv
  unfold factorTile factorTileTrace
  split_ifs with hw
  · exact htrace w A rows kept b
  obtain ⟨σ, h⟩ := sweep_spec hs hib (le_refl w) hcp inv A rows
  dsimp only
  rw [List.mem_append, mem_sweepTrace hs hib le_rfl hcp htrace inv A rows, htrace]
  generalize sweep (cpFactor small inv) inv w w ib A rows = s at h ⊢
  obtain ⟨τ, ht⟩ := hcp (w - s.ne) (tileOf s.A s.ne) fun i => s.rows (s.ne + i)
  generalize cpFactor small inv (w - s.ne) (tileOf s.A s.ne)
    (fun i => s.rows (s.ne + i)) = t at ht ⊢
  have hle := h.le
  have htle := ht.le
  -- complete pivoting goes on where the sweep stopped: its column `a` is column `ne + a`
  split_ifs with hlt
  · constructor
    · rintro (⟨c, hck, hc, hn1, hb⟩ | ⟨a, hak, ha, hn1, hb⟩)
      · refine ⟨c, hck, Nat.lt_add_right _ hc, ?_, (patch_out (Or.inl hc)).trans hb⟩
        dsimp only
        rwa [patch_out (Or.inl hc)]
      · refine ⟨s.ne + a, by omega, Nat.add_lt_add_left ha _, ?_,
          (patch_in (by omega)).trans hb⟩
        dsimp only
        rwa [patch_in (by omega)]
    · rintro ⟨c, hck, hc, hn1, hb⟩
      rcases Nat.lt_or_ge c s.ne with hlow | hge
      · dsimp only at hn1 hb
        rw [patch_out (Or.inl hlow)] at hn1 hb
        exact Or.inl ⟨c, hck, hlow, hn1, hb⟩
      · obtain ⟨a, rfl⟩ : ∃ a, c = s.ne + a := ⟨c - s.ne, by omega⟩
        have ha : a < t.ne := Nat.lt_of_add_lt_add_left hc
        dsimp only at hn1 hb
        rw [patch_in (by omega)] at hn1 hb
        exact Or.inr ⟨a, by omega, ha, hn1, hb⟩
  · -- nothing failed in the sweep
    refine or_iff_left ?_
    rintro ⟨a, -, ha, -⟩
    omega

/-- The blocks of the trace are those of the pivots that the front is left with. -/
theorem mem_aptpTrace {prm : AptpParams K} {f numElig : ℕ} (hs : 0 < prm.small)
    (hf : numElig ≤ f) (F : ℕ → ℕ → K) (rows tags : ℕ → ℤ) :
    let out := ldltAptpFront prm f numElig F rows tags
    b ∈ aptpTrace prm f numElig F rows ↔
      ∃ c < out.res.numEliminated, out.tags c ≠ -1 ∧ out.chosen c = some b := by
  dsimp only
  unfold ldltAptpFront aptpTrace
  split_ifs with h0
  · exact ⟨fun h => absurd h List.not_mem_nil, fun ⟨c, hc, _⟩ => absurd hc (Nat.not_lt_zero c)⟩
  have hsize : 0 < (effectiveSizes numElig prm).1 ∧ 0 < (effectiveSizes numElig prm).2 := by
    unfold effectiveSizes
    dsimp only
    omega
  have hchild := factorTile_factors hs (invU prm.u) hsize.2
  obtain ⟨σ, h⟩ := sweep_spec hs hsize.1 hf hchild (invU prm.u) F rows
  dsimp only
  rw [mem_sweepTrace hs hsize.1 hf hchild (factorTileTrace_traces hs _ hsize.2)]
  generalize sweep (factorTile prm.small (invU prm.u) (effectiveSizes numElig prm).2)
    (invU prm.u) f numElig (effectiveSizes numElig prm).1 F rows = s at h ⊢
  have hnum : (frontResult s.A s.tags f numElig s.ne prm.small).numEliminated = s.ne :=
    (countPivots_counts ..).1
  rw [hnum]
  have hle := h.le
  constructor
  · rintro ⟨c, -, hc, hn1, hb⟩
    exact ⟨c, hc, (if_pos (hc.trans_le hle)).symm ▸ hn1, hb⟩
  · rintro ⟨c, hc, hn1, hb⟩
    rw [if_pos (hc.trans_le hle)] at hn1
    exact ⟨c, hc.trans_le hle, hc, hn1, hb⟩

end Sweep

end SmfSolver.Kernel
