/-
The integer side of the kernel follows the kernel.

The model of the scratch memory takes what the tests decide from outside.  For every front there
are decisions with which it goes exactly the way of the kernel in exact arithmetic: the same tags,
the same moves, the same failed columns (`ldltAptpFront_follows`).  They are found step by step:
the pivots that complete pivoting picked, and for each check the pivot at which it ended.
-/
import SmfSolver.Kernel.AptpWorkBounds

namespace SmfSolver.Kernel

/-- What is left of a view without its entries. -/
def View.marks {K : Type*} (v : View K) : View Unit where
  A _ _ := ()
  tags := v.tags
  rows _ := 0
  lp := v.lp
  chosen _ := none

def Tile.marks {K : Type*} (t : Tile K) : Tile Unit := { t.toView.marks with ne := t.ne }

def Sweep.marks {K : Type*} (s : Sweep K) : Sweep Unit :=
  { s.toView.marks with Q := s.Q, numElim := s.numElim }

namespace AptpWork

section Marks

variable {K : Type*} {v : View K} {m ne : ℕ}

theorem marks_ext {v v' : View Unit} (htags : v.tags = v'.tags) (hrows : v.rows = v'.rows)
    (hlp : v.lp = v'.lp) (hchosen : v.chosen = v'.chosen) : v = v' := by
  obtain ⟨A, tags, rows, lp, chosen⟩ := v
  obtain ⟨A', tags', rows', lp', chosen'⟩ := v'
  obtain rfl : A = A' := Subsingleton.elim _ _
  congr

theorem marks_swap (m p q : ℕ) (v : View K) : (v.swap m p q).marks = v.marks.swap m p q := by
  unfold View.swap
  split_ifs
  · rfl
  · rfl

theorem marks_compactStep (m : ℕ) (v : View K × ℕ) (src : ℕ) :
    ((compactStep m v src).1.marks, (compactStep m v src).2) =
      compactStep m (v.1.marks, v.2) src := by
  have htag : v.1.marks.tags src = v.1.tags src := rfl
  unfold compactStep
  rw [htag]
  split_ifs
  · rfl
  · rw [marks_swap]

theorem marks_compact (m : ℕ) (l : List ℕ) (v : View K × ℕ) :
    ((l.foldl (compactStep m) v).1.marks, (l.foldl (compactStep m) v).2) =
      l.foldl (compactStep m) (v.1.marks, v.2) := by
  induction l generalizing v with
  | nil => rfl
  | cons src l ih =>
    rw [List.foldl_cons, List.foldl_cons, ih, marks_compactStep]

theorem marks_sweepCompact (m ne : ℕ) (s : Sweep K) :
    (sweepCompact m ne s).marks = sweepCompact m ne s.marks := by
  have hnum : s.marks.numElim = s.numElim := rfl
  unfold sweepCompact
  rw [hnum]
  split_ifs
  · have hfold := congrArg Prod.fst (marks_compact m (List.range ne) (s.toView, 0))
    dsimp only at hfold
    show ({ toView := View.marks _, Q := s.Q, numElim := s.numElim } : Sweep Unit) = _
    rw [hfold]
    rfl
  · rfl

end Marks

section Follow

variable {K : Type*} [Field K] [LinearOrder K] {small : K} {inv : WithTop K} {n : ℕ}

/-! ### Complete pivoting -/

theorem tile_ext {t t' : Tile Unit} (hv : t.toView = t'.toView) (hne : t.ne = t'.ne) : t = t' := by
  cases t
  cases t'
  congr

theorem marks_take (lp : Buffer) (n : ℕ) (s : Tile K) (pc : PivotChoice) :
    (s.take n pc).marks = (takePivot lp n s.marks pc).1 := by
  cases pc with
  | one a =>
    have hswap := marks_swap n s.ne a s.toView
    refine tile_ext (marks_ext ?_ ?_ ?_ ?_) rfl
    · exact congrArg (fun v => Function.update (View.tags v) s.ne 1) hswap
    · exact (congrArg View.rows hswap :)
    · exact (congrArg View.lp hswap :)
    · exact (congrArg View.chosen hswap :)
  | two a b =>
    set v := if a ≠ s.ne then s.toView.swap n s.ne a else s.toView with hv
    set partner := if a ≠ s.ne ∧ b = s.ne then a else b
    set v' := if partner ≠ s.ne + 1 then v.swap n (s.ne + 1) partner else v with hv'
    -- each of the two swaps commutes with forgetting the entries
    have hfirst : v.marks =
        if a ≠ s.ne then s.toView.marks.swap n s.ne a else s.toView.marks := by
      rw [hv]
      split_ifs
      · exact marks_swap n s.ne a s.toView
      · rfl
    have hsecond : v'.marks = if partner ≠ s.ne + 1 then
        View.swap n (s.ne + 1) partner (if a ≠ s.ne then s.toView.marks.swap n s.ne a
          else s.toView.marks)
        else if a ≠ s.ne then s.toView.marks.swap n s.ne a else s.toView.marks := by
      rw [hv', ← hfirst]
      split_ifs
      · exact marks_swap n (s.ne + 1) partner v
      · rfl
    refine tile_ext (marks_ext ?_ ?_ ?_ ?_) rfl
    · exact congrArg (fun v => Function.update (Function.update (View.tags v) s.ne 2)
        (s.ne + 1) (-1)) hsecond
    · exact (congrArg View.rows hsecond :)
    · exact (congrArg View.lp hsecond :)
    · exact (congrArg View.chosen hsecond :)

variable [IsStrictOrderedRing K]

/-- The pivot of an open block stands in the block. -/
theorem within_choice {b : CpBlock K} (h : b.Open small) : within b.k b.n b.choice = true := by
  have hc := b.choice_spec h
  generalize b.choice = pc at hc ⊢
  cases hc with
  | diagonal ha han hd => exact decide_eq_true ⟨ha, han⟩
  | pair ha hac hcn ht haa hcc hdet => exact decide_eq_true ⟨ha, hac, hcn⟩
  | larger hac he hk hn ht hm hdet =>
    refine decide_eq_true ?_
    rcases he with rfl | rfl <;> omega

theorem cpLoop_follows (small : K) (inv : WithTop K) (lp : Buffer) (n : ℕ) (s : Tile K) :
    ∃ pivots, (cpLoop lp n pivots s.marks).1 = (Kernel.cpLoop small inv n s).marks := by
  fun_induction Kernel.cpLoop small inv n s with
  | case1 s hlt b hgo ih =>
    obtain ⟨pivots, hrest⟩ := ih
    refine ⟨b.choice :: pivots, ?_⟩
    have hin : within s.marks.ne n b.choice = true := within_choice ⟨hlt, hgo.1⟩
    rw [cpLoop, if_pos hin]
    dsimp only
    rw [← marks_take, hrest]
  | case2 s hlt b hstop => exact ⟨[], rfl⟩
  | case3 s hend => exact ⟨[], rfl⟩

/-- What factors a tile here can go the way of what factors it in the kernel. -/
def Follows {χ : Type*} (child : TileRun χ) (child' : TileFactor K) (w : ℕ) : Prop :=
  ∀ A rows, ∃ x, (child x w).1 = (child' w A rows).marks

theorem cpFactor_follows (small : K) (inv : WithTop K) (lp : Buffer) (w : ℕ) :
    Follows (cpFactor lp) (Kernel.cpFactor small inv) w := by
  intro A rows
  obtain ⟨pivots, h⟩ := cpLoop_follows small inv lp w { View.start A rows with ne := 0 }
  exact ⟨pivots, h⟩

end Follow

/-! ### A block column -/

section Block

variable {K : Type*} [Field K] [LinearOrder K]

/-- Where the check ends, from a pivot on. -/
theorem le_scaleAndCheck (nrows k : ℕ) (tags : ℕ → ℤ) (dinv : ℕ → K × K) (inv : WithTop K) (t : ℕ)
    (X : ℕ → ℕ → K) : min t k ≤ (Kernel.scaleAndCheck nrows k tags dinv inv t X).2 := by
  fun_induction Kernel.scaleAndCheck nrows k tags dinv inv t X with
  | case1 t X hlt h2 Y hall ih => omega
  | case2 t X hlt h2 Y hall => exact min_le_left _ _
  | case3 t X hlt h2 Y hall ih => omega
  | case4 t X hlt h2 Y hall => exact min_le_left _ _
  | case5 t X hlt => exact min_le_right _ _

/-- A check that fails at its end only goes the way of the check. -/
theorem scaleAndCheck_follows (nrows k : ℕ) (tags : ℕ → ℤ) (dinv : ℕ → K × K) (inv : WithTop K)
    (column : ℕ → List Access) (t : ℕ) (X : ℕ → ℕ → K) :
    (scaleAndCheck k tags
      (fun i => decide (i ≠ (Kernel.scaleAndCheck nrows k tags dinv inv t X).2)) column t).1 =
        (Kernel.scaleAndCheck nrows k tags dinv inv t X).2 := by
  fun_induction Kernel.scaleAndCheck nrows k tags dinv inv t X with
  | case1 t X hlt h2 Y hall ih =>
    have hle := le_scaleAndCheck nrows k tags dinv inv (t + 2) Y
    have hok : decide (t ≠ (Kernel.scaleAndCheck nrows k tags dinv inv (t + 2) Y).2) = true :=
      decide_eq_true (by omega)
    rw [scaleAndCheck, if_pos hlt, if_pos h2, if_pos hok]
    exact ih
  | case2 t X hlt h2 Y hall =>
    rw [scaleAndCheck, if_pos hlt, if_pos h2, if_neg (by simp)]
  | case3 t X hlt h2 Y hall ih =>
    have hle := le_scaleAndCheck nrows k tags dinv inv (t + 1) Y
    have hok : decide (t ≠ (Kernel.scaleAndCheck nrows k tags dinv inv (t + 1) Y).2) = true :=
      decide_eq_true (by omega)
    rw [scaleAndCheck, if_pos hlt, if_neg h2, if_pos hok]
    exact ih
  | case4 t X hlt h2 Y hall =>
    rw [scaleAndCheck, if_pos hlt, if_neg h2, if_neg (by simp)]
  | case5 t X hlt => rw [scaleAndCheck, if_neg hlt]

theorem scaleAndCheck_le (nrows k : ℕ) (tags : ℕ → ℤ) (dinv : ℕ → K × K) (inv : WithTop K) (t : ℕ)
    (X : ℕ → ℕ → K) : (Kernel.scaleAndCheck nrows k tags dinv inv t X).2 ≤ k := by
  fun_induction Kernel.scaleAndCheck nrows k tags dinv inv t X with
  | case1 t X hlt h2 Y hall ih => exact ih
  | case2 t X hlt h2 Y hall => exact hlt.le
  | case3 t X hlt h2 Y hall ih => exact ih
  | case4 t X hlt h2 Y hall => exact hlt.le
  | case5 t X hlt => exact le_rfl

theorem length_chunks {bs : ℕ} (hbs : 0 < bs) (q : List ℕ) :
    (chunks bs q).length = numPieces bs q.length := by
  fun_induction chunks bs q with
  | case1 q h =>
    obtain rfl : q = [] := h.resolve_right (by omega)
    show 0 = (0 + bs - 1) / bs
    rw [Nat.div_eq_of_lt (by omega)]
  | case2 q h ih =>
    have hpos : 0 < q.length := List.length_pos_of_ne_nil (by tauto)
    rw [List.length_cons, ih, List.length_drop, numPieces, numPieces]
    rcases Nat.lt_or_ge bs q.length with hlt | hge
    · rw [show q.length + bs - 1 = q.length - bs + bs - 1 + bs by omega,
        Nat.add_div_right _ hbs]
    · rw [Nat.div_eq_of_lt (by omega), show q.length + bs - 1 = q.length - 1 + bs by omega,
        Nat.add_div_right _ hbs, Nat.div_eq_of_lt (by omega)]

variable {inv : WithTop K} {ℓ : Level} {lp : Buffer} {m ne bs c0 w n : ℕ} {s : Sweep K}
  {b : BlockColumn K} {tags : ℕ → ℤ}

theorem applyT_follows (ℓ : Level) (bs nq p : ℕ) (q : List ℕ) {k : ℕ}
    (htags : ∀ c < k, s.tags (c0 + c) = tags c) :
    (applyT ℓ bs tags (fun i => decide (i ≠ (Kernel.applyT inv c0 b s q k).2)) nq k p).1 =
      (Kernel.applyT inv c0 b s q k).2 := by
  -- the kernel reads the tags of the view, which are those of the tile
  have hcongr : Kernel.applyT inv c0 b s q k = Kernel.scaleAndCheck q.length k tags b.dinv inv 0
      fun r => trsmRlt k b.lt 0 fun t => s.A (c0 + t) (q.getD r 0) := scaleAndCheck_congr htags _
  rw [hcongr]
  exact scaleAndCheck_follows _ _ _ _ _ _ _ _

/-- The checks of `ApplyT`, piece by piece. -/
theorem pieces_follow (inv : WithTop K) (b : BlockColumn K) (ℓ : Level) (bs nq : ℕ)
    (htags : ∀ c < n, s.tags (c0 + c) = tags c)
    (l : List (List ℕ)) {k : ℕ} (hk : k ≤ n) : ∃ piece : ℕ → ℕ → Bool,
    ((List.range l.length).foldl
      (fun s p =>
        if s.1 = 0 then s
        else
          let r := applyT ℓ bs tags (piece p) nq s.1 p
          (r.1, s.2 ++ r.2)) (k, [])).1 =
      l.foldl (fun k q => if k = 0 then 0 else (Kernel.applyT inv c0 b s q k).2) k ∧
    l.foldl (fun k q => if k = 0 then 0 else (Kernel.applyT inv c0 b s q k).2) k ≤ n := by
  induction l using List.reverseRecOn with
  | nil => exact ⟨fun _ _ => true, rfl, hk⟩
  | append_singleton l q ih =>
    obtain ⟨piece, heq, hle⟩ := ih
    set k' := l.foldl (fun k q => if k = 0 then 0 else (Kernel.applyT inv c0 b s q k).2) k
    refine ⟨Function.update piece l.length
      fun i => decide (i ≠ (Kernel.applyT inv c0 b s q k').2), ?_, ?_⟩
    · rw [List.length_append, List.length_singleton, List.range_succ, List.foldl_append,
        List.foldl_append, List.foldl_cons, List.foldl_nil, List.foldl_cons, List.foldl_nil]
      -- the earlier pieces do not see the new decision
      have hold : ∀ (s₀ : ℕ × List Access), ∀ p ∈ List.range l.length,
          (if s₀.1 = 0 then s₀
            else
              let r := applyT ℓ bs tags (Function.update piece l.length
                (fun i => decide (i ≠ (Kernel.applyT inv c0 b s q k').2)) p) nq s₀.1 p
              (r.1, s₀.2 ++ r.2)) =
            if s₀.1 = 0 then s₀
            else
              let r := applyT ℓ bs tags (piece p) nq s₀.1 p
              (r.1, s₀.2 ++ r.2) := by
        intro s₀ p hp
        rw [Function.update_of_ne (List.mem_range.mp hp).ne]
      rw [List.foldl_ext _ _ _ hold]
      by_cases h0 : k' = 0
      · rw [if_pos (heq.trans h0), if_pos h0]
        exact heq.trans h0
      · rw [if_neg (by rwa [heq]), if_neg h0, Function.update_self]
        dsimp only
        rw [heq]
        exact applyT_follows ℓ bs nq l.length q fun c hc => htags c (hc.trans_le hle)
    · rw [List.foldl_append, List.foldl_cons, List.foldl_nil]
      split_ifs
      · exact Nat.zero_le _
      · exact (scaleAndCheck_le _ _ _ _ _ _ _).trans hle

/-- The kernel's pivots of a tile are those of some decisions of the pieces. -/
theorem acceptedPivots_follows (inv : WithTop K) (hbs : 0 < bs) (ℓ : Level) {t : Tile Unit}
    (hne : b.ne = t.ne) (htags : ∀ c < t.ne, s.tags (c0 + c) = t.tags c) {k : ℕ}
      (hk : k ≤ t.ne) : ∃ piece,
    (acceptedPivots ℓ bs t piece s.Q.length k).1 = Kernel.acceptedPivots inv bs c0 b s k := by
  obtain ⟨piece, heq, hle⟩ := pieces_follow inv b ℓ bs s.Q.length htags (chunks bs s.Q) hk
  refine ⟨piece, ?_⟩
  rw [length_chunks hbs] at heq
  unfold acceptedPivots Kernel.acceptedPivots
  rw [hne]
  by_cases h0 : t.ne = 0
  · rw [if_pos h0, if_pos h0]
  · rw [if_neg h0, if_neg h0]
    have hpieces : (applyPieces ℓ bs t piece s.Q.length k).1 = (chunks bs s.Q).foldl
        (fun k q => if k = 0 then 0 else (Kernel.applyT inv c0 b s q k).2) k := heq
    dsimp only
    rw [hpieces]
    set nelim := (chunks bs s.Q).foldl
      (fun k q => if k = 0 then 0 else (Kernel.applyT inv c0 b s q k).2) k
    have htag : 0 < nelim → s.tags (c0 + nelim - 1) = t.tags (nelim - 1) := fun hpos => by
      rw [show c0 + nelim - 1 = c0 + (nelim - 1) by omega]
      exact htags _ (by omega)
    refine if_congr (and_congr_right fun hpos => ?_) rfl rfl
    rw [htag hpos]

theorem applyN_follows {t : Tile Unit} (hne : b.ne = t.ne)
    (htags : ∀ c < t.ne, s.tags (c0 + c) = t.tags c) :
    (applyN m bs c0 w t fun i => decide (i ≠ (Kernel.applyN inv m c0 w b s).2)).1 =
      (Kernel.applyN inv m c0 w b s).2 := by
  unfold applyN Kernel.applyN
  rw [hne]
  by_cases h0 : t.ne = 0 ∨ m ≤ c0 + w
  · rw [if_pos h0, if_pos h0]
  · rw [if_neg h0, if_neg h0]
    dsimp only
    rw [scaleAndCheck_congr htags]
    exact scaleAndCheck_follows _ _ _ _ _ _ _ _

theorem sweep_ext {s s' : Sweep Unit} (hv : s.toView = s'.toView) (hQ : s.Q = s'.Q)
    (hnum : s.numElim = s'.numElim) : s = s' := by
  cases s
  cases s'
  congr

/-- The tags after a block column, for any tile. -/
theorem blockStep_marks_tags (child : TileFactor K) (inv : WithTop K) (m ne bs c0 w : ℕ)
    (s : Sweep K) : (Kernel.blockStep child inv m ne bs c0 w s).tags = fun i =>
      if c0 + keptPivots child inv m bs c0 w s ≤ i ∧ i < c0 + w then 0
      else patch s.tags c0 w (stepTile child c0 w s).tags i := by
  obtain ⟨htags, -⟩ := applyN_frame inv m c0 w (Kernel.blockFactor child m c0 w s).2
    (Kernel.blockFactor child m c0 w s).1
  funext i
  rw [← show _ = patch s.tags c0 w (stepTile child c0 w s).tags i from congrFun htags i]
  change (if keptPivots child inv m bs c0 w s = 0 then _ else _ : Sweep K).tags i = _
  by_cases h0 : keptPivots child inv m bs c0 w s = 0
  · rw [if_pos h0]
    rfl
  · rw [if_neg h0]
    rfl

/-- One block column. -/
theorem blockStep_follows (inv : WithTop K) (ℓ : Level) (lp : Buffer) (m ne c0 : ℕ) {χ : Type*}
    {child : TileRun χ} {child' : TileFactor K} (hbs : 0 < bs) (hchild : Follows child child' w)
      (hle : ∀ x, (child x w).1.ne ≤ w) (s : Sweep K) : ∃ x, ∀ l,
    (blockStep child ℓ lp m bs c0 w x (s.marks, l)).1 =
      (Kernel.blockStep child' inv m ne bs c0 w s).marks := by
  obtain ⟨xt, ht⟩ := hchild (tileOf s.A c0) fun i => s.rows (c0 + i)
  set f := Kernel.blockFactor child' m c0 w s with hf
  set a := Kernel.applyN inv m c0 w f.2 f.1 with ha
  have hne : f.2.ne = (child xt w).1.ne := (congrArg Tile.ne ht).symm
  obtain ⟨hatags, haQ, -⟩ := applyN_frame inv m c0 w f.2 f.1
  have hftags : ∀ c < (child xt w).1.ne, f.1.tags (c0 + c) = (child xt w).1.tags c := by
    intro c hc
    rw [ht]
    exact patch_in (hc.trans_le (hle xt))
  -- the value tests of the real step become the outcomes the footprint is given
  have hk : a.2 ≤ (child xt w).1.ne := by
    rw [← hne]
    rw [ha]
    unfold Kernel.applyN
    split_ifs
    · exact le_rfl
    · exact scaleAndCheck_le _ _ _ _ _ _ _
  obtain ⟨piece, hpiece⟩ := acceptedPivots_follows (s := a.1) inv hbs ℓ hne
    (fun c hc => (congrFun hatags _).trans (hftags c hc)) hk
  refine ⟨⟨xt, fun i => decide (i ≠ a.2), piece, fun _ _ => true⟩, fun l => ?_⟩
  have hbelow : (applyN m bs c0 w (child xt w).1 fun i => decide (i ≠ a.2)).1 = a.2 :=
    applyN_follows hne hftags
  rw [haQ] at hpiece
  have hkept : (acceptedPivots ℓ bs (child xt w).1 piece s.Q.length
      (applyN m bs c0 w (child xt w).1 fun i => decide (i ≠ a.2)).1).1 =
        keptPivots child' inv m bs c0 w s := by
    rw [hbelow]
    exact hpiece
  have htags := blockStep_marks_tags child' inv m ne bs c0 w s
  obtain ⟨-, hlp, -, hQ, hnum⟩ := blockStep_frame child' inv m ne bs c0 w s
  refine sweep_ext (marks_ext ?_ rfl ?_ rfl) ?_ ?_
  · refine Eq.trans ?_ htags.symm
    rw [← hkept]
    exact funext fun i => if_congr Iff.rfl rfl (congrArg (fun t : Tile Unit =>
      patch s.tags c0 w t.tags i) ht)
  · refine Eq.trans ?_ hlp.symm
    exact congrArg (fun t : Tile Unit => patch s.lp c0 w fun i => s.lp (c0 + t.lp i)) ht
  · refine Eq.trans ?_ hQ.symm
    rw [← hkept]
    rfl
  · refine Eq.trans ?_ hnum.symm
    rw [← hkept]
    rfl

end Block

/-! ### The sweep, the tile and the front -/

section Sweep

variable {K : Type*} [Field K] [LinearOrder K] {inv : WithTop K} {ℓ : Level} {lp : Buffer}
  {m ne bs : ℕ} {χ : Type*} {child : TileRun χ} {child' : TileFactor K}

/-- The first block columns do not see the decisions of the later ones. -/
theorem columns_congr {x y : ℕ → BlockTests χ} {n : ℕ} (h : ∀ b < n, x b = y b)
    (r : Sweep Unit × List Access) :
    (List.range n).foldl
        (fun s b => blockStep child ℓ lp m bs (b * bs) (min bs (ne - b * bs)) (x b) s) r =
      (List.range n).foldl
        (fun s b => blockStep child ℓ lp m bs (b * bs) (min bs (ne - b * bs)) (y b) s) r :=
  List.foldl_ext _ _ _ fun s b hb => by rw [h b (List.mem_range.mp hb)]

theorem columns_follow [Nonempty χ] (inv : WithTop K) (ℓ : Level) (lp : Buffer) (m : ℕ)
    (hbs : 0 < bs)
    (hchild : ∀ w, w ≤ bs → w ≤ ne → Follows child child' w ∧ ∀ x, (child x w).1.ne ≤ w)
    (s : Sweep K) (l : List Access) (n : ℕ) : ∃ x : ℕ → BlockTests χ,
    ((List.range n).foldl
      (fun s b => blockStep child ℓ lp m bs (b * bs) (min bs (ne - b * bs)) (x b) s)
      (s.marks, l)).1 =
    ((List.range n).foldl
      (fun s b => Kernel.blockStep child' inv m ne bs (b * bs) (min bs (ne - b * bs)) s) s).marks
    := by
  induction n with
  | zero => exact ⟨fun _ => ⟨Classical.arbitrary χ, fun _ => true, fun _ _ => true,
      fun _ _ => true⟩, rfl⟩
  | succ n ih =>
    obtain ⟨x, hx⟩ := ih
    obtain ⟨hfollow, hle⟩ := hchild (min bs (ne - n * bs)) (min_le_left _ _) (by omega)
    set s' := (List.range n).foldl
      (fun s b => Kernel.blockStep child' inv m ne bs (b * bs) (min bs (ne - b * bs)) s) s
    obtain ⟨xn, hxn⟩ := blockStep_follows inv ℓ lp m ne (n * bs) hbs hfollow hle s'
    refine ⟨Function.update x n xn, ?_⟩
    rw [List.range_succ, List.foldl_append, List.foldl_append, List.foldl_cons, List.foldl_nil,
      List.foldl_cons, List.foldl_nil, Function.update_self,
      columns_congr (x := Function.update x n xn) (y := x) fun b hb =>
        Function.update_of_ne hb.ne _ _]
    set r := (List.range n).foldl
      (fun s b => blockStep child ℓ lp m bs (b * bs) (min bs (ne - b * bs)) (x b) s) (s.marks, l)
    have hr : r = (s'.marks, r.2) := Prod.ext hx rfl
    rw [hr]
    exact hxn r.2

/-- A sweep. -/
theorem sweep_follows [Nonempty χ] (inv : WithTop K) (ℓ : Level) (lp : Buffer) (m : ℕ)
    (hbs : 0 < bs)
    (hchild : ∀ w, w ≤ bs → w ≤ ne → Follows child child' w ∧ ∀ x, (child x w).1.ne ≤ w)
    (A : ℕ → ℕ → K) (rows : ℕ → ℤ) : ∃ x,
    (sweep child ℓ lp m ne bs x).1 = (Kernel.sweep child' inv m ne bs A rows).marks := by
  obtain ⟨x, hx⟩ := columns_follow inv ℓ lp m hbs hchild
    { View.start A rows with Q := [], numElim := 0 } (row lp ne id) ((ne + bs - 1) / bs)
  refine ⟨x, ?_⟩
  unfold sweep Kernel.sweep
  dsimp only
  set s' := (List.range ((ne + bs - 1) / bs)).foldl
    (fun s b => Kernel.blockStep child' inv m ne bs (b * bs) (min bs (ne - b * bs)) s)
    { View.start A rows with Q := [], numElim := 0 }
  -- the deferred update changes entries only
  have htrail : (trailingUpdate m ne (sweepCompact m ne s')).marks =
      sweepCompact m ne s'.marks := by
    rw [← marks_sweepCompact]
    unfold trailingUpdate
    split_ifs <;> rfl
  have hstart : (({ View.start A rows with Q := [], numElim := 0 } : Sweep K).marks) =
      { unmarked with Q := [], numElim := 0 } := rfl
  rw [hstart] at hx
  rw [hx, ← htrail]
  rfl

end Sweep

section Front

variable {K : Type*} [Field K] [LinearOrder K] [IsStrictOrderedRing K] {c : Shape}

instance : Nonempty TileTests :=
  ⟨⟨fun _ => ⟨[], fun _ => true, fun _ _ => true, fun _ _ => true⟩, []⟩⟩

/-- A tile of the front. -/
theorem factorTile_follows (hc : c.Ok) (small : K) (inv : WithTop K) (w : ℕ) :
    Follows (factorTile c.ib) (Kernel.factorTile small inv c.ib) w := by
  intro A rows
  have hcp : ∀ w', w' ≤ c.ib → w' ≤ w →
      Follows (cpFactor (.lpc .tile)) (Kernel.cpFactor small inv) w' ∧
        ∀ x, (cpFactor (.lpc .tile) x w').1.ne ≤ w' := fun w' hw' _ =>
    ⟨cpFactor_follows small inv _ w', fun x => (cpFactor_ok (c := c) (hw'.trans_eq rfl) x).1.le⟩
  -- both branches take their outcomes from the run on `A`
  obtain ⟨inner, hinner⟩ := sweep_follows inv .tile (.lpc .front) w hc.ib_pos hcp A rows
  by_cases hone : w ≤ c.ib
  · obtain ⟨pivots, hp⟩ := cpFactor_follows small inv (.lpc .front) w A rows
    refine ⟨⟨inner, pivots⟩, ?_⟩
    unfold factorTile Kernel.factorTile
    rw [if_pos hone, if_pos hone]
    exact hp
  · set s := Kernel.sweep (Kernel.cpFactor small inv) inv w w c.ib A rows
    obtain ⟨pivots, hp⟩ := cpFactor_follows small inv .cpLp (w - s.ne) (tileOf s.A s.ne)
      fun i => s.rows (s.ne + i)
    refine ⟨⟨inner, pivots⟩, ?_⟩
    unfold factorTile Kernel.factorTile
    rw [if_neg hone, if_neg hone]
    dsimp only
    have hne : (sweep (cpFactor (.lpc .tile)) .tile (.lpc .front) w w c.ib inner).1.ne = s.ne :=
      congrArg Tile.ne hinner
    rw [hne]
    by_cases hlt : s.ne < w
    · rw [if_pos hlt, if_pos hlt]
      generalize sweep (cpFactor (.lpc .tile)) .tile (.lpc .front) w w c.ib inner = r at hinner
      generalize cpFactor .cpLp pivots (w - s.ne) = t at hp
      obtain ⟨r, lr⟩ := r
      obtain ⟨t, lt⟩ := t
      obtain rfl : r = s.marks := hinner
      obtain rfl : t = _ := hp
      exact tile_ext (marks_ext rfl rfl rfl rfl) rfl
    · rw [if_neg hlt, if_neg hlt]
      exact hinner

/-- For every front there are decisions with which the scratch memory is used as the kernel does in
exact arithmetic: with its tags, its moves and its pivots. -/
theorem ldltAptpFront_follows (prm : AptpParams K) {f numElig : ℕ} (hpos : 0 < numElig)
    (hle : numElig ≤ f) (F : ℕ → ℕ → K) (rows : ℕ → ℤ) : ∃ x,
    (ldltAptpFront prm f numElig x).1 =
      (Kernel.sweep (Kernel.factorTile prm.small (invU prm.u) (effectiveSizes numElig prm).2)
        (invU prm.u) f numElig (effectiveSizes numElig prm).1 F rows).marks := by
  have hok := shapeOf_ok prm hpos hle
  have hchild : ∀ w, w ≤ (shapeOf f numElig prm).nb → w ≤ numElig →
      Follows (factorTile (shapeOf f numElig prm).ib)
        (Kernel.factorTile prm.small (invU prm.u) (shapeOf f numElig prm).ib) w ∧
        ∀ x, (factorTile (shapeOf f numElig prm).ib x w).1.ne ≤ w := fun w hw _ =>
    ⟨factorTile_follows hok prm.small (invU prm.u) w, fun x => (factorTile_ok hok x hw).1.le⟩
  obtain ⟨x, hx⟩ := sweep_follows (invU prm.u) .front .topLp f
    (hok.ib_pos.trans_le hok.ib_le) hchild F
    rows
  refine ⟨x, ?_⟩
  unfold ldltAptpFront
  rw [if_neg (by omega)]
  exact hx

end Front

end AptpWork

end SmfSolver.Kernel
