/-
  SmfSolver.Factor.RescueState

  What one call of `factor_scale_on_delay` can do to the rescue's state (`CallSpec`): one
  lemma for each branch, from what a call has done on its way there (`Open`).
-/
import SmfSolver.Factor.ScaleOnDelay

namespace SmfSolver
namespace Factor

/-- None of the modes is recorded but, if any, that there is no matching. -/
structure FactorKeep.Modeless (keep : FactorKeep) : Prop where
  next : keep.delayNext = false
  static : keep.delayStatic = false
  scale : keep.delayScale = []

/-- The call may try the static path. -/
def Call.MayTryStatic (c : Call) (fkeep : FactorKeep) : Prop :=
  fkeep.goStatic c = true ∨ fkeep.staticRejectedAnalysis ≠ c.analysis.serial

/-- A call on its way: nothing is recorded yet, and no matching computed. -/
structure Open (c : Call) (fkeep : FactorKeep) (p : Progress) : Prop where
  analysis : p.keep.delayAnalysis = 0
  modeless : p.keep.Modeless
  rejected : p.keep.staticRejectedAnalysis =
    if .staticTry true ∈ p.events then c.analysis.serial else fkeep.staticRejectedAnalysis
  tried : ∀ b, .staticTry b ∈ p.events → c.MayTryStatic fkeep
  noMatching : ∀ b, .matching b ∉ p.events
  armed : c.goesUnarmed fkeep = false
  notUnarmed : .unarmed ∉ p.events

/-- What a call may do. -/
structure CallSpec (c : Call) (fkeep : FactorKeep) (r : Result) : Prop where
  analysis : (r.keep.delayAnalysis = 0 ∧ r.keep.Modeless) ∨
    r.keep.delayAnalysis = c.analysis.serial
  rejected : r.keep.staticRejectedAnalysis =
    if .staticTry true ∈ r.events then c.analysis.serial else fkeep.staticRejectedAnalysis
  tried : ∀ b, .staticTry b ∈ r.events → c.MayTryStatic fkeep
  static : r.keep.delayStatic = true → .staticTry true ∉ r.events ∧ c.MayTryStatic fkeep ∧
    r.keep.delayNext = false ∧ r.keep.delayScale = []
  unarmed : .unarmed ∈ r.events ↔ c.goesUnarmed fkeep = true
  foundNone : .matching true ∈ r.events → r.outcome.ran = true →
    r.keep.delayAnalysis = c.analysis.serial ∧ r.keep.Modeless ∧
      r.keep.delaySignature = zeroSignature c.values
  noMatching : r.keep.delayAnalysis = c.analysis.serial → r.keep.Modeless →
    (.matching true ∈ r.events ∧ r.outcome.ran = true ∧
      r.keep.delaySignature = zeroSignature c.values) ∨
    (.unarmed ∈ r.events ∧ r.keep.delaySignature = fkeep.delaySignature)

section Branches

variable {c : Call} {fkeep : FactorKeep} {p : Progress}

theorem FactorKeep.cleared_modeless (fkeep : FactorKeep) : fkeep.cleared.Modeless := ⟨rfl, rfl, rfl⟩

theorem open_start (harmed : c.goesUnarmed fkeep = false) :
    Open c fkeep { keep := fkeep.cleared } where
  analysis := rfl
  modeless := fkeep.cleared_modeless
  rejected := (if_neg List.not_mem_nil).symm
  tried := fun _ h => (nomatch h)
  noMatching := fun _ h => (nomatch h)
  armed := harmed
  notUnarmed := fun h => (nomatch h)

/-- A try's event says nothing of matchings and static tries. -/
theorem Open.event (h : Open c fkeep p) {e : DelayEvent} (he : e = .keptTry ∨ e = .firstTry) :
    Open c fkeep { p with events := p.events ++ [e] } := by
  have hmem : ∀ e', e' ≠ .keptTry → e' ≠ .firstTry →
      (e' ∈ p.events ++ [e] ↔ e' ∈ p.events) := by
    intro e' h₁ h₂
    rw [List.mem_append, List.mem_singleton, or_iff_left]
    rcases he with rfl | rfl
    · exact h₁
    · exact h₂
  refine ⟨h.analysis, h.modeless, ?_, fun b hb => ?_, fun b hb => ?_, h.armed, fun hu => ?_⟩
  · simp only [hmem (.staticTry true) (by decide) (by decide)]
    exact h.rejected
  · exact h.tried b ((hmem _ (by simp) (by simp)).mp hb)
  · exact h.noMatching b ((hmem _ (by simp) (by simp)).mp hb)
  · exact h.notUnarmed ((hmem _ (by decide) (by decide)).mp hu)

theorem Open.info (h : Open c fkeep p) (info : DelayInfo) : Open c fkeep { p with info := info } :=
  ⟨h.analysis, h.modeless, h.rejected, h.tried, h.noMatching, h.armed, h.notUnarmed⟩

/-- A call that ends before a matching is computed, with `keep` recorded. -/
theorem Open.callSpec (h : Open c fkeep p) {keep : FactorKeep} (info : DelayInfo) (o : Outcome)
    (hana : (keep.delayAnalysis = 0 ∧ keep.Modeless) ∨ keep.delayAnalysis = c.analysis.serial)
    (hmode : keep.delayAnalysis = c.analysis.serial → ¬keep.Modeless)
    (hrej : keep.staticRejectedAnalysis = p.keep.staticRejectedAnalysis)
    (hstatic : keep.delayStatic = true → .staticTry true ∉ p.events ∧ c.MayTryStatic fkeep ∧
      keep.delayNext = false ∧ keep.delayScale = []) :
    CallSpec c fkeep { keep := keep, info := info, events := p.events, outcome := o } where
  analysis := hana
  rejected := hrej.trans h.rejected
  tried := h.tried
  static := hstatic
  unarmed := iff_of_false h.notUnarmed (by rw [h.armed]; exact Bool.false_ne_true)
  foundNone := fun hm => absurd hm (h.noMatching true)
  noMatching := fun ha hm => absurd hm (hmode ha)

/-- Nothing is recorded. -/
theorem Open.end (h : Open c fkeep p) (o : Outcome) : CallSpec c fkeep (Call.finish p o) := by
  refine h.callSpec p.info o (.inl ⟨h.analysis, h.modeless⟩) (fun ha => ?_) rfl fun hs => ?_
  · exact absurd (ha.symm.trans h.analysis) c.analysis.serial_ne_zero
  · cases h.modeless.static.symm.trans hs

theorem rescale_spec (h : Open c fkeep p) : CallSpec c fkeep (c.rescale p) := by
  have hmem : ∀ (b : Bool) e, (∀ b, e ≠ .matching b) →
      (e ∈ p.events ++ [DelayEvent.matching b] ↔ e ∈ p.events) := by
    intro b e he
    rw [List.mem_append, List.mem_singleton, or_iff_left (he b)]
  have hmatch : ∀ b b', .matching b ∈ p.events ++ [DelayEvent.matching b'] ↔ b = b' := by
    intro b b'
    rw [List.mem_append, List.mem_singleton, or_iff_right (h.noMatching b)]
    exact ⟨fun hm => DelayEvent.matching.inj hm, congrArg _⟩
  -- what every end of the branch has in common
  have hspec : ∀ (b : Bool) (keep : FactorKeep) (info : DelayInfo) (o : Outcome),
      ((keep.delayAnalysis = 0 ∧ keep.Modeless) ∨ keep.delayAnalysis = c.analysis.serial) →
      keep.staticRejectedAnalysis = p.keep.staticRejectedAnalysis → keep.delayStatic = false →
      (b = true → o.ran = true → keep.delayAnalysis = c.analysis.serial ∧ keep.Modeless ∧
        keep.delaySignature = zeroSignature c.values) →
      (keep.delayAnalysis = c.analysis.serial → keep.Modeless → b = true ∧ o.ran = true ∧
        keep.delaySignature = zeroSignature c.values) →
      CallSpec c fkeep
        { keep := keep, info := info, events := p.events ++ [.matching b], outcome := o } := by
    intro b keep info o hana hrej hstatic hfound hno
    refine ⟨hana, ?_, fun b' hb => ?_, fun hs => ?_, ?_, fun hm => ?_, fun ha hm => .inl ?_⟩
    · simp only [hmem b (.staticTry true) (by simp)]
      exact hrej.trans h.rejected
    · exact h.tried b' ((hmem b _ (by simp)).mp hb)
    · cases hstatic.symm.trans hs
    · rw [hmem b _ (by simp)]
      exact iff_of_false h.notUnarmed (by rw [h.armed]; exact Bool.false_ne_true)
    · exact hfound ((hmatch true b).mp hm).symm
    · obtain ⟨hb, hran, hsig⟩ := hno ha hm
      exact ⟨(hmatch true b).mpr hb.symm, hran, hsig⟩
  have hzero : p.keep.delayAnalysis ≠ c.analysis.serial := fun ha =>
    c.analysis.serial_ne_zero (ha.symm.trans h.analysis)
  have hopen : (p.keep.delayAnalysis = 0 ∧ p.keep.Modeless) ∨
      p.keep.delayAnalysis = c.analysis.serial := .inl ⟨h.analysis, h.modeless⟩
  unfold Call.rescale
  dsimp only
  by_cases hscale : (c.analysis.matchingScaleOf c.values).isEmpty = true
  · rw [if_pos hscale, hscale]
    by_cases hran : (c.run (.auto (-1) none)).ran = true
    · rw [if_pos hran]
      refine hspec _ _ _ _ (.inr rfl) rfl h.modeless.static (fun _ _ => ⟨rfl, ?_, rfl⟩)
        fun _ _ => ⟨rfl, hran, rfl⟩
      exact ⟨h.modeless.next, h.modeless.static, h.modeless.scale⟩
    · rw [if_neg hran]
      exact hspec _ _ _ _ hopen rfl h.modeless.static (fun _ hr => absurd hr hran)
        fun ha => absurd ha hzero
  · rw [if_neg hscale, Bool.eq_false_iff.mpr hscale]
    by_cases hran : (c.run (.scaled (c.analysis.matchingScaleOf c.values) (-1))).ran = true
    · rw [if_pos hran]
      refine hspec _ _ _ _ (.inr rfl) rfl h.modeless.static (fun hb => (nomatch hb)) fun _ hm => ?_
      exact absurd (List.isEmpty_iff.mpr hm.scale) hscale
    · rw [if_neg hran]
      exact hspec _ _ _ _ hopen rfl h.modeless.static (fun hb => (nomatch hb))
        fun ha => absurd ha hzero

theorem tryStatic_spec (h : Open c fkeep p) (hfirst : ∀ b, .staticTry b ∉ p.events)
    (hmay : c.MayTryStatic fkeep) : CallSpec c fkeep (c.tryStatic p) := by
  have hopen : ∀ (b : Bool) (keep : FactorKeep) (info : DelayInfo),
      keep.delayAnalysis = 0 → keep.Modeless →
      keep.staticRejectedAnalysis =
        (if b then c.analysis.serial else fkeep.staticRejectedAnalysis) →
      Open c fkeep { keep := keep, info := info, events := p.events ++ [.staticTry b] } := by
    intro b keep info hana hmodeless hrej
    refine ⟨hana, hmodeless, ?_, fun _ _ => hmay, fun b' hb => ?_, h.armed, fun hu => ?_⟩
    · rw [hrej]
      have hiff : DelayEvent.staticTry true ∈ p.events ++ [.staticTry b] ↔ b = true := by
        rw [List.mem_append, List.mem_singleton, or_iff_right (hfirst true)]
        exact ⟨fun he => (DelayEvent.staticTry.inj he).symm, fun hb => by rw [hb]⟩
      simp only [hiff]
    · rcases List.mem_append.mp hb with hb | hb
      · exact h.noMatching b' hb
      · exact (nomatch List.mem_singleton.mp hb)
    · rcases List.mem_append.mp hu with hu | hu
      · exact h.notUnarmed hu
      · exact (nomatch List.mem_singleton.mp hu)
  have hsame : p.keep.staticRejectedAnalysis = fkeep.staticRejectedAnalysis :=
    h.rejected.trans (if_neg (hfirst true))
  have hkept := hopen false p.keep p.info h.analysis h.modeless hsame
  unfold Call.tryStatic
  dsimp only
  -- a static factor that stands, one that is rejected and factored again, or a stop
  by_cases hran : (c.run .staticPath).ran = true
  · rw [if_neg (by rw [hran]; exact Bool.false_ne_true)]
    by_cases hstands : Call.staticStands (c.run .staticPath) = true
    · rw [if_pos hstands]
      refine hkept.callSpec _ _ (.inr rfl) (fun _ hm => ?_) rfl fun _ =>
        ⟨fun hmem => ?_, hmay, h.modeless.next, h.modeless.scale⟩
      · cases hm.static
      · rcases List.mem_append.mp hmem with hmem | hmem
        · exact hfirst true hmem
        · cases List.mem_singleton.mp hmem
    · rw [if_neg hstands]
      exact rescale_spec (hopen true _ _ h.analysis ⟨h.modeless.next, h.modeless.static,
        h.modeless.scale⟩ rfl)
  · rw [if_pos (by rw [Bool.eq_false_iff.mpr hran]; rfl)]
    exact hkept.end _

theorem tryKept_spec (h : Open c fkeep p) {kept : List ℚ} (hkept : kept ≠ [])
    (keptOmega : WithTop ℚ) : CallSpec c fkeep (c.tryKept kept keptOmega p) := by
  have htry := h.event (.inl rfl)
  unfold Call.tryKept
  dsimp only
  split_ifs
  · exact rescale_spec h
  · exact rescale_spec (htry.info _)
  · exact htry.end _
  · refine htry.callSpec _ _ (.inr rfl) (fun _ hm => hkept hm.scale) rfl fun hs => ?_
    cases h.modeless.static.symm.trans hs
  · exact rescale_spec (htry.info _)

theorem letThrough_spec (h : Open c fkeep p) (hfirst : ∀ b, .staticTry b ∉ p.events) (o : Outcome) :
    CallSpec c fkeep (Call.finish { p with keep := c.letThrough o p.keep } o) := by
  have hsame : p.keep.staticRejectedAnalysis = fkeep.staticRejectedAnalysis :=
    h.rejected.trans (if_neg (hfirst true))
  unfold Call.letThrough
  split_ifs with hcostly hstatic
  · refine h.callSpec _ _ (.inr rfl) (fun _ hm => ?_) rfl fun _ =>
      ⟨hfirst true, .inr ?_, h.modeless.next, h.modeless.scale⟩
    · cases hm.static
    · rw [← hsame]
      exact hstatic.2
  · refine h.callSpec _ _ (.inr rfl) (fun _ hm => ?_) rfl fun hs => ?_
    · cases hm.next
    · cases h.modeless.static.symm.trans hs
  · exact h.end o

theorem tryFirst_spec (h : Open c fkeep p) (hfirst : ∀ b, .staticTry b ∉ p.events) (next : Bool) :
    CallSpec c fkeep (c.tryFirst next p) := by
  have htry := h.event (.inr rfl)
  have hfirst' : ∀ b, .staticTry b ∉ p.events ++ [DelayEvent.firstTry] := by
    intro b hb
    rcases List.mem_append.mp hb with hb | hb
    · exact hfirst b hb
    · cases List.mem_singleton.mp hb
  have hsame : p.keep.staticRejectedAnalysis = fkeep.staticRejectedAnalysis :=
    h.rejected.trans (if_neg (hfirst true))
  unfold Call.tryFirst
  dsimp only
  split_ifs with hcarry hdone hearly hstatic hstatic
  · exact rescale_spec h
  · exact letThrough_spec htry hfirst' _
  · exact tryStatic_spec (htry.info _) hfirst' (.inr (hsame ▸ hstatic.2))
  · exact rescale_spec (htry.info _)
  · exact tryStatic_spec (htry.info _) hfirst' (.inr (hsame ▸ hstatic.2))
  · exact rescale_spec (htry.info _)

theorem runUnarmed_spec (h : c.goesUnarmed fkeep = true) :
    CallSpec c fkeep (c.runUnarmed fkeep { keep := fkeep.cleared }) := by
  have hevents : ∀ e : DelayEvent, e ∈ ([] ++ [DelayEvent.unarmed]) ↔ e = .unarmed := fun e =>
    List.mem_singleton
  have hspec : ∀ (keep : FactorKeep) (o : Outcome),
      ((keep.delayAnalysis = 0 ∧ keep.Modeless) ∨ keep.delayAnalysis = c.analysis.serial) →
      keep.staticRejectedAnalysis = fkeep.staticRejectedAnalysis → keep.delayStatic = false →
      keep.delaySignature = fkeep.delaySignature →
      CallSpec c fkeep { keep := keep, info := {}, events := [] ++ [.unarmed], outcome := o } := by
    intro keep o hana hrej hstatic hsig
    refine ⟨hana, ?_, fun b hb => ?_, fun hs => ?_, ?_, fun hm => ?_, fun _ _ => .inr ⟨?_, hsig⟩⟩
    · simp only [hevents, reduceCtorEq, if_false]
      exact hrej
    · cases (hevents _).mp hb
    · cases hstatic.symm.trans hs
    · exact iff_of_true ((hevents _).mpr rfl) h
    · cases (hevents _).mp hm
    · exact (hevents _).mpr rfl
  unfold Call.runUnarmed
  dsimp only
  split_ifs
  · exact hspec _ _ (.inr rfl) rfl rfl rfl
  · exact hspec _ _ (.inl ⟨rfl, fkeep.cleared_modeless⟩) rfl rfl rfl

/-- What a call may do to the state. -/
theorem callSpec (c : Call) (fkeep : FactorKeep) :
    CallSpec c fkeep (c.factorScaleOnDelay fkeep) := by
  unfold Call.factorScaleOnDelay
  dsimp only
  by_cases hun : c.goesUnarmed fkeep = true
  · rw [if_pos hun]
    exact runUnarmed_spec hun
  · rw [if_neg hun]
    have hopen := open_start (Bool.eq_false_iff.mpr hun)
    have hfirst : ∀ b, DelayEvent.staticTry b ∉ [] := fun b hb => (nomatch hb)
    split_ifs with hstatic htry hreuse
    · exact tryStatic_spec hopen hfirst (.inl hstatic)
    · exact tryFirst_spec hopen hfirst _
    · refine tryKept_spec hopen (fun hscale => htry ?_) _
      -- with no kept scale it is a first try, there being no matching
      rw [Bool.not_eq_true] at hstatic
      unfold FactorKeep.firstTry FactorKeep.noMatching
      rw [hstatic, hscale]
      cases fkeep.ours c <;> cases fkeep.next c <;> rfl
    · exact rescale_spec hopen

end Branches

end Factor
end SmfSolver
