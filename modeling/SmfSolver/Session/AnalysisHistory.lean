/-
  SmfSolver.Session.AnalysisHistory

  Re-analysis over the whole life of a session: which analyses the factor may point at,
  when a probation is judged, and when a re-analysis may be tried again.

  The invariant (`Inv`) is on the few fields that these depend on (`Core`), and says for
  each kind of event what held before it and what has happened since.

  A probation is judged when a factorization of the adopted analysis left factor values.
  The banded path leaves none of its own, so a complete one of it may pass unjudged when
  there were none before; the runs without such a step are those of `Sighted`.
-/
import SmfSolver.Session.IpmSession
import SmfSolver.Lib.Trace

namespace SmfSolver
namespace Session

open Lib
open Factor (FactorStatus)

/-! ## What is claimed of a history -/

/-- An event while a probation is open: with `sighted`, no factorization ran to the end. -/
def Event.Quiet (sighted : Prop) : Event → Prop
  | .factorization => True
  | .ran complete => sighted → complete = false
  | _ => False

/-- The history since the last adoption is quiet: its probation is open. -/
def OpenTrial (sighted : Prop) (H : List Event) : Prop :=
  ∃ p q, H = p ++ .adopted :: q ∧ ∀ e ∈ q, e.Quiet sighted

/-- A probation is judged once: right after a factorization that ran to the end, with
    nothing but factorizations since the adoption; with `sighted`, none of them ran to the
    end before. -/
def JudgedOnce (sighted : Prop) (H : List Event) : Prop :=
  ∀ w, AtEach H (.judged w) fun pre => ∃ pre', pre = pre' ++ [.ran true] ∧ OpenTrial sighted pre'

/-- No `analysed` among the events. -/
def SameHistory (H : List Event) : Prop := ∀ g, Event.analysed g ∉ H

/-- Once a probation was judged worse, no re-analysis is tried before the next `analyse`. -/
def StopsAfterWorse (H : List Event) : Prop :=
  AtEach H .attempt fun pre => SinceEach pre (.judged true) fun post => ¬SameHistory post

def factorizations (H : List Event) : ℕ := H.count .factorization

/-- Between two `analyse` calls, two tries have at least `reanalyse_min_gap` factorizations
    between them. -/
def AttemptsApart (H : List Event) : Prop :=
  AtEach H .attempt fun pre => ∀ g, SinceEach pre (.analysed g) fun since =>
    SameHistory since → SinceEach since .attempt fun post => g ≤ factorizations post

/-! ## The invariant -/

/-- The analysis keeps alive what the pointer points at. -/
def AnalysisKeep.Keeps (ak : AnalysisKeep) (r : Ref) : Prop :=
  r = .keep ak.id ∨ ak.slackOwns (some r) = true

/-- The fields that the analyses' history depends on. -/
structure Core where
  analysis : Option Ref
  hasValues : Bool
  ak : Option AnalysisKeep
  prevAk : Option AnalysisKeep
  nextId : ℕ
  probation : Bool
  revertPending : Bool
  reanalyseStopped : Bool
  reanalyseArmed : Bool
  factorizations : ℕ
  lastAttempt : ℤ
  minGap : ℤ
  history : List Event

variable {ρ Φ : Type}

def IpmSession.core (s : IpmSession ρ Φ) : Core where
  analysis := s.fk.analysis
  hasValues := s.fk.hasValues
  ak := s.ak
  prevAk := s.prevAk
  nextId := s.nextId
  probation := s.probation
  revertPending := s.revertPending
  reanalyseStopped := s.reanalyseStopped
  reanalyseArmed := s.reanalyseArmed
  factorizations := s.stats.factorizations
  lastAttempt := s.lastAttempt
  minGap := s.ipm.reanalyseMinGap
  history := s.history

/-- The analyses the session holds. -/
def Core.Holds (c : Core) (ak : AnalysisKeep) : Prop := c.ak = some ak ∨ c.prevAk = some ak

/-- The factor's analysis pointer is null or points at a live analysis. -/
def Core.Live (c : Core) : Prop := ∀ r, c.analysis = some r → ∃ ak, c.Holds ak ∧ ak.Keeps r

structure Inv (sighted : Prop) (c : Core) : Prop where
  live : c.Live
  ids : ∀ ak, c.Holds ak → ak.id < c.nextId
  distinct : ∀ ak prev, c.ak = some ak → c.prevAk = some prev → ak.id ≠ prev.id
  prev : c.prevAk.isSome = true ↔ c.probation = true ∨ c.revertPending = true
  exclusive : c.probation = true → c.revertPending = false
  stopped : c.revertPending = true → c.reanalyseStopped = true
  armed : c.reanalyseArmed = true → c.probation = false ∧ c.revertPending = false ∧
    c.reanalyseStopped = false ∧ c.hasValues = true ∧
    (0 ≤ c.lastAttempt → c.minGap ≤ (c.factorizations : ℤ) + 1 - c.lastAttempt)
  gap : ∀ g, SinceEach c.history (.analysed g) fun post => SameHistory post → g = c.minGap
  attempt : SinceEach c.history .attempt fun post => SameHistory post →
    0 ≤ c.lastAttempt ∧ (c.factorizations : ℤ) + 1 - c.lastAttempt ≤ factorizations post
  worse : SinceEach c.history (.judged true) fun post => SameHistory post →
    c.reanalyseStopped = true
  trial : c.probation = true → OpenTrial sighted c.history
  judgedOnce : JudgedOnce sighted c.history
  stops : StopsAfterWorse c.history
  apart : AttemptsApart c.history

section Events

variable {sighted : Prop} {H : List Event} {e : Event}

theorem SameHistory.of_snoc (h : SameHistory (H ++ [e])) : SameHistory H :=
  fun g hg => h g (List.mem_append_left _ hg)

theorem not_sameHistory (g : ℤ) : ¬SameHistory (H ++ [.analysed g]) :=
  fun h => h g (List.mem_append_right _ (List.mem_singleton_self _))

theorem OpenTrial.snoc (h : OpenTrial sighted H) (he : e.Quiet sighted) :
    OpenTrial sighted (H ++ [e]) := by
  obtain ⟨p, q, rfl, hq⟩ := h
  refine ⟨p, q ++ [e], by rw [List.append_assoc, List.cons_append], fun e' he' => ?_⟩
  rcases List.mem_append.mp he' with h' | h'
  · exact hq e' h'
  · exact List.mem_singleton.mp h' ▸ he

theorem OpenTrial.of_snoc (h : OpenTrial sighted (H ++ [e])) :
    e = .adopted ∨ e.Quiet sighted ∧ OpenTrial sighted H := by
  obtain ⟨p, q, hH, hq⟩ := h
  rcases append_singleton_eq_append_cons.mp hH with ⟨q', rfl, hH'⟩ | ⟨-, -, he⟩
  · exact .inr ⟨hq e (List.mem_append_right _ (List.mem_singleton_self e)),
      p, q', hH', fun e' he' => hq e' (List.mem_append_left _ he')⟩
  · exact .inl he.symm

theorem JudgedOnce.snoc (h : JudgedOnce sighted H) (he : ∀ w, Event.judged w ≠ e) :
    JudgedOnce sighted (H ++ [e]) := fun w => (h w).snoc (he w)

theorem factorizations_snoc :
    factorizations (H ++ [e]) = factorizations H + if e = .factorization then 1 else 0 := by
  rw [factorizations, List.count_append, List.count_singleton, factorizations]
  congr 1
  exact if_congr beq_iff_eq rfl rfl

theorem factorizations_le_snoc : factorizations H ≤ factorizations (H ++ [e]) := by
  rw [factorizations_snoc]
  exact Nat.le_add_right _ _

/-- What an event that is none of the history's own leaves of the invariant's parts about
    what has happened since. -/
theorem since_snoc {x : Event} {P : Prop}
    (h : SinceEach H x fun post => SameHistory post → P) (hx : x ≠ e) :
    SinceEach (H ++ [e]) x fun post => SameHistory post → P :=
  sinceEach_snoc.mpr ⟨h.mono fun _ hP hs => hP hs.of_snoc, fun hc => absurd hc hx⟩

end Events

/-! ## What each step keeps -/

section Steps

variable {sighted : Prop} {c : Core} {e : Event} {ak : AnalysisKeep}

/-- A factorization is counted, or runs without a judgement: nothing changes but the
    pointer, the values and the count. -/
theorem Inv.event (h : Inv sighted c) (he : e.Quiet False)
    (hquiet : c.probation = true → e.Quiet sighted) {analysis : Option Ref} {hasValues : Bool}
    {n : ℕ} (hn : n = c.factorizations + if e = .factorization then 1 else 0)
    (hlive : ∀ r, analysis = some r → ∃ ak, c.Holds ak ∧ ak.Keeps r)
    (hvalues : c.reanalyseArmed = true → hasValues = true) :
    Inv sighted { c with analysis := analysis, hasValues := hasValues, factorizations := n
                         history := c.history ++ [e] } := by
  have hne : ∀ {x : Event}, ¬x.Quiet False → x ≠ e := fun hx hxe => hx (hxe ▸ he)
  refine ⟨hlive, h.ids, h.distinct, h.prev, h.exclusive, h.stopped, fun ha => ?_,
    fun g => since_snoc (h.gap g) (hne id), ?_, since_snoc h.worse (hne id),
    fun hp => (h.trial hp).snoc (hquiet hp), h.judgedOnce.snoc fun w => hne id,
    h.stops.snoc (hne id), h.apart.snoc (hne id)⟩
  · obtain ⟨hp, hr, hs, -, hgap⟩ := h.armed ha
    refine ⟨hp, hr, hs, hvalues ha, fun hl => (hgap hl).trans ?_⟩
    show (c.factorizations : ℤ) + 1 - c.lastAttempt ≤ (n : ℤ) + 1 - c.lastAttempt
    omega
  · refine sinceEach_snoc.mpr ⟨h.attempt.mono fun post hQ hs => ?_, fun hc => absurd hc (hne id)⟩
    obtain ⟨hpos, hle⟩ := hQ hs.of_snoc
    refine ⟨hpos, ?_⟩
    show (n : ℤ) + 1 - c.lastAttempt ≤ (factorizations (post ++ [e]) : ℕ)
    rw [factorizations_snoc]
    omega

/-- The adopted analysis ran to the end and is judged. -/
theorem Inv.judge (h : Inv sighted c) (hp : c.probation = true) (hak : c.ak = some ak)
    (worse : Bool) {r : Ref} (hr : ak.Keeps r) (hasValues : Bool) {analysis : Option Ref}
    (hanalysis : analysis = some r) {complete : Bool} (hrun : complete = true) :
    Inv sighted { c with
      analysis := analysis
      hasValues := hasValues
      probation := false
      prevAk := if worse then c.prevAk else none
      revertPending := if worse then true else c.revertPending
      reanalyseStopped := if worse then true else c.reanalyseStopped
      history := c.history ++ [.ran complete] ++ [.judged worse] } := by
  subst hanalysis hrun
  have hprev : c.prevAk.isSome = true := h.prev.mpr (.inl hp)
  have hrevert : c.revertPending = false := h.exclusive hp
  -- the analysis before is kept only where it is to come back
  have hkept : ∀ a, (if worse then c.prevAk else none) = some a → c.prevAk = some a := by
    intro a ha
    split at ha
    · exact ha
    · cases ha
  refine
    { live := fun r' hr' => ⟨ak, .inl hak, Option.some.inj hr' ▸ hr⟩
      ids := fun a ha => h.ids a (ha.imp id (hkept a))
      distinct := fun a b ha hb => h.distinct a b ha (hkept b hb)
      prev := ?_
      exclusive := fun hc => by cases hc
      stopped := fun hw => ?_
      armed := fun ha => absurd ((h.armed ha).1.symm.trans hp) Bool.false_ne_true
      gap := fun g => since_snoc (since_snoc (h.gap g) nofun) nofun
      attempt := ?_
      worse := ?_
      trial := fun hc => by cases hc
      judgedOnce := fun w => atEach_snoc.mpr ⟨(h.judgedOnce w).snoc nofun, fun _ =>
        ⟨c.history, rfl, h.trial hp⟩⟩
      stops := AtEach.snoc (AtEach.snoc h.stops nofun) nofun
      apart := AtEach.snoc (AtEach.snoc h.apart nofun) nofun }
  · cases worse with
    | true => exact ⟨fun _ => .inr rfl, fun _ => hprev⟩
    | false =>
      refine ⟨nofun, fun hc => ?_⟩
      rcases hc with hc | hc
      · cases hc
      · exact absurd (hrevert.symm.trans hc) Bool.false_ne_true
  · cases worse with
    | true => rfl
    | false => exact absurd (hrevert.symm.trans hw) Bool.false_ne_true
  · refine sinceEach_snoc.mpr ⟨sinceEach_snoc.mpr ⟨h.attempt.mono fun post hQ hs => ?_,
      nofun⟩, nofun⟩
    obtain ⟨hpos, hle⟩ := hQ hs.of_snoc.of_snoc
    refine ⟨hpos, hle.trans (Int.ofNat_le.mpr ?_)⟩
    exact factorizations_le_snoc.trans factorizations_le_snoc
  · have hold : SinceEach (c.history ++ [.ran true]) (.judged true) fun post =>
        SameHistory post → c.reanalyseStopped = true := since_snoc h.worse nofun
    refine sinceEach_snoc.mpr ⟨hold.mono fun post hQ hs => ?_, fun hc _ => ?_⟩
    · show (if worse then true else c.reanalyseStopped) = true
      rw [hQ hs.of_snoc, ite_self]
    · exact if_pos (Event.judged.inj hc).symm

/-- A re-analysis that was armed is tried. -/
theorem Inv.attempted (h : Inv sighted c) (ha : c.reanalyseArmed = true) :
    Inv sighted { c with reanalyseArmed := false, lastAttempt := c.factorizations + 1
                         history := c.history ++ [.attempt] } := by
  obtain ⟨hp, hr, hs, -, hgap⟩ := h.armed ha
  refine
    { live := h.live
      ids := h.ids
      distinct := h.distinct
      prev := h.prev
      exclusive := h.exclusive
      stopped := h.stopped
      armed := fun hc => by cases hc
      gap := fun g => since_snoc (h.gap g) nofun
      attempt := ?_
      worse := since_snoc h.worse nofun
      trial := fun hc => absurd (hp.symm.trans hc) Bool.false_ne_true
      judgedOnce := h.judgedOnce.snoc nofun
      stops := atEach_snoc.mpr ⟨h.stops, fun _ => ?_⟩
      apart := atEach_snoc.mpr ⟨h.apart, fun _ g pre since hH hsame m post hm => ?_⟩ }
  -- right after the try no factorization lies between
  · have hnew : ∀ post, (0 : ℤ) ≤ (c.factorizations : ℤ) + 1 ∧
        (c.factorizations : ℤ) + 1 - ((c.factorizations : ℤ) + 1) ≤ factorizations post := by
      intro post
      omega
    exact sinceEach_snoc.mpr ⟨fun _ post _ _ => hnew _, fun _ _ => hnew []⟩
  · exact h.worse.mono fun post hQ hsame => Bool.false_ne_true (hs.symm.trans (hQ hsame))
  · -- the try before: what happened since is what the gap was compared with
    have hsame' : SameHistory post := fun g' hg' =>
      hsame g' (hm ▸ List.mem_append_right _ (List.mem_cons_of_mem _ hg'))
    have hH' : c.history = (pre ++ .analysed g :: m) ++ .attempt :: post := by
      rw [hH, hm, List.append_assoc, List.cons_append]
    obtain ⟨hpos, hle⟩ := h.attempt _ post hH' hsame'
    rw [h.gap g pre since hH hsame]
    exact (hgap hpos).trans hle

/-- A new analysis is adopted; the one before is kept. -/
theorem Inv.adopt (h : Inv sighted c) (hp : c.probation = false) (hr : c.revertPending = false)
    (ha : c.reanalyseArmed = false) (hak : c.ak = some ak) (a : Analysed) :
    Inv sighted { c with
      ak := some { a with id := c.nextId }
      prevAk := c.ak
      nextId := c.nextId + 1
      probation := true
      history := c.history ++ [.adopted] } := by
  -- outside a probation no previous analysis is kept
  have hprev : ∀ b, c.prevAk ≠ some b := by
    intro b hb
    have hsome : c.prevAk.isSome = true := by rw [hb]; rfl
    rcases h.prev.mp hsome with hc | hc
    · exact Bool.false_ne_true (hp.symm.trans hc)
    · exact Bool.false_ne_true (hr.symm.trans hc)
  refine
    { live := fun r hc => ?_
      ids := fun b hb => ?_
      distinct := fun b b' hb hb' => ?_
      prev := ⟨fun _ => .inl rfl, fun _ => by rw [hak]; rfl⟩
      exclusive := fun _ => hr
      stopped := h.stopped
      armed := fun hc => absurd (ha.symm.trans hc) Bool.false_ne_true
      gap := fun g => since_snoc (h.gap g) nofun
      attempt := ?_
      worse := since_snoc h.worse nofun
      trial := fun _ => ⟨c.history, [], rfl, fun _ he => absurd he List.not_mem_nil⟩
      judgedOnce := h.judgedOnce.snoc nofun
      stops := h.stops.snoc nofun
      apart := h.apart.snoc nofun }
  · obtain ⟨b, hb, hkeeps⟩ := h.live r hc
    exact ⟨b, .inr (hb.resolve_right (hprev b)), hkeeps⟩
  · rcases hb with hb | hb
    · exact Option.some.inj hb ▸ Nat.lt_succ_self _
    · exact (h.ids b (.inl hb)).trans (Nat.lt_succ_self _)
  · exact Option.some.inj hb ▸ (h.ids b' (.inl hb')).ne'
  · refine sinceEach_snoc.mpr ⟨h.attempt.mono fun post hQ hs => ?_, nofun⟩
    obtain ⟨hpos, hle⟩ := hQ hs.of_snoc
    exact ⟨hpos, hle.trans (Int.ofNat_le.mpr factorizations_le_snoc)⟩

/-- The session goes back to the analysis before. -/
theorem Inv.revert (h : Inv sighted c) (hr : c.revertPending = true) :
    Inv sighted { c with
      analysis := none
      ak := c.prevAk
      prevAk := none
      revertPending := false
      history := c.history ++ [.reverted] } := by
  -- a revert waits only after the probation has ended
  have hp : c.probation = false := by
    by_contra hc
    exact Bool.false_ne_true ((h.exclusive (Bool.not_eq_false _ ▸ hc)).symm.trans hr)
  refine
    { live := nofun
      ids := fun a ha => h.ids a (.inr (ha.resolve_right nofun))
      distinct := nofun
      prev := ⟨nofun, fun hc => ?_⟩
      exclusive := fun _ => rfl
      stopped := nofun
      armed := fun ha => absurd ((h.armed ha).2.1.symm.trans hr) Bool.false_ne_true
      gap := fun g => since_snoc (h.gap g) nofun
      attempt := ?_
      worse := since_snoc h.worse nofun
      trial := fun hc => absurd (hp.symm.trans hc) Bool.false_ne_true
      judgedOnce := h.judgedOnce.snoc nofun
      stops := h.stops.snoc nofun
      apart := h.apart.snoc nofun }
  · rcases hc with hc | hc
    · exact absurd (hp.symm.trans hc) Bool.false_ne_true
    · cases hc
  · refine sinceEach_snoc.mpr ⟨h.attempt.mono fun post hQ hs => ?_, nofun⟩
    obtain ⟨hpos, hle⟩ := hQ hs.of_snoc
    exact ⟨hpos, hle.trans (Int.ofNat_le.mpr factorizations_le_snoc)⟩

/-- `analyse` starts a new history. -/
theorem Inv.analysed (h : Inv sighted c) (g : ℤ) :
    Inv sighted
      { analysis := none, hasValues := false, ak := none, prevAk := none, nextId := c.nextId
        probation := false, revertPending := false, reanalyseStopped := false
        reanalyseArmed := false, factorizations := 0, lastAttempt := -1, minGap := g
        history := c.history ++ [.analysed g] } := by
  have hold : ∀ {x : Event} {P : Prop}, x ≠ .analysed g →
      SinceEach (c.history ++ [.analysed g]) x fun post => SameHistory post → P := fun hx =>
    sinceEach_snoc.mpr ⟨fun _ _ _ hs => absurd hs (not_sameHistory g), fun hc => absurd hc hx⟩
  exact
    { live := nofun
      ids := nofun
      distinct := nofun
      prev := ⟨nofun, fun hc => by rcases hc with hc | hc <;> cases hc⟩
      exclusive := fun _ => rfl
      stopped := nofun
      armed := nofun
      gap := fun g' => sinceEach_snoc.mpr ⟨fun _ _ _ hs => absurd hs (not_sameHistory g),
        fun hc _ => Event.analysed.inj hc⟩
      attempt := sinceEach_snoc.mpr ⟨fun _ _ _ hs => absurd hs (not_sameHistory g), nofun⟩
      worse := hold nofun
      trial := nofun
      judgedOnce := h.judgedOnce.snoc nofun
      stops := h.stops.snoc nofun
      apart := h.apart.snoc nofun }

/-- The deferred analysis. -/
theorem Inv.setAnalysis (h : Inv sighted c) (hak : c.ak = none) (a : Analysed) :
    Inv sighted { c with ak := some { a with id := c.nextId }, nextId := c.nextId + 1 } := by
  have hprev : ∀ {b}, c.Holds b → c.prevAk = some b := fun hb =>
    hb.resolve_left fun hc => by rw [hak] at hc; cases hc
  refine { h with live := fun r hr => ?_, ids := fun b hb => ?_, distinct := fun b b' hb hb' => ?_ }
  · obtain ⟨b, hb, hkeeps⟩ := h.live r hr
    exact ⟨b, .inr (hprev hb), hkeeps⟩
  · rcases hb with hb | hb
    · exact Option.some.inj hb ▸ Nat.lt_succ_self _
    · exact (h.ids b (.inr hb)).trans (Nat.lt_succ_self _)
  · exact Option.some.inj hb ▸ (h.ids b' (.inr hb')).ne'

/-- A re-analysis is armed. -/
theorem Inv.arm (h : Inv sighted c) (hp : c.probation = false) (hr : c.revertPending = false)
    (hs : c.reanalyseStopped = false) (hv : c.hasValues = true)
    (hgap : ¬(0 ≤ c.lastAttempt ∧ (c.factorizations : ℤ) + 1 - c.lastAttempt < c.minGap)) :
    Inv sighted { c with reanalyseArmed := true } :=
  { h with armed := fun _ => ⟨hp, hr, hs, hv, fun hl => not_lt.mp fun hlt => hgap ⟨hl, hlt⟩⟩ }

end Steps

/-! ## The engine's answers -/

section Engine

variable {ak : AnalysisKeep} {fk : FactorKeep Φ} {type : MatrixType} {ctrl : Control ρ}
  {o : Outcome Φ}

theorem keeps_fullRef (fullMade : Bool) : ak.Keeps (ak.fullRef fullMade) := by
  unfold AnalysisKeep.fullRef
  split
  next h =>
    refine .inr ?_
    rw [AnalysisKeep.slackOwns, h.1, decide_eq_true rfl]
    rfl
  next => exact .inl rfl

theorem keeps_reduced (h : ak.slack = true) : ak.Keeps (.reduced ak.id) := by
  refine .inr ?_
  rw [AnalysisKeep.slackOwns, h, decide_eq_true rfl]
  rfl

variable (fk type) in
/-- After a factorization the pointer is as it was, or points at an analysis of `ak`. -/
theorem after_analysis (ho : o.Fits ak ctrl) :
    (fk.after ak type o).analysis = fk.analysis ∨
      ∃ r, (fk.after ak type o).analysis = some r ∧ ak.Keeps r := by
  unfold Outcome.Fits at ho
  unfold FactorKeep.after
  cases he : o.ending with
  | early => exact .inl rfl
  | earlyReduced =>
    rw [he] at ho
    exact .inr ⟨_, rfl, keeps_reduced ho.1⟩
  | stopped => exact .inr ⟨_, rfl, keeps_fullRef _⟩
  | complete => exact .inr ⟨_, rfl, keeps_fullRef _⟩
  | banded => exact .inr ⟨_, rfl, keeps_fullRef _⟩
  | slack =>
    rw [he] at ho
    exact .inr ⟨_, rfl, keeps_reduced ho.2.1⟩

theorem ran_iff : IpmSession.ran ak fk = true ↔
    (∃ r, fk.analysis = some r ∧ ak.Keeps r) ∧ fk.hasValues = true := by
  rw [IpmSession.ran, Bool.and_eq_true, Bool.or_eq_true, decide_eq_true_iff]
  refine and_congr_left fun _ => ⟨fun h => ?_, fun ⟨r, hr, hk⟩ => ?_⟩
  · rcases h with h | h
    · exact ⟨_, h, .inl rfl⟩
    · cases hr : fk.analysis with
      | none =>
        rw [hr] at h
        cases h
      | some r => exact ⟨r, rfl, .inr (hr ▸ h)⟩
  · rcases hk with rfl | hk
    · exact .inl hr
    · exact .inr (hr ▸ hk)

/-- Only a factorization that ran to the end leaves a factor to judge. -/
theorem runsToEnd_of_ran (h : IpmSession.ran ak (fk.after ak type o) = true) :
    o.ending.runsToEnd = true := by
  have hv := (ran_iff.mp h).2
  unfold FactorKeep.after at hv
  cases he : o.ending <;> rw [he] at hv
  case early => cases hv
  case earlyReduced => cases hv
  case stopped => cases hv
  all_goals rfl

variable (fk type) in
/-- A factorization that ran to the end leaves one, unless it is banded and there were no
    values before. -/
theorem ran_of_runsToEnd (ho : o.Fits ak ctrl) (h : o.ending.runsToEnd = true)
    (hband : o.ending = .banded → fk.hasValues = true) :
    IpmSession.ran ak (fk.after ak type o) = true := by
  unfold Outcome.Fits at ho
  refine ran_iff.mpr ?_
  unfold FactorKeep.after
  cases he : o.ending with
  | early => rw [he] at h; cases h
  | earlyReduced => rw [he] at h; cases h
  | stopped => rw [he] at h; cases h
  | complete => exact ⟨⟨_, rfl, keeps_fullRef _⟩, rfl⟩
  | banded => exact ⟨⟨_, rfl, keeps_fullRef _⟩, hband he⟩
  | slack =>
    rw [he] at ho
    exact ⟨⟨_, rfl, keeps_reduced ho.2.1⟩, rfl⟩

/-- What the session makes of a factorization that ran to the end. -/
theorem resultOf_of_runsToEnd (ho : o.Fits ak ctrl) (h : o.ending.runsToEnd = true) :
    IpmSession.resultOf o = .ok ∨ IpmSession.resultOf o = .singular := by
  unfold Outcome.Fits at ho
  unfold IpmSession.resultOf
  cases he : o.ending <;> rw [he] at ho h
  case early => cases h
  case earlyReduced => cases h
  case stopped => cases h
  case complete =>
    rcases ho with hs | ⟨hs, -, hi⟩
    · exact .inl (by rw [hs])
    · exact .inr (by rw [hs]; exact if_pos hi)
  case banded => exact .inl (by rw [ho.1])
  case slack => exact .inl (by rw [ho.1])

theorem status_of_ok (h : IpmSession.resultOf o = .ok) :
    o.status = .success ∨ o.status = .maxPivotDelays := by
  unfold IpmSession.resultOf at h
  split at h
  next hs => exact .inl hs
  next hs => exact .inr hs
  next => split at h <;> cases h
  next => cases h
  next => cases h

/-- A usable factor of an indefinite matrix has values. -/
theorem hasValues_of_ok (ho : o.Fits ak ctrl) (htype : ctrl.matrixType = .indefinite)
    (h : IpmSession.resultOf o = .ok) : (fk.after ak type o).hasValues = true := by
  have hstatus : o.status ≠ .singular ∧ o.status ≠ .notPositiveDefinite ∧
      o.status ≠ .inertiaExceeded := by
    rcases status_of_ok h with hs | hs <;> rw [hs] <;> exact ⟨nofun, nofun, nofun⟩
  unfold Outcome.Fits at ho
  unfold FactorKeep.after
  cases he : o.ending <;> rw [he] at ho
  case early => exact absurd ho (not_or.mpr ⟨hstatus.1, hstatus.2.1⟩)
  case earlyReduced => exact absurd ho.2 hstatus.1
  case stopped =>
    rcases ho with hs | hs | ⟨hs, -⟩
    · exact absurd hs hstatus.1
    · exact absurd hs hstatus.2.1
    · exact absurd hs hstatus.2.2
  case banded => exact absurd (ho.2.1.symm.trans htype) nofun

end Engine

/-! ## The session's calls -/

/-- What every call keeps. -/
structure Good (sighted : Prop) (s : IpmSession ρ Φ) : Prop where
  core : Inv sighted s.core
  accept : s.pendingAccept = true → s.factorCtrl.matrixType = .indefinite → s.fk.hasValues = true
  aborted : s.aborted = true → s.reanalyseArmed = false
  settled : s.pendingAccept = true → s.aborted = false

section Calls

variable {sighted : Prop} {s t : IpmSession ρ Φ} {ak : AnalysisKeep} {o : Outcome Φ}

theorem good_start (ctrl : Control ρ) : Good sighted (IpmSession.start ctrl : IpmSession ρ Φ) where
  core :=
    { live := nofun
      ids := nofun
      distinct := nofun
      prev := ⟨nofun, fun hc => by rcases hc with hc | hc <;> cases hc⟩
      exclusive := nofun
      stopped := nofun
      armed := nofun
      gap := fun _ => sinceEach_nil
      attempt := sinceEach_nil
      worse := sinceEach_nil
      trial := nofun
      judgedOnce := fun _ => atEach_nil
      stops := atEach_nil
      apart := atEach_nil }
  accept := nofun
  aborted := nofun
  settled := nofun

/-- A call that changes neither the core nor the factor's flags. -/
theorem Good.congr (h : Good sighted s) (hcore : t.core = s.core)
    (haccept : t.pendingAccept = true → s.pendingAccept = true ∧
      t.factorCtrl.matrixType = s.factorCtrl.matrixType)
    (haborted : t.aborted = true → s.aborted = true) : Good sighted t where
  core := hcore ▸ h.core
  accept := fun hp ht => by
    obtain ⟨hp', htype⟩ := haccept hp
    have hvalues : t.fk.hasValues = s.fk.hasValues := congrArg Core.hasValues hcore
    rw [hvalues]
    exact h.accept hp' (htype ▸ ht)
  aborted := fun ha => by
    have harmed : t.reanalyseArmed = s.reanalyseArmed := congrArg Core.reanalyseArmed hcore
    rw [harmed]
    exact h.aborted (haborted ha)
  settled := fun hp => Bool.eq_false_iff.mpr fun ha =>
    Bool.false_ne_true ((h.settled (haccept hp).1).symm.trans (haborted ha))

theorem copyControl_frame : s.copyControl.core = s.core ∧
    s.copyControl.pendingAccept = s.pendingAccept ∧ s.copyControl.aborted = s.aborted := by
  unfold IpmSession.copyControl
  split <;> exact ⟨rfl, rfl, rfl⟩

theorem dropScaleOnce_frame : s.dropScaleOnce.core = s.core ∧
    s.dropScaleOnce.pendingAccept = s.pendingAccept ∧ s.dropScaleOnce.aborted = s.aborted := by
  unfold IpmSession.dropScaleOnce
  split <;> exact ⟨rfl, rfl, rfl⟩

theorem setStaticMode_frame : s.setStaticMode.core = s.core ∧
    s.setStaticMode.pendingAccept = s.pendingAccept ∧ s.setStaticMode.aborted = s.aborted := by
  unfold IpmSession.setStaticMode
  dsimp only
  split <;> exact ⟨rfl, rfl, rfl⟩

theorem load_frame (values : List ℚ) : (s.load values).core = s.core ∧
    (s.load values).pendingAccept = false ∧ (s.load values).aborted = false := by
  have h₁ := copyControl_frame (s := s.invalidate.loadValues values)
  have h₂ := dropScaleOnce_frame (s := (s.invalidate.loadValues values).copyControl)
  have h₃ := setStaticMode_frame (s := (s.invalidate.loadValues values).copyControl.dropScaleOnce)
  exact ⟨h₃.1.trans (h₂.1.trans h₁.1), h₃.2.1.trans (h₂.2.1.trans h₁.2.1),
    h₃.2.2.trans (h₂.2.2.trans h₁.2.2)⟩

theorem Good.load (h : Good sighted s) (values : List ℚ) : Good sighted (s.load values) := by
  obtain ⟨hcore, hpending, haborted⟩ := load_frame (s := s) values
  exact h.congr hcore (fun hp => absurd (hpending.symm.trans hp) Bool.false_ne_true)
    fun ha => absurd (haborted.symm.trans ha) Bool.false_ne_true

theorem Good.runAnalysis (h : Good sighted s) (hak : s.ak = none) (a : Option Analysed)
    (status : ErrorCode) : Good sighted (s.runAnalysis a status).1 := by
  have hnone : Good sighted { s with ak := none, info := s.info } := by
    exact h.congr (by rw [IpmSession.core, IpmSession.core, hak]) (fun hp => ⟨hp, rfl⟩) id
  unfold IpmSession.runAnalysis
  split
  next a => exact ⟨h.core.setAnalysis hak a, h.accept, h.aborted, h.settled⟩
  next => exact hnone.congr rfl (fun hp => ⟨hp, rfl⟩) id
  next => exact hnone.congr rfl (fun hp => ⟨hp, rfl⟩) id

theorem Good.ensureAnalysis (h : Good sighted s) (a : Option Analysed) (status : ErrorCode) :
    Good sighted (s.ensureAnalysis a status) := by
  unfold IpmSession.ensureAnalysis
  split
  next => exact h
  next hak => exact h.runAnalysis (Option.not_isSome_iff_eq_none.mp hak) a status

theorem addDiagonal_frame : s.addDiagonal.core = s.core ∧
    (s.addDiagonal.pendingAccept = s.pendingAccept ∧ s.addDiagonal.factorCtrl = s.factorCtrl) ∧
    s.addDiagonal.aborted = s.aborted ∧ s.addDiagonal.ak = s.ak := by
  unfold IpmSession.addDiagonal
  dsimp only
  split <;> exact ⟨rfl, ⟨rfl, rfl⟩, rfl, rfl⟩

theorem Good.analyse (h : Good sighted s) (pattern : CscLower ℚ) (values : List ℚ)
    (ctrl : Control ρ) (ipm : IpmControl) (refines : Bool) (a : Option Analysed)
    (status : ErrorCode) :
    Good sighted (s.analyse pattern values ctrl ipm refines a status).1 := by
  have hreset : Good sighted (s.reset pattern ctrl ipm) :=
    ⟨h.core.analysed ipm.reanalyseMinGap, nofun, nofun, nofun⟩
  have hrefuse : ∀ {t : IpmSession ρ Φ}, Good sighted t → Good sighted t.refusePattern.1 :=
    fun ht => ht.congr rfl (fun hp => ⟨hp, rfl⟩) id
  obtain ⟨hcore, ⟨hpending, hctrl⟩, haborted, hak⟩ := addDiagonal_frame
    (s := { s.reset pattern ctrl ipm with inputNnz := pattern.rowIdx.length })
  have hdiag : Good sighted
      ({ s.reset pattern ctrl ipm with inputNnz := pattern.rowIdx.length }.addDiagonal) :=
    hreset.congr hcore (fun hp => ⟨hpending ▸ hp, by rw [hctrl]⟩) fun ha => haborted ▸ ha
  unfold IpmSession.analyse
  dsimp only
  split
  next => exact hrefuse hreset
  next =>
    split
    next => exact hrefuse hdiag
    next =>
      split
      next => exact hdiag
      next =>
        have hload : Good sighted ({ s.reset pattern ctrl ipm with
            inputNnz := pattern.rowIdx.length }.addDiagonal.loadValues values) :=
          hdiag.congr rfl (fun hp => ⟨hp, rfl⟩) id
        exact hload.runAnalysis hak a status

theorem Good.prepareAnalysis (h : Good sighted s) (hpending : s.pendingAccept = false)
    (haborted : s.aborted = false) (hak : s.ak.isSome = true) (a : Option Analysed) :
    Good sighted (s.prepareAnalysis a) ∧ (s.prepareAnalysis a).reanalyseArmed = false := by
  have hnot : ∀ {b : Bool} {P : Prop}, b = false → b = true → P := fun hf ht =>
    absurd (hf.symm.trans ht) Bool.false_ne_true
  unfold IpmSession.prepareAnalysis
  -- a revert comes first; else a re-analysis is tried, and adopted when its flops are few enough
  split
  next hr =>
    refine ⟨⟨h.core.revert hr, hnot hpending, hnot haborted, hnot hpending⟩, ?_⟩
    by_contra ha
    exact hnot (h.core.armed (Bool.not_eq_false _ ▸ ha)).2.1 hr
  next =>
    split
    next ha => exact ⟨h, Bool.not_eq_true _ ▸ ha⟩
    next ha =>
      have ha : s.reanalyseArmed = true := not_not.mp ha
      have htried : Good sighted s.attempted :=
        ⟨h.core.attempted ha, hnot hpending, hnot haborted, hnot hpending⟩
      split
      next => exact ⟨htried, rfl⟩
      next =>
        split
        next => exact ⟨htried, rfl⟩
        next a =>
          split
          next => exact ⟨htried, rfl⟩
          next =>
            obtain ⟨ak, hak⟩ := Option.isSome_iff_exists.mp hak
            obtain ⟨hp, hr, -⟩ := h.core.armed ha
            exact ⟨⟨htried.core.adopt hp hr rfl hak a, hnot hpending, hnot haborted, hnot hpending⟩,
              rfl⟩

theorem Good.countFactorization (h : Good sighted s) : Good sighted s.countFactorization :=
  ⟨h.core.event (e := .factorization) trivial (fun _ => trivial) rfl h.core.live fun ha =>
    (h.core.armed ha).2.2.2.1, h.accept, h.aborted, h.settled⟩

theorem judge_frame : s.judge.pendingAccept = s.pendingAccept ∧
    s.judge.factorCtrl = s.factorCtrl ∧ s.judge.fk = s.fk ∧ s.judge.aborted = s.aborted ∧
    s.judge.reanalyseArmed = s.reanalyseArmed := by
  unfold IpmSession.judge
  dsimp only
  split
  next => exact ⟨rfl, rfl, rfl, rfl, rfl⟩
  next =>
    unfold IpmSession.dropPreviousAnalysis
    split <;> exact ⟨rfl, rfl, rfl, rfl, rfl⟩

/-- The judgement of a factor of the current analysis: what becomes of the core. -/
theorem judge_core {prev : AnalysisKeep} (hprev : s.prevAk = some prev) (hne : ak.id ≠ prev.id)
    (hran : IpmSession.ran ak s.fk = true) {worse : Bool}
    (hworse : decide (s.probationDelays < s.info.delayedPivots) = worse) :
    s.judge.core = { s.core with
      probation := false
      prevAk := if worse then s.prevAk else none
      revertPending := if worse then true else s.revertPending
      reanalyseStopped := if worse then true else s.reanalyseStopped
      history := s.history ++ [.judged worse] } := by
  obtain ⟨⟨r, hr, hkeeps⟩, -⟩ := ran_iff.mp hran
  have hother : ¬(s.fk.analysis ≠ none ∧ s.fk.analysis = s.prevAk.map fun a => .keep a.id) := by
    rintro ⟨-, hc⟩
    rw [hprev, hr] at hc
    obtain rfl : r = .keep prev.id := Option.some.inj hc
    rcases hkeeps with hk | hk
    · exact hne (Ref.keep.inj hk).symm
    · cases hk
  unfold IpmSession.judge
  dsimp only
  rw [hworse]
  cases worse with
  | true => rfl
  | false => exact congrArg IpmSession.core (if_neg hother)

theorem Good.runFactor {ctrl : Control ρ} (h : Good sighted s) (hak : s.ak = some ak)
    (ho : o.Fits ak ctrl) (htype : ctrl.matrixType = s.factorCtrl.matrixType)
    (harmed : s.reanalyseArmed = false)
    (hsighted : sighted → s.probation = true → s.fk.hasValues = false → o.ending ≠ .banded) :
    Good sighted (s.runFactor ak o) := by
  have hnot : ∀ {P : Prop}, s.reanalyseArmed = true → P := fun ht =>
    absurd (harmed.symm.trans ht) Bool.false_ne_true
  -- a factor is up for acceptance only if it stands, singular or not
  have haccept : (s.factored ak o).pendingAccept = true →
      (s.factored ak o).factorCtrl.matrixType = .indefinite →
      (s.factored ak o).fk.hasValues = true := by
    intro hp hindef
    rcases Bool.or_eq_true_iff.mp hp with hok | hsing
    · exact hasValues_of_ok ho (htype.trans hindef) (of_decide_eq_true hok)
    · exact (ran_iff.mp (Bool.and_eq_true_iff.mp hsing).2).2
  have hsettled : (s.factored ak o).pendingAccept = true → (s.factored ak o).aborted = false := by
    intro hp
    refine decide_eq_false fun hw => ?_
    rcases Bool.or_eq_true_iff.mp hp with hok | hsing
    · exact absurd (hw.symm.trans (of_decide_eq_true hok)) (by decide)
    · have hs := of_decide_eq_true (Bool.and_eq_true_iff.mp hsing).1
      exact absurd (hw.symm.trans hs) (by decide)
  unfold IpmSession.runFactor
  dsimp only
  split
  -- the analysis on probation is judged by this factorization
  next hjudged =>
    obtain ⟨hps, hran⟩ := Bool.and_eq_true_iff.mp hjudged
    have hp : s.probation = true := (Bool.and_eq_true_iff.mp hps).1
    obtain ⟨prev, hprev⟩ := Option.isSome_iff_exists.mp (h.core.prev.mpr (.inl hp))
    obtain ⟨⟨r, hr, hkeeps⟩, -⟩ := ran_iff.mp hran
    obtain ⟨hpending, hctrl, hfk, haborted, ha⟩ := judge_frame (s := s.factored ak o)
    refine ⟨?_, ?_, fun _ => ha.trans harmed, ?_⟩
    · obtain ⟨worse, hworse⟩ : ∃ w, decide ((s.factored ak o).probationDelays <
          (s.factored ak o).info.delayedPivots) = w := ⟨_, rfl⟩
      rw [judge_core (s := s.factored ak o) hprev (h.core.distinct ak prev hak hprev) hran
        hworse]
      exact h.core.judge hp hak worse hkeeps (s.factored ak o).fk.hasValues hr
        (runsToEnd_of_ran hran)
    · rw [hpending, hctrl, hfk]
      exact haccept
    · rw [hpending, haborted]
      exact hsettled
  next hjudged =>
    refine ⟨?_, haccept, fun _ => harmed, hsettled⟩
    refine h.core.event (e := .ran o.ending.runsToEnd) False.elim (fun hp hs => ?_) rfl
      (fun r hr => ?_)
      hnot
    · -- an open probation that is not judged: the factorization did not run to the end
      by_contra hend
      have hend : o.ending.runsToEnd = true := Bool.not_eq_false _ ▸ hend
      have hran := ran_of_runsToEnd s.fk s.factorCtrl.matrixType ho hend
        fun hb => by
          by_contra hv
          exact hsighted hs hp (Bool.not_eq_true _ ▸ hv) hb
      have hsolvable : (s.factored ak o).solvable = true := by
        refine Bool.or_eq_true_iff.mpr ?_
        rcases resultOf_of_runsToEnd ho hend with hok | hsing
        · exact .inl (decide_eq_true hok)
        · exact .inr (Bool.and_eq_true_iff.mpr ⟨decide_eq_true hsing, hran⟩)
      exact hjudged (Bool.and_eq_true_iff.mpr ⟨Bool.and_eq_true_iff.mpr ⟨hp, hsolvable⟩, hran⟩)
    -- the values in hand are those from before or the analysis' own
    · rcases after_analysis s.fk s.factorCtrl.matrixType ho with
        hsame | ⟨r', hr', hk⟩
      · exact h.core.live r (hsame.symm.trans hr)
      · exact ⟨ak, .inl hak, Option.some.inj (hr'.symm.trans hr) ▸ hk⟩

/-- A re-analysis is adopted with a factor that has values. -/
theorem prepareAnalysis_probation (h : Good sighted s) {a : Option Analysed}
    (hp : (s.prepareAnalysis a).probation = true)
      (hv : (s.prepareAnalysis a).fk.hasValues = false) :
    s.probation = true ∧ s.fk.hasValues = false := by
  unfold IpmSession.prepareAnalysis at hp hv
  split at hp
  next hr =>
    rw [if_pos hr] at hv
    exact ⟨hp, hv⟩
  next hr =>
    rw [if_neg hr] at hv
    split at hp
    next ha =>
      rw [if_pos ha] at hv
      exact ⟨hp, hv⟩
    next ha =>
      rw [if_neg ha] at hv
      obtain ⟨-, -, -, hvalues, -⟩ := h.core.armed (not_not.mp ha)
      have hsame : ∀ {t : IpmSession ρ Φ}, t.fk = s.fk → t.fk.hasValues = false → False :=
        fun ht hf => Bool.false_ne_true ((ht ▸ hf).symm.trans hvalues)
      split at hv
      next => exact (hsame rfl hv).elim
      next =>
        split at hv
        next => exact (hsame rfl hv).elim
        next =>
          split at hv
          next => exact (hsame rfl hv).elim
          next => exact (hsame rfl hv).elim

theorem Good.considerReanalysis (h : Good sighted s) (hv : s.factorCtrl.matrixType = .indefinite →
    s.fk.hasValues = true) (haborted : s.aborted = false) (perm pairs : List ℕ) :
    Good sighted (s.considerReanalysis perm pairs) := by
  unfold IpmSession.considerReanalysis
  split
  next => exact h
  next hoff =>
    obtain ⟨-, hs, hp, hr, -⟩ : ¬s.ipm.reanalyse = false ∧ ¬s.reanalyseStopped = true ∧
        ¬s.probation = true ∧ ¬s.revertPending = true ∧ ¬s.ak.isNone = true := by
      simpa only [not_or] using hoff
    split
    next => exact h
    next htype =>
      split
      next => exact h
      next =>
        split
        next => exact h
        next hgap =>
          split
          next => exact h
          next =>
            have hindef : s.factorCtrl.matrixType = .indefinite := by
              cases hm : s.factorCtrl.matrixType with
              | positiveDefinite => exact absurd hm htype
              | indefinite => rfl
            exact ⟨h.core.arm (Bool.eq_false_iff.mpr hp) (Bool.eq_false_iff.mpr hr)
              (Bool.eq_false_iff.mpr hs) (hv hindef) hgap, h.accept,
              fun hc => absurd (haborted.symm.trans hc) Bool.false_ne_true, h.settled⟩

theorem Good.afterSolve (h : Good sighted s) (rc : ℤ) (perm pairs : List ℕ) :
    Good sighted (s.afterSolve rc perm pairs) := by
  unfold IpmSession.afterSolve
  split
  next hacc =>
    have haccept : Good sighted s.accept := h.congr rfl nofun id
    exact haccept.considerReanalysis (h.accept hacc.2) (h.settled hacc.2) perm pairs
  next => exact h

/-- A step of which a complete factorization may pass unjudged: the banded path, with a
    probation open and no factor values. -/
def Sighted (s : IpmSession ρ Φ) (a : Call ρ × Reply ρ Φ) : Prop :=
  s.probation = true → s.fk.hasValues = false →
    match a.2 with
    | .factored _ (some e) => e.outcome.ending ≠ .banded
    | .solved _ _ (some e) => e.outcome.ending ≠ .banded
    | _ => True

theorem Good.factors {limit : ℤ} {e : EngineRun ρ Φ} (h : Good sighted s)
    (harmed : s.reanalyseArmed = false) (hrun : IpmSession.Factors limit s e t)
    (hsighted : sighted → s.probation = true → s.fk.hasValues = false →
      e.outcome.ending ≠ .banded) : Good sighted t := by
  cases hrun with
  | run ak o hak ho => exact h.runFactor hak ho rfl harmed hsighted

theorem Good.completes {e : Option (EngineRun ρ Φ)} (h : Good sighted s)
    (hdone : IpmSession.Completes s e t)
    (hsighted : sighted → s.probation = true → s.fk.hasValues = false →
      ∀ r, e = some r → r.outcome.ending ≠ .banded) : Good sighted t := by
  cases hdone with
  | skip => exact h
  | run ha hrun =>
    exact h.factors (h.aborted ha.1) hrun fun hs hp hv => hsighted hs hp hv _ rfl

/-- The state in which a `factor` call asks the engine. -/
theorem Good.beforeEngine (h : Good sighted s) (values : List ℚ) (a a' : Option Analysed)
    (status : ErrorCode) (hak : ((s.load values).ensureAnalysis a status).ak.isSome = true) :
    let t := ((s.load values).ensureAnalysis a status).prepareAnalysis a'
    Good sighted t ∧ t.reanalyseArmed = false ∧
      (t.probation = true → t.fk.hasValues = false → s.probation = true ∧ s.fk.hasValues =
        false) := by
  intro t
  obtain ⟨hcore, hpending, haborted⟩ := load_frame (s := s) values
  have hflags : ((s.load values).ensureAnalysis a status).pendingAccept = false ∧
      ((s.load values).ensureAnalysis a status).aborted = false ∧
      ((s.load values).ensureAnalysis a status).probation = s.probation ∧
      ((s.load values).ensureAnalysis a status).fk.hasValues = s.fk.hasValues := by
    have hload : (s.load values).pendingAccept = false ∧ (s.load values).aborted = false ∧
        (s.load values).probation = s.probation ∧
        (s.load values).fk.hasValues = s.fk.hasValues :=
      ⟨hpending, haborted, congrArg Core.probation hcore, congrArg Core.hasValues hcore⟩
    unfold IpmSession.ensureAnalysis IpmSession.runAnalysis
    split
    next => exact hload
    next => split <;> exact hload
  have hready := (h.load values).ensureAnalysis a status
  obtain ⟨hprep, harmed⟩ := hready.prepareAnalysis hflags.1 hflags.2.1 hak a'
  refine ⟨hprep, harmed, fun hp hv => ?_⟩
  rw [← hflags.2.2.1, ← hflags.2.2.2]
  exact prepareAnalysis_probation hready hp hv

theorem good_step {a : Call ρ × Reply ρ Φ} (h : Good sighted s) (hs : IpmSession.Step s a t)
    (hsighted : sighted → Sighted s a) : Good sighted t := by
  -- the calls that run an engine go through the steps of the session, the others keep its core
  cases hs with
  | analyse pattern values ctrl ipm refines a status =>
    exact h.analyse pattern values ctrl ipm refines a status
  | factorUninitialised => exact h.congr rfl nofun nofun
  | factorIllegal => exact h.congr rfl nofun nofun
  | factorUnanalysed => exact (h.load _).ensureAnalysis _ _
  | factor values expected a a' status _ _ hready hak hrun =>
    subst hready
    obtain ⟨hprep, harmed, hopen⟩ := h.beforeEngine values a a' status hak
    have hu := hprep.countFactorization.factors harmed hrun fun hs hp hv => by
      obtain ⟨hp', hv'⟩ := hopen hp hv
      exact hsighted hs hp' hv'
    unfold IpmSession.countAbort
    split
    next => exact hu.congr rfl (fun hp => ⟨hp, rfl⟩) id
    next => exact hu
  | solveRefused hdone =>
    refine (h.completes hdone fun hs hp hv r he => ?_).congr rfl (fun hp => ⟨hp, rfl⟩) id
    subst he
    exact hsighted hs hp hv
  | solve b n nrhs job rc x code perm pairs hdone =>
    refine Good.afterSolve ?_ rc perm pairs
    refine (h.completes hdone fun hs hp hv r he => ?_).congr rfl (fun hp => ⟨hp, rfl⟩) id
    subst he
    exact hsighted hs hp hv
  | setControl => exact h.congr rfl (fun hp => ⟨hp, rfl⟩) id
  | setUserScale => exact h.congr rfl (fun hp => ⟨hp, rfl⟩) id
  | write => exact h.congr rfl (fun hp => ⟨hp, rfl⟩) id

end Calls

/-! ## Runs -/

/-- The states a call passes through. -/
inductive Passes (s : IpmSession ρ Φ) : Call ρ → IpmSession ρ Φ → Prop
  | loaded {values expected} : Passes s (.factor values expected) (s.load values)
  | ready {values expected} (a : Option Analysed) (status : ErrorCode) :
      Passes s (.factor values expected) ((s.load values).ensureAnalysis a status)
  | prepared {values expected} (a a' : Option Analysed) (status : ErrorCode)
      (hak : ((s.load values).ensureAnalysis a status).ak.isSome = true) :
      Passes s (.factor values expected)
        (((s.load values).ensureAnalysis a status).prepareAnalysis a')
  | completed {b n nrhs job} {e : Option (EngineRun ρ Φ)} {t : IpmSession ρ Φ}
      (hdone : IpmSession.Completes s e t) : Passes s (.solve b n nrhs job) t

theorem Good.passes {s p : IpmSession ρ Φ} {call : Call ρ} (h : Good False s)
    (hp : Passes s call p) : p.core.Live := by
  cases hp with
  | loaded => exact (h.load _).core.live
  | ready a status => exact ((h.load _).ensureAnalysis a status).core.live
  | prepared a a' status hak => exact (h.beforeEngine _ a a' status hak).1.core.live
  | completed hdone => exact (h.completes hdone fun hc => hc.elim).core.live

theorem good_run {ctrl : Control ρ} {tr : List (Call ρ × Reply ρ Φ)} {s : IpmSession ρ Φ}
    (h : (IpmSession.system ctrl).Run tr s) : Good False s :=
  h.invariant (P := fun _ s => Good False s) (good_start ctrl) fun _ hgood hs =>
    good_step hgood hs fun hc => hc.elim

theorem good_run_sighted {ctrl : Control ρ} {tr : List (Call ρ × Reply ρ Φ)} {s : IpmSession ρ Φ}
    (h : ((IpmSession.system ctrl).restrict Sighted).Run tr s) : Good True s := by
  refine h.invariant (P := fun _ s => Good True s) (good_start ctrl) ?_
  intro tr s a t _ hgood hs
  exact good_step hgood hs.2 fun _ => hs.1

/-- Whatever is called, and whatever the solver answers: between the calls and inside them
    the factor's analysis pointer is null or points at a live analysis, no probation is
    judged twice, and re-analyses stop and keep apart as they should. -/
theorem analysis_history_any {ctrl : Control ρ} {tr : List (Call ρ × Reply ρ Φ)}
    {s : IpmSession ρ Φ} (h : (IpmSession.system ctrl).Run tr s) :
    s.core.Live ∧ (∀ call p, Passes s call p → p.core.Live) ∧ JudgedOnce False s.history ∧
      StopsAfterWorse s.history ∧ AttemptsApart s.history := by
  have hgood := good_run h
  exact ⟨hgood.core.live, fun _ _ hp => hgood.passes hp, hgood.core.judgedOnce,
    hgood.core.stops, hgood.core.apart⟩

/-- When no step lets a complete factorization pass unjudged, a probation that was judged was
    judged by the first factorization of its analysis that ran to the end, and in one that is
    open none has run to the end. -/
theorem analysis_history {ctrl : Control ρ} {tr : List (Call ρ × Reply ρ Φ)}
    {s : IpmSession ρ Φ} (h : ((IpmSession.system ctrl).restrict Sighted).Run tr s) :
    s.core.Live ∧ (∀ call p, Passes s call p → p.core.Live) ∧ JudgedOnce True s.history ∧
      (s.probation = true → OpenTrial True s.history) ∧ StopsAfterWorse s.history ∧
      AttemptsApart s.history := by
  obtain ⟨hlive, hpasses, -, hstops, hapart⟩ := analysis_history_any h.of_restrict
  have hcore := (good_run_sighted h).core
  exact ⟨hlive, hpasses, hcore.judgedOnce, hcore.trial, hstops, hapart⟩

/-! ## A session with a re-analysis -/

/-- A tridiagonal pattern of order 100. -/
def tridiagonal : CscLower ℚ where
  n := 100
  colPtr := (List.range 100).map (fun j => 2 * (j : ℤ)) ++ [199]
  rowIdx := (List.range 100).flatMap fun j => if j = 99 then [99] else [(j : ℤ), (j : ℤ) + 1]
  values := []

def plainControl (type : MatrixType) (ordering : OrderingMethod) : Control Unit where
  matrixType := type
  ordering := ordering
  matchingTrigger := .predicted
  userScale := none
  pivotU := 1 / 100
  staticPivotTol := 0
  fallbackStaticPivotTol := 0
  staticPivotsAsZero := false
  staticZeroStaysZero := false
  staticPivotInOrder := false
  regDiagSign := none
  regDiagTol := 0
  treeParallel := false
  maxNegativePivots := -1
  rest := ()

def bothFeatures : IpmControl := { reanalyse := true, abortOnWrongInertia := true }

/-- An indefinite factor that ran to the end, with `delays` delayed pivots. -/
def completeWith (delays : ℕ) : Outcome Unit where
  ending := .complete
  fullMade := false
  status := .success
  info := { numPositive := 99, numNegative := 1, delayedPivots := delays, actualFlops := 20 }
  numeric := some ()

theorem completeWith_fits (delays : ℕ) (ak : AnalysisKeep) (ctrl : Control Unit) :
    (completeWith delays).Fits ak ctrl := .inl rfl

/-- One stopped with two negative pivots, and one on the banded path. -/
def stoppedAtTwo : Outcome Unit where
  ending := .stopped
  fullMade := false
  status := .inertiaExceeded
  info := { status := .inertiaExceeded, numPositive := 10, numNegative := 2 }
  numeric := none

def onBandedPath : Outcome Unit where
  ending := .banded
  fullMade := false
  status := .success
  info := {}
  numeric := some ()

section Examples

open IpmSession

abbrev indefinite : Control Unit := plainControl .indefinite .autoSerial
abbrev bandedSpd : Control Unit := plainControl .positiveDefinite .autoParallel
abbrev anyValues : List ℚ := List.replicate 199 1

/-- The analysis that the solver answers with, and the two that the session makes of it. -/
abbrev found : Analysed := ⟨false, 10⟩
abbrev firstAnalysis : AnalysisKeep := ⟨found, 0⟩
abbrev secondAnalysis : AnalysisKeep := ⟨found, 1⟩

/-- The session after `analyse` of the tridiagonal pattern, its analysis deferred. -/
def fresh : IpmSession Unit Unit :=
  { (start indefinite).reset tridiagonal indefinite bothFeatures with inputNnz := 199 }

theorem fresh_step : Step (start indefinite)
    (.analyse tridiagonal [] indefinite bothFeatures, .analysed .success) fresh := by
  have hlen : tridiagonal.rowIdx.length = 199 := by decide +kernel
  have hshape : ¬(fresh.mat.n ≤ 0 ∨ fresh.mat.validateShape ≠ .success ∨ fresh.mat.nnz ≠ 199 ∨
      (([] : List ℚ) ≠ [] ∧ ([] : List ℚ).length ≠ 199)) := by decide +kernel
  have heq : (start indefinite).analyse tridiagonal [] indefinite bothFeatures true none .success =
      (fresh, .success) := by
    unfold analyse
    dsimp only
    rw [hlen]
    exact if_neg hshape
  have h := Step.analyse (s := (start indefinite : IpmSession Unit Unit)) tridiagonal [] indefinite
    bothFeatures true none .success
  rwa [heq] at h

/-- A factor with 50 delays is accepted; the next call adopts a new analysis, whose factor
    delays more: it is judged worse. -/
theorem analysis_history_worse :
    ∃ (tr : List (Call Unit × Reply Unit Unit)) (s : IpmSession Unit Unit),
      ((system indefinite).restrict Sighted).Run tr s ∧ .judged true ∈ s.history ∧
      JudgedOnce True s.history := by
  have hcomplete : Ending.complete ≠ .banded := nofun
  have run := ((((Lts.Run.nil (L := (system indefinite).restrict Sighted)).snoc
    ⟨fun _ _ => trivial, fresh_step⟩).snoc
    ⟨fun _ _ => hcomplete, Step.factor anyValues none (some found) none .success (by decide +kernel)
      (by decide +kernel) rfl
      (by decide +kernel)
      (.run firstAnalysis (completeWith 50) (by decide +kernel) (completeWith_fits 50 _ _))⟩).snoc
    ⟨fun _ _ => trivial, Step.solve none 100 1 .full 0 none
      .success (List.range 100) [] (.skip (by decide +kernel)) (by decide +kernel)⟩).snoc
    ⟨fun _ _ => hcomplete, Step.factor anyValues none none (some found) .success (by decide +kernel)
      (by decide +kernel) rfl
      (by decide +kernel)
      (.run secondAnalysis (completeWith 60) (by decide +kernel) (completeWith_fits 60 _ _))⟩
  exact ⟨_, _, run, by decide +kernel, (analysis_history run).2.2.1⟩

/-- The adopted analysis' first factorization stops at the expected negative count; the next
    one runs to the end on the banded path and is not judged; the one after that is. -/
theorem judged_second :
    ∃ (tr : List (Call Unit × Reply Unit Unit)) (s : IpmSession Unit Unit),
      (system indefinite).Run tr s ∧ ¬JudgedOnce True s.history := by
  have run := ((((((((Lts.Run.nil (L := system indefinite)).snoc fresh_step).snoc
    (Step.factor anyValues none (some found) none .success (by decide +kernel)
      (by decide +kernel) rfl (by decide +kernel)
      (.run firstAnalysis (completeWith 50) (by decide +kernel) (completeWith_fits 50 _ _)))).snoc
    (Step.solve none 100 1 .full 0 none .success (List.range 100)
      [] (.skip (by decide +kernel)) (by decide +kernel))).snoc
    (Step.factor anyValues none none (some found) .success (by decide +kernel)
      (by decide +kernel) rfl (by decide +kernel)
      (.run secondAnalysis stoppedAtTwo (by decide +kernel)
        (.inr (.inr ⟨rfl, by decide +kernel, by decide +kernel, by decide +kernel⟩))))).snoc
    (Step.setControl bandedSpd)).snoc
    (Step.factor anyValues none none none .success (by decide +kernel) (by decide +kernel) rfl
      (by decide +kernel)
      (.run secondAnalysis onBandedPath (by decide +kernel)
        ⟨rfl, by decide +kernel, by decide +kernel⟩))).snoc
    (Step.setControl indefinite)).snoc
    (Step.factor anyValues none none none .success (by decide +kernel) (by decide +kernel) rfl
      (by decide +kernel)
      (.run secondAnalysis (completeWith 60) (by decide +kernel) (completeWith_fits 60 _ _)))
  refine ⟨_, _, run, fun hjudged => ?_⟩
  obtain ⟨pre, hpre, hopen⟩ := hjudged true
    ([.analysed 5, .factorization, .ran true, .attempt, .adopted, .factorization, .ran false,
      .factorization] ++ [.ran true] ++ [.factorization] ++ [.ran true]) [] (by decide +kernel)
  obtain rfl := (List.append_inj' hpre rfl).1
  -- the factorization before the judged one ran to the end, too
  rcases hopen.of_snoc with hc | ⟨-, hopen⟩
  · cases hc
  · rcases hopen.of_snoc with hc | ⟨hc, -⟩
    · cases hc
    · exact Bool.false_ne_true (hc trivial).symm

end Examples

end Session
end SmfSolver
