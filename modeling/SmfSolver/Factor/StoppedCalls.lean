/-
  SmfSolver.Factor.StoppedCalls

  What a call of `factor_scale_on_delay` leaves of the rescue's state when its
  factorization does not run to the end.

  Such a call records nothing but a rejected static try (`stopped_keep`).  It has cleared
  the state before its first run, though, and does not put it back: the state is as it was
  only when there was none (`keepsState_iff`).
-/
import SmfSolver.Factor.RescueLaws

namespace SmfSolver
namespace Factor

/-- Nothing is recorded but, if any, a rejected static try. -/
def FactorKeep.Blank (fkeep keep : FactorKeep) : Prop :=
  keep = { fkeep.cleared with staticRejectedAnalysis := keep.staticRejectedAnalysis }

/-- A stopped call ends with a blank state. -/
def Result.StopsBlank (fkeep : FactorKeep) (r : Result) : Prop :=
  r.outcome.ran = false → fkeep.Blank r.keep

section Branches

variable {c : Call} {fkeep : FactorKeep} {p : Progress}

theorem FactorKeep.blank_cleared : fkeep.Blank fkeep.cleared := rfl

/-- A branch that ends with a factorization that ran. -/
theorem stopsBlank_of_ran {r : Result} (h : r.outcome.ran = true) : r.StopsBlank fkeep :=
  fun hc => absurd (hc.symm.trans h) Bool.false_ne_true

/-- A branch that ends with what was recorded on the way. -/
theorem stopsBlank_finish (h : fkeep.Blank p.keep) (o : Outcome) :
    (Call.finish p o).StopsBlank fkeep := fun _ => h

theorem stopsBlank_rescale (h : fkeep.Blank p.keep) : (c.rescale p).StopsBlank fkeep := by
  unfold Call.rescale
  dsimp only
  by_cases hscale : (c.analysis.matchingScaleOf c.values).isEmpty = true
  · rw [if_pos hscale]
    split_ifs with hran
    · exact stopsBlank_of_ran hran
    · exact stopsBlank_finish h _
  · rw [if_neg hscale]
    by_cases hran : (c.run (.scaled (c.analysis.matchingScaleOf c.values) (-1))).ran = true
    · rw [if_pos hran]
      exact stopsBlank_of_ran hran
    · rw [if_neg hran]
      exact stopsBlank_finish h _

theorem stopsBlank_tryStatic (h : fkeep.Blank p.keep) : (c.tryStatic p).StopsBlank fkeep := by
  have hrejected : fkeep.Blank { p.keep with staticRejectedAnalysis := c.analysis.serial } := by
    rw [FactorKeep.Blank, h]
  unfold Call.tryStatic
  dsimp only
  split_ifs with hran hstands
  · exact stopsBlank_finish h _
  · have hran' : (c.run .staticPath).ran = true := by
      rwa [Bool.not_eq_true', Bool.not_eq_false] at hran
    exact stopsBlank_of_ran hran'
  · exact stopsBlank_rescale hrejected

theorem stopsBlank_tryKept (kept : List ℚ) (keptOmega : WithTop ℚ) (h : fkeep.Blank p.keep) :
    (c.tryKept kept keptOmega p).StopsBlank fkeep := by
  unfold Call.tryKept
  dsimp only
  split_ifs with hfits htrip hran hstands
  · exact stopsBlank_rescale h
  · exact stopsBlank_rescale h
  · exact stopsBlank_finish h _
  · have hran' : (c.run (.scaled kept c.workLimit)).ran = true := by simpa using hran
    exact stopsBlank_of_ran hran'
  · exact stopsBlank_rescale h

/-- What a try lets through is recorded only if it ran. -/
theorem letThrough_of_stopped {o : Outcome} (h : o.ran = false) (keep : FactorKeep) :
    c.letThrough o keep = keep := by
  rw [Call.letThrough, if_neg fun hc => Bool.false_ne_true (h.symm.trans hc.1)]

theorem stopsBlank_tryFirst (next : Bool) (h : fkeep.Blank p.keep) :
    (c.tryFirst next p).StopsBlank fkeep := by
  unfold Call.tryFirst
  dsimp only
  split_ifs with hcarry hdone hearly hstatic hstatic
  · exact stopsBlank_rescale h
  · intro hran
    have hran' : (c.run (.auto (c.tryLimit next) (c.earlyStop next))).ran = false := hran
    have hkeep := letThrough_of_stopped (c := c) hran' p.keep
    exact hkeep.symm ▸ h
  · exact stopsBlank_tryStatic h
  · exact stopsBlank_rescale h
  · exact stopsBlank_tryStatic h
  · exact stopsBlank_rescale h

theorem stopsBlank_runUnarmed (h : fkeep.Blank p.keep) :
    (c.runUnarmed fkeep p).StopsBlank fkeep := by
  unfold Call.runUnarmed
  dsimp only
  split_ifs with hran
  · exact stopsBlank_of_ran hran
  · exact stopsBlank_finish h _

/-- A stopped call records nothing but a rejected static try. -/
theorem stopped_keep (c : Call) (fkeep : FactorKeep) :
    (c.factorScaleOnDelay fkeep).StopsBlank fkeep := by
  have hblank : fkeep.Blank ({ keep := fkeep.cleared } : Progress).keep := fkeep.blank_cleared
  unfold Call.factorScaleOnDelay
  dsimp only
  split_ifs
  · exact stopsBlank_runUnarmed hblank
  · exact stopsBlank_tryStatic hblank
  · exact stopsBlank_tryFirst _ hblank
  · exact stopsBlank_tryKept _ _ hblank
  · exact stopsBlank_rescale hblank

end Branches

/-- A call whose factorization does not run to the end leaves the state as it was. -/
def Call.KeepsState (c : Call) (fkeep : FactorKeep) : Prop :=
  (c.factorScaleOnDelay fkeep).outcome.ran = false → (c.factorScaleOnDelay fkeep).keep = fkeep

/-- A rejected static try takes the slot from what was there. -/
theorem slot_ne_of_reachesStatic {c : Call} {fkeep : FactorKeep} (hclear : fkeep.cleared = fkeep)
    (h : c.reachesStatic fkeep = true) : fkeep.staticRejectedAnalysis ≠ c.analysis.serial := by
  have hours : fkeep.ours c = false := by
    rw [← hclear]
    exact decide_eq_false c.analysis.serial_ne_zero.symm
  rw [Call.reachesStatic, FactorKeep.goStatic, hours, Bool.false_and, Bool.false_and, Bool.false_or,
    Bool.and_eq_true, Bool.and_eq_true] at h
  exact of_decide_eq_true h.2.2

/-- A stopped call leaves the rescue's state as it was if and only if nothing was recorded
    and no static try is rejected on the way. -/
theorem keepsState_iff (c : Call) (fkeep : FactorKeep)
    (hstop : (c.factorScaleOnDelay fkeep).outcome.ran = false) :
    c.KeepsState fkeep ↔
      fkeep.cleared = fkeep ∧ ¬(c.reachesStatic fkeep = true ∧ c.staticFails = true) := by
  have hkeep := stopped_keep c fkeep hstop
  have hslot := (callSpec c fkeep).rejected
  constructor
  · intro hkeeps
    have hsame := hkeeps hstop
    have hclear : fkeep.cleared = fkeep := by
      rw [FactorKeep.Blank, hsame] at hkeep
      exact hkeep.symm
    refine ⟨hclear, fun hrej => ?_⟩
    have hevent : .staticTry true ∈ (c.factorScaleOnDelay fkeep).events :=
      (rejects_iff c fkeep).mpr hrej
    rw [if_pos hevent, hsame] at hslot
    exact slot_ne_of_reachesStatic hclear hrej.1 hslot
  · rintro ⟨hclear, hrej⟩ -
    have hevent : .staticTry true ∉ (c.factorScaleOnDelay fkeep).events := fun hc =>
      hrej ((rejects_iff c fkeep).mp hc)
    rw [if_neg hevent] at hslot
    rw [FactorKeep.Blank, hslot, hclear] at hkeep
    exact hkeep

/-- A call of values that the factorization does not take: no run gets to the end. -/
def invalidCall : Call where
  analysis := unitAnalysis 1 firstSerial_ne_zero
  control := {}
  values := [.nan]
  run := fun _ => { status := .singular, infoStatus := .illegalValue }
  probe := fun _ => 0

/-- The state after a rescue of the analysis. -/
def rescuedKeep : FactorKeep := { delayAnalysis := 1, delayScale := [1], delayOmega := 0 }

/-- The call loses the kept scale. -/
theorem keepsState_invalidCall : ¬invalidCall.KeepsState rescuedKeep := by
  intro h
  have hsame := congrArg FactorKeep.delayScale (h (by decide +kernel))
  revert hsame
  decide +kernel

/-- A state with nothing recorded, after calls of other analyses. -/
def restedKeep : FactorKeep :=
  { delayOmega := (1 / 2 : ℚ), delaySignature := 3, staticRejectedAnalysis := 2 }

theorem keepsState_iff_invalidCall :
    (invalidCall.factorScaleOnDelay restedKeep).outcome.ran = false ∧
      invalidCall.KeepsState restedKeep := by
  have hstop : (invalidCall.factorScaleOnDelay restedKeep).outcome.ran = false := by
    decide +kernel
  refine ⟨hstop, (keepsState_iff invalidCall restedKeep hstop).mpr ⟨rfl, ?_⟩⟩
  decide +kernel

end Factor
end SmfSolver
