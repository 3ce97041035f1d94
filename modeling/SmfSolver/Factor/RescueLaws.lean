/-
  SmfSolver.Factor.RescueLaws

  The rescue's state over sequences of factorizations with one `FactorKeep`.

  The slot `staticRejectedAnalysis` holds one analysis.  A rejected static try is the last
  of its analysis as long as no other analysis takes the slot (`rejectedOnce_iff`).

  That there is no matching is read off the absence of every other mode.  A recorded
  static mode is not seen while the fallback is off; but for that, a run is unarmed only
  when an earlier one of its analysis found no matching for such values
  (`unarmedLaw_iff`).
-/
import SmfSolver.Factor.RescueState
import Mathlib.Data.List.Induction

namespace SmfSolver
namespace Factor

namespace Result

def Rejects (r : Result) : Prop := .staticTry true ∈ r.events

def TriesStatic (r : Result) : Prop := ∃ b, .staticTry b ∈ r.events

def TakesUnarmed (r : Result) : Prop := .unarmed ∈ r.events

/-- A matching scaling was computed, there was none, and the factorization ran to the
    end. -/
def FoundNone (r : Result) : Prop := .matching true ∈ r.events ∧ r.outcome.ran = true

end Result

/-- The call that comes after `pre`. -/
def Call.after (c : Call) (pre : List Factorization) : Result :=
  c.factorScaleOnDelay (keepAfter pre)

theorem keepAfter_snoc (fs : List Factorization) (f : Factorization) :
    keepAfter (fs ++ [f]) = step (keepAfter fs) f := by
  rw [keepAfter, List.foldl_append]
  rfl

theorem keepAfter_snoc_delay (fs : List Factorization) (c : Call) :
    keepAfter (fs ++ [.delay c]) = (c.after fs).keep := keepAfter_snoc fs _

/-- A split of a longer sequence is at its end or is a split of the shorter one. -/
theorem split_snoc {fs pre post : List Factorization} {f g : Factorization}
    (h : fs ++ [f] = pre ++ g :: post) :
    (pre = fs ∧ g = f ∧ post = []) ∨ ∃ post', post = post' ++ [f] ∧ fs = pre ++ g :: post' := by
  rcases List.eq_nil_or_concat post with rfl | ⟨post', d, rfl⟩
  · obtain ⟨rfl, hg⟩ := List.append_inj' h rfl
    exact .inl ⟨rfl, (List.singleton_inj.mp hg).symm, rfl⟩
  · rw [List.concat_eq_append, ← List.cons_append, ← List.append_assoc] at h
    obtain ⟨hfs, hd⟩ := List.append_inj' h rfl
    obtain rfl := List.singleton_inj.mp hd
    exact .inr ⟨post', List.concat_eq_append, hfs⟩

/-! ## Rejected static tries -/

/-- After a rejected static try of an analysis no later call of it makes one. -/
def RejectedOnce (fs : List Factorization) : Prop :=
  ∀ pre c mid c' post, fs = pre ++ .delay c :: (mid ++ .delay c' :: post) →
    c'.analysis.serial = c.analysis.serial → (c.after pre).Rejects →
    ¬(c'.after (pre ++ .delay c :: mid)).TriesStatic

/-- The call goes the static path: at once, or when its first try trips. -/
def Call.reachesStatic (c : Call) (fkeep : FactorKeep) : Bool :=
  !c.goesUnarmed fkeep && (fkeep.goStatic c ||
    (fkeep.firstTry c && !(fkeep.next c && c.control.carry && decide (0 ≤ c.control.nextRatio)) &&
      (c.run (.auto (c.tryLimit (fkeep.next c)) (c.earlyStop (fkeep.next c)))).status
        = .maxPivotDelays &&
      c.control.staticFallback && fkeep.staticRejectedAnalysis ≠ c.analysis.serial))

/-- A static factor of these values would be thrown away. -/
def Call.staticFails (c : Call) : Bool :=
  (c.run .staticPath).ran && !Call.staticStands (c.run .staticPath)

/-- The call takes the slot from another analysis. -/
def Call.overwrites (c : Call) (fkeep : FactorKeep) : Bool :=
  fkeep.staticRejectedAnalysis ≠ 0 && fkeep.staticRejectedAnalysis ≠ c.analysis.serial &&
    c.reachesStatic fkeep && c.staticFails

section Rejected

variable {c : Call} {fkeep : FactorKeep} {p : Progress} {fs : List Factorization}

theorem staticTry_rescale (b : Bool) :
    .staticTry b ∈ (c.rescale p).events ↔ .staticTry b ∈ p.events := by
  unfold Call.rescale
  dsimp only
  split_ifs <;> simp [Call.finish]

theorem rejects_tryStatic (h : .staticTry true ∉ p.events) :
    (c.tryStatic p).Rejects ↔ c.staticFails = true := by
  unfold Result.Rejects Call.tryStatic Call.staticFails
  dsimp only
  cases (c.run .staticPath).ran
  · simp [Call.finish, h]
  · cases Call.staticStands (c.run .staticPath)
    · simp [staticTry_rescale]
    · simp [Call.finish, h]

theorem triesStatic_tryStatic : (c.tryStatic p).TriesStatic := by
  unfold Call.tryStatic
  dsimp only
  split_ifs
  · exact ⟨false, List.mem_append_right _ (List.mem_singleton_self _)⟩
  · exact ⟨false, List.mem_append_right _ (List.mem_singleton_self _)⟩
  · exact ⟨true, (staticTry_rescale true).mpr
      (List.mem_append_right _ (List.mem_singleton_self _))⟩

theorem rejects_tryKept (kept : List ℚ) (keptOmega : WithTop ℚ) (h : .staticTry true ∉ p.events) :
    ¬(c.tryKept kept keptOmega p).Rejects := by
  unfold Result.Rejects Call.tryKept
  dsimp only
  split_ifs <;> simp [Call.finish, Call.spent, staticTry_rescale, h]

theorem rejects_tryFirst (next : Bool) (h : .staticTry true ∉ p.events) :
    (c.tryFirst next p).Rejects ↔
      ¬(next = true ∧ c.control.carry = true ∧ 0 ≤ c.control.nextRatio) ∧
        (c.run (.auto (c.tryLimit next) (c.earlyStop next))).status = .maxPivotDelays ∧
        (c.control.staticFallback = true ∧
          p.keep.staticRejectedAnalysis ≠ c.analysis.serial) ∧ c.staticFails = true := by
  have hno : ∀ q : Progress, q.events = p.events → ¬(c.rescale q).Rejects := by
    intro q hq
    rw [Result.Rejects, staticTry_rescale, hq]
    exact h
  have htry : ∀ q : Progress, q.events = p.events ++ [.firstTry] →
      ((c.tryStatic q).Rejects ↔ c.staticFails = true) ∧ ¬(c.rescale q).Rejects := by
    intro q hq
    have hq' : .staticTry true ∉ q.events := by
      rw [hq, List.mem_append, List.mem_singleton, not_or]
      exact ⟨h, by decide⟩
    exact ⟨rejects_tryStatic hq', by rwa [Result.Rejects, staticTry_rescale]⟩
  -- of the branches only the one that ends in a static try can reject
  unfold Call.tryFirst
  dsimp only
  by_cases hcarry : next = true ∧ c.control.carry = true ∧ 0 ≤ c.control.nextRatio
  · rw [if_pos hcarry]
    exact iff_of_false (hno p rfl) fun hc => hc.1 hcarry
  · rw [if_neg hcarry, and_iff_right hcarry]
    by_cases hdone : (c.run (.auto (c.tryLimit next) (c.earlyStop next))).status = .maxPivotDelays
    · rw [if_neg (not_not.mpr hdone), and_iff_right hdone]
      by_cases hstatic : c.control.staticFallback = true ∧
          p.keep.staticRejectedAnalysis ≠ c.analysis.serial
      · rw [and_iff_right hstatic]
        split_ifs with hearly hs hs
        · exact (htry _ rfl).1
        · exact absurd hstatic hs
        · exact (htry _ rfl).1
        · exact absurd hstatic hs
      · refine iff_of_false ?_ fun hc => hstatic hc.1
        split_ifs with hearly hs hs
        · exact absurd hs hstatic
        · exact (htry _ rfl).2
        · exact absurd hs hstatic
        · exact (htry _ rfl).2
    · rw [if_pos hdone]
      refine iff_of_false (fun hr => ?_) fun hc => hdone hc.1
      have hr : DelayEvent.staticTry true ∈ p.events ++ [.firstTry] := hr
      rw [List.mem_append, List.mem_singleton] at hr
      exact hr.elim h (by decide)

theorem rejects_iff (c : Call) (fkeep : FactorKeep) :
    (c.factorScaleOnDelay fkeep).Rejects ↔
      c.reachesStatic fkeep = true ∧ c.staticFails = true := by
  have hnil : DelayEvent.staticTry true ∉ ({ keep := fkeep.cleared } : Progress).events :=
    fun h => (nomatch h)
  unfold Call.factorScaleOnDelay Call.reachesStatic
  dsimp only
  by_cases hun : c.goesUnarmed fkeep = true
  · rw [if_pos hun, hun]
    unfold Result.Rejects Call.runUnarmed
    dsimp only
    split_ifs <;> simp [Call.finish]
  · rw [if_neg hun, Bool.eq_false_iff.mpr hun]
    by_cases hs : fkeep.goStatic c = true
    · rw [if_pos hs, hs, rejects_tryStatic hnil]
      exact (and_iff_right rfl).symm
    · rw [if_neg hs, Bool.eq_false_iff.mpr hs]
      by_cases hf : fkeep.firstTry c = true
      · rw [if_pos hf, hf, rejects_tryFirst _ hnil]
        simp only [FactorKeep.cleared, Bool.not_false, Bool.false_or, Bool.true_and,
          Bool.and_eq_true, Bool.not_eq_true', decide_eq_true_eq, Bool.and_eq_false_imp,
          decide_eq_false_iff_not, not_and, and_assoc, and_imp]
      · rw [if_neg hf, Bool.eq_false_iff.mpr hf]
        refine iff_of_false ?_ fun hc => (nomatch hc.1)
        split_ifs
        · exact rejects_tryKept _ _ hnil
        · rw [Result.Rejects, staticTry_rescale]
          exact hnil

/-- The static mode is recorded for an analysis whose static try was not the last one
    rejected. -/
theorem static_slot (fs : List Factorization) (h : (keepAfter fs).delayStatic = true) :
    (keepAfter fs).staticRejectedAnalysis ≠ (keepAfter fs).delayAnalysis := by
  induction fs using List.reverseRecOn with
  | nil => cases h
  | append_singleton fs f ih =>
    rw [keepAfter_snoc] at h ⊢
    cases f with
    | delay c =>
      have hspec := callSpec c (keepAfter fs)
      change (c.after fs).keep.delayStatic = true at h
      change (c.after fs).keep.staticRejectedAnalysis ≠ (c.after fs).keep.delayAnalysis
      obtain ⟨hnot, hmay, -⟩ := hspec.static h
      have hana : (c.after fs).keep.delayAnalysis = c.analysis.serial :=
        hspec.analysis.resolve_left fun hm => by cases hm.2.static.symm.trans h
      have hrej : (c.after fs).keep.staticRejectedAnalysis
          = (keepAfter fs).staticRejectedAnalysis := hspec.rejected.trans (if_neg hnot)
      rw [hrej, hana]
      rcases hmay with hgo | hne
      · -- the analysis of the state is the call's
        rw [FactorKeep.goStatic, Bool.and_eq_true, Bool.and_eq_true] at hgo
        exact of_decide_eq_true hgo.1.1 ▸ ih hgo.2
      · exact hne
    | fast => cases h
    | plain => exact ih h

/-- No call makes a static try of the analysis in the slot. -/
theorem slot_ne_of_triesStatic (h : (c.after fs).TriesStatic) :
    (keepAfter fs).staticRejectedAnalysis ≠ c.analysis.serial := by
  obtain ⟨b, hb⟩ := h
  rcases (callSpec c (keepAfter fs)).tried b hb with hgo | hne
  · rw [FactorKeep.goStatic, Bool.and_eq_true, Bool.and_eq_true] at hgo
    exact of_decide_eq_true hgo.1.1 ▸ static_slot fs hgo.2
  · exact hne

/-- The analysis in the slot had a static try rejected. -/
theorem exists_rejected (h : (keepAfter fs).staticRejectedAnalysis ≠ 0) :
    ∃ pre c post, fs = pre ++ .delay c :: post ∧
      c.analysis.serial = (keepAfter fs).staticRejectedAnalysis ∧ (c.after pre).Rejects := by
  induction fs using List.reverseRecOn with
  | nil => exact absurd rfl h
  | append_singleton fs f ih =>
    rw [keepAfter_snoc] at h ⊢
    have hold : (step (keepAfter fs) f).staticRejectedAnalysis
          = (keepAfter fs).staticRejectedAnalysis →
        ∃ pre c post, fs ++ [f] = pre ++ .delay c :: post ∧
          c.analysis.serial = (step (keepAfter fs) f).staticRejectedAnalysis ∧
          (c.after pre).Rejects := by
      intro hsame
      rw [hsame] at h ⊢
      obtain ⟨pre, c, post, hsplit, hserial, hrej⟩ := ih h
      exact ⟨pre, c, post ++ [f], by rw [hsplit, List.append_assoc]; rfl, hserial, hrej⟩
    cases f with
    | delay c =>
      have hspec := callSpec c (keepAfter fs)
      by_cases hrej : (c.after fs).Rejects
      · exact ⟨fs, c, [], rfl, (hspec.rejected.trans (if_pos hrej)).symm, hrej⟩
      · exact hold (hspec.rejected.trans (if_neg hrej))
    | fast => exact hold rfl
    | plain => exact hold rfl

/-- No call of the sequence takes the slot from another analysis. -/
def KeepsSlot (fs : List Factorization) : Prop :=
  ∀ pre c post, fs = pre ++ .delay c :: post → c.overwrites (keepAfter pre) = false

theorem KeepsSlot.of_append {fs fs' : List Factorization} (h : KeepsSlot (fs ++ fs')) :
    KeepsSlot fs := fun pre c post hsplit =>
  h pre c (post ++ fs') (by rw [hsplit, List.append_assoc]; rfl)

/-- As long as no call takes the slot from another analysis, it holds every analysis that
    had a static try rejected. -/
theorem KeepsSlot.slot (h : KeepsSlot fs) {pre post : List Factorization}
    (hsplit : fs = pre ++ .delay c :: post) (hrej : (c.after pre).Rejects) :
    (keepAfter fs).staticRejectedAnalysis = c.analysis.serial := by
  induction fs using List.reverseRecOn generalizing post with
  | nil => cases pre <;> cases hsplit
  | append_singleton fs f ih =>
    rw [keepAfter_snoc]
    rcases split_snoc hsplit with ⟨rfl, rfl, -⟩ | ⟨post', -, hfs⟩
    · exact (callSpec c (keepAfter pre)).rejected.trans (if_pos hrej)
    · have hold := ih h.of_append hfs
      cases f with
      | delay d =>
        change (d.after fs).keep.staticRejectedAnalysis = c.analysis.serial
        have hspec := callSpec d (keepAfter fs)
        by_cases hd : (d.after fs).Rejects
        · -- `d` is rejected, so the slot held no other analysis
          obtain ⟨hreach, hfails⟩ := (rejects_iff d (keepAfter fs)).mp hd
          have hover := h fs d [] rfl
          rw [Call.overwrites, hreach, hfails, hold, Bool.and_true, Bool.and_true] at hover
          refine (hspec.rejected.trans (if_pos hd)).trans ?_
          by_contra hne
          have hboth : c.analysis.serial ≠ 0 ∧ c.analysis.serial ≠ d.analysis.serial :=
            ⟨c.analysis.serial_ne_zero, Ne.symm hne⟩
          simp [hboth] at hover
        · exact (hspec.rejected.trans (if_neg hd)).trans hold
      | fast => exact hold
      | plain => exact hold

/-- The call `c`, its first try stopped by the work limit, with the fallback on. -/
def Call.cascading (c : Call) : Call :=
  { c with
    control := { c.control with staticFallback := true }
    run := fun
      | .auto _ _ => { status := .maxPivotDelays }
      | r => c.run r }

/-- With a state of another analysis and another one in the slot, a cascade goes the
    static path. -/
theorem cascading_triesStatic (hours : fkeep.delayAnalysis ≠ c.analysis.serial)
    (hslot : fkeep.staticRejectedAnalysis ≠ c.analysis.serial) :
    (c.cascading.factorScaleOnDelay fkeep).TriesStatic := by
  have hof : fkeep.ours c.cascading = false := decide_eq_false hours
  have hnext : fkeep.next c.cascading = false := by rw [FactorKeep.next, hof, Bool.false_and]
  have hno : fkeep.noMatching c.cascading = false := by
    rw [FactorKeep.noMatching, hof, Bool.false_and, Bool.false_and, Bool.false_and]
  have hgo : fkeep.goStatic c.cascading = false := by
    rw [FactorKeep.goStatic, hof, Bool.false_and, Bool.false_and]
  have hun : c.cascading.goesUnarmed fkeep = false := by
    rw [Call.goesUnarmed, hno, Bool.false_and]
  have hfirst : fkeep.firstTry c.cascading = true := by
    rw [FactorKeep.firstTry, hof, Bool.not_false, Bool.true_or, Bool.true_or]
  have hstatic : c.cascading.control.staticFallback = true ∧
      fkeep.cleared.staticRejectedAnalysis ≠ c.cascading.analysis.serial := ⟨rfl, hslot⟩
  have htrip : ¬(c.cascading.run (.auto (c.cascading.tryLimit false)
      (c.cascading.earlyStop false))).status ≠ .maxPivotDelays := not_not.mpr rfl
  rw [Call.factorScaleOnDelay, hun, if_neg Bool.false_ne_true, hgo, if_neg Bool.false_ne_true,
    hfirst, if_pos rfl, hnext, Call.tryFirst, if_neg fun h => Bool.false_ne_true h.1]
  dsimp only
  rw [if_neg htrip]
  split_ifs with hearly hs hs
  · exact triesStatic_tryStatic
  · exact absurd hstatic hs
  · exact triesStatic_tryStatic
  · exact absurd hstatic hs

/-- After every step a rejected static try stays the last of its analysis, whatever call
    comes next, if and only if no call of the sequence takes the slot from another
    analysis. -/
theorem rejectedOnce_iff (fs : List Factorization) :
    (∀ pre post c, fs = pre ++ post → RejectedOnce (pre ++ [.delay c])) ↔ KeepsSlot fs := by
  constructor
  · intro hlaw pre c post hsplit
    by_contra hover
    rw [Bool.not_eq_false, Call.overwrites, Bool.and_eq_true, Bool.and_eq_true, Bool.and_eq_true,
      decide_eq_true_eq, decide_eq_true_eq] at hover
    obtain ⟨⟨⟨hzero, hother⟩, hreach⟩, hfails⟩ := hover
    obtain ⟨pre₀, c₀, post₀, hpre, hserial, hrej⟩ := exists_rejected hzero
    rw [← hserial] at hother
    have hspec := callSpec c (keepAfter pre)
    have hslot : (c.after pre).keep.staticRejectedAnalysis = c.analysis.serial :=
      hspec.rejected.trans (if_pos ((rejects_iff c _).mpr ⟨hreach, hfails⟩))
    have hours : (c.after pre).keep.delayAnalysis ≠ c₀.analysis.serial := by
      rcases hspec.analysis with ⟨h0, -⟩ | hs
      · exact fun hc => c₀.analysis.serial_ne_zero (hc.symm.trans h0)
      · exact fun hc => hother (hc.symm.trans hs)
    -- the first analysis is factored once more, and its try trips
    refine hlaw (pre ++ [.delay c]) post c₀.cascading (by rw [hsplit, List.append_assoc]; rfl)
      pre₀ c₀ (post₀ ++ [.delay c]) c₀.cascading [] ?_ rfl hrej ?_
    · rw [hpre]
      simp only [List.append_assoc, List.cons_append, List.nil_append]
    · have hmid : pre₀ ++ .delay c₀ :: (post₀ ++ [.delay c]) = pre ++ [.delay c] := by
        rw [hpre, List.append_assoc]
        rfl
      rw [hmid, Call.after, keepAfter_snoc_delay]
      exact cascading_triesStatic hours fun hc => hother (hc.symm.trans hslot)
  · intro hkeeps pre post c hsplit a c₁ mid c₂ b hlist hserial hrej htries
    have hpre : ∃ rest, fs = (a ++ .delay c₁ :: mid) ++ rest := by
      rw [← List.cons_append, ← List.append_assoc] at hlist
      rcases split_snoc hlist with ⟨hpre, -, -⟩ | ⟨b', -, hpre⟩
      · exact ⟨post, hpre ▸ hsplit⟩
      · exact ⟨.delay c₂ :: b' ++ post, by rw [hsplit, hpre, List.append_assoc]⟩
    obtain ⟨rest, hrest⟩ := hpre
    rw [hrest] at hkeeps
    exact slot_ne_of_triesStatic htries ((hkeeps.of_append.slot rfl hrej).trans hserial.symm)

theorem firstSerial_ne_zero : 1 ≠ 0 := one_ne_zero

/-- An analysis of one entry, with matching scale 1. -/
def unitAnalysis (serial : ℕ) (h : serial ≠ 0) : Analysis where
  serial := serial
  serial_ne_zero := h
  freeWork := 1
  entries := 1
  values := [.finite 1]
  matchingScalePartial := false
  matchingScaleOf := fun _ => [1]
  staleness := fun _ _ => 0

/-- A call with the fallback on whose first try trips and whose static factor perturbs a
    pivot. -/
def rejectedCall (serial : ℕ) (h : serial ≠ 0) : Call where
  analysis := unitAnalysis serial h
  control := { staticFallback := true }
  values := [.finite 2]
  run := fun
    | .auto _ _ => { status := .maxPivotDelays }
    | .staticPath => { status := .success, staticPivots := 1 }
    | .scaled _ _ => { status := .success }
  probe := fun _ => 0

/-- Two analyses by turns: the second one's rejection takes the slot, and the first one's
    static path is tried again. -/
theorem rejectedOnce_alternating :
    ¬RejectedOnce [.delay (rejectedCall 1 one_ne_zero), .delay (rejectedCall 2 two_ne_zero),
      .delay (rejectedCall 1 one_ne_zero)] := by
  intro h
  refine h [] (rejectedCall 1 one_ne_zero) [.delay (rejectedCall 2 two_ne_zero)]
    (rejectedCall 1 one_ne_zero) [] rfl rfl ?_ ⟨true, ?_⟩
  · unfold Result.Rejects
    decide +kernel
  · decide +kernel

end Rejected

/-! ## Unarmed runs -/

/-- The call records a mode other than that there is no matching. -/
def RecordsMode (pre : List Factorization) : Factorization → Prop
  | .delay c => ¬(c.after pre).keep.Modeless
  | _ => False

/-- An earlier call of the analysis found no matching for values with this zero signature,
    and no other mode was recorded since. -/
def UnarmedJustified (pre : List Factorization) (c : Call) : Prop :=
  ∃ a c₀ b, pre = a ++ .delay c₀ :: b ∧ c₀.analysis.serial = c.analysis.serial ∧
    (c₀.after a).FoundNone ∧ zeroSignature c₀.values = zeroSignature c.values ∧
    ∀ x f y, b = x ++ f :: y → ¬RecordsMode (a ++ .delay c₀ :: x) f

/-- Every unarmed run is justified. -/
def UnarmedLaw (fs : List Factorization) : Prop :=
  ∀ pre c post, fs = pre ++ .delay c :: post → (c.after pre).TakesUnarmed →
    UnarmedJustified pre c

/-- The static mode is recorded for the analysis, the fallback is off, and the values have
    the zero signature that an earlier mode left. -/
def Call.staleUnarmed (c : Call) (fkeep : FactorKeep) : Bool :=
  fkeep.ours c && fkeep.delayStatic && !c.control.staticFallback &&
    zeroSignature c.values = fkeep.delaySignature

def NoStale (fs : List Factorization) : Prop :=
  ∀ pre c post, fs = pre ++ .delay c :: post → c.staleUnarmed (keepAfter pre) = false

section Unarmed

variable {c : Call} {fs : List Factorization}

theorem takesUnarmed_iff : (c.after fs).TakesUnarmed ↔ c.goesUnarmed (keepAfter fs) = true :=
  (callSpec c (keepAfter fs)).unarmed

/-- With the static mode recorded no other one is. -/
theorem static_exclusive (fs : List Factorization) (h : (keepAfter fs).delayStatic = true) :
    (keepAfter fs).delayNext = false ∧ (keepAfter fs).delayScale = [] := by
  induction fs using List.reverseRecOn with
  | nil => cases h
  | append_singleton fs f ih =>
    rw [keepAfter_snoc] at h ⊢
    cases f with
    | delay c => exact ((callSpec c (keepAfter fs)).static h).2.2
    | fast => cases h
    | plain => exact ih h

/-- With no analysis recorded there is no mode. -/
theorem modeless_of_none (fs : List Factorization) (h : (keepAfter fs).delayAnalysis = 0) :
    (keepAfter fs).Modeless := by
  induction fs using List.reverseRecOn with
  | nil => exact ⟨rfl, rfl, rfl⟩
  | append_singleton fs f ih =>
    rw [keepAfter_snoc] at h ⊢
    cases f with
    | delay c =>
      rcases (callSpec c (keepAfter fs)).analysis with ⟨-, hm⟩ | hs
      · exact hm
      · exact absurd (hs.symm.trans h) c.analysis.serial_ne_zero
    | fast => exact (keepAfter fs).cleared_modeless
    | plain => exact ih h

theorem staleUnarmed_iff : c.staleUnarmed (keepAfter fs) = true ↔
    c.goesUnarmed (keepAfter fs) = true ∧ (keepAfter fs).delayStatic = true := by
  cases hs : (keepAfter fs).delayStatic with
  | false => simp [Call.staleUnarmed, hs]
  | true =>
    obtain ⟨hn, hscale⟩ := static_exclusive fs hs
    simp only [Call.staleUnarmed, Call.goesUnarmed, FactorKeep.noMatching, FactorKeep.next,
      FactorKeep.goStatic, hs, hn, hscale]
    cases (keepAfter fs).ours c <;> cases c.control.staticFallback <;> simp

/-- What an unarmed run finds when the static mode is not recorded. -/
theorem of_goesUnarmed {fkeep : FactorKeep} (h : c.goesUnarmed fkeep = true)
    (hs : fkeep.delayStatic = false) : fkeep.delayAnalysis = c.analysis.serial ∧
      fkeep.Modeless ∧ zeroSignature c.values = fkeep.delaySignature := by
  rw [Call.goesUnarmed, FactorKeep.noMatching, Bool.and_eq_true, Bool.and_eq_true,
    Bool.and_eq_true, Bool.and_eq_true, Bool.not_eq_true', decide_eq_true_eq] at h
  obtain ⟨⟨⟨⟨hours, hnext⟩, -⟩, hscale⟩, hsig⟩ := h
  rw [FactorKeep.next, hours, Bool.true_and] at hnext
  exact ⟨of_decide_eq_true hours, ⟨hnext, hs, List.isEmpty_iff.mp hscale⟩, hsig⟩

/-- When a mode is recorded, every call that found no matching came before the call that
    recorded it. -/
theorem recordsMode_of_not_modeless (h : ¬(keepAfter fs).Modeless) {a b : List Factorization}
    (hsplit : fs = a ++ .delay c :: b) (hnone : (c.after a).FoundNone) :
    ∃ x f y, b = x ++ f :: y ∧ RecordsMode (a ++ .delay c :: x) f := by
  induction fs using List.reverseRecOn generalizing b with
  | nil => exact absurd (modeless_of_none [] rfl) h
  | append_singleton fs f ih =>
    rw [keepAfter_snoc] at h
    rcases split_snoc hsplit with ⟨rfl, rfl, rfl⟩ | ⟨b', rfl, hfs⟩
    · exact absurd ((callSpec c (keepAfter a)).foundNone hnone.1 hnone.2).2.1 h
    · cases f with
      | delay d => exact ⟨b', .delay d, [], rfl, hfs ▸ h⟩
      | fast => exact absurd (keepAfter fs).cleared_modeless h
      | plain =>
        obtain ⟨x, f, y, rfl, hrec⟩ := ih h hfs
        exact ⟨x, f, y ++ [.plain], by rw [List.append_assoc]; rfl, hrec⟩

/-- With no stale run so far, a state without a mode is that of an analysis that found no
    matching. -/
theorem NoStale.foundNone (h : NoStale fs) (hana : (keepAfter fs).delayAnalysis ≠ 0)
    (hm : (keepAfter fs).Modeless) :
    ∃ a c₀ b, fs = a ++ .delay c₀ :: b ∧ c₀.analysis.serial = (keepAfter fs).delayAnalysis ∧
      (c₀.after a).FoundNone ∧ zeroSignature c₀.values = (keepAfter fs).delaySignature ∧
      ∀ x f y, b = x ++ f :: y → ¬RecordsMode (a ++ .delay c₀ :: x) f := by
  induction fs using List.reverseRecOn with
  | nil => exact absurd rfl hana
  | append_singleton fs f ih =>
    rw [keepAfter_snoc] at hana hm ⊢
    -- what was justified before `f` is so after it
    have hlater : ∀ {k : FactorKeep}, k = step (keepAfter fs) f → ¬RecordsMode fs f →
        (∃ a c₀ b, fs = a ++ .delay c₀ :: b ∧ c₀.analysis.serial = k.delayAnalysis ∧
          (c₀.after a).FoundNone ∧ zeroSignature c₀.values = k.delaySignature ∧
          ∀ x f y, b = x ++ f :: y → ¬RecordsMode (a ++ .delay c₀ :: x) f) →
        ∃ a c₀ b, fs ++ [f] = a ++ .delay c₀ :: b ∧
          c₀.analysis.serial = (step (keepAfter fs) f).delayAnalysis ∧
          (c₀.after a).FoundNone ∧
          zeroSignature c₀.values = (step (keepAfter fs) f).delaySignature ∧
          ∀ x f y, b = x ++ f :: y → ¬RecordsMode (a ++ .delay c₀ :: x) f := by
      rintro k rfl hrec ⟨a, c₀, b, hfs, hserial, hnone, hsig, hlast⟩
      refine ⟨a, c₀, b ++ [f], by rw [hfs, List.append_assoc]; rfl, hserial, hnone, hsig, ?_⟩
      intro x g y hxy
      rcases split_snoc hxy with ⟨rfl, rfl, -⟩ | ⟨y', -, hb⟩
      · rwa [← hfs]
      · exact hlast x g y' hb
    cases f with
    | delay c =>
      have hspec := callSpec c (keepAfter fs)
      have hserial : (c.after fs).keep.delayAnalysis = c.analysis.serial :=
        hspec.analysis.resolve_left fun h0 => hana h0.1
      rcases hspec.noMatching hserial hm with ⟨hmatch, hran, hsig⟩ | ⟨hun, hsig⟩
      · exact ⟨fs, c, [], rfl, hserial.symm, ⟨hmatch, hran⟩, hsig.symm,
          fun x g y hxy => (by cases x <;> cases hxy)⟩
      · have hgoes := hspec.unarmed.mp hun
        have hstatic : (keepAfter fs).delayStatic = false := by
          by_contra hs
          have hstale := h fs c [] rfl
          rw [staleUnarmed_iff.mpr ⟨hgoes, Bool.not_eq_false _ ▸ hs⟩] at hstale
          cases hstale
        obtain ⟨hours, hmodeless, -⟩ := of_goesUnarmed hgoes hstatic
        have hbefore := ih (fun pre d post hfs => h pre d (post ++ [.delay c])
            (by rw [hfs, List.append_assoc]; rfl))
          (hours ▸ c.analysis.serial_ne_zero) hmodeless
        refine hlater rfl (not_not.mpr hm) ?_
        change ∃ a c₀ b, fs = a ++ .delay c₀ :: b ∧
          c₀.analysis.serial = (c.after fs).keep.delayAnalysis ∧ (c₀.after a).FoundNone ∧
          zeroSignature c₀.values = (c.after fs).keep.delaySignature ∧ _
        have hsig' : (c.after fs).keep.delaySignature = (keepAfter fs).delaySignature := hsig
        rw [hserial, hsig', ← hours]
        exact hbefore
    | fast => exact absurd rfl hana
    | plain =>
      refine hlater rfl not_false (ih (fun pre d post hfs => h pre d (post ++ [.plain])
        (by rw [hfs, List.append_assoc]; rfl)) hana hm)

/-- A stale run is not justified: the static mode was recorded since. -/
theorem UnarmedLaw.noStale (hlaw : UnarmedLaw fs) : NoStale fs := by
  intro pre c post hsplit
  by_contra hstale
  obtain ⟨hgoes, hstatic⟩ := staleUnarmed_iff.mp (Bool.not_eq_false _ ▸ hstale)
  obtain ⟨a, c₀, b, hpre, -, hnone, -, hlast⟩ :=
    hlaw pre c post hsplit (takesUnarmed_iff.mpr hgoes)
  have hmode : ¬(keepAfter pre).Modeless := fun hm => by cases hm.static.symm.trans hstatic
  obtain ⟨x, f, y, hb, hrec⟩ := recordsMode_of_not_modeless hmode hpre hnone
  exact hlast x f y hb hrec

theorem NoStale.unarmedLaw (hno : NoStale fs) : UnarmedLaw fs := by
  intro pre c post hsplit hun
  have hgoes := takesUnarmed_iff.mp hun
  have hstatic : (keepAfter pre).delayStatic = false := by
    by_contra hs
    have hstale := hno pre c post hsplit
    rw [staleUnarmed_iff.mpr ⟨hgoes, Bool.not_eq_false _ ▸ hs⟩] at hstale
    cases hstale
  obtain ⟨hours, hm, hsig⟩ := of_goesUnarmed hgoes hstatic
  have hpre : NoStale pre := fun a d b hab => hno a d (b ++ .delay c :: post)
    (by rw [hsplit, hab, List.append_assoc]; rfl)
  obtain ⟨a, c₀, b, hsplit', hserial, hnone, hsig', hlast⟩ :=
    hpre.foundNone (hours ▸ c.analysis.serial_ne_zero) hm
  exact ⟨a, c₀, b, hsplit', hserial.trans hours, hnone, hsig'.trans hsig.symm, hlast⟩

/-- Every unarmed run of a sequence is justified if and only if no call finds the static
    mode of its analysis with the fallback off and the stored zero signature. -/
theorem unarmedLaw_iff (fs : List Factorization) : UnarmedLaw fs ↔ NoStale fs :=
  ⟨UnarmedLaw.noStale, NoStale.unarmedLaw⟩

/-- Three entries, the first and the last of them zero: of diag(0, 1, 0) and of the
    exchange matrix. -/
def zeroOneZero : List Value := [.finite 0, .finite 1, .finite 0]

/-- A call for diag(0, 1, 0), which has no matching scaling; its first try trips. -/
def singularCall : Call where
  analysis := { unitAnalysis 2 two_ne_zero with
    entries := 3, values := zeroOneZero, matchingScaleOf := fun _ => [] }
  control := { staticFallback := false }
  values := zeroOneZero
  run := fun
    | .auto limit _ => if limit < 0 then { status := .success } else { status := .maxPivotDelays }
    | _ => { status := .success }
  probe := fun _ => 0

/-- A call for the exchange matrix that is let through with five times the delay-free
    work. -/
def costlyCall (fallback : Bool) : Call where
  analysis := { unitAnalysis 1 firstSerial_ne_zero with
    entries := 3, values := zeroOneZero, matchingScaleOf := fun _ => [1, 1] }
  control := { staticFallback := fallback }
  values := zeroOneZero
  run := fun _ => { status := .success, frontWork := 5 }
  probe := fun _ => 0

/-- The second analysis' signature is left over: with the fallback off the first one runs
    unarmed, though no matching was ever computed for it. -/
theorem unarmedLaw_stale :
    ¬UnarmedLaw [.delay singularCall, .delay (costlyCall true), .delay (costlyCall false)] := by
  intro h
  have hstale : (costlyCall false).staleUnarmed
      (keepAfter [.delay singularCall, .delay (costlyCall true)]) = true := by decide +kernel
  have hno := h.noStale [.delay singularCall, .delay (costlyCall true)] (costlyCall false) [] rfl
  cases hno.symm.trans hstale

end Unarmed

end Factor
end SmfSolver
