/-
  SmfSolver.Plugin.HandleLaws

  What a solve through the MA97 handles used, in any sequence of calls on any handles.

  The last factor call of a handle is read off the record of the calls (`asked`), together
  with the engine runs made for it.  The invariant (`Inv`) says of each `fkeep` that its
  generation is current only while the session's factor is the one of that call.

  A session's indefinite factorization leaves a band factor in place, and a solve reads the
  band factor first: the laws are for the runs in which no indefinite factor call finds one
  (`InOrder`), and `solve_of_stale_band` is a run that does.
-/
import SmfSolver.Plugin.SessionNumbers
import SmfSolver.Lib.Trace

namespace SmfSolver
namespace Plugin

open Session Lib

variable {Φ : Type}

/-! ## The laws -/

/-- The last factor call of a handle that got to a factorization: its session, values and
    flag, the engine's runs for it since, and whether another handle has factored in the
    session since. -/
structure Asked (Φ : Type) where
  session : ℕ
  values : List ℚ
  runs : List (EngineRun PluginFields Φ)
  flag : ℤ
  replaced : Bool

/-- What an event makes of the last factor call of `f`. -/
def record (f : ℕ) (r : Option (Asked Φ)) : Event Φ → Option (Asked Φ)
  | .factor _ g (some i) _ values runs flag =>
    if runs.isEmpty then r
    else if g = f then some ⟨i, values, runs, flag, false⟩
    else r.map fun r => { r with replaced := r.replaced || decide (r.session = i) }
  | .solve g _ _ run _ _ =>
    if g = f then r.map fun r => { r with runs := r.runs ++ run.toList } else r
  | _ => r

def asked (f : ℕ) (H : List (Event Φ)) : Option (Asked Φ) := H.foldl (record f) none

/-- A solve that returned 0 read the numbers of a factorization that ran to the end, of the
    values of the last factor call with its handle; that call's flag was not negative. -/
def SolvesLast (H : List (Event Φ)) : Prop :=
  ∀ f x x' run used, AtEach H (.solve f x x' run used 0) fun pre =>
    ∃ r e, asked f (pre ++ [.solve f x x' run used 0]) = some r ∧ 0 ≤ r.flag ∧
      r.runs.getLast? = some e ∧ e.outcome.ending.runsToEnd = true ∧
      e.outcome.numeric = used ∧ e.request.values = r.values

/-- A solve whose factor was replaced through another handle, or whose last factorization
    or its completion failed, returns a negative flag and leaves the right-hand side. -/
def RefusesStale (H : List (Event Φ)) : Prop :=
  ∀ f x x' run used flag, AtEach H (.solve f x x' run used flag) fun pre =>
    ∀ r, asked f (pre ++ [.solve f x x' run used flag]) = some r →
      (r.replaced = true ∨ r.flag < 0 ∨
        ∃ e, r.runs.getLast? = some e ∧ e.outcome.ending.runsToEnd = false) →
      flag < 0 ∧ x' = x

/-- A factor call that was turned down before it factored. -/
def Rejected : Event Φ → Prop
  | .factor _ _ _ _ _ runs flag => runs = [] ∧ flag < 0
  | _ => False

/-- A sequence of solves. -/
inductive Solves (env : Environment) : Ma97 Φ → List (Event Φ) → Ma97 Φ → Prop
  | nil {p} : Solves env p [] p
  | cons {p q r f x x' run used flag es}
      (h : Ma97.Step env p (.solve f x x' run used flag) q) (hrest : Solves env q es r) :
      Solves env p (.solve f x x' run used flag :: es) r

/-- No factor call factors as indefinite in a session whose factor has a band factor, or when
    the session's generation could wrap around. -/
def InOrder (p : Ma97 Φ) : Event Φ → Prop
  | .factor _ _ (some i) type _ (_ :: _) _ =>
    (type = .indefinite → (p.sessions i).session.fk.useBandedSpd = false) ∧
      (p.sessions i).factorGeneration.toNat + 3 < 2 ^ 64
  | _ => True

/-! ## One factor call -/

section Factor

variable {env : Environment} {values : List ℚ} {t t' : Shared Φ} {c c'' : Ctrl}
  {scale : Option (List ℚ)} {status : IpmFactorStatus} {call : Ma97ScalingCall}
  {run : Option (EngineRun PluginFields Φ)} {runs : List (EngineRun PluginFields Φ)}

theorem prepared_frame : numbers (t.prepared c scale) = numbers t.session ∧
    (t.prepared c scale).ak = t.session.ak ∧
    (t.prepared c scale).ctrl.matrixType = c.matrixType := by
  cases scale <;> exact ⟨rfl, rfl, rfl⟩

/-- What a session must be to be factored with `values` under the type of `c`. -/
structure Ready (s : IpmSession PluginFields Φ) (values : List ℚ) (c : Ctrl) : Prop where
  n : 0 < s.mat.n
  length : values.length = s.inputNnz
  band : c.matrixType = .indefinite → s.fk.useBandedSpd = false

/-- What `IpmSession::factor` calls leave, all of the same values: without an analysis no
    run was made, otherwise the last one backs the factor. -/
structure FactoredBy (t t' : Shared Φ) (values : List ℚ) (c : Ctrl)
    (runs : List (EngineRun PluginFields Φ)) : Prop where
  pattern : SamePattern t.session t'.session
  placed : t'.session.placed values = t.session.placed values
  cases : runs = [] ∧ t.session.ak = none ∧ t'.session.ak = none ∨
    runs ≠ [] ∧ t'.session.ak.isSome = true ∧
      Backed t'.session (t.session.placed values) runs ∧
      (c.matrixType = .indefinite → t'.session.fk.useBandedSpd = false)

theorem attempt_none (h : Attempt values t c scale status none t')
    (hn : 0 < t.session.mat.n) (hlen : values.length = t.session.inputNnz) :
    status = .error ∧ t.session.ak = none ∧ t'.session.ak = none ∧
      SamePattern t.session t'.session := by
  cases h with
  | mk h =>
    obtain ⟨hnum, hak, -⟩ : numbers (t.prepared c scale) = numbers t.session ∧ _ := prepared_frame
    have hmat : (t.prepared c scale).mat = t.session.mat := congrArg Numbers.mat hnum
    have hnone := factor_none h (hmat.symm ▸ hn) (hlen.trans (congrArg Numbers.inputNnz hnum).symm)
    obtain ⟨hstatus, hs, hu, hsame⟩ := hnone
    exact ⟨hstatus, hak ▸ hs, hu, (SamePattern.of_numbers hnum).trans hsame⟩

/-- Without a run there is no analysis. -/
theorem attempts_nil (h : Attempts env values t c call scale c'' status [] t')
    (hn : 0 < t.session.mat.n) (hlen : values.length = t.session.inputNnz) :
    t.session.ak = none ∧ t'.session.ak = none ∧ SamePattern t.session t'.session := by
  generalize hruns : ([] : List (EngineRun PluginFields Φ)) = runs at h
  cases h with
  | @once _ run _ h =>
    cases run with
    | none => exact (attempt_none h hn hlen).2
    | some e => cases hruns
  | @rescaled run _ _ _ _ _ h =>
    -- the first attempt was singular
    cases run with
    | none => exact absurd (attempt_none h hn hlen).1 nofun
    | some e => cases hruns
  | @restored run _ _ _ _ _ _ _ _ h =>
    cases run with
    | none => exact absurd (attempt_none h hn hlen).1 nofun
    | some e => cases hruns

theorem attempt_spec (h : Attempt values t c scale status run t')
    (hready : Ready t.session values c) :
    FactoredBy t t' values c run.toList ∧ t'.factorGeneration = t.factorGeneration + 1 ∧
      (run = none → status = .error) := by
  cases h with
  | @mk u h =>
    obtain ⟨hnum, hak, htype⟩ : numbers (t.prepared c scale) = numbers t.session ∧ _ :=
      prepared_frame
    have hmat : (t.prepared c scale).mat = t.session.mat := congrArg Numbers.mat hnum
    have hmap : (t.prepared c scale).entryMap = t.session.entryMap :=
      congrArg Numbers.entryMap hnum
    -- preparing the session changes neither its pattern nor where the values go
    have hplaced : (t.prepared c scale).placed values = t.session.placed values := by
      unfold IpmSession.placed
      rw [hmap, hmat]
    have hband : (t.prepared c scale).ctrl.matrixType = .indefinite →
        (t.prepared c scale).fk.useBandedSpd = false := fun hi =>
      (congrArg Numbers.banded hnum).trans (hready.band (htype.symm.trans hi))
    obtain ⟨humat, hsame, hcases⟩ := factor_spec h (hmat.symm ▸ hready.n)
      (hready.length.trans (congrArg Numbers.inputNnz hnum).symm) hband
    have hpattern : SamePattern t.session u := (SamePattern.of_numbers hnum).trans hsame
    have hnone : run = none → status = .error ∧ t.session.ak = none ∧ u.ak = none := by
      rintro rfl
      obtain ⟨hstatus, ht, hu, -⟩ := attempt_none (.mk h) hready.n hready.length
      exact ⟨hstatus, ht, hu⟩
    refine ⟨⟨hpattern, ?_, ?_⟩, rfl, fun hr => (hnone hr).1⟩
    · rw [← hplaced]
      exact placed_of_mat hsame.entryMap humat
    · rcases hcases with hr | ⟨e, hr, hu, hback, hclean⟩
      · exact .inl ⟨by rw [hr]; rfl, (hnone hr).2⟩
      · refine .inr ⟨by rw [hr]; exact nofun, hu, ?_, fun hi => hclean (htype.trans hi)⟩
        rw [← hplaced, hr]
        exact hback

/-- After a run, the session is ready for another. -/
theorem FactoredBy.ready {c' : Ctrl} (h : FactoredBy t t' values c runs)
    (hready : Ready t.session values c) (hne : runs ≠ []) (htype : c'.matrixType = c.matrixType) :
    Ready t'.session values c' := by
  rcases h.cases with ⟨he, -⟩ | ⟨-, -, -, hclean⟩
  · exact absurd he hne
  · exact ⟨h.pattern.n ▸ hready.n, hready.length.trans h.pattern.inputNnz.symm,
      fun hi => hclean (htype ▸ hi)⟩

/-- Another attempt after a run. -/
theorem FactoredBy.attempt {t₁ : Shared Φ} {c' : Ctrl} (h : FactoredBy t t₁ values c runs)
    (hne : runs ≠ []) (h' : FactoredBy t₁ t' values c' run.toList)
    (htype : c'.matrixType = c.matrixType) : FactoredBy t t' values c (runs ++ run.toList) := by
  refine ⟨h.pattern.trans h'.pattern, h'.placed.trans h.placed, .inr ?_⟩
  rcases h.cases with ⟨he, -⟩ | ⟨-, hak, -, -⟩
  · exact absurd he hne
  rcases h'.cases with ⟨-, hnone, -⟩ | ⟨hne', hak', hback, hclean⟩
  · rw [hnone] at hak
    cases hak
  · cases run with
    | none => exact absurd rfl hne'
    | some e =>
      rw [h.placed] at hback
      exact ⟨List.append_ne_nil_of_left_ne_nil hne _, hak', hback.append runs,
        fun hi => hclean (htype ▸ hi)⟩

theorem attempts_spec (h : Attempts env values t c call scale c'' status runs t')
    (hready : Ready t.session values c) :
    FactoredBy t t' values c runs ∧ ∃ k : ℕ, k < 3 ∧
      t'.factorGeneration = t.factorGeneration + UInt64.ofNat (k + 1) := by
  have htype : (if call.computed then withoutSlack c else c).matrixType = c.matrixType := by
    split <;> rfl
  have hfirst : Ready t.session values (if call.computed then withoutSlack c else c) :=
    ⟨hready.n, hready.length, fun hi => hready.band (htype ▸ hi)⟩
  have hretype : ∀ {u : Shared Φ} {r : List (EngineRun PluginFields Φ)},
      FactoredBy t u values (if call.computed then withoutSlack c else c) r →
      FactoredBy t u values c r := by
    intro u r h
    refine ⟨h.pattern, h.placed, h.cases.imp id fun ⟨hne, hak, hback, hclean⟩ =>
      ⟨hne, hak, hback, fun hi => hclean (htype.trans hi)⟩⟩
  -- a singular factor is one that the engine made
  have hsome : ∀ {u : Shared Φ} {r : Option (EngineRun PluginFields Φ)} {st : IpmFactorStatus},
      (r = none → st = .error) → st ≠ .error → r.toList ≠ [] := by
    intro u r st hr hst
    cases r with
    | none => exact absurd (hr rfl) hst
    | some e => exact nofun
  cases h with
  | once h =>
    obtain ⟨hby, hgen, -⟩ := attempt_spec h hfirst
    exact ⟨hretype hby, 0, by decide, hgen⟩
  | rescaled hretry h h' hok =>
    obtain ⟨hby, hgen, hr⟩ := attempt_spec h hfirst
    have hne := hsome (u := t) hr nofun
    obtain ⟨hby', hgen', -⟩ := attempt_spec h' ((hretype hby).ready hready hne rfl)
    refine ⟨(hretype hby).attempt hne hby' rfl, 1, by decide, ?_⟩
    rw [hgen', hgen, UInt64.add_assoc]
    rfl
  | restored hretry h h' hbad h'' =>
    obtain ⟨hby, hgen, hr⟩ := attempt_spec h hfirst
    have hne := hsome (u := t) hr nofun
    obtain ⟨hby', hgen', -⟩ := attempt_spec h' ((hretype hby).ready hready hne rfl)
    have htwo := (hretype hby).attempt hne hby' rfl
    have hne' := List.append_ne_nil_of_left_ne_nil hne
    obtain ⟨hby'', hgen'', -⟩ := attempt_spec h'' (htwo.ready hready (hne' _) rfl)
    refine ⟨htwo.attempt (hne' _) hby'' rfl, 2, by decide, ?_⟩
    rw [hgen'', hgen', hgen, UInt64.add_assoc, UInt64.add_assoc]
    rfl

/-- Each factor call makes a new generation. -/
theorem generation_lt {g g' : UInt64} (h : ∃ k : ℕ, k < 3 ∧ g' = g + UInt64.ofNat (k + 1))
    (hwrap : g.toNat + 3 < 2 ^ 64) : g.toNat < g'.toNat := by
  obtain ⟨k, hk, rfl⟩ := h
  have hk' : (UInt64.ofNat (k + 1)).toNat = k + 1 := by
    rw [UInt64.toNat_ofNat']
    exact Nat.mod_eq_of_lt (by omega)
  rw [UInt64.toNat_add, hk', Nat.mod_eq_of_lt (by omega)]
  omega

end Factor

/-! ## The invariant -/

/-- What an `fkeep` stands for: it is current only while the session's factor is the one of
    its last factor call `r`. -/
structure Stands (t : Shared Φ) (fw : SmfFkeep) (r : Asked Φ) : Prop where
  session : r.session = fw.session
  flag : 0 ≤ r.flag
  analysed : t.session.ak.isSome = true
  generation_le : fw.generation.toNat ≤ t.factorGeneration.toNat
  current : fw.generation = t.factorGeneration →
    r.replaced = false ∧ Backed t.session r.values r.runs

structure Inv (H : List (Event Φ)) (p : Ma97 Φ) : Prop where
  akeep : ∀ a ak, p.akeeps a = some ak → ak.session < p.nextSession ∧
    0 < (p.sessions ak.session).session.mat.n ∧
    (p.sessions ak.session).session.inputNnz = ak.sortPerm.length
  fkeep : ∀ f fw, p.fkeeps f = some fw → fw.session < p.nextSession ∧
    ∃ r, asked f H = some r ∧ Stands (p.sessions fw.session) fw r
  unique : ∀ f g fw fw', p.fkeeps f = some fw → p.fkeeps g = some fw' →
    fw.session = fw'.session → fw.generation = (p.sessions fw.session).factorGeneration →
    fw'.generation = (p.sessions fw.session).factorGeneration → f = g

section Steps

variable {env : Environment} {H : List (Event Φ)} {p q : Ma97 Φ} {ev : Event Φ} {f a i : ℕ}

theorem asked_snoc : asked f (H ++ [ev]) = record f (asked f H) ev := by
  rw [asked, List.foldl_append]
  rfl

theorem asked_solve_none {x x' : Option (List ℚ)} {used : Option Φ} {flag : ℤ} {g : ℕ} :
    asked f (H ++ [.solve g x x' none used flag]) = asked f H := by
  rw [asked_snoc]
  show (if g = f then (asked f H).map (fun r => { r with runs := r.runs ++ [] }) else _) = _
  split
  next =>
    cases asked f H with
    | none => rfl
    | some r => rw [Option.map_some, List.append_nil]
  next => rfl

/-- An event that is no handle's factor call. -/
theorem Inv.event (h : Inv H p) (hev : ∀ f, asked f (H ++ [ev]) = asked f H) :
    Inv (H ++ [ev]) p :=
  ⟨h.akeep, fun f fw hf => by rw [hev f]; exact h.fkeep f fw hf, h.unique⟩

theorem Inv.setAkeep (h : Inv H p) {new : Option SmfAkeep}
    (hnew : ∀ ak, new = some ak → ak.session < p.nextSession ∧
      0 < (p.sessions ak.session).session.mat.n ∧
      (p.sessions ak.session).session.inputNnz = ak.sortPerm.length) :
    Inv H (p.setAkeep a new) := by
  refine ⟨fun a' ak hak => ?_, h.fkeep, h.unique⟩
  change Function.update p.akeeps a new a' = some ak at hak
  rcases eq_or_ne a' a with rfl | hne
  · exact hnew ak ((Function.update_self a' new p.akeeps).symm.trans hak)
  · exact h.akeep a' ak ((Function.update_of_ne hne new p.akeeps).symm.trans hak)

theorem Inv.nullAkeep (h : Inv H p) : Inv H (p.setAkeep a none) :=
  h.setAkeep fun ak hak => by cases hak

theorem Inv.freeFkeep (h : Inv H p) : Inv H (p.setFkeep f none) := by
  have hold : ∀ {g fw}, Function.update p.fkeeps f none g = some fw → p.fkeeps g = some fw := by
    intro g fw hg
    rcases eq_or_ne g f with rfl | hne
    · rw [Function.update_self] at hg
      cases hg
    · rwa [Function.update_of_ne hne] at hg
  exact ⟨h.akeep, fun g fw hg => h.fkeep g fw (hold hg),
    fun g g' fw fw' hg hg' => h.unique g g' fw fw' (hold hg) (hold hg')⟩

/-- The session of an `akeep` is replaced by `t`, of the same pattern: what is asked of the
    handles is asked of those of that session only. -/
theorem Inv.setSession (h : Inv H p) {t : Shared Φ} (hi : i < p.nextSession)
    (hsame : SamePattern (p.sessions i).session t.session) {new : Option SmfFkeep}
    (hother : ∀ g fw, g ≠ f → p.fkeeps g = some fw → ∃ r, asked g (H ++ [ev]) = some r ∧
      Stands (if fw.session = i then t else p.sessions fw.session) fw r)
    (hnew : ∀ fw, new = some fw → fw.session = i ∧ ∃ r, asked f (H ++ [ev]) = some r ∧
      Stands t fw r)
    (hunique : ∀ g fw, g ≠ f → p.fkeeps g = some fw → fw.session = i →
      fw.generation ≠ t.factorGeneration) :
    Inv (H ++ [ev]) ((p.setSession i t).setFkeep f new) := by
  have hat : ∀ j, Function.update p.sessions i t j = if j = i then t else p.sessions j :=
    fun j => Function.update_apply ..
  -- of the factor handles only `f` changes
  have hcases : ∀ {g fw}, Function.update p.fkeeps f new g = some fw →
      g = f ∧ new = some fw ∨ g ≠ f ∧ p.fkeeps g = some fw := by
    intro g fw hg
    rcases eq_or_ne g f with rfl | hne
    · exact .inl ⟨rfl, (Function.update_self g new p.fkeeps).symm.trans hg⟩
    · exact .inr ⟨hne, (Function.update_of_ne hne new p.fkeeps).symm.trans hg⟩
  refine ⟨fun a ak hak => ?_, fun g fw hg => ?_, fun g g' fw fw' hg hg' hs hcur hcur' => ?_⟩
  · obtain ⟨hlt, hn, hnnz⟩ := h.akeep a ak hak
    refine ⟨hlt, ?_⟩
    show 0 < (Function.update p.sessions i t ak.session).session.mat.n ∧
      (Function.update p.sessions i t ak.session).session.inputNnz = ak.sortPerm.length
    rw [hat]
    split
    next he => exact ⟨hsame.n.symm ▸ he ▸ hn, hsame.inputNnz.trans (he ▸ hnnz)⟩
    next => exact ⟨hn, hnnz⟩
  · show fw.session < p.nextSession ∧ ∃ r, asked g (H ++ [ev]) = some r ∧
      Stands (Function.update p.sessions i t fw.session) fw r
    rw [hat]
    rcases hcases hg with ⟨rfl, hfw⟩ | ⟨hne, hfw⟩
    · obtain ⟨hsession, hr⟩ := hnew fw hfw
      rw [if_pos hsession]
      exact ⟨hsession ▸ hi, hr⟩
    · exact ⟨(h.fkeep g fw hfw).1, hother g fw hne hfw⟩
  · change fw.generation = (Function.update p.sessions i t fw.session).factorGeneration at hcur
    change fw'.generation = (Function.update p.sessions i t fw.session).factorGeneration at hcur'
    rw [hat] at hcur hcur'
    rcases hcases hg with ⟨rfl, hfw⟩ | ⟨hne, hfw⟩ <;>
      rcases hcases hg' with ⟨rfl, hfw'⟩ | ⟨hne', hfw'⟩
    · rfl
    · have hi' : fw.session = i := (hnew fw hfw).1
      rw [if_pos hi'] at hcur'
      exact absurd hcur' (hunique g' fw' hne' hfw' (hs.symm.trans hi'))
    · have hi' : fw.session = i := hs.trans (hnew fw' hfw').1
      rw [if_pos hi'] at hcur
      exact absurd hcur (hunique g fw hne hfw hi')
    · by_cases he : fw.session = i
      · rw [if_pos he] at hcur
        exact absurd hcur (hunique g fw hne hfw he)
      · rw [if_neg he] at hcur hcur'
        exact h.unique g g' fw fw' hfw hfw' hs hcur hcur'

/-- A session that no handle has factored in may change. -/
theorem Inv.unused (h : Inv H p) {t : Shared Φ}
    (hsame : SamePattern (p.sessions i).session t.session)
    (hnone : (p.sessions i).session.ak = none) : Inv H (p.setSession i t) := by
  have hne : ∀ {f fw}, p.fkeeps f = some fw →
      (p.setSession i t).sessions fw.session = p.sessions fw.session := by
    intro f fw hf
    refine Function.update_of_ne (fun hi => ?_) _ _
    obtain ⟨-, r, -, hst⟩ := h.fkeep f fw hf
    have hak := hst.analysed
    rw [hi, hnone] at hak
    cases hak
  refine ⟨fun a ak hak => ?_, fun f fw hf => ?_, fun f g fw fw' hf hg hs hc hc' => ?_⟩
  · obtain ⟨hlt, hn, hnnz⟩ := h.akeep a ak hak
    refine ⟨hlt, ?_⟩
    rcases eq_or_ne ak.session i with hi | hi
    · have hself : (p.setSession i t).sessions i = t := Function.update_self ..
      rw [hi] at hn hnnz ⊢
      rw [hself]
      exact ⟨hsame.n.symm ▸ hn, hsame.inputNnz.trans hnnz⟩
    · have hother : (p.setSession i t).sessions ak.session = p.sessions ak.session :=
        Function.update_of_ne hi ..
      rw [hother]
      exact ⟨hn, hnnz⟩
  · rw [hne hf]
    exact h.fkeep f fw hf
  · rw [hne hf] at hc hc'
    exact h.unique f g fw fw' hf hg hs hc hc'

theorem applyMa97Control_type (c : Ctrl) (opt : Option Ma97Control) :
    (applyMa97Control env c opt).1.matrixType = c.matrixType := by
  unfold applyMa97Control
  cases opt with
  | none => rfl
  | some opt =>
    dsimp only
    split_ifs <;> rfl

theorem ma97ScalingCall_type (c : Ctrl) (rejected : Bool) (scale : Option (List ℚ)) :
    (ma97ScalingCall env c rejected scale).1.matrixType = c.matrixType := by
  unfold ma97ScalingCall
  dsimp only
  split_ifs <;> rfl

/-- What a factor call leaves in its `fkeep`. -/
theorem finishFactor_spec {ak : SmfAkeep} {old new : Option SmfFkeep} {t : Shared Φ}
    {status : IpmFactorStatus} {exact : Bool} {flag : ℤ} {fw : SmfFkeep}
    (h : finishFactor env ak old t status exact = (flag, new)) (hnew : new = some fw) :
    fw.session = ak.session ∧ fw.generation = t.factorGeneration ∧ 0 ≤ flag := by
  subst hnew
  unfold finishFactor at h
  dsimp only at h
  split_ifs at h <;> cases h <;> exact ⟨rfl, rfl, by decide⟩

/-- A session of the plugin after its analysis. -/
theorem analyse_spec {c : Ctrl} {n : ℕ} {entries : List Entry} {values : List ℚ} {refines : Bool}
    {found : Option Analysed} {status : ErrorCode} {s : IpmSession PluginFields Φ}
    (h : (IpmSession.start c).analyse (patternOf n entries) values c env.ipm refines found status =
      (s, .success)) : 0 < s.mat.n ∧ s.inputNnz = entries.length := by
  have hlen : (patternOf n entries).rowIdx.length = entries.length := List.length_map _
  have hadd : ∀ u : IpmSession PluginFields Φ, u.addDiagonal.mat.n = u.mat.n ∧
      u.addDiagonal.inputNnz = u.inputNnz := by
    intro u
    unfold IpmSession.addDiagonal
    dsimp only
    split <;> exact ⟨rfl, rfl⟩
  unfold IpmSession.analyse at h
  dsimp only at h
  -- the two refusals, then a pattern without values or an analysis at once
  split at h
  next => cases h
  next hok =>
    obtain ⟨hn, -⟩ := not_or.mp hok
    have hpos : 0 < ({ (IpmSession.start c).reset (patternOf n entries) c env.ipm with
        inputNnz := (patternOf n entries).rowIdx.length } : IpmSession PluginFields Φ).mat.n :=
      not_le.mp hn
    split at h
    next => cases h
    next =>
      obtain ⟨hmat, hnnz⟩ := hadd { (IpmSession.start c).reset (patternOf n entries) c env.ipm with
        inputNnz := (patternOf n entries).rowIdx.length }
      rw [← hmat] at hpos
      split at h
      next =>
        obtain rfl := (Prod.mk.inj h).1
        exact ⟨hpos, hnnz.trans hlen⟩
      next =>
        unfold IpmSession.runAnalysis at h
        split at h <;> obtain rfl := (Prod.mk.inj h).1 <;>
          exact ⟨hpos, hnnz.trans hlen⟩

theorem refusal_none {fw : SmfFkeep} {g : UInt64} {nrhs ldx job : ℤ}
    (h : refusal fw g nrhs ldx job = none) : fw.generation = g := by
  unfold refusal at h
  split at h
  next => cases h
  next hg => exact not_not.mp hg

theorem refusal_neg {fw : SmfFkeep} {g : UInt64} {nrhs ldx job flag : ℤ}
    (h : refusal fw g nrhs ldx job = some flag) : flag < 0 := by
  unfold refusal at h
  split_ifs at h <;> cases h <;> decide

/-- A solve that gets to the session: the handle's factor is the session's. -/
theorem Inv.solve (h : Inv H p) {fw : SmfFkeep} {c : Ctrl} {nrhs ldx job rc n' : ℤ}
    {sjob : SolveJob} {b x : Option (List ℚ)} {run : Option (EngineRun PluginFields Φ)}
    {s : IpmSession PluginFields Φ} (hf : p.fkeeps f = some fw)
    (hgo : refusal fw (p.sessions fw.session).factorGeneration nrhs ldx job = none)
    (hsolve : IpmSession.Step ((p.sessions fw.session).session.setControl c)
      (.solve b n' nrhs sjob, .solved rc x run) s) :
    ∃ r, asked f H = some r ∧ r.session = fw.session ∧ 0 ≤ r.flag ∧ r.replaced = false ∧
      Backed s r.values (r.runs ++ run.toList) ∧
      SamePattern (p.sessions fw.session).session s ∧ s.ak.isSome = true ∧
      (s.solvable = false → rc ≠ 0 ∧ x = b) := by
  obtain ⟨-, r, hr, hst⟩ := h.fkeep f fw hf
  obtain ⟨hrep, hback⟩ := hst.current (refusal_none hgo)
  have hready : Backed ((p.sessions fw.session).session.setControl c) r.values r.runs :=
    hback.congr rfl
  obtain ⟨hback', hsame, hak, hno⟩ := solve_spec hready hsolve
  exact ⟨r, hr, hst.session, hst.flag, hrep, hback',
    ⟨hsame.n, hsame.entryMap, hsame.inputNnz⟩, hak hst.analysed, hno⟩

/-- A factor call whose `Control` is accepted finds its session ready. -/
theorem Inv.ready (h : Inv H p) {ak : SmfAkeep} {opt : Option Ma97Control} {c c' : Ctrl}
    {call : Ma97ScalingCall} {type : MatrixType} {rejected : Bool} {scale : Option (List ℚ)}
    {val : ℕ → ℚ} (hak : p.akeeps a = some ak)
    (hopt : applyMa97Control env { ak.ctrl with matrixType := type } opt = (c, true))
    (hcall : ma97ScalingCall env c rejected scale = (c', call))
    (hband : type = .indefinite → (p.sessions ak.session).session.fk.useBandedSpd = false) :
    Ready (p.sessions ak.session).session (ak.fillValues val) c' := by
  obtain ⟨-, hn, hnnz⟩ := h.akeep a ak hak
  have htype : c'.matrixType = type := by
    have hc : c.matrixType = type := by
      rw [show c = (applyMa97Control env { ak.ctrl with matrixType := type } opt).1 from
        (congrArg Prod.fst hopt).symm]
      exact applyMa97Control_type _ opt
    rw [← hc,
      ← (ma97ScalingCall_type c rejected scale :
        (ma97ScalingCall env c rejected scale).1.matrixType = _),
      hcall]
  refine ⟨hn, ?_, fun hi => hband (htype ▸ hi)⟩
  rw [hnnz]
  exact List.length_map _

theorem inv_step (h : Inv H p) (ho : InOrder p ev) (hs : Ma97.Step env p ev q) :
    Inv (H ++ [ev]) q := by
  have hquiet : ∀ {ev' : Event Φ}, (∀ f r, record f r ev' = r) →
      ∀ f, asked f (H ++ [ev']) = asked f H := fun hev f => asked_snoc.trans (hev f _)
  cases hs with
  | analyseIllegal => exact h.nullAkeep.event (hquiet fun f r => rfl)
  | analyseControl => exact h.nullAkeep.event (hquiet fun f r => rfl)
  | @analyse a n ptr row entries sorted opt c val refines found status s code _ _ _ _ _ hrun =>
    by_cases hcode : code = .success
    · subst hcode
      rw [if_pos rfl, if_pos rfl]
      refine Inv.event ?_ (hquiet fun f r => rfl)
      obtain ⟨hn, hnnz⟩ := analyse_spec hrun
      have hne : ∀ {j}, j < p.nextSession → (p.newAkeep a c n sorted s).sessions j =
          p.sessions j := fun hj => Function.update_of_ne hj.ne _ _
      have hself : (p.newAkeep a c n sorted s).sessions p.nextSession = ⟨s, 1⟩ :=
        Function.update_self ..
      refine ⟨fun a' ak hak => ?_, fun f fw hf => ?_, fun f g fw fw' hf hg hs hc hc' => ?_⟩
      · change Function.update p.akeeps a _ a' = some ak at hak
        rcases eq_or_ne a' a with rfl | ha
        · rw [Function.update_self] at hak
          obtain rfl := Option.some.inj hak
          rw [hself]
          exact ⟨Nat.lt_succ_self _, hn, hnnz.trans (List.length_map _).symm⟩
        · rw [Function.update_of_ne ha] at hak
          obtain ⟨hlt, hrest⟩ := h.akeep a' ak hak
          rw [hne hlt]
          exact ⟨hlt.trans (Nat.lt_succ_self _), hrest⟩
      · obtain ⟨hlt, hrest⟩ := h.fkeep f fw hf
        rw [hne hlt]
        exact ⟨hlt.trans (Nat.lt_succ_self _), hrest⟩
      · rw [hne (h.fkeep f fw hf).1] at hc hc'
        exact h.unique f g fw fw' hf hg hs hc hc'
    · rw [if_neg hcode, if_neg hcode]
      exact h.nullAkeep.event (hquiet fun f r => rfl)
  | factorNull => exact h.event (hquiet fun f r => rfl)
  | factorControl matrixType hak hopt =>
    refine (h.setAkeep fun ak' hak' => ?_).event (hquiet fun f r => rfl)
    cases hak'
    have hold := h.akeep _ _ hak
    exact hold
  | solveNull => exact h.event fun f => asked_solve_none
  | solveRefused => exact h.event fun f => asked_solve_none
  | freeAkeep => exact h.nullAkeep.event (hquiet fun f r => rfl)
  | freeFkeep => exact h.freeFkeep.event (hquiet fun f r => rfl)
  | @factor a f ak opt c c' c'' call status runs t matrixType val scale rejected exact hak hopt
      hcall
      hruns hanalysed =>
    obtain ⟨hlt, hn, hnnz⟩ := h.akeep a ak hak
    obtain ⟨e, rest, rfl⟩ : ∃ e rest, runs = e :: rest := by
      refine List.exists_cons_of_ne_nil fun hnil => ?_
      subst hnil
      rw [(attempts_nil hruns hn (hnnz ▸ List.length_map _)).2.1] at hanalysed
      cases hanalysed
    obtain ⟨hband, hwrap⟩ := ho
    obtain ⟨hby, hgen⟩ := attempts_spec hruns (h.ready hak hopt hcall hband)
    have hless := generation_lt hgen hwrap
    rcases hby.cases with ⟨-, -, hnone⟩ | ⟨-, hsome, hback, -⟩
    · rw [hnone] at hanalysed
      cases hanalysed
    have hrecord : ∀ g r, record g r (.factor a f (some ak.session) (matrixTypeOf matrixType)
        ((p.sessions ak.session).session.placed (ak.fillValues val)) (e :: rest)
        (finishFactor env { ak with ctrl := c'' } (p.fkeeps f) t status exact).1) =
        if f = g then some ⟨ak.session,
          (p.sessions ak.session).session.placed (ak.fillValues val), e :: rest,
          (finishFactor env { ak with ctrl := c'' } (p.fkeeps f) t status exact).1, false⟩
        else r.map fun r => { r with replaced := r.replaced || decide (r.session = ak.session) } :=
      fun g r => rfl
    have hakeep : Inv H (p.setAkeep a (some { ak with ctrl := c'' })) :=
      h.setAkeep fun ak' hak' => by
      obtain rfl := Option.some.inj hak'
      exact ⟨hlt, hn, hnnz⟩
    refine hakeep.setSession hlt hby.pattern (fun g fw hg hfw => ?_) (fun fw hfw => ?_)
      fun g fw hg hfw hi hc => ?_
    · obtain ⟨-, r, hr, hst⟩ := h.fkeep g fw hfw
      refine ⟨{ r with replaced := r.replaced || decide (r.session = ak.session) }, ?_, ?_⟩
      · rw [asked_snoc, hrecord, if_neg hg.symm, hr]
        rfl
      · split
        next hi =>
          -- the session's factor is another one now
          rw [hi] at hst
          exact ⟨hst.session, hst.flag, hsome, hst.generation_le.trans hless.le, fun hc =>
            absurd (congrArg UInt64.toNat hc) (hst.generation_le.trans_lt hless).ne⟩
        next hi =>
          refine ⟨hst.session, hst.flag, hst.analysed, hst.generation_le, fun hc => ?_⟩
          obtain ⟨hrep, hb⟩ := hst.current hc
          refine ⟨?_, hb⟩
          rw [hrep, hst.session, decide_eq_false hi]
          rfl
    · obtain ⟨hsession, hgeneration, hflag⟩ := finishFactor_spec (Prod.mk.eta).symm hfw
      refine ⟨hsession, _, asked_snoc.trans ((hrecord f _).trans (if_pos rfl)),
        hsession.symm, hflag,
        hsome, (congrArg UInt64.toNat hgeneration).le, fun _ => ⟨rfl, hback⟩⟩
    · have hle := (h.fkeep g fw hfw).2.choose_spec.2.generation_le
      rw [hi] at hle
      exact (hle.trans_lt hless).ne (congrArg UInt64.toNat hc)
  | @factorUnanalysed a f ak opt c c' c'' call status runs t matrixType val scale rejected hak hopt
      hcall hruns hfailed =>
    obtain ⟨hlt, hn, hnnz⟩ := h.akeep a ak hak
    cases runs with
    | nil =>
      obtain ⟨hnone, -, hsame⟩ := attempts_nil hruns hn (hnnz ▸ List.length_map _)
      have hakeep : Inv H (p.setAkeep a (some { ak with ctrl := c'' })) :=
        h.setAkeep fun ak' hak' => by
          obtain rfl := Option.some.inj hak'
          exact ⟨hlt, hn, hnnz⟩
      exact (hakeep.unused hsame hnone).event (hquiet fun f r => rfl)
    | cons e rest =>
      obtain ⟨hby, -⟩ := attempts_spec hruns (h.ready hak hopt hcall ho.1)
      rcases hby.cases with ⟨hnil, -, -⟩ | ⟨-, hsome, -⟩
      · cases hnil
      · rw [hfailed] at hsome
        cases hsome
  | @solve f fw c x b run rc s opt nrhs ldx job hf hgo hopt hsolve =>
    obtain ⟨r, hr, hsession, hflag, hrep, hback, hsame, hak, -⟩ := h.solve hf hgo hsolve
    have hgen := refusal_none hgo
    have hkept : ({ fw with ctrl := c }.solved s rc).session = fw.session ∧
        ({ fw with ctrl := c }.solved s rc).generation = fw.generation := by
      unfold SmfFkeep.solved
      split <;> exact ⟨rfl, rfl⟩
    have hother : ∀ g fw', g ≠ f → p.fkeeps g = some fw' → fw'.session = fw.session →
        fw'.generation ≠ (p.sessions fw.session).factorGeneration := fun g fw' hg hfw hi hc =>
      hg (h.unique g f fw' fw hfw hf hi (hi ▸ hc) (hi ▸ hgen))
    refine h.setSession (h.fkeep f fw hf).1 hsame (fun g fw' hg hfw => ?_)
      (fun fw' hfw => ?_) hother
    · obtain ⟨-, r', hr', hst⟩ := h.fkeep g fw' hfw
      refine ⟨r', ?_, ?_⟩
      · rw [asked_snoc, hr']
        exact if_neg hg.symm
      · split
        next hi =>
          rw [hi] at hst
          exact ⟨hst.session, hst.flag, hak, hst.generation_le, fun hc =>
            absurd hc (hother g fw' hg hfw hi)⟩
        next hi => exact hst
    · obtain rfl := Option.some.inj hfw
      refine ⟨hkept.1, { r with runs := r.runs ++ run.toList }, ?_, hsession.trans hkept.1.symm,
        hflag, hak, ?_, fun _ => ⟨hrep, hback⟩⟩
      · rw [asked_snoc, hr]
        exact if_pos rfl
      · rw [hkept.2, hgen]

/-- What the last factor call of the handle was, and what the solve made of it. -/
theorem Inv.solved (h : Inv H p) {x x' : Option (List ℚ)} {used' : Option Φ} {flag : ℤ}
    {run : Option (EngineRun PluginFields Φ)}
    (hs : Ma97.Step env p (.solve f x x' run used' flag) q) :
    flag < 0 ∧ x' = x ∨
      ∃ r, asked f (H ++ [.solve f x x' run used' flag]) = some r ∧ 0 ≤ r.flag ∧
        r.replaced = false ∧
        ((∃ e, r.runs.getLast? = some e ∧ e.outcome.ending.runsToEnd = true ∧
          e.outcome.numeric = used' ∧ e.request.values = r.values) ∨ flag < 0 ∧ x' = x) := by
  -- a refused solve leaves `x`; any other one solves with the last factor, or fails and leaves it
  cases hs with
  | solveNull => exact .inl ⟨by decide, rfl⟩
  | solveRefused nrhs ldx job hf hgo => exact .inl ⟨refusal_neg hgo, rfl⟩
  | @solve _ fw c x b _ rc s opt nrhs ldx job hf hgo hopt hsolve =>
    obtain ⟨r, hr, -, hflag, hrep, hback, -, -, hno⟩ := h.solve hf hgo hsolve
    refine .inr ⟨{ r with runs := r.runs ++ run.toList }, ?_, hflag, hrep, ?_⟩
    · rw [asked_snoc, hr]
      exact if_pos rfl
    · cases hsolvable : s.solvable with
      | true => exact .inl (hback.solvable hsolvable)
      | false =>
        obtain ⟨hrc, hb⟩ := hno hsolvable
        refine .inr ⟨by rw [if_neg hrc]; decide, ?_⟩
        unfold resultIn
        rw [hb, if_neg hrc]
        split
        next hld =>
          have hldx : ldx = fw.n := by
            by_contra hne
            have hneg : ¬ldx < fw.n := fun hlt => by
              unfold refusal at hgo
              split_ifs at hgo
            omega
          rw [if_pos hldx]
          rfl
        next => rfl

theorem solvesLast_snoc (h : Inv H p) (hH : SolvesLast H) (hs : Ma97.Step env p ev q) :
    SolvesLast (H ++ [ev]) := by
  intro f x x' run used' 
  refine atEach_snoc.mpr ⟨hH f x x' run used', fun he => ?_⟩
  subst he
  rcases h.solved hs with ⟨hneg, -⟩ | ⟨r, hr, hflag, -, ⟨e, he⟩ | ⟨hneg, -⟩⟩
  · exact absurd hneg (lt_irrefl 0)
  · exact ⟨r, e, hr, hflag, he⟩
  · exact absurd hneg (lt_irrefl 0)

theorem refusesStale_snoc (h : Inv H p) (hH : RefusesStale H) (hs : Ma97.Step env p ev q) :
    RefusesStale (H ++ [ev]) := by
  intro f x x' run used' flag
  refine atEach_snoc.mpr ⟨hH f x x' run used' flag, fun he r hr hstale => ?_⟩
  subst he
  rcases h.solved hs with hrefused | ⟨r', hr', hflag, hrep, hend⟩
  · exact hrefused
  obtain rfl : r' = r := Option.some.inj (hr'.symm.trans hr)
  rcases hend with ⟨e, he, hend, -⟩ | hrefused
  · rcases hstale with hc | hc | ⟨e', he', hc⟩
    · exact absurd (hrep.symm.trans hc) Bool.false_ne_true
    · exact absurd hflag (not_le.mpr hc)
    · obtain rfl : e = e' := Option.some.inj (he.symm.trans he')
      exact absurd (hc.symm.trans hend) Bool.false_ne_true
  · exact hrefused

/-! ## Rejected calls -/

/-- Two states in which the handles solve with the same factors. -/
def SameSolves (p q : Ma97 Φ) : Prop :=
  q.fkeeps = p.fkeeps ∧
    ∀ f fw, p.fkeeps f = some fw → q.sessions fw.session = p.sessions fw.session

theorem SameSolves.symm (h : SameSolves p q) : SameSolves q p :=
  ⟨h.1.symm, fun f fw hf => (h.2 f fw (h.1 ▸ hf)).symm⟩

theorem SameSolves.step {p' : Ma97 Φ} {x x' : Option (List ℚ)} {used' : Option Φ} {flag : ℤ}
    {run : Option (EngineRun PluginFields Φ)} (h : SameSolves p q)
    (hs : Ma97.Step env p (.solve f x x' run used' flag) p') :
    ∃ q', Ma97.Step env q (.solve f x x' run used' flag) q' ∧ SameSolves p' q' := by
  cases hs with
  | solveNull hnull => exact ⟨q, .solveNull (h.1.symm ▸ hnull), h⟩
  | solveRefused nrhs ldx job hf hgo =>
    exact ⟨q, .solveRefused nrhs ldx job (h.1.symm ▸ hf) (h.2 _ _ hf ▸ hgo), h⟩
  | @solve _ fw c x b _ rc s opt nrhs ldx job hf hgo hopt hsolve =>
    have hsession := h.2 f fw hf
    refine ⟨_, .solve nrhs ldx job (h.1.symm ▸ hf) (hsession.symm ▸ hgo) hopt
      (hsession.symm ▸ hsolve), ?_, fun g fw' hg => ?_⟩
    · show Function.update q.fkeeps f _ = Function.update p.fkeeps f _
      rw [h.1]
    · show Function.update q.sessions fw.session _ fw'.session =
        Function.update p.sessions fw.session _ fw'.session
      rw [hsession]
      rcases eq_or_ne fw'.session fw.session with hi | hi
      · rw [hi, Function.update_self, Function.update_self]
      · rw [Function.update_of_ne hi, Function.update_of_ne hi]
        change Function.update p.fkeeps f _ g = some fw' at hg
        rcases eq_or_ne g f with rfl | hne
        · rw [Function.update_self] at hg
          obtain rfl := Option.some.inj hg
          refine absurd ?_ hi
          unfold SmfFkeep.solved
          split <;> rfl
        · rw [Function.update_of_ne hne] at hg
          exact h.2 g fw' hg

theorem SameSolves.solves {es : List (Event Φ)} {p' : Ma97 Φ} (h : SameSolves p q)
    (hes : Solves env p es p') : ∃ q', Solves env q es q' := by
  induction hes generalizing q with
  | nil => exact ⟨q, .nil⟩
  | cons hs hrest ih =>
    obtain ⟨q', hs', h'⟩ := h.step hs
    obtain ⟨r, hr⟩ := ih h'
    exact ⟨r, .cons hs' hr⟩

/-- A rejected factor call changes no session that a handle solves with. -/
theorem Inv.rejected (h : Inv H p) (hs : Ma97.Step env p ev q) (hrej : Rejected ev) :
    SameSolves p q := by
  cases hs with
  | factorNull => exact ⟨rfl, fun f fw hf => rfl⟩
  | factorControl => exact ⟨rfl, fun f fw hf => rfl⟩
  | @factor a f ak opt c c' c'' call status runs t matrixType val scale rejected exact hak hopt
      hcall
      hruns hanalysed =>
    obtain ⟨-, hn, hnnz⟩ := h.akeep a ak hak
    obtain ⟨rfl, -⟩ := hrej
    rw [(attempts_nil hruns hn (hnnz ▸ List.length_map _)).2.1] at hanalysed
    cases hanalysed
  | @factorUnanalysed a f ak opt c c' c'' call status runs t matrixType val scale rejected hak hopt
      hcall hruns hfailed =>
    obtain ⟨-, hn, hnnz⟩ := h.akeep a ak hak
    obtain ⟨rfl, -⟩ := hrej
    refine ⟨rfl, fun f fw hf => Function.update_of_ne (fun hi => ?_) _ _⟩
    obtain ⟨-, r, -, hst⟩ := h.fkeep f fw hf
    have hsome := hst.analysed
    rw [hi, (attempts_nil hruns hn (hnnz ▸ List.length_map _)).1] at hsome
    cases hsome
  | analyseIllegal => exact hrej.elim
  | analyseControl => exact hrej.elim
  | analyse => exact hrej.elim
  | solveNull => exact hrej.elim
  | solveRefused => exact hrej.elim
  | solve => exact hrej.elim
  | freeAkeep => exact hrej.elim
  | freeFkeep => exact hrej.elim

end Steps

/-! ## Runs -/

theorem inv_start : Inv ([] : List (Event Φ)) Ma97.start := by
  have hnone : ∀ f fw, (Ma97.start : Ma97 Φ).fkeeps f ≠ some fw := fun f fw hf => by cases hf
  exact ⟨fun a ak hak => (by cases hak), fun f fw hf => absurd hf (hnone f fw),
    fun f g fw fw' hf => absurd hf (hnone f fw)⟩

/-- Whatever is called in whatever order: a solve that returns 0 used a factorization, run to
    the end, of the values of its handle's last factor call; one whose factor was replaced or
    failed is refused; and a factor call rejected before it factors changes no later solve. -/
theorem handle_laws {env : Environment} {H : List (Event Φ)} {p : Ma97 Φ}
    (h : ((Ma97.system env).restrict InOrder).Run H p) :
    SolvesLast H ∧ RefusesStale H ∧
      ∀ ev q, Ma97.Step env p ev q → Rejected ev →
        ∀ es, (∃ p', Solves env p es p') ↔ ∃ q', Solves env q es q' := by
  have hrun : Inv H p ∧ SolvesLast H ∧ RefusesStale H := by
    refine h.invariant (P := fun H p => Inv H p ∧ SolvesLast H ∧ RefusesStale H) ?_ ?_
    · exact ⟨inv_start, fun _ _ _ _ _ => atEach_nil, fun _ _ _ _ _ _ => atEach_nil⟩
    · intro H p ev q _ ⟨hinv, hlast, hstale⟩ hs
      exact ⟨inv_step hinv hs.1 hs.2, solvesLast_snoc hinv hlast hs.2,
        refusesStale_snoc hinv hstale hs.2⟩
  obtain ⟨hinv, hlast, hstale⟩ := hrun
  refine ⟨hlast, hstale, fun ev q hs hrej es => ?_⟩
  have hsame := hinv.rejected hs hrej
  exact ⟨fun ⟨p', hp⟩ => hsame.solves hp, fun ⟨q', hq⟩ => hsame.symm.solves hq⟩

/-! ## One session, factored both ways -/

section Examples

open Ma97

/-- A diagonal of order 100 and one entry below it, in its first column. -/
abbrev pairPtr : List ℤ := 0 :: (List.range' 2 100).map fun j => (j : ℤ)
abbrev pairRows : List ℤ := [0, 1] ++ (List.range' 1 99).map fun j => (j : ℤ)
abbrev pairEntries : List Entry :=
  ⟨0, 0, 0⟩ :: ⟨0, 1, 1⟩ :: (List.range' 1 99).map fun j => ⟨j, j, j + 1⟩

/-- The `Control` of MA97's defaults, for either type. -/
def defaultsFor (type : MatrixType) : Ctrl :=
  (applyMa97Control {} { defaultControl with matrixType := type } (some {})).1

/-- The session after the analysis of the pattern, deferred. -/
def analysedPair : IpmSession PluginFields ℕ :=
  { (IpmSession.start (defaultsFor .indefinite)).reset (patternOf 100 pairEntries)
      (defaultsFor .indefinite) { learnInertia := false } with inputNnz := 101 }

instance : DecidableRel Entry.before := fun a b => by
  unfold Entry.before
  infer_instance

theorem pair_analysed : Ma97.Step {} (Ma97.start : Ma97 ℕ) (.analyse 0 0)
    (Ma97.start.newAkeep 0 (defaultsFor .indefinite) 100 pairEntries analysedPair) := by
  have hlen : (patternOf 100 pairEntries).rowIdx.length = 101 := by decide +kernel
  have hshape : ¬(analysedPair.mat.n ≤ 0 ∨ analysedPair.mat.validateShape ≠ .success ∨
      analysedPair.mat.nnz ≠ 101 ∨ (([] : List ℚ) ≠ [] ∧ ([] : List ℚ).length ≠ 101)) := by
    decide +kernel
  have heq : (IpmSession.start (defaultsFor .indefinite)).analyse (patternOf 100 pairEntries) []
      (defaultsFor .indefinite) { learnInertia := false } true none .success =
      (analysedPair, .success) := by
    unfold IpmSession.analyse
    dsimp only
    rw [hlen]
    exact if_neg hshape
  have hentries : entriesOf 100 pairPtr pairRows
      (if ∃ o ∈ some ({} : Ma97Control), o.fArrays ≠ 0 then 1 else 0) = some pairEntries := by
    decide +kernel
  have hsorted : pairEntries.Pairwise Entry.before := by decide +kernel
  exact @Step.analyse ℕ {} Ma97.start 0 100 pairPtr pairRows pairEntries pairEntries (some {})
    (defaultsFor .indefinite) none true none .success analysedPair .success (by decide) rfl
    hentries (List.Perm.refl _) hsorted heq

abbrev pairAnalysis : AnalysisKeep := ⟨⟨false, 10⟩, 0⟩

/-- A Cholesky factor on the banded path, and an indefinite one by fronts: their numbers
    are 1 and 2. -/
def bandedOutcome : Outcome ℕ := ⟨.banded, false, .success, {}, some 1⟩

def frontsOutcome : Outcome ℕ :=
  ⟨.complete, false, .success, { numPositive := 99, numNegative := 1 }, some 2⟩

abbrev ones : ℕ → ℚ := fun k => if k = 1 then 0 else 1
abbrev oneNegative : ℕ → ℚ := fun k => if k = 1 then 0 else if k = 0 then -1 else 1

def pairAkeep (type : MatrixType) : SmfAkeep :=
  ⟨0, defaultsFor type, 100, pairEntries.map (·.orig)⟩

theorem defaults_applied (type type' : MatrixType) :
    applyMa97Control {} { defaultsFor type with matrixType := type' } (some {}) =
      (defaultsFor type', true) := by
  have hu : (0 : ℚ) ≤ ({} : Ma97Control).u ∧ ({} : Ma97Control).u ≤ 1 / 2 := by decide +kernel
  unfold defaultsFor applyMa97Control
  simp only [if_pos hu]
  rfl

theorem defaults_called (type : MatrixType) :
    ma97ScalingCall {} (defaultsFor type) false none =
      (defaultsFor type, ⟨false, false, false⟩) := by
  cases type <;> rfl

/-- A factor call that the session answers with `ok`, at once. -/
theorem pair_factor {p : Ma97 ℕ} (f : ℕ) (type : MatrixType) (matrixType : ℤ) (val : ℕ → ℚ)
    (u : IpmSession PluginFields ℕ) (e : EngineRun PluginFields ℕ)
    (hak : p.akeeps 0 = some (pairAkeep type))
    (hstep : IpmSession.Step ((p.sessions 0).session.setControl
      (defaultsFor (matrixTypeOf matrixType)))
      (.factor ((pairAkeep type).fillValues val) none, .factored .ok (some e)) u)
    (hu : u.ak.isSome = true) :
    Ma97.Step {} p
      (.factor 0 f (some 0) (matrixTypeOf matrixType)
        ((p.sessions 0).session.placed ((pairAkeep type).fillValues val)) [e]
        (finishFactor {} (pairAkeep (matrixTypeOf matrixType)) (p.fkeeps f)
          ⟨u, (p.sessions 0).factorGeneration + 1⟩ .ok true).1)
      (((p.setAkeep 0 (some (pairAkeep (matrixTypeOf matrixType)))).setSession 0
        ⟨u, (p.sessions 0).factorGeneration + 1⟩).setFkeep f
        (finishFactor {} (pairAkeep (matrixTypeOf matrixType)) (p.fkeeps f)
          ⟨u, (p.sessions 0).factorGeneration + 1⟩ .ok true).2) := by
  have hok : IpmFactorStatus.ok ≠ .singular := nofun
  have hruns : Attempts {} ((pairAkeep type).fillValues val) (p.sessions 0)
      (defaultsFor (matrixTypeOf matrixType)) ⟨false, false, false⟩ none
      (defaultsFor (matrixTypeOf matrixType)) .ok (some e).toList
      ⟨u, (p.sessions 0).factorGeneration + 1⟩ := .once (.mk hstep) fun h => hok h.2.2
  exact Step.factor matrixType val none false true hak (defaults_applied type _)
    (defaults_called _) hruns hu

/-- A solve of one right-hand side that the session answers with 0. -/
theorem pair_solve {L : Lts (Ma97 ℕ) (Event ℕ)} {H : List (Event ℕ)} {p : Ma97 ℕ}
    (_run : L.Run H p) (f : ℕ) (fw : SmfFkeep) (hf : p.fkeeps f = some fw)
    (hgo : refusal fw (p.sessions fw.session).factorGeneration 1 100 0 = none) (hn : fw.n = 100)
    (haborted : (p.sessions fw.session).session.aborted = false)
    (hsolvable : (p.sessions fw.session).session.solvable = true) :
    ∃ q, Ma97.Step {} p (.solve f (some []) (some []) none
      (used (p.sessions fw.session).session.fk) 0) q := by
  have hs := IpmSession.Step.solve (s := (p.sessions fw.session).session.setControl
    (applyMa97Control {} fw.ctrl none).1) (some (if (100 : ℤ) = fw.n then [] else
      pack fw.n 1 100 [])) fw.n 1 (solveJobOf 0) 0 (some []) .success [] []
    (.skip fun hc => Bool.false_ne_true (haborted.symm.trans hc.1)) hsolvable
  have hout : resultIn fw.n 1 100 [] 0 (some []) = [] := by
    rw [hn]
    rfl
  have hused := congrArg Numbers.used
    (afterSolve_frame (s := { (p.sessions fw.session).session.setControl
    (applyMa97Control {} fw.ctrl none).1 with solveStatus := .success }) 0 [] []).1
  have hstep := Step.solve 1 100 0 hf hgo rfl hs
  rw [if_pos rfl, show Int.toNat 1 = 1 from rfl, show Int.toNat 100 = 100 from rfl, hout] at hstep
  exact ⟨_, (congrArg (fun u => Event.solve f (some []) (some []) none u 0) hused) ▸ hstep⟩

/-- The session is factored as positive definite, on the banded path, and then as
    indefinite: the solve reads the band factor of the first call. -/
theorem solve_of_stale_band :
    ∃ (H : List (Event ℕ)) (p : Ma97 ℕ), (Ma97.system {}).Run H p ∧ ¬SolvesLast H := by
  have run := (((Lts.Run.nil (L := Ma97.system (Φ := ℕ) {})).snoc pair_analysed).snoc
    (pair_factor 0 .indefinite 3 ones _ _ rfl (IpmSession.Step.factor _ none (some ⟨false, 10⟩) none
      .success (by decide +kernel) (by decide +kernel) rfl (by decide +kernel)
      (.run pairAnalysis bandedOutcome (by decide +kernel)
        ⟨rfl, by decide +kernel, by decide +kernel⟩)) (by decide +kernel))).snoc
    (pair_factor 0 .positiveDefinite 4 oneNegative _ _ rfl (IpmSession.Step.factor _ none none none
      .success (by decide +kernel) (by decide +kernel) rfl (by decide +kernel)
      (.run pairAnalysis frontsOutcome (by decide +kernel) (.inl rfl))) (by decide +kernel))
  obtain ⟨q, hq⟩ := pair_solve run 0 ⟨0, defaultsFor .indefinite, 100, 1, 3, false⟩ rfl
    (by decide +kernel) rfl (by decide +kernel) (by decide +kernel)
  refine ⟨_, _, run.snoc hq, fun hlaw => ?_⟩
  obtain ⟨r, e, hr, -, he, -, hnum, -⟩ := hlaw 0 _ _ none _ _ [] rfl
  cases hr
  cases he
  cases hnum

theorem inOrder_snoc {H : List (Event ℕ)} {p q : Ma97 ℕ} {ev : Event ℕ}
    (h : ((Ma97.system {}).restrict InOrder).Run H p) (hs : Ma97.Step {} p ev q)
    (ho : InOrder p ev) : ((Ma97.system {}).restrict InOrder).Run (H ++ [ev]) q :=
  h.snoc ⟨ho, hs⟩

/-- Factored as indefinite only, the session obeys the laws: the second handle's factor replaces
    that of the first, whose solve is refused. -/
theorem handle_laws_replaced :
    ∃ (H : List (Event ℕ)) (p : Ma97 ℕ), ((Ma97.system {}).restrict InOrder).Run H p ∧
      .solve 0 (some []) (some []) none none (-1) ∈ H ∧
      (∃ u, .solve 1 (some []) (some []) none u 0 ∈ H) ∧
      SolvesLast H ∧ RefusesStale H ∧
        ∀ ev q, Ma97.Step {} p ev q → Rejected ev →
          ∀ es, (∃ p', Solves {} p es p') ↔ ∃ q', Solves {} q es q' := by
  have run := inOrder_snoc .nil pair_analysed trivial
  have run := inOrder_snoc run
    (pair_factor 0 .indefinite 4 oneNegative _ _ rfl
      (IpmSession.Step.factor _ none (some ⟨false, 10⟩) none
      .success (by decide +kernel) (by decide +kernel) rfl (by decide +kernel)
      (.run pairAnalysis frontsOutcome (by decide +kernel) (.inl rfl))) (by decide +kernel))
    ⟨fun _ => by decide +kernel, by decide +kernel⟩
  have run := inOrder_snoc run
    (pair_factor 1 .indefinite 4 oneNegative _ _ rfl
      (IpmSession.Step.factor _ none none none
      .success (by decide +kernel) (by decide +kernel) rfl (by decide +kernel)
      (.run pairAnalysis frontsOutcome (by decide +kernel) (.inl rfl))) (by decide +kernel))
    ⟨fun _ => by decide +kernel, by decide +kernel⟩
  have run := inOrder_snoc run (.solveRefused (f := 0) (x := []) 1 100 0 rfl
    (by decide +kernel : _ = some (-1))) trivial
  obtain ⟨q, hq⟩ := pair_solve run 1 ⟨0, defaultsFor .indefinite, 100, 1, 3, false⟩ rfl
    (by decide +kernel) rfl (by decide +kernel) (by decide +kernel)
  have run := inOrder_snoc run hq trivial
  refine ⟨_, _, run, ?_, ⟨_, List.mem_append_right _ (List.mem_singleton_self _)⟩,
    handle_laws run⟩
  exact List.mem_append_left _ (List.mem_append_right _ (List.mem_singleton_self _))

end Examples

end Plugin
end SmfSolver
