/-
  SmfSolver.Symbolic.SupernodesSpec

  What the supernode passes return, `SupernodeTree`: consecutive ranges of columns in a
  topological order, each a connected set of fundamental supernodes, with a parent link
  to the supernode of its last column's parent.

  None of it depends on which merges are taken: a merge joins a group to the group of its
  parent (`GroupLinks`), and the descending sweep leads every supernode to the last one of
  its group (`Resolved`).
-/
import SmfSolver.Symbolic.EtreeSpec
import SmfSolver.Symbolic.Supernodes

namespace SmfSolver
namespace Symbolic

open Lib
open Multifrontal (Supernode)

/-! ## Fundamental supernodes -/

section Fundamental

variable {n m : ℕ} {starts : ℕ → Bool} {F : Fundamental} {j s : ℕ}

/-- The supernodes are consecutive ranges of columns that fill `[0, n)`, and no column but a
    first one starts a supernode. -/
structure Ranges (starts : ℕ → Bool) (n : ℕ) (F : Fundamental) : Prop where
  zero : F.first 0 = 0
  last : F.first F.nsn = n
  lt : ∀ s < F.nsn, F.first s < F.first (s + 1)
  mem : ∀ j < n, F.snodeOf j < F.nsn ∧ F.first (F.snodeOf j) ≤ j ∧ j < F.first (F.snodeOf j + 1)
  inner : ∀ j < n, F.first (F.snodeOf j) < j → starts j = false

theorem addColumn_ranges (hstart : starts 0 = true)
    (h : Ranges starts m { F with first := Function.update F.first F.nsn m }) :
    Ranges starts (m + 1)
      { addColumn starts F m with
        first := Function.update (addColumn starts F m).first (addColumn starts F m).nsn
          (m + 1) } := by
  obtain ⟨hzero, hlast, hlt, hmem, hinner⟩ := h
  dsimp only at hzero hlast hlt hmem hinner
  have hold : ∀ j < m, j ≠ m := fun j hj => hj.ne
  unfold addColumn
  split_ifs with hm
  · -- a new supernode
    dsimp only
    refine ⟨?_, ?_, fun s hs => ?_, fun j hj => ?_, fun j hj hfirst => ?_⟩ <;> dsimp only at *
    · rw [Function.update_of_ne (Nat.succ_ne_zero _).symm]
      exact hzero
    · exact Function.update_self _ _ _
    -- the supernode that was open ends here, the new one has this column
    · rw [Function.update_of_ne (by omega)]
      by_cases hs' : s = F.nsn
      · subst hs'
        rw [Function.update_self, Function.update_self]
        exact Nat.lt_succ_self m
      · rw [Function.update_of_ne (show s + 1 ≠ F.nsn + 1 by omega)]
        exact hlt s (by omega)
    · by_cases hjm : j = m
      · subst hjm
        rw [Function.update_self, Function.update_of_ne (by omega), Function.update_self,
          Function.update_self]
        omega
      · obtain ⟨h₁, h₂, h₃⟩ := hmem j (by omega)
        rw [Function.update_of_ne hjm, Function.update_of_ne (by omega),
          Function.update_of_ne (show F.snodeOf j + 1 ≠ F.nsn + 1 by omega)]
        exact ⟨by omega, h₂, h₃⟩
    · by_cases hjm : j = m
      · subst hjm
        rw [Function.update_self, Function.update_of_ne (by omega), Function.update_self] at hfirst
        exact absurd hfirst (lt_irrefl j)
      · obtain ⟨h₁, -, -⟩ := hmem j (by omega)
        rw [Function.update_of_ne hjm, Function.update_of_ne (by omega)] at hfirst
        exact hinner j (by omega) hfirst
  · -- the supernode of the column before
    have hm0 : m ≠ 0 := by
      rintro rfl
      exact hm hstart
    obtain ⟨hn, -, -⟩ := hmem (m - 1) (by omega)
    dsimp only
    have hend : ∀ s < F.nsn, Function.update F.first F.nsn (m + 1) s =
        Function.update F.first F.nsn m s := by
      intro s hs
      rw [Function.update_of_ne hs.ne, Function.update_of_ne hs.ne]
    -- only the end of the last supernode moves, and it moves up
    have hle : ∀ s, Function.update F.first F.nsn m s ≤ Function.update F.first F.nsn
        (m + 1) s := by
      intro s
      by_cases hs : s = F.nsn
      · subst hs
        rw [Function.update_self, Function.update_self]
        exact Nat.le_succ m
      · rw [Function.update_of_ne hs, Function.update_of_ne hs]
    refine ⟨?_, Function.update_self _ _ _, fun s hs => ?_, fun j hj => ?_,
      fun j hj hfirst => ?_⟩ <;>
      dsimp only at *
    · rw [hend 0 (by omega)]
      exact hzero
    · rw [hend s hs]
      exact (hlt s hs).trans_le (hle _)
    · by_cases hjm : j = m
      · subst hjm
        have hstep := hlt (F.nsn - 1) (by omega)
        rw [Nat.sub_add_cancel (by omega), Function.update_self] at hstep
        rw [Function.update_self, Nat.sub_add_cancel (by omega), Function.update_self,
          hend _ (by omega)]
        omega
      · obtain ⟨h₁, h₂, h₃⟩ := hmem j (by omega)
        rw [Function.update_of_ne hjm, hend _ h₁]
        exact ⟨h₁, h₂, h₃.trans_le (hle _)⟩
    · by_cases hjm : j = m
      · exact hjm ▸ Bool.eq_false_iff.mpr hm
      · obtain ⟨h₁, -, -⟩ := hmem j (by omega)
        rw [Function.update_of_ne hjm, hend _ h₁] at hfirst
        exact hinner j (by omega) hfirst

theorem fundamental_ranges (n : ℕ) (parent : ℕ → Option ℕ) (colcount : ℕ → ℤ) :
    Ranges (startsSnode parent (countChildren n parent) colcount) n
      (fundamental n parent colcount) := by
  have hstart : startsSnode parent (countChildren n parent) colcount 0 = true := rfl
  have hfold : ∀ m, Ranges (startsSnode parent (countChildren n parent) colcount) m
      (let s := (List.range m).foldl
        (addColumn (startsSnode parent (countChildren n parent) colcount))
        ⟨fun _ => 0, 0, fun _ => 0⟩
      { s with first := Function.update s.first s.nsn m }) := by
    intro m
    induction m with
    | zero =>
      exact {
        zero := Function.update_self 0 0 fun _ => 0
        last := Function.update_self 0 0 fun _ => 0
        lt := fun s hs => absurd hs (Nat.not_lt_zero s)
        mem := fun j hj => absurd hj (Nat.not_lt_zero j)
        inner := fun j hj => absurd hj (Nat.not_lt_zero j) }
    | succ m ih =>
      dsimp only at ih ⊢
      rw [List.range_succ, List.foldl_append]
      exact addColumn_ranges hstart ih
  exact hfold n

theorem Ranges.mono (h : Ranges starts n F) {s t : ℕ} (hst : s ≤ t) (ht : t ≤ F.nsn) :
    F.first s ≤ F.first t := by
  induction t with
  | zero => rw [Nat.le_zero.mp hst]
  | succ t ih =>
    rcases hst.lt_or_eq with hlt | rfl
    · exact (ih (by omega) (by omega)).trans (h.lt t ht).le
    · exact le_rfl

/-- The supernode of a column is the one whose range holds it. -/
theorem Ranges.snodeOf_eq (h : Ranges starts n F) (hs : s < F.nsn) (hfirst : F.first s ≤ j)
    (hj : j < F.first (s + 1)) : F.snodeOf j = s := by
  have hjn : j < n := h.last ▸ hj.trans_le (h.mono hs le_rfl)
  obtain ⟨hk, hle, hlt⟩ := h.mem j hjn
  rcases lt_trichotomy (F.snodeOf j) s with hlt' | heq | hgt
  · have hend : F.first (F.snodeOf j + 1) ≤ F.first s := h.mono hlt' hs.le
    omega
  · exact heq
  · have hend : F.first (s + 1) ≤ F.first (F.snodeOf j) := h.mono hgt hk.le
    omega

/-- The last column of a supernode lies in it. -/
theorem Ranges.lastCol_mem (h : Ranges starts n F) (hs : s < F.nsn) :
    F.lastCol s < n ∧ F.snodeOf (F.lastCol s) = s := by
  have hlt := h.lt s hs
  have hle : F.first (s + 1) ≤ F.first F.nsn := h.mono hs le_rfl
  have hlast := h.last
  unfold Fundamental.lastCol
  exact ⟨by omega, h.snodeOf_eq hs (by omega) (by omega)⟩

/-- A column that is not the last of its supernode has the next one as its parent. -/
theorem Ranges.parent_inner {parent : ℕ → Option ℕ} {colcount : ℕ → ℤ}
    (h : Ranges (startsSnode parent (countChildren n parent) colcount) n F) (hj : j < n)
    (hne : j ≠ F.lastCol (F.snodeOf j)) :
    parent j = some (j + 1) ∧ j + 1 < n ∧ F.snodeOf (j + 1) = F.snodeOf j := by
  obtain ⟨hs, hle, hlt⟩ := h.mem j hj
  have hend : F.first (F.snodeOf j + 1) ≤ F.first F.nsn := h.mono hs le_rfl
  rw [h.last] at hend
  unfold Fundamental.lastCol at hne
  have hsn : F.snodeOf (j + 1) = F.snodeOf j := h.snodeOf_eq hs (by omega) (by omega)
  have hinner := h.inner (j + 1) (by omega) (by rw [hsn]; omega)
  unfold startsSnode at hinner
  simp only [Bool.or_eq_false_iff, decide_eq_false_iff_not, Nat.add_sub_cancel, ne_eq,
    not_not] at hinner
  exact ⟨hinner.1.1.2, by omega, hsn⟩

theorem Ranges.sparent_upward {parent : ℕ → Option ℕ} (h : Ranges starts n F)
    (hup : Upward n parent) : Upward F.nsn (F.sparent parent) := by
  intro s hs p hp
  obtain ⟨pc, hpc, rfl⟩ := Option.map_eq_some_iff.mp hp
  obtain ⟨hlast, -⟩ := h.lastCol_mem hs
  obtain ⟨hlt, hpcn⟩ := hup _ hlast pc hpc
  obtain ⟨hps, -, hend⟩ := h.mem pc hpcn
  refine ⟨not_le.mp fun hle => ?_, hps⟩
  have hmono : F.first (F.snodeOf pc + 1) ≤ F.first (s + 1) := h.mono (by omega) hs
  unfold Fundamental.lastCol at hlt
  omega

end Fundamental

/-! ## Groups -/

section Groups

variable {nsn s p : ℕ} {sparent : ℕ → Option ℕ} {group lead : ℕ → ℕ}

/-- Every supernode is the survivor of its group or leads where its parent does. -/
def Joins (nsn : ℕ) (sparent : ℕ → Option ℕ) (lead : ℕ → ℕ) : Prop :=
  ∀ s < nsn, lead s = s ∨ ∃ p, sparent s = some p ∧ lead p = lead s

/-- The survivor of a group is its last supernode. -/
theorem Joins.lead_spec (h : Joins nsn sparent lead) (hup : Upward nsn sparent) (hs : s < nsn) :
    s ≤ lead s ∧ lead s < nsn ∧ lead (lead s) = lead s := by
  generalize hd : nsn - s = d
  induction d using Nat.strongRecOn generalizing s with
  | _ d ih =>
    rcases h s hs with heq | ⟨p, hp, hlead⟩
    · rw [heq]
      exact ⟨le_rfl, hs, heq⟩
    · obtain ⟨hsp, hpn⟩ := hup s hs p hp
      obtain ⟨h₁, h₂, h₃⟩ := ih (nsn - p) (by omega) hpn rfl
      rw [← hlead]
      exact ⟨hsp.le.trans h₁, h₂, h₃⟩

/-- The parent links of the survivors. -/
def leadParent (sparent : ℕ → Option ℕ) (lead : ℕ → ℕ) (g : ℕ) : Option ℕ :=
  if lead g = g then (sparent g).map lead else none

theorem leadParent_eq_some {g q : ℕ} :
    leadParent sparent lead g = some q ↔ lead g = g ∧ ∃ p, sparent g = some p ∧ lead p = q := by
  unfold leadParent
  split_ifs with hg
  · rw [Option.map_eq_some_iff]
    exact ⟨fun h => ⟨hg, h⟩, fun h => h.2⟩
  · exact ⟨False.elim, fun h => absurd h.1 hg⟩

theorem Joins.leadParent_upward (h : Joins nsn sparent lead) (hup : Upward nsn sparent) :
    Upward nsn (leadParent sparent lead) := by
  intro g hg q hq
  obtain ⟨-, p, hp, rfl⟩ := leadParent_eq_some.mp hq
  obtain ⟨hgp, hpn⟩ := hup g hg p hp
  obtain ⟨hle, hlt, -⟩ := h.lead_spec hup hpn
  exact ⟨hgp.trans_le hle, hlt⟩

/-- The descending sweep leads a merged supernode where its target leads. -/
theorem resolveGroups_eq (hle : ∀ s < nsn, s ≤ group s) :
    (∀ s, nsn ≤ s → resolveGroups nsn group s = group s) ∧
      ∀ s < nsn, (group s = s → resolveGroups nsn group s = s) ∧
        (s < group s → resolveGroups nsn group s = resolveGroups nsn group (group s)) := by
  induction nsn generalizing group with
  | zero => exact ⟨fun _ _ => rfl, fun s hs => absurd hs (Nat.not_lt_zero s)⟩
  | succ m ih =>
    have hstep : resolveGroups (m + 1) group
        = resolveGroups m (Function.update group m (group (group m))) := by
      unfold resolveGroups
      rw [List.range_succ, List.reverse_append]
      rfl
    have hbelow : ∀ s < m, Function.update group m (group (group m)) s = group s :=
      fun s hs => Function.update_of_ne hs.ne _ _
    have hle' : ∀ s < m, s ≤ Function.update group m (group (group m)) s := fun s hs => by
      rw [hbelow s hs]
      exact hle s (by omega)
    obtain ⟨hhigh, hlow⟩ := ih hle'
    rw [← hstep] at hhigh hlow
    have habove : ∀ s, m < s → resolveGroups (m + 1) group s = group s := fun s hs => by
      rw [hhigh s hs.le, Function.update_of_ne hs.ne']
    refine ⟨fun s hs => habove s hs, fun s hs => ?_⟩
    rcases Nat.lt_succ_iff_lt_or_eq.mp hs with hlt | rfl
    · have := hlow s hlt
      rwa [hbelow s hlt] at this
    · have hval : resolveGroups (s + 1) group s = group (group s) := by
        rw [hhigh s le_rfl, Function.update_self]
      refine ⟨fun heq => by rw [hval, heq, heq], fun hgt => ?_⟩
      rw [hval, habove _ hgt]

/-- Merges into parents, resolved. -/
theorem resolveGroups_joins (hup : Upward nsn sparent)
    (h : ∀ s < nsn, group s = s ∨ sparent s = some (group s)) :
    Joins nsn sparent (resolveGroups nsn group) ∧
      ∀ s < nsn, sparent s = some (group s) →
        resolveGroups nsn group s = resolveGroups nsn group (group s) := by
  have hle : ∀ s < nsn, s ≤ group s := by
    intro s hs
    rcases h s hs with heq | hp
    · exact heq.ge
    · exact (hup s hs _ hp).1.le
  have hmerged : ∀ s < nsn, sparent s = some (group s) →
      resolveGroups nsn group s = resolveGroups nsn group (group s) :=
    fun s hs hp => ((resolveGroups_eq hle).2 s hs).2 (hup s hs _ hp).1
  refine ⟨fun s hs => ?_, hmerged⟩
  rcases h s hs with heq | hp
  · exact .inl (((resolveGroups_eq hle).2 s hs).1 heq)
  · exact .inr ⟨group s, hp, (hmerged s hs hp).symm⟩

end Groups

/-! ## Merges -/

section Merges

variable {n m s p : ℕ} {F : Fundamental} {parent : ℕ → Option ℕ} {take : Groups → ℕ → ℕ → Bool}
  {G : Groups}

/-- Whatever is taken: a supernode stays on its own or is merged into its parent, and it is
    merged when the merge is taken in every state. -/
theorem mergeSteps_spec (hG : ∀ s, G.group s = s) (m : ℕ) :
    (∀ s, ((List.range m).foldl (mergeStep F parent take) G).group s = s ∨
      F.sparent parent s = some (((List.range m).foldl (mergeStep F parent take) G).group s)) ∧
    ∀ s < m, ∀ p, (∀ G, take G s p = true) → F.sparent parent s = some p →
      ((List.range m).foldl (mergeStep F parent take) G).group s = p := by
  induction m with
  | zero => exact ⟨fun s => .inl (hG s), fun s hs => absurd hs (Nat.not_lt_zero s)⟩
  | succ m ih =>
    obtain ⟨hown, hforced⟩ := ih
    rw [List.range_succ, List.foldl_append, List.foldl_cons, List.foldl_nil]
    set G' := (List.range m).foldl (mergeStep F parent take) G with hG'
    have hcase : (mergeStep F parent take G' m).group = G'.group ∨
        ∃ p, F.sparent parent m = some p ∧
          (mergeStep F parent take G' m).group = Function.update G'.group m p := by
      unfold mergeStep
      split
      · exact .inl rfl
      · next p hp =>
        split_ifs with htake
        · exact .inr ⟨p, hp, rfl⟩
        · exact .inl rfl
    -- a step decides on the group of `m` only
    have hother : ∀ s, s ≠ m → (mergeStep F parent take G' m).group s = G'.group s := by
      intro s hs
      rcases hcase with heq | ⟨p, -, heq⟩
      · rw [heq]
      · rw [heq, Function.update_of_ne hs]
    constructor
    · intro s
      by_cases hs : s = m
      · subst hs
        rcases hcase with heq | ⟨p, hp, heq⟩
        · rw [heq]
          exact hown s
        · rw [heq, Function.update_self]
          exact .inr hp
      · rw [hother s hs]
        exact hown s
    · intro s hs p htake hp
      rcases Nat.lt_succ_iff_lt_or_eq.mp hs with hlt | rfl
      · rw [hother s hlt.ne]
        exact hforced s hlt p htake hp
      · unfold mergeStep
        rw [hp]
        dsimp only
        rw [if_pos (htake G')]
        exact Function.update_self ..

/-- A flagged column whose parent lies in another supernode forces its supernode. -/
theorem forcedSnodes_eq {keep : ℕ → Bool} {j : ℕ} (hj : j < n) (hkeep : keep j = true)
    (hp : parent j = some p) (hne : F.snodeOf p ≠ F.snodeOf j) :
    forcedSnodes n F parent keep (F.snodeOf j) = true := by
  unfold forcedSnodes
  induction n with
  | zero => exact absurd hj (Nat.not_lt_zero j)
  | succ n ih =>
    rw [List.range_succ, List.foldl_append, List.foldl_cons, List.foldl_nil]
    rcases Nat.lt_succ_iff_lt_or_eq.mp hj with hlt | rfl
    · have hold := ih hlt
      cases parent n with
      | none => exact hold
      | some q =>
        dsimp only
        split_ifs
        · rw [Function.update_apply, hold, ite_self]
        · exact hold
    · rw [hp]
      dsimp only
      rw [if_pos ⟨hkeep, hne⟩, Function.update_self]

/-- Where `amalgamate_relaxed` leads every supernode. -/
def leadOf (n : ℕ) (parent : ℕ → Option ℕ) (colcount : ℕ → ℤ) (nemin : ℤ) (rule : Amalgamation)
    (keep : Option (ℕ → Bool)) : ℕ → ℕ :=
  resolveGroups (fundamental n parent colcount).nsn
    (mergeGroups n (fundamental n parent colcount) parent colcount nemin rule keep).group

variable {colcount : ℕ → ℤ} {nemin : ℤ} {rule : Amalgamation} {keep : Option (ℕ → Bool)}

theorem mergeGroups_links (s : ℕ) :
    (mergeGroups n F parent colcount nemin rule keep).group s = s ∨
      F.sparent parent s = some ((mergeGroups n F parent colcount nemin rule keep).group s) := by
  unfold mergeGroups
  cases keep <;> dsimp only <;> split_ifs
  · exact (mergeSteps_spec (fun _ => rfl) _).1 s
  · exact .inl rfl
  · exact (mergeSteps_spec (fun _ => rfl) _).1 s
  · exact .inl rfl

theorem mergeGroups_forced {k : ℕ → Bool} (hs : s < F.nsn)
    (hforced : forcedSnodes n F parent k s = true) (hp : F.sparent parent s = some p) :
    (mergeGroups n F parent colcount nemin rule (some k)).group s = p := by
  unfold mergeGroups
  dsimp only
  rw [if_pos (.inr (by omega))]
  exact (mergeSteps_spec (fun _ => rfl) _).2 s hs p (fun G => by rw [hforced, Bool.true_or]) hp

theorem leadOf_joins (hup : Upward n parent) :
    Joins (fundamental n parent colcount).nsn ((fundamental n parent colcount).sparent parent)
      (leadOf n parent colcount nemin rule keep) :=
  (resolveGroups_joins ((fundamental_ranges n parent colcount).sparent_upward hup)
    fun s _ => mergeGroups_links s).1

/-- A flagged column goes where its parent goes. -/
theorem leadOf_keep (hup : Upward n parent) {k : ℕ → Bool} {j : ℕ} (hj : j < n)
    (hkeep : k j = true) (hp : parent j = some p) :
    leadOf n parent colcount nemin rule (some k) ((fundamental n parent colcount).snodeOf j)
      = leadOf n parent colcount nemin rule (some k)
        ((fundamental n parent colcount).snodeOf p) := by
  have hF := fundamental_ranges n parent colcount
  set F := fundamental n parent colcount with hFdef
  by_cases hsame : F.snodeOf p = F.snodeOf j
  · rw [hsame]
  · -- inside a supernode the parent is the next column, so `j` is a last column
    have hlast : j = F.lastCol (F.snodeOf j) := by
      by_contra hne
      obtain ⟨hnext, -, hsn⟩ := hF.parent_inner hj hne
      rw [hp] at hnext
      obtain rfl := Option.some.inj hnext
      exact hsame hsn
    have hsp : F.sparent parent (F.snodeOf j) = some (F.snodeOf p) := by
      unfold Fundamental.sparent
      rw [← hlast, hp]
      rfl
    have hgroup := (@mergeGroups_forced _ _ _ _ _ colcount nemin rule _)
      (hF.mem j hj).1 (forcedSnodes_eq hj hkeep hp hsame) hsp
    have hlinks : ∀ s < F.nsn, (mergeGroups n F parent colcount nemin rule (some k)).group s = s ∨
        F.sparent parent s
          = some ((mergeGroups n F parent colcount nemin rule (some k)).group s) :=
      fun s _ => mergeGroups_links s
    -- merged into its parent, it has the parent's lead
    have hlead := (resolveGroups_joins (hF.sparent_upward hup) hlinks).2 (F.snodeOf j)
      (hF.mem j hj).1 (by rw [hgroup, hsp])
    rw [hgroup] at hlead
    exact hlead

end Merges

/-! ## The tree of the groups -/

section Tree

variable {n nsn : ℕ} {parent : ℕ → Option ℕ} {F : Fundamental} {order : List ℕ}
  {snodes : List Supernode}

/-- The supernodes of the list are consecutive non-empty ranges from `a` to `b`. -/
def Tiles : ℕ → List Supernode → ℕ → Prop
  | a, [], b => a = b
  | a, sn :: l, b => sn.colStart = a ∧ a < sn.colEnd ∧ Tiles sn.colEnd l b

theorem Tiles.append {a b c : ℕ} {l l' : List Supernode} (h : Tiles a l b) (h' : Tiles b l' c) :
    Tiles a (l ++ l') c := by
  induction l generalizing a with
  | nil =>
    obtain rfl : a = b := h
    exact h'
  | cons sn l ih => exact ⟨h.1, h.2.1, ih h.2.2⟩

/-- The columns of a supernode in an order. -/
def columnsOf (order : List ℕ) (sn : Supernode) : List ℕ :=
  (order.drop sn.colStart).take (sn.colEnd - sn.colStart)

/-- A partition of the columns into the supernodes of a tree. -/
structure SupernodeTree (n : ℕ) (parent : ℕ → Option ℕ) (F : Fundamental) (order : List ℕ)
    (snodes : List Supernode) : Prop where
  /-- The order is a permutation of the columns. -/
  perm : order.Perm (List.range n)
  /-- The supernodes are consecutive non-empty ranges. -/
  tiles : Tiles 0 snodes n
  /-- In ascending elimination order. -/
  ascending : ∀ sn ∈ snodes, (columnsOf order sn).Pairwise (· < ·)
  /-- Fundamental supernodes stay whole. -/
  whole : ∀ sn ∈ snodes, ∀ j ∈ columnsOf order sn, ∀ k < n, F.snodeOf k = F.snodeOf j →
    k ∈ columnsOf order sn
  /-- The parent of a column lies in its supernode, which is so connected, but for the last
      column: the supernode of that one's parent is a later one, the parent link. -/
  links : ∀ i sn, snodes[i]? = some sn → ∃ last ∈ columnsOf order sn,
    (∀ j ∈ columnsOf order sn, j ≠ last → j < last ∧ ∃ p ∈ columnsOf order sn, parent j = some p) ∧
    (parent last = none → sn.parent = none) ∧
    ∀ p, parent last = some p → ∃ i' sn', i < i' ∧ snodes[i']? = some sn' ∧
      sn.parent = some i' ∧ p ∈ columnsOf order sn'

/-- The columns of the group of `g`. -/
def groupCols (n : ℕ) (F : Fundamental) (lead : ℕ → ℕ) (g : ℕ) : List ℕ :=
  (List.range n).filter fun j => lead (F.snodeOf j) = g

theorem mem_groupCols {lead : ℕ → ℕ} {g j : ℕ} :
    j ∈ groupCols n F lead g ↔ j < n ∧ lead (F.snodeOf j) = g := by
  unfold groupCols
  rw [List.mem_filter, List.mem_range, decide_eq_true_eq]

/-- The survivors of the groups, children first, with their columns and parents, form a tree. -/
theorem SupernodeTree.of_groups {colcount : ℕ → ℤ} {lead : ℕ → ℕ} {post : List ℕ}
    (hF : Ranges (startsSnode parent (countChildren n parent) colcount) n F)
    (hup : Upward n parent) (hjoins : Joins F.nsn (F.sparent parent) lead)
    (hmem : ∀ g, g ∈ post → g < F.nsn ∧ lead g = g)
    (hperm : order.Perm (List.range n)) (htiles : Tiles 0 snodes n)
    (hsnodes : ∀ i sn, snodes[i]? = some sn → ∃ g, post[i]? = some g ∧
      columnsOf order sn = groupCols n F lead g ∧
      (leadParent (F.sparent parent) lead g = none → sn.parent = none) ∧
      ∀ q, leadParent (F.sparent parent) lead g = some q → ∃ i' sn', i < i' ∧ post[i']? = some q ∧
        snodes[i']? = some sn' ∧ sn.parent = some i') :
    SupernodeTree n parent F order snodes := by
  have hcols : ∀ sn ∈ snodes, ∃ g, columnsOf order sn = groupCols n F lead g := by
    intro sn hsn
    obtain ⟨i, hi⟩ := List.mem_iff_getElem?.mp hsn
    obtain ⟨g, -, hcol, -⟩ := hsnodes i sn hi
    exact ⟨g, hcol⟩
  refine ⟨hperm, htiles, fun sn hsn => ?_, fun sn hsn j hj k hk hsame => ?_, fun i sn hi => ?_⟩
  · obtain ⟨g, hcol⟩ := hcols sn hsn
    rw [hcol]
    exact List.pairwise_lt_range.filter _
  · obtain ⟨g, hcol⟩ := hcols sn hsn
    rw [hcol, mem_groupCols] at hj ⊢
    exact ⟨hk, by rw [hsame, hj.2]⟩
  · obtain ⟨g, hg, hcol, hroot, hlink⟩ := hsnodes i sn hi
    obtain ⟨hgn, hgg⟩ := hmem g (List.mem_of_getElem? hg)
    obtain ⟨hlast, hlastsn⟩ := hF.lastCol_mem hgn
    have hsp : F.sparent parent g = (parent (F.lastCol g)).map F.snodeOf := rfl
    rw [hcol]
    -- the group's last column is that of its survivor, from which its parent is read
    refine ⟨F.lastCol g, mem_groupCols.mpr ⟨hlast, by rw [hlastsn, hgg]⟩, fun j hj hne => ?_,
      fun hnone => ?_, fun p hp => ?_⟩
    · obtain ⟨hjn, hjg⟩ := mem_groupCols.mp hj
      obtain ⟨hsj, -, hend⟩ := hF.mem j hjn
      obtain ⟨hle, -, -⟩ := hjoins.lead_spec (hF.sparent_upward hup) hsj
      have hmono : F.first (F.snodeOf j + 1) ≤ F.first (g + 1) := hF.mono (by omega) hgn
      have hlastval : F.lastCol g = F.first (g + 1) - 1 := rfl
      refine ⟨by omega, ?_⟩
      by_cases hjl : j = F.lastCol (F.snodeOf j)
      · -- the last column of a supernode that was merged
        rcases hjoins (F.snodeOf j) hsj with heq | ⟨p, hp, hlead⟩
        · rw [hjg] at heq
          exact absurd (heq ▸ hjl) hne
        · obtain ⟨pc, hpc, rfl⟩ := Option.map_eq_some_iff.mp hp
          rw [← hjl] at hpc
          exact ⟨pc, mem_groupCols.mpr ⟨(hup j hjn pc hpc).2, by rw [hlead, hjg]⟩, hpc⟩
      -- inside a supernode the parent is the next column
      · obtain ⟨hnext, hlt, hsn⟩ := hF.parent_inner hjn hjl
        exact ⟨j + 1, mem_groupCols.mpr ⟨hlt, by rw [hsn, hjg]⟩, hnext⟩
    · refine hroot ?_
      rw [leadParent, if_pos hgg, hsp, hnone]
      rfl
    · obtain ⟨i', sn', hlt, hi', hsn', hpar⟩ := hlink (lead (F.snodeOf p)) (leadParent_eq_some.mpr
        ⟨hgg, F.snodeOf p, by rw [hsp, hp]; rfl, rfl⟩)
      obtain ⟨g', hg', hcol', -⟩ := hsnodes i' sn' hsn'
      rw [hi'] at hg'
      obtain rfl := Option.some.inj hg'
      refine ⟨i', sn', hlt, hsn', hpar, ?_⟩
      rw [hcol', mem_groupCols]
      exact ⟨(hup _ hlast p hp).2, rfl⟩

end Tree

end Symbolic
end SmfSolver
