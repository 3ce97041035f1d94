/-
  SmfSolver.Symbolic.EtreeSpec

  Liu's algorithm computes the elimination tree, and the postorder is one.

  Between the entries of row `k`, `Linked` says which links there are: those of the tree
  that lie before `k`, and those to `k` of the roots reached from the entries done.  The
  shortcuts only lead up the tree; on the way up a few of them lead to `k` before the
  root does (`climb_spec`).
-/
import SmfSolver.Lib.Fill
import SmfSolver.Multifrontal.AssemblyTree
import SmfSolver.Symbolic.Etree

namespace SmfSolver
namespace Symbolic

open Lib

/-! ## The way up -/

/-- The end of the way up from `r`: a vertex `c.2` above it without a shortcut, or with one to
    `k`.  The shortcuts that changed are those of vertices below it. -/
structure Climbed (k : ℕ) (up : ℕ → ℕ → Prop) (ancestor : ℕ → Option ℕ) (r : ℕ)
    (c : (ℕ → Option ℕ) × ℕ) : Prop where
  reach : up r c.2
  lt : c.2 < k
  stop : ancestor c.2 = none ∨ ancestor c.2 = some k
  kept : c.1 c.2 = ancestor c.2
  changed : ∀ j, c.1 j = ancestor j ∨ c.1 j = some k ∧ up j c.2 ∧ ancestor j ≠ none

theorem climb_spec {k : ℕ} {up : ℕ → ℕ → Prop} (hrefl : ∀ j, up j j)
    (htrans : ∀ a b c, up a b → up b c → up a c) {fuel r : ℕ} {ancestor : ℕ → Option ℕ}
    (hup : ∀ j t, ancestor j = some t → j < t ∧ t ≤ k ∧ (t ≠ k → up j t))
    (hr : r < k) (hfuel : k - r ≤ fuel) :
    ∃ c, climb k fuel ancestor r = some c ∧ Climbed k up ancestor r c ∧ r ≤ c.2 := by
  induction fuel generalizing r ancestor with
  | zero => omega
  | succ fuel ih =>
    rw [climb]
    cases ht : ancestor r with
    | none =>
      exact ⟨_, rfl, ⟨hrefl r, hr, .inl ht, rfl, fun _ => .inl rfl⟩, le_rfl⟩
    | some t =>
      dsimp only
      by_cases htk : t = k
      · rw [if_pos htk]
        exact ⟨_, rfl, ⟨hrefl r, hr, .inr (htk ▸ ht), rfl, fun _ => .inl rfl⟩, le_rfl⟩
      · rw [if_neg htk]
        obtain ⟨hrt, hle, hupt⟩ := hup r t ht
        have htlt : t < k := lt_of_le_of_ne hle htk
        have hup' : ∀ j t', Function.update ancestor r (some k) j = some t' →
            j < t' ∧ t' ≤ k ∧ (t' ≠ k → up j t') := by
          intro j t' hj
          by_cases hjr : j = r
          · subst hjr
            rw [Function.update_self] at hj
            obtain rfl := Option.some.inj hj
            exact ⟨hr, le_rfl, fun h => absurd rfl h⟩
          · rw [Function.update_of_ne hjr] at hj
            exact hup j t' hj
        obtain ⟨c, hc, hspec, hlec⟩ := ih hup' htlt (by omega)
        -- the end lies above `t`, so it is not `r`
        have hne : c.2 ≠ r := by omega
        have hstep : up r c.2 := htrans _ _ _ (hupt htk) hspec.reach
        have hsame := hspec.stop
        have hkept := hspec.kept
        rw [Function.update_of_ne hne] at hsame hkept
        refine ⟨c, hc, ⟨hstep, hspec.lt, hsame, hkept, fun j => ?_⟩, by omega⟩
        by_cases hjr : j = r
        · subst hjr
          right
          rcases hspec.changed j with h | ⟨h, -, -⟩
          · rw [Function.update_self] at h
            exact ⟨h, hstep, by rw [ht]; exact Option.some_ne_none t⟩
          · exact ⟨h, hstep, by rw [ht]; exact Option.some_ne_none t⟩
        · have hch := hspec.changed j
          rwa [Function.update_of_ne hjr] at hch

/-! ## The links between two entries -/

section Rows

variable {adj : ℕ → ℕ → Prop} {n k r j p : ℕ} {done : List ℕ} {s : Links}

/-- `j` is the root above `r` in the tree of the rows before `k`. -/
structure RootAbove (adj : ℕ → ℕ → Prop) (k r j : ℕ) : Prop where
  up : EtreeUp adj r j
  lt : j < k
  last : ∀ p, etree adj j = some p → k ≤ p

/-- There is one root above a vertex. -/
theorem RootAbove.unique {j' : ℕ} (h : RootAbove adj k r j) (h' : RootAbove adj k r j') :
    j = j' := by
  have hstop : ∀ a b, RootAbove adj k r a → EtreeUp adj a b → b < k → a = b := by
    intro a b ha hab hb
    rcases Relation.ReflTransGen.cases_head hab with heq | ⟨p, hp, hup⟩
    · exact heq
    · have := ha.last p hp
      have := EtreeUp.le hup
      omega
  -- both lie on the path from `r`
  have htotal : EtreeUp adj j j' ∨ EtreeUp adj j' j := by
    refine Relation.ReflTransGen.total_of_right_unique (fun a b c hab hac => ?_) h.up h'.up
    exact Option.some.inj (hab.symm.trans hac)
  rcases htotal with hup | hup
  · exact hstop j j' h hup h'.lt
  · exact (hstop j' j h' hup h.lt).symm

/-- The links after the rows before `k` and the entries `done` of row `k`. -/
structure Linked (adj : ℕ → ℕ → Prop) (k : ℕ) (done : List ℕ) (s : Links) : Prop where
  parent_iff : ∀ j p, s.parent j = some p ↔
    etree adj j = some p ∧ p < k ∨ p = k ∧ ∃ r ∈ done, RootAbove adj k r j
  root_iff : ∀ j, s.ancestor j = none ↔ s.parent j = none
  up : ∀ j t, s.ancestor j = some t → Relation.TransGen (fun a b => s.parent a = some b) j t

theorem Linked.parent_lt (h : Linked adj k done s) (hp : s.parent j = some p) : j < p ∧ p ≤ k := by
  rcases (h.parent_iff j p).mp hp with ⟨hp, hlt⟩ | ⟨rfl, r, -, hroot⟩
  · exact ⟨lt_of_etree hp, hlt.le⟩
  · exact ⟨hroot.lt, le_rfl⟩

theorem Linked.up_lt (h : Linked adj k done s) {t : ℕ}
    (hup : Relation.TransGen (fun a b => s.parent a = some b) j t) : j < t ∧ t ≤ k := by
  induction hup with
  | single hstep => exact h.parent_lt hstep
  | tail _ hstep ih =>
    have := h.parent_lt hstep
    omega

/-- A path of links that ends before `k` is a path in the elimination tree. -/
theorem Linked.etreeUp (h : Linked adj k done s) {t : ℕ}
    (hup : Relation.ReflTransGen (fun a b => s.parent a = some b) j t) (ht : t < k) :
    EtreeUp adj j t := by
  induction hup with
  | refl => exact .refl
  | @tail y z _ hstep ih =>
    rcases (h.parent_iff y z).mp hstep with ⟨hp, -⟩ | ⟨rfl, -⟩
    · exact (ih ((lt_of_etree hp).trans ht)).tail hp
    · omega

/-- A vertex without a link is the root of its tree. -/
theorem Linked.rootAbove (h : Linked adj k done s) (hj : s.parent j = none) (hjk : j < k)
    (hup : EtreeUp adj r j) : RootAbove adj k r j := by
  refine ⟨hup, hjk, fun p hp => not_lt.mp fun hlt => ?_⟩
  have hlink := (h.parent_iff j p).mpr (.inl ⟨hp, hlt⟩)
  rw [hj] at hlink
  cases hlink

/-- An entry whose root already leads to `k` links nothing new. -/
theorem Linked.seen (h : Linked adj k done s) {y : ℕ} (hy : s.parent y = some k)
    (hup : Relation.ReflTransGen (fun a b => s.parent a = some b) r y) :
    Linked adj k (done ++ [r]) s := by
  have hyk : y < k := (h.parent_lt hy).1
  have hroot : RootAbove adj k r y := by
    rcases (h.parent_iff y k).mp hy with ⟨-, hlt⟩ | ⟨-, r₀, -, hroot₀⟩
    · exact absurd hlt (lt_irrefl k)
    · exact ⟨h.etreeUp hup hyk, hyk, hroot₀.last⟩
  refine ⟨fun j p => (h.parent_iff j p).trans ?_, h.root_iff, h.up⟩
  refine or_congr_right (and_congr_right fun hpk => ?_)
  constructor
  · rintro ⟨r', hr', hj⟩
    exact ⟨r', List.mem_append_left _ hr', hj⟩
  · rintro ⟨r', hr', hj⟩
    rcases List.mem_append.mp hr' with hr' | hr'
    · exact ⟨r', hr', hj⟩
    · obtain rfl := List.mem_singleton.mp hr'
      obtain rfl := hj.unique hroot
      rcases (h.parent_iff j k).mp hy with ⟨-, hlt⟩ | ⟨-, hdone⟩
      · exact absurd hlt (lt_irrefl k)
      · exact hdone

/-- The entry of column `r` links the root above `r` to `k`. -/
theorem linkEntry_linked (h : Linked adj k done s) (hr : r < k) (hk : k ≤ n) :
    ∃ s', linkEntry n k s r = some s' ∧ Linked adj k (done ++ [r]) s' := by
  have hup : ∀ j t, s.ancestor j = some t → j < t ∧ t ≤ k ∧
      (t ≠ k → Relation.ReflTransGen (fun a b => s.parent a = some b) j t) := fun j t ht =>
    ⟨(h.up_lt (h.up j t ht)).1, (h.up_lt (h.up j t ht)).2, fun _ => (h.up j t ht).to_reflTransGen⟩
  obtain ⟨c, hc, hspec, -⟩ := climb_spec (fun _ => .refl) (fun _ _ _ => .trans) hup hr
    (show k - r ≤ n by omega)
  unfold linkEntry
  rw [hc, Option.map_some]
  refine ⟨_, rfl, ?_⟩
  -- what the new shortcuts need once the end of the way leads to `k`
  have hshort : ∀ s' : Links, (∀ j p, s.parent j = some p → s'.parent j = some p) →
      Relation.TransGen (fun a b => s'.parent a = some b) c.2 k → ∀ j t, c.1 j = some t →
        Relation.TransGen (fun a b => s'.parent a = some b) j t := by
    intro s' hkeep hend j t ht
    rcases hspec.changed j with heq | ⟨heq, hup, -⟩
    · rw [heq] at ht
      exact Relation.TransGen.mono hkeep _ _ (h.up j t ht)
    · rw [heq] at ht
      obtain rfl := Option.some.inj ht
      exact Relation.TransGen.trans_right (Relation.ReflTransGen.mono hkeep _ _ hup) hend
  have hnone : ∀ j, c.1 j = none ↔ s.ancestor j = none := by
    intro j
    rcases hspec.changed j with heq | ⟨heq, -, hne⟩
    · rw [heq]
    · rw [heq]
      exact ⟨fun hn => (nomatch hn), fun hn => absurd hn hne⟩
  rw [hspec.kept]
  split_ifs with hstop
  · -- a root: it gets `k` as its parent
    have hfree : s.parent c.2 = none := (h.root_iff c.2).mp hstop
    have hroot : RootAbove adj k r c.2 :=
      h.rootAbove hfree hspec.lt (h.etreeUp hspec.reach hspec.lt)
    have hkeep : ∀ j p, s.parent j = some p →
        Function.update s.parent c.2 (some k) j = some p := by
      intro j p hp
      rwa [Function.update_of_ne]
      rintro rfl
      rw [hfree] at hp
      cases hp
    have hself : Function.update s.parent c.2 (some k) c.2 = some k := Function.update_self _ _ _
    refine ⟨fun j p => ?_, fun j => ?_, fun j t ht => ?_⟩
    · dsimp only
      by_cases hj : j = c.2
      · subst hj
        rw [hself, Option.some.injEq]
        constructor
        · rintro rfl
          exact .inr ⟨rfl, r, by simp, hroot⟩
        · rintro (⟨hp, hlt⟩ | ⟨rfl, -⟩)
          · exact absurd hlt (not_lt.mpr (hroot.last p hp))
          · rfl
      · rw [Function.update_of_ne hj, h.parent_iff]
        refine or_congr_right (and_congr_right fun _ => ?_)
        constructor
        · rintro ⟨r', hr', hup⟩
          exact ⟨r', List.mem_append_left _ hr', hup⟩
        · rintro ⟨r', hr', hup⟩
          rcases List.mem_append.mp hr' with hr' | hr'
          · exact ⟨r', hr', hup⟩
          · obtain rfl := List.mem_singleton.mp hr'
            exact absurd (hup.unique hroot) hj
    · dsimp only
      by_cases hj : j = c.2
      · subst hj
        rw [hself, Function.update_self]
      · rw [Function.update_of_ne hj, Function.update_of_ne hj, hnone, h.root_iff]
    · dsimp only at ht ⊢
      by_cases hj : j = c.2
      · subst hj
        rw [Function.update_self] at ht
        obtain rfl := Option.some.inj ht
        exact .single hself
      · rw [Function.update_of_ne hj] at ht
        exact hshort ⟨_, c.1⟩ hkeep (.single hself) j t ht
  · -- a vertex that leads to `k` already
    have hend := h.up c.2 k (hspec.stop.resolve_left hstop)
    obtain ⟨y, hy, hyk⟩ := Relation.TransGen.tail'_iff.mp hend
    have hseen := h.seen hyk (hspec.reach.trans hy)
    refine ⟨hseen.parent_iff, fun j => (hnone j).trans (h.root_iff j), ?_⟩
    exact hshort ⟨s.parent, c.1⟩ (fun _ _ hp => hp) hend

/-- The entries of a row. -/
theorem linkRow_linked (hk : k ≤ n) (l : List ℕ) (hl : ∀ r ∈ l, r < k) (h : Linked adj k done s) :
    ∃ s', l.foldlM (linkEntry n k) s = some s' ∧ Linked adj k (done ++ l) s' := by
  induction l generalizing done s with
  | nil => exact ⟨s, rfl, by rwa [List.append_nil]⟩
  | cons r l ih =>
    obtain ⟨s₁, hs₁, h₁⟩ := linkEntry_linked h (hl r List.mem_cons_self) hk
    obtain ⟨s₂, hs₂, h₂⟩ := ih (fun r' hr' => hl r' (List.mem_cons_of_mem r hr')) h₁
    refine ⟨s₂, ?_, by rwa [List.append_assoc] at h₂⟩
    rw [List.foldlM_cons, hs₁]
    exact hs₂

/-- With all the entries of row `k` the links are those of the tree up to `k`. -/
theorem Linked.row_done (h : Linked adj k done s) (hrow : ∀ r, r ∈ done ↔ r < k ∧ adj k r) :
    Linked adj (k + 1) [] s := by
  refine ⟨fun j p => (h.parent_iff j p).trans ?_, h.root_iff, h.up⟩
  constructor
  · rintro (⟨hp, hlt⟩ | ⟨rfl, r, hr, hroot⟩)
    · exact .inl ⟨hp, Nat.lt_succ_of_lt hlt⟩
    · obtain ⟨hrp, hadj⟩ := (hrow r).mp hr
      have hfill : Fill adj p j := (fill_iff_row hroot.lt).mpr ⟨r, hrp, hadj, hroot.up⟩
      obtain ⟨q, hq, hle⟩ := hfill.exists_parent
      obtain rfl := le_antisymm hle (hroot.last q hq)
      exact .inl ⟨hq, Nat.lt_succ_self _⟩
  · rintro (⟨hp, hlt⟩ | ⟨-, r, hr, -⟩)
    · rcases (Nat.lt_succ_iff.mp hlt).lt_or_eq with hlt | rfl
      · exact .inl ⟨hp, hlt⟩
      · obtain ⟨hfill, hmin⟩ := etree_eq_some.mp hp
        obtain ⟨r, hr, hadj, hup⟩ := (fill_iff_row hfill.lt).mp hfill
        refine .inr ⟨rfl, r, (hrow r).mpr ⟨hr, hadj⟩, hup, hfill.lt, fun q hq => ?_⟩
        rw [hp] at hq
        exact (Option.some.inj hq).le
    · cases hr

/-- Over the rows of a pattern Liu's algorithm computes its elimination tree. -/
theorem linkRows_eq {row : ℕ → List ℕ} (hrow : ∀ k < n, ∀ r, r ∈ row k ↔ r < k ∧ adj k r)
    (hn : ∀ i j, adj i j → i < n) :
    ∃ s, linkRows n row = some s ∧ s.parent = etree adj := by
  -- after `m` rows the links are those of the leading part of the pattern
  have hrows : ∀ m ≤ n, ∃ s, (List.range m).foldlM
      (fun s k => (row k).foldlM (linkEntry n k) s) ⟨fun _ => none, fun _ => none⟩ = some s ∧
        Linked adj m [] s := by
    intro m
    induction m with
    | zero =>
      intro _
      refine ⟨_, rfl, fun j p => ?_, fun j => ?_, fun j t ht => (nomatch ht)⟩
      · simp
      · simp
    | succ m ih =>
      intro hm
      obtain ⟨s, hs, h⟩ := ih (by omega)
      obtain ⟨s', hs', h'⟩ := linkRow_linked (n := n) (by omega) (row m)
        (fun r hr => ((hrow m hm r).mp hr).1) h
      refine ⟨s', ?_, h'.row_done fun r => ?_⟩
      · rw [List.range_succ, List.foldlM_append, hs]
        change List.foldlM (fun s k => (row k).foldlM (linkEntry n k) s) s [m] = some s'
        rw [List.foldlM_cons, hs']
        rfl
      · rw [List.nil_append]
        exact hrow m hm r
  obtain ⟨s, hs, h⟩ := hrows n le_rfl
  refine ⟨s, hs, funext fun j => Option.ext fun p => ?_⟩
  rw [h.parent_iff]
  constructor
  · rintro (⟨hp, -⟩ | ⟨-, r, hr, -⟩)
    · exact hp
    · cases hr
  · exact fun hp => .inl ⟨hp, (etree_eq_some.mp hp).1.row_lt hn⟩

end Rows

/-! ## The postorder -/

section Order

variable {n : ℕ} {parent : ℕ → Option ℕ}

/-- The parents of the vertices below `n` are larger, and below `n`. -/
def Upward (n : ℕ) (parent : ℕ → Option ℕ) : Prop :=
  ∀ j < n, ∀ p, parent j = some p → j < p ∧ p < n

theorem mem_childrenCsr (h : Upward n parent) {c v : ℕ} :
    c ∈ (childrenCsr n parent).slice v ↔ c < n ∧ parent c = some v := by
  have hkey : ∀ e ∈ (List.range n).filterMap fun j => (parent j).map (·, j), e.1 < n := by
    intro e he
    obtain ⟨j, hj, hje⟩ := List.mem_filterMap.mp he
    obtain ⟨p, hp, rfl⟩ := Option.map_eq_some_iff.mp hje
    exact (h j (List.mem_range.mp hj) p hp).2
  unfold childrenCsr
  rw [Csr.mem_ofItems_slice hkey, List.mem_filterMap]
  constructor
  · rintro ⟨j, hj, hje⟩
    obtain ⟨p, hp, heq⟩ := Option.map_eq_some_iff.mp hje
    obtain ⟨rfl, rfl⟩ := Prod.mk.inj heq
    exact ⟨List.mem_range.mp hj, hp⟩
  · rintro ⟨hc, hp⟩
    exact ⟨c, List.mem_range.mpr hc, by rw [hp]; rfl⟩

theorem childrenCsr_nodup (h : Upward n parent) (v : ℕ) :
    ((childrenCsr n parent).slice v).Nodup := by
  have hkey : ∀ e ∈ (List.range n).filterMap fun j => (parent j).map (·, j), e.1 < n := by
    intro e he
    obtain ⟨j, hj, hje⟩ := List.mem_filterMap.mp he
    obtain ⟨p, hp, rfl⟩ := Option.map_eq_some_iff.mp hje
    exact (h j (List.mem_range.mp hj) p hp).2
  unfold childrenCsr
  rcases Nat.lt_or_ge v n with hv | hv
  · rw [Csr.ofItems_slice hkey hv, Csr.bucket, List.filter_filterMap, List.map_filterMap]
    refine (List.nodup_range (n := n)).filterMap fun a a' b hb hb' => ?_
    simp only [Option.mem_def, Option.map_eq_some_iff, Option.filter_eq_some_iff] at hb hb'
    obtain ⟨_, ⟨⟨p, -, rfl⟩, -⟩, rfl⟩ := hb
    obtain ⟨_, ⟨⟨p', -, rfl⟩, -⟩, heq⟩ := hb'
    exact heq.symm
  · rw [Csr.ofItems_slice_of_le hkey hv]
    exact List.nodup_nil

/-- The forest of the parent links. -/
def forestOf (n : ℕ) (parent : ℕ → Option ℕ) (h : Upward n parent) : RootedForest ℕ where
  isVertex v := v < n
  parent := parent
  kids := (childrenCsr n parent).slice
  rank v := v
  mem_kids _ _ := mem_childrenCsr h
  kids_nodup := childrenCsr_nodup h
  parent_vertex c v hc hp := (h c hc v hp).2
  rank_lt c v hc hp := (h c hc v hp).1

/-- The roots, ascending. -/
def roots (n : ℕ) (parent : ℕ → Option ℕ) : List ℕ :=
  (List.range n).filter fun j => (parent j).isNone

theorem rootStack_eq (n : ℕ) (isRoot : ℕ → Bool) :
    rootStack n isRoot = ((List.range n).filter isRoot).map (·, 0) := by
  have hfold : ∀ (l : List ℕ) (stk : List (ℕ × ℕ)),
      l.reverse.foldl (fun stk j => if isRoot j then (j, 0) :: stk else stk) stk
        = (l.filter isRoot).map (·, 0) ++ stk := by
    intro l
    induction l with
    | nil => exact fun stk => rfl
    | cons j l ih =>
      intro stk
      rw [List.reverse_cons, List.foldl_append, ih, List.filter_cons]
      by_cases hj : isRoot j = true <;> simp [hj]
  rw [rootStack, hfold, List.append_nil]

theorem apart_roots (h : Upward n parent) : (forestOf n parent h).Apart (roots n parent) := by
  refine ⟨List.nodup_range.filter _, fun r hr r' _ hup => ?_⟩
  have hnone : parent r = none := Option.isNone_iff_eq_none.mp (List.mem_filter.mp hr).2
  rcases hup.cases_head with heq | ⟨y, hy, -⟩
  · exact heq
  · exact absurd (hnone.symm.trans hy) (by simp)

/-- Every vertex lies below a root. -/
theorem exists_root (h : Upward n parent) {v : ℕ} (hv : v < n) :
    ∃ r ∈ roots n parent, (forestOf n parent h).Up v r := by
  generalize hd : n - v = d
  induction d using Nat.strongRecOn generalizing v with
  | _ d ih =>
    cases hp : parent v with
    | none =>
      exact ⟨v, List.mem_filter.mpr ⟨List.mem_range.mpr hv,
        Option.isNone_iff_eq_none.mpr hp⟩, .refl v⟩
    | some p =>
      obtain ⟨hlt, hpn⟩ := h v hv p hp
      obtain ⟨r, hr, hup⟩ := ih (n - p) (by omega) hpn rfl
      exact ⟨r, hr, .head hp hup⟩

/-- `etree_postorder` of a forest whose parents are larger than their children: every vertex
    once, and right behind its descendants. -/
theorem etreePostorder_spec (h : Upward n parent) :
    ∃ order depth, etreePostorder n parent = some (order, depth) ∧ order.Perm (List.range n) ∧
      Multifrontal.Postorder (fun j => if j < n then parent j else none) order := by
  have hvertex : ∀ v ∈ roots n parent, (forestOf n parent h).isVertex v :=
    fun v hv => List.mem_range.mp (List.mem_filter.mp hv).1
  obtain ⟨order, horder⟩ := (forestOf n parent h).exists_visits (roots n parent)
  have hnodup := RootedForest.visits_nodup horder hvertex (apart_roots h)
  have hmem : ∀ v, v ∈ order ↔ v < n := by
    intro v
    rw [RootedForest.mem_visits horder hvertex]
    exact ⟨And.left, fun hv => ⟨hv, exists_root h hv⟩⟩
  have hperm : order.Perm (List.range n) :=
    (List.perm_ext_iff_of_nodup hnodup List.nodup_range).mpr fun v =>
      (hmem v).trans List.mem_range.symm
  have hrun : dfs (childrenCsr n parent).get? (2 * n + 1)
      (rootStack n fun j => (parent j).isNone) [] = some order := by
    rw [rootStack_eq]
    refine horder.dfs_eq (fun v i => Csr.get?_eq _ v i) ?_
    rw [hperm.length_eq, List.length_range]
    exact Nat.lt_succ_self _
  refine ⟨order, _, by rw [etreePostorder, hrun]; rfl, hperm, hnodup, fun pre s post hsplit => ?_⟩
  obtain ⟨head, sub, rfl, hsub⟩ := RootedForest.visits_block horder hvertex (apart_roots h) hsplit
  refine ⟨head, sub, rfl, fun x => (hsub x).trans ?_⟩
  -- a proper descendant is one through a child, all of them vertices
  constructor
  · rintro ⟨hx, c, hup, hc⟩
    have hstep : ∀ y z, (forestOf n parent h).Up x y → parent y = some z →
        (if y < n then parent y else none) = some z := by
      intro y z hy hz
      have hyn : y < n := (hy.rank_le hx).1
      rw [if_pos hyn]
      exact hz
    refine Relation.TransGen.tail' ?_ (hstep c s hup hc)
    clear hc hsub
    induction hup with
    | refl => exact .refl
    | @tail y z hxy hyz ih => exact ih.tail (hstep y z hxy hyz)
  · intro hbelow
    obtain ⟨c, hup, hc⟩ := Relation.TransGen.tail'_iff.mp hbelow
    have hweak : ∀ y z, (if y < n then parent y else none) = some z → y < n ∧
        parent y = some z := by
      intro y z hyz
      split_ifs at hyz with hy
      exact ⟨hy, hyz⟩
    obtain ⟨-, hc'⟩ := hweak c s hc
    refine ⟨?_, c, Relation.ReflTransGen.mono (fun y z hyz => (hweak y z hyz).2) _ _ hup, hc'⟩
    rcases Relation.TransGen.head'_iff.mp hbelow with ⟨y, hxy, -⟩
    exact (hweak x y hxy).1

end Order

/-! ## The builders -/

section Builders

variable {A : LowerPattern}

theorem etree_upward (A : LowerPattern) : Upward A.n (etree A.adj) := by
  intro j _ p hp
  refine ⟨lt_of_etree hp, (etree_eq_some.mp hp).1.row_lt fun i j hij => ?_⟩
  exact (A.lower j hij.2.1 i hij.2.2).2

/-- The transposed rows list the columns of every row. -/
theorem mem_upperRows {k r : ℕ} : r ∈ (upperRows A).slice k ↔ A.adj k r := by
  have hitem : ∀ e : ℕ × ℕ, e ∈ ((List.range A.n).flatMap fun j =>
      ((A.csc.slice j).filter (· ≠ j)).map fun i => (i, j)) ↔
        e.2 < A.n ∧ e.1 ∈ A.csc.slice e.2 ∧ e.1 ≠ e.2 := by
    intro e
    simp only [List.mem_flatMap, List.mem_range, List.mem_map, List.mem_filter, decide_eq_true_eq]
    constructor
    · rintro ⟨j, hj, i, ⟨hi, hne⟩, rfl⟩
      exact ⟨hj, hi, hne⟩
    · rintro ⟨hj, hi, hne⟩
      exact ⟨e.2, hj, e.1, ⟨hi, hne⟩, rfl⟩
  unfold upperRows
  rw [Csr.mem_ofItems_slice fun e he => ?_, hitem]
  · constructor
    · rintro ⟨hr, hk, hne⟩
      exact ⟨lt_of_le_of_ne (A.lower r hr k hk).1 (Ne.symm hne), hr, hk⟩
    · rintro ⟨hlt, hr, hk⟩
      exact ⟨hr, hk, hlt.ne'⟩
  · obtain ⟨hj, hi, -⟩ := (hitem e).mp he
    exact (A.lower e.2 hj e.1 hi).2

theorem adj_row_lt (A : LowerPattern) (i j : ℕ) (h : A.adj i j) : i < A.n :=
  (A.lower j h.2.1 i h.2.2).2

/-- The tree a builder returns: its parents and a postorder of it. -/
structure TreeOf (A : LowerPattern) (et : EliminationTree) : Prop where
  parent : et.parent = etree A.adj
  perm : et.postorder.Perm (List.range A.n)
  postorder : Multifrontal.Postorder (fun j => if j < A.n then etree A.adj j else none) et.postorder

theorem finish_eq {row : ℕ → List ℕ} (hrow : ∀ k < A.n, ∀ r, r ∈ row k ↔ r < k ∧ A.adj k r) :
    ∃ et, ((linkRows A.n row).bind fun s => finishEliminationTree A.n s.parent) = some et ∧
      TreeOf A et := by
  obtain ⟨s, hs, hparent⟩ := linkRows_eq hrow (adj_row_lt A)
  obtain ⟨order, depth, hpost, hperm, hblock⟩ := etreePostorder_spec (etree_upward A)
  refine ⟨⟨etree A.adj, order, depth⟩, ?_, rfl, hperm, hblock⟩
  rw [hs, Option.bind_some, hparent, finishEliminationTree, hpost]
  rfl

/-- `build_elimination_tree`. -/
theorem buildEliminationTree_eq (A : LowerPattern) :
    ∃ et, buildEliminationTree A = some et ∧ TreeOf A et :=
  finish_eq fun _ _ _ => mem_upperRows.trans ⟨fun h => ⟨h.1, h⟩, And.right⟩

/-- Every builder computes the elimination tree of the pattern: from lower CSC columns, from
    rows and from an adjacency that store it, whatever their order; and the postorder of a
    forest with parents larger than children has every vertex right behind its descendants. -/
theorem etree_builders (A : LowerPattern) :
    (∀ j p, etree A.adj j = some p ↔ IsLeast {i | Fill A.adj i j} p) ∧
      (∃ et, buildEliminationTree A = some et ∧ et.parent = etree A.adj) ∧
      (∀ rows : Csr ℕ, (∀ k < A.n, ∀ r < k, r ∈ rows.slice k ↔ A.adj k r) →
        ∃ et, buildEliminationTreeFromRows A.n rows = some et ∧ et.parent = etree A.adj) ∧
      (∀ (adjacency : Csr ℕ) (perm iperm : ℕ → ℕ),
        (∀ k < A.n, ∀ r < k, r ∈ (adjacency.slice (perm k)).map iperm ↔ A.adj k r) →
          etreeFromAdjacency A.n adjacency perm iperm = some (etree A.adj)) ∧
      ∀ n parent, Upward n parent →
        ∃ order depth, etreePostorder n parent = some (order, depth) ∧ order.Perm (List.range n) ∧
          Multifrontal.Postorder (fun j => if j < n then parent j else none) order := by
  refine ⟨fun j p => etree_eq_some, ?_, fun rows hrows => ?_, fun adjacency perm iperm hadj => ?_,
    fun n parent h => etreePostorder_spec h⟩
  · obtain ⟨et, het, htree⟩ := buildEliminationTree_eq A
    exact ⟨et, het, htree.parent⟩
  · obtain ⟨et, het, htree⟩ := @finish_eq A (fun k => (rows.slice k).filter (· < k))
      fun k hk r => by
        rw [List.mem_filter, decide_eq_true_eq, and_comm]
        exact and_congr_right fun hr => hrows k hk r hr
    exact ⟨et, het, htree.parent⟩
  · obtain ⟨s, hs, hparent⟩ := @linkRows_eq A.adj A.n
      (fun k => ((adjacency.slice (perm k)).map iperm).filter (· < k))
      (fun k hk r => by
        rw [List.mem_filter, decide_eq_true_eq, and_comm]
        exact and_congr_right fun hr => hadj k hk r hr) (adj_row_lt A)
    rw [etreeFromAdjacency, hs, ← hparent]
    rfl

/-- A pattern with one entry of fill, its columns not sorted. -/
def kitePattern : LowerPattern where
  n := 4
  csc := ⟨fun k => [0, 3, 5, 6, 7].getD k 0, fun p => [2, 0, 1, 3, 1, 2, 3].getD p 0⟩
  lower := by decide

theorem etree_builders_kite :
    (∃ et, buildEliminationTree kitePattern = some et ∧ et.parent = etree kitePattern.adj) ∧
      etreeFromAdjacency 4 (upperRows kitePattern) id id = some (etree kitePattern.adj) := by
  obtain ⟨-, hcols, -, hadj, -⟩ := etree_builders kitePattern
  refine ⟨hcols, hadj (upperRows kitePattern) id id fun k _ r _ => ?_⟩
  rw [List.map_id]
  exact mem_upperRows

-- column 1 gets row 2 as fill, so its parent is 2 and not 3
example : (buildEliminationTree kitePattern).map (fun et => (List.range 4).map et.parent)
    = some [some 1, some 2, some 3, none] := by decide

end Builders

end Symbolic
end SmfSolver
