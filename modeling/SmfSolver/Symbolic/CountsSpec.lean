/-
  SmfSolver.Symbolic.CountsSpec

  The Gilbert-Ng-Peyton routine counts the entries of the factor's columns, whatever the
  order in which the rows of a column come.

  The weights are never read one by one: summed over the subtree at `v` they tell for how
  many rows an entry was seen in that subtree (`LeafInv.sum`).  An entry below an earlier
  one of its row adds nothing; a new leaf adds one above itself and takes one away above
  its least common ancestor with the last leaf, where the earlier leaves have counted.
-/
import SmfSolver.Symbolic.SubtreeSums
import Mathlib.Data.Set.Card
import Mathlib.Tactic.Ring

namespace SmfSolver
namespace Symbolic

open Lib
open scoped BigOperators

variable {n k i j : ℕ} {parent : ℕ → Option ℕ} {pos low : ℕ → ℕ} {post : List ℕ}

/-! ## First descendants -/

section First

/-- The walk up from `j` reaches what has no first descendant yet. -/
theorem setFirst_spec (h : Upward n parent) {fuel : ℕ} {first : ℕ → ℤ} (hj : j < n)
    (hfuel : n - j ≤ fuel)
    (hclosed : ∀ u p, Up parent j u → parent u = some p → first u ≠ -1 → first p ≠ -1) :
    ∃ f, setFirst parent k fuel first j = some f ∧ ∀ v,
      (Up parent j v → first v = -1 → f v = k) ∧ (first v ≠ -1 ∨ ¬Up parent j v →
        f v = first v) := by
  induction fuel generalizing j first with
  | zero => omega
  | succ fuel ih =>
    unfold setFirst
    split_ifs with hnone
    · cases hp : parent j with
      | none =>
        refine ⟨_, rfl, fun v => ⟨fun hup _ => ?_, fun hv => ?_⟩⟩
        · rcases up_eq_or hup with rfl | ⟨p, hp', -⟩
          · exact Function.update_self ..
          · rw [hp] at hp'
            cases hp'
        · refine Function.update_of_ne ?_ _ _
          rintro rfl
          rcases hv with hv | hv
          · exact hv hnone
          · exact hv .refl
      | some p =>
        obtain ⟨hjp, hpn⟩ := h j hj p hp
        have hne : ∀ u, Up parent p u → u ≠ j := fun u hu => by
          have := (h.up_lt hu hpn).1
          omega
        -- `j` is not above its parent, so setting it leaves the path as it was
        have hclosed' : ∀ u q, Up parent p u → parent u = some q →
            Function.update first j k u ≠ -1 → Function.update first j k q ≠ -1 := by
          intro u q hu hq
          rw [Function.update_of_ne (hne u hu), Function.update_of_ne (hne q (hu.tail hq))]
          exact hclosed u q (.head hp hu) hq
        obtain ⟨f, hf, hspec⟩ := ih hpn (by omega) hclosed'
        refine ⟨f, hf, fun v => ⟨fun hup hv => ?_, fun hv => ?_⟩⟩
        · rcases up_eq_or hup with rfl | ⟨p', hp', hup'⟩
          · rw [(hspec j).2 (.inr fun hc => hne j hc rfl), Function.update_self]
          · rw [hp] at hp'
            obtain rfl := Option.some.inj hp'
            refine (hspec v).1 hup' ?_
            rw [Function.update_of_ne (hne v hup'), hv]
        · have hvj : v ≠ j := by
            rintro rfl
            rcases hv with hv | hv
            · exact hv hnone
            · exact hv .refl
          rw [(hspec v).2 ?_, Function.update_of_ne hvj]
          rw [Function.update_of_ne hvj]
          exact hv.imp_right fun hc hup => hc (.head hp hup)
    · -- first descendants reach up
      have habove : ∀ v, Up parent j v → first v ≠ -1 := by
        intro v hup
        induction hup with
        | refl => exact hnone
        | tail hy hstep ihy => exact hclosed _ _ hy hstep ihy
      exact ⟨first, rfl, fun v => ⟨fun hup hv => absurd hv (habove v hup), fun _ => rfl⟩⟩

/-- After the vertices at the positions below `m`. -/
structure FirstDone (n : ℕ) (pos low : ℕ → ℕ) (m : ℕ) (s : FirstState) : Prop where
  first : ∀ v < n, s.first v = if low v < m then (low v : ℤ) else -1
  delta : ∀ v < n, pos v < m → s.delta v = if low v = pos v then 1 else 0

theorem firstStep_done (h : Upward n parent) (P : PostIndex n parent pos low) {s : FirstState}
    (hs : FirstDone n pos low k s) (hj : j < n) (hpos : pos j = k) :
    ∃ s', firstStep n parent s (j, k) = some s' ∧ FirstDone n pos low (k + 1) s' := by
  -- not set yet are those whose first descendant is still to come
  have hset : ∀ v < n, s.first v = -1 ↔ k ≤ low v := by
    intro v hv
    rw [hs.first v hv]
    by_cases hlt : low v < k
    · rw [if_pos hlt]
      exact ⟨fun hc => by omega, fun hc => absurd hlt (not_lt.mpr hc)⟩
    · rw [if_neg hlt]
      exact ⟨fun _ => not_lt.mp hlt, fun _ => rfl⟩
  have hup : ∀ v, Up parent j v → v < n ∧ low v ≤ k := by
    intro v hv
    have hvn := (h.up_lt hv hj).2
    exact ⟨hvn, hpos ▸ ((P.block v hvn j hj).mp hv).1⟩
  obtain ⟨f, hf, hspec⟩ := (@setFirst_spec _ k _ _ h (n + 1) s.first) hj (by omega)
    fun u p hu hp hne => by
      obtain ⟨hun, -⟩ := hup u hu
      have hpn := (h u hun p hp).2
      have hanti := P.low_anti hun hpn (.single hp)
      rw [ne_eq, hset u hun] at hne
      rw [ne_eq, hset p hpn]
      omega
  refine ⟨⟨Function.update s.delta j (if s.first j = -1 then 1 else 0), f⟩,
    by unfold firstStep; rw [hf]; rfl, fun v hv => ?_, fun v hv hvk => ?_⟩
  · dsimp only
    by_cases hnew : Up parent j v ∧ s.first v = -1
    · have hlow : low v = k := by
        have := (hset v hv).mp hnew.2
        have := (hup v hnew.1).2
        omega
      rw [(hspec v).1 hnew.1 hnew.2, if_pos (by omega), hlow]
    · rw [(hspec v).2 (by tauto), hs.first v hv]
      by_cases hlt : low v < k
      · rw [if_pos hlt, if_pos (by omega)]
      · -- were it the first descendant of `v`, then `j` would lie below `v`
        rw [if_neg hlt, if_neg]
        intro hlt'
        have hle := P.low_le hv
        exact hnew ⟨(P.block v hv j hj).mpr ⟨by omega, by omega⟩, (hset v hv).mpr (by omega)⟩
  · dsimp only
    by_cases hvj : v = j
    · subst hvj
      have hle := P.low_le hv
      rw [Function.update_self]
      refine if_congr ?_ rfl rfl
      rw [hset v hv]
      omega
    · rw [Function.update_of_ne hvj]
      refine hs.delta v hv ?_
      have : pos v ≠ pos j := fun heq => hvj (P.pos_inj v hv j hj heq)
      omega

/-- The vertices in the order of their positions. -/
def Lists (n : ℕ) (pos : ℕ → ℕ) (post : List ℕ) : Prop :=
  ∀ (k j : ℕ), post[k]? = some j → j < n ∧ pos j = k

theorem firstSteps_done (h : Upward n parent) (P : PostIndex n parent pos low)
    (hpost : Lists n pos post) :
    ∃ s, post.zipIdx.foldlM (firstStep n parent) ⟨fun _ => 0, fun _ => -1⟩ = some s ∧
      FirstDone n pos low post.length s := by
  have hfold : ∀ (l : List ℕ) (m : ℕ) (s : FirstState), (∀ (t j : ℕ), l[t]? = some j → j < n ∧
    pos j = m + t) →
      FirstDone n pos low m s →
        ∃ s', (l.zipIdx m).foldlM (firstStep n parent) s = some s' ∧
          FirstDone n pos low (m + l.length) s' := by
    intro l
    induction l with
    | nil => exact fun m s _ hs => ⟨s, rfl, hs⟩
    | cons a l ih =>
      intro m s hl hs
      obtain ⟨ha, hpa⟩ := hl 0 a rfl
      obtain ⟨s₁, hs₁, hdone⟩ := firstStep_done h P hs ha hpa
      obtain ⟨s₂, hs₂, hdone₂⟩ := ih (m + 1) s₁ (fun t j ht => by
        obtain ⟨hj, hpj⟩ := hl (t + 1) j ht
        exact ⟨hj, by omega⟩) hdone
      refine ⟨s₂, ?_, by rwa [List.length_cons, Nat.add_comm l.length, ← Nat.add_assoc]⟩
      rw [List.zipIdx_cons, List.foldlM_cons, hs₁]
      exact hs₂
  obtain ⟨s, hs, hdone⟩ := hfold post 0 ⟨fun _ => 0, fun _ => -1⟩
    (fun t j ht => by rw [Nat.zero_add]; exact hpost t j ht)
    ⟨fun v _ => by rw [if_neg (Nat.not_lt_zero _)], fun v _ hv => absurd hv (Nat.not_lt_zero _)⟩
  rw [Nat.zero_add] at hdone
  exact ⟨s, hs, hdone⟩

end First

/-! ## The links of the finished vertices -/

section Links

variable {anc : ℕ → ℕ} {x q : ℕ}

/-- The links of the vertices at positions below `k` lead up, past finished vertices only; the
    others lead nowhere. -/
structure Ancestors (n : ℕ) (parent : ℕ → Option ℕ) (pos : ℕ → ℕ) (k : ℕ) (anc : ℕ → ℕ) : Prop where
  opened : ∀ u < n, k ≤ pos u → anc u = u
  done : ∀ u < n, pos u < k → ∀ p, parent u = some p → Up parent p (anc u) ∧
    ∀ x, Up parent u x → Up parent x (anc u) → x ≠ anc u → pos x < k

/-- `q` is the first vertex from `x` up that is not finished. -/
structure FirstOpen (parent : ℕ → Option ℕ) (pos : ℕ → ℕ) (k x q : ℕ) : Prop where
  up : Up parent x q
  opened : k ≤ pos q
  least : ∀ y, Up parent x y → k ≤ pos y → Up parent q y

/-- Along a link the first open vertex stays the same. -/
theorem Ancestors.next (h : Upward n parent) (ha : Ancestors n parent pos k anc) (hx : x < n)
    (hxk : pos x < k) {y : ℕ} (hy : k ≤ pos y) (hup : Up parent x y) :
    x < anc x ∧ anc x < n ∧ Up parent x (anc x) ∧ Up parent (anc x) y := by
  rcases up_eq_or hup with rfl | ⟨p, hp, hpy⟩
  · omega
  · obtain ⟨hpa, hdone⟩ := ha.done x hx hxk p hp
    obtain ⟨hxp, hpn⟩ := h x hx p hp
    obtain ⟨hle, hn⟩ := h.up_lt hpa hpn
    refine ⟨by omega, hn, .head hp hpa, ?_⟩
    rcases h.up_total hpa hpy with hay | hya
    · exact hay
    · by_cases heq : y = anc x
      · rw [heq]
      · have := hdone y hup hya heq
        omega

/-- Below an open vertex the links end at the first one. -/
theorem findRoot_spec (h : Upward n parent) (ha : Ancestors n parent pos k anc) {fuel : ℕ}
    (hx : x < n) (hfuel : n - x ≤ fuel) (hopen : ∃ y, Up parent x y ∧ k ≤ pos y) :
    ∃ q, findRoot anc fuel x = some q ∧ FirstOpen parent pos k x q := by
  induction fuel generalizing x with
  | zero => omega
  | succ fuel ih =>
    obtain ⟨y, hup, hy⟩ := hopen
    unfold findRoot
    rcases Nat.lt_or_ge (pos x) k with hxk | hxk
    · obtain ⟨hlt, hn, hxa, hay⟩ := ha.next h hx hxk hy hup
      rw [if_neg hlt.ne]
      obtain ⟨q, hq, hfirst⟩ := ih hn (by omega) ⟨y, hay, hy⟩
      exact ⟨q, hq, hxa.trans hfirst.up, hfirst.opened, fun z hz hzk =>
        hfirst.least z (ha.next h hx hxk hzk hz).2.2.2 hzk⟩
    · rw [if_pos (ha.opened x hx hxk).symm]
      exact ⟨x, rfl, .refl, hxk, fun z hz _ => hz⟩

theorem compressTo_spec (h : Upward n parent) (ha : Ancestors n parent pos k anc) {fuel : ℕ}
    (hx : x < n) (hfuel : n - x ≤ fuel) (hq : FirstOpen parent pos k x q) :
    ∃ anc', compressTo q fuel anc x = some anc' ∧ Ancestors n parent pos k anc' := by
  -- on the fuel: the walk from `x` goes up, and `n - x` steps reach the root
  induction fuel generalizing x anc with
  | zero => omega
  | succ fuel ih =>
    unfold compressTo
    split_ifs with hxq
    · exact ⟨anc, rfl, ha⟩
    · have hxk : pos x < k := not_le.mp fun hge =>
        hxq (h.up_antisymm hx hq.up (hq.least x .refl hge))
      obtain ⟨hlt, hn, -, haq⟩ := ha.next h hx hxk hq.opened hq.up
      have hqn := (h.up_lt hq.up hx).2
      have hanc : Ancestors n parent pos k (Function.update anc x q) := by
        refine ⟨fun u hu huk => ?_, fun u hu huk p hp => ?_⟩
        · rw [Function.update_of_ne (by rintro rfl; omega)]
          exact ha.opened u hu huk
        · by_cases hux : u = x
          · subst hux
            rw [Function.update_self]
            refine ⟨?_, fun z hz hzq hne => not_le.mp fun hzk =>
              hne (h.up_antisymm (h.up_lt hz hu).2 hzq (hq.least z hz hzk))⟩
            rcases up_eq_or hq.up with heq | ⟨p', hp', hup⟩
            · exact absurd heq hxq
            · rw [hp] at hp'
              exact Option.some.inj hp' ▸ hup
          · rw [Function.update_of_ne hux]
            exact ha.done u hu huk p hp
      exact ih hanc hn (by omega) ⟨haq, hq.opened, fun z hz hzk =>
        hq.least z ((ha.next h hx hxk hq.opened hq.up).2.2.1.trans hz) hzk⟩

/-- A finished vertex leads to its parent. -/
theorem Ancestors.finish (h : Upward n parent) (P : PostIndex n parent pos low)
    (ha : Ancestors n parent pos k anc) (hj : j < n) (hpos : pos j = k) :
    Ancestors n parent pos (k + 1)
      (match parent j with
        | none => anc
        | some p => Function.update anc j p) := by
  have hne : ∀ u < n, u ≠ j → pos u ≠ k := fun u hu huj heq =>
    huj (P.pos_inj u hu j hj (heq.trans hpos.symm))
  -- only the link of `j` changes, to its parent; a root keeps its own
  have hold : ∀ u, u ≠ j → (match parent j with
      | none => anc
      | some p => Function.update anc j p) u = anc u := by
    intro u hu
    cases parent j with
    | none => rfl
    | some p => exact Function.update_of_ne hu _ _
  refine ⟨fun u hu huk => ?_, fun u hu huk p hp => ?_⟩
  · rw [hold u (by rintro rfl; omega)]
    exact ha.opened u hu (by omega)
  · by_cases huj : u = j
    · subst huj
      rw [hp]
      dsimp only
      rw [Function.update_self]
      refine ⟨.refl, fun x hx hxp hxne => ?_⟩
      rcases up_eq_or hx with rfl | ⟨p', hp', hup⟩
      · omega
      · rw [hp] at hp'
        obtain rfl := Option.some.inj hp'
        have hpn := (h u hu p hp).2
        exact absurd (h.up_antisymm hpn hup hxp).symm hxne
    · rw [hold u huj]
      have hlt : pos u < k := by
        have := hne u hu huj
        omega
      obtain ⟨hup, hdone⟩ := ha.done u hu hlt p hp
      exact ⟨hup, fun x hx hxa hxne => Nat.lt_succ_of_lt (hdone x hx hxa hxne)⟩

end Links

/-! ## The leaves of the row subtrees -/

section Leaves

variable {seen : ℕ → ℕ → Prop} {base : ℕ → ℤ} {first : ℕ → ℤ} {s : LeafState} {v : ℕ}

open Classical in
/-- The rows with an entry seen in the subtree at `v`. -/
noncomputable def hits (n : ℕ) (parent : ℕ → Option ℕ) (seen : ℕ → ℕ → Prop) (v : ℕ) : ℤ :=
  ∑ i ∈ Finset.range n, if ∃ r, seen i r ∧ Up parent r v then 1 else 0

/-- In the column at position `k`, with the entries `seen i r` of rows `i` in columns `r` done. -/
structure LeafInv (n : ℕ) (parent : ℕ → Option ℕ) (pos low : ℕ → ℕ) (k : ℕ) (base : ℕ → ℤ)
    (seen : ℕ → ℕ → Prop) (s : LeafState) : Prop where
  links : Ancestors n parent pos k s.ancestor
  noLeaf : ∀ i < n, s.prevleaf i = none → s.maxfirst i = -1 ∧ ∀ r, ¬seen i r
  lastLeaf : ∀ i < n, ∀ leaf, s.prevleaf i = some leaf → s.maxfirst i = low leaf ∧ seen i leaf ∧
    ∀ r, seen i r → low r ≤ low leaf ∧ (pos r ≤ pos leaf ∨ Up parent leaf r)
  sum : ∀ v < n, subtreeSum n parent s.delta v = base v + hits n parent seen v

/-- One more entry. -/
def addEntry (seen : ℕ → ℕ → Prop) (i j : ℕ) (i' r : ℕ) : Prop := seen i' r ∨ i' = i ∧ r = j

open Classical in
theorem hits_addEntry (hi : i < n) : hits n parent (addEntry seen i j) v
    = hits n parent seen v
      + if Up parent j v ∧ ¬∃ r, seen i r ∧ Up parent r v then 1 else 0 := by
  unfold hits
  -- the new entry changes the summand of its row alone, and by one at most
  have hpoint : ∀ i' ∈ Finset.range n,
      (if ∃ r, addEntry seen i j i' r ∧ Up parent r v then (1 : ℤ) else 0)
        = (if ∃ r, seen i' r ∧ Up parent r v then 1 else 0)
          + if i' = i then (if Up parent j v ∧ ¬∃ r, seen i r ∧ Up parent r v then 1 else 0)
            else 0 := by
    intro i' _
    by_cases hii : i' = i
    · subst hii
      have hnew : (∃ r, addEntry seen i' j i' r ∧ Up parent r v) ↔
          (∃ r, seen i' r ∧ Up parent r v) ∨ Up parent j v := by
        constructor
        · rintro ⟨r, hr | ⟨-, rfl⟩, hup⟩
          · exact .inl ⟨r, hr, hup⟩
          · exact .inr hup
        · rintro (⟨r, hr, hup⟩ | hup)
          · exact ⟨r, .inl hr, hup⟩
          · exact ⟨j, .inr ⟨rfl, rfl⟩, hup⟩
      simp only [hnew, if_true]
      by_cases hold : ∃ r, seen i' r ∧ Up parent r v
      · simp [hold]
      · simp [hold]
    · have hsame : (∃ r, addEntry seen i j i' r ∧ Up parent r v) ↔
          ∃ r, seen i' r ∧ Up parent r v :=
        exists_congr fun r => and_congr_left fun _ => or_iff_left fun hc => hii hc.1
      rw [if_congr hsame rfl rfl, if_neg hii, add_zero]
  rw [Finset.sum_congr rfl hpoint, Finset.sum_add_distrib, Finset.sum_ite_eq',
    if_pos (Finset.mem_range.mpr hi)]

/-- An entry below which an earlier one of its row lies. -/
theorem LeafInv.covered (P : PostIndex n parent pos low) (hj : j < n) (hpos : pos j = k)
    (hi : i < n) (hseen : ∀ i r, seen i r → r < n ∧ pos r ≤ k ∧ Up parent r i)
    (hs : LeafInv n parent pos low k base seen s) (hmax : (low j : ℤ) ≤ s.maxfirst i) :
    LeafInv n parent pos low k base (addEntry seen i j) s := by
  obtain ⟨leaf, hleaf⟩ : ∃ leaf, s.prevleaf i = some leaf := by
    cases hprev : s.prevleaf i with
    | none =>
      have := (hs.noLeaf i hi hprev).1
      omega
    | some leaf => exact ⟨leaf, rfl⟩
  obtain ⟨hval, hsl, -⟩ := hs.lastLeaf i hi leaf hleaf
  obtain ⟨hln, hlk, -⟩ := hseen i leaf hsl
  have hlow : low j ≤ low leaf := by omega
  -- the last leaf of the row is below `j`, which is therefore no leaf of its row subtree
  have hbelow : Up parent leaf j :=
    P.up_of_low_le hln hj (by omega) (hlow.trans (P.low_le hln))
  refine ⟨hs.links, fun i' hi' hnone => ?_, fun i' hi' leaf' hleaf' => ?_, fun v hv => ?_⟩
  · obtain ⟨hm, hns⟩ := hs.noLeaf i' hi' hnone
    refine ⟨hm, fun r hr => ?_⟩
    rcases hr with hr | ⟨rfl, -⟩
    · exact hns r hr
    · rw [hleaf] at hnone
      cases hnone
  · obtain ⟨hm, hsl', hall⟩ := hs.lastLeaf i' hi' leaf' hleaf'
    refine ⟨hm, .inl hsl', fun r hr => ?_⟩
    rcases hr with hr | ⟨rfl, rfl⟩
    · exact hall r hr
    · rw [hleaf] at hleaf'
      obtain rfl := Option.some.inj hleaf'
      exact ⟨hlow, .inr hbelow⟩
  · rw [hs.sum v hv, hits_addEntry hi, if_neg, add_zero]
    exact fun hc => hc.2 ⟨leaf, hsl, hbelow.trans hc.1⟩

/-- A vertex above a new leaf is above an earlier entry of the row when it is above the last
    leaf. -/
theorem LeafInv.hit_iff (h : Upward n parent) (P : PostIndex n parent pos low) (hj : j < n)
    (hpos : pos j = k) (hi : i < n) (hseen : ∀ i r, seen i r → r < n ∧ pos r ≤ k ∧ Up parent r i)
    (hs : LeafInv n parent pos low k base seen s) {leaf : ℕ} (hleaf : s.prevleaf i = some leaf)
    (_ : ¬(low j : ℤ) ≤ s.maxfirst i) (hup : Up parent j v) :
    (∃ r, seen i r ∧ Up parent r v) ↔ Up parent leaf v := by
  obtain ⟨hval, hsl, hall⟩ := hs.lastLeaf i hi leaf hleaf
  obtain ⟨hln, hlk, -⟩ := hseen i leaf hsl
  have hvn := (h.up_lt hup hj).2
  refine ⟨fun ⟨r, hr, hrv⟩ => ?_, fun hlv => ⟨leaf, hsl, hlv⟩⟩
  obtain ⟨hrn, -, -⟩ := hseen i r hr
  rcases (hall r hr).2 with hle | hlr
  · -- `leaf` lies between `r` and `j` in the postorder
    have hlowv := ((P.block v hvn r hrn).mp hrv).1
    have hposv := P.pos_le hj hvn hup
    exact (P.block v hvn leaf hln).mpr ⟨by omega, by omega⟩
  · exact hlr.trans hrv

/-- A new leaf of the row subtree, without the weight at the common ancestor. -/
def newLeaf (first : ℕ → ℤ) (j i : ℕ) (s : LeafState) : LeafState :=
  { s with
    maxfirst := Function.update s.maxfirst i (first j)
    prevleaf := Function.update s.prevleaf i (some j)
    delta := Function.update s.delta j (s.delta j + 1) }

theorem LeafInv.addLeaf (hfirst : ∀ v < n, first v = low v) (hj : j < n) (hpos : pos j = k)
    (hi : i < n) (hseen : ∀ i r, seen i r → r < n ∧ pos r ≤ k ∧ Up parent r i)
    (hs : LeafInv n parent pos low k base seen s) (hmax : ¬(low j : ℤ) ≤ s.maxfirst i)
    {anc : ℕ → ℕ} (hlinks : Ancestors n parent pos k anc) (delta : ℕ → ℤ)
    (hsum : ∀ v < n, subtreeSum n parent delta v
      = base v + hits n parent (addEntry seen i j) v) :
    LeafInv n parent pos low k base (addEntry seen i j)
      { newLeaf first j i s with ancestor := anc, delta := delta } := by
  refine ⟨hlinks, fun i' hi' hnone => ?_, fun i' hi' leaf hleaf => ?_, hsum⟩ <;>
    dsimp only [newLeaf] at *
  · by_cases hii : i' = i
    · subst hii
      rw [Function.update_self] at hnone
      cases hnone
    · rw [Function.update_of_ne hii] at hnone ⊢
      obtain ⟨hm, hns⟩ := hs.noLeaf i' hi' hnone
      exact ⟨hm, fun r hr => hr.elim (hns r) fun hc => hii hc.1⟩
  -- `j` is now the last leaf of row `i`, and its `low` is the greatest of the row
  · by_cases hii : i' = i
    · subst hii
      rw [Function.update_self] at hleaf ⊢
      obtain rfl := Option.some.inj hleaf
      refine ⟨hfirst j hj, .inr ⟨rfl, rfl⟩, fun r hr => ?_⟩
      rcases hr with hr | ⟨-, rfl⟩
      · obtain ⟨-, hrk, -⟩ := hseen i' r hr
        refine ⟨?_, .inl (by omega)⟩
        cases hprev : s.prevleaf i' with
        | none => exact absurd hr ((hs.noLeaf i' hi hprev).2 r)
        | some leaf =>
          obtain ⟨hval, -, hall⟩ := hs.lastLeaf i' hi leaf hprev
          have := (hall r hr).1
          omega
      · exact ⟨le_rfl, .inl le_rfl⟩
    · rw [Function.update_of_ne hii] at hleaf ⊢
      obtain ⟨hm, hsl, hall⟩ := hs.lastLeaf i' hi' leaf hleaf
      exact ⟨hm, .inl hsl, fun r hr => hr.elim (hall r) fun hc => absurd hc.1 hii⟩

open Classical in
/-- The entry of row `i` in the column `j` at position `k`. -/
theorem leafEntry_spec (h : Upward n parent) (P : PostIndex n parent pos low)
    (hfirst : ∀ v < n, first v = low v) (hj : j < n) (hpos : pos j = k) (hi : i < n)
    (hup : Up parent j i) (hseen : ∀ i r, seen i r → r < n ∧ pos r ≤ k ∧ Up parent r i)
    (hs : LeafInv n parent pos low k base seen s) :
    ∃ s', leafEntry n first j s i = some s' ∧
      LeafInv n parent pos low k base (addEntry seen i j) s' := by
  unfold leafEntry
  rw [hfirst j hj]
  split_ifs with hmax
  · exact ⟨s, rfl, hs.covered P hj hpos hi hseen hmax⟩
  · have hleafsum : ∀ v, subtreeSum n parent (Function.update s.delta j (s.delta j + 1)) v
        = subtreeSum n parent s.delta v + if Up parent j v then 1 else 0 :=
      fun v => subtreeSum_update s.delta 1 hj
    cases hprev : s.prevleaf i with
    | none =>
      refine ⟨_, rfl, ?_⟩
      have hnew := hs.addLeaf hfirst hj hpos hi hseen hmax hs.links
        (Function.update s.delta j (s.delta j + 1)) fun v hv => ?_
      · rw [newLeaf, hfirst j hj] at hnew
        exact hnew
      · rw [hleafsum, hs.sum v hv, hits_addEntry hi, add_assoc]
        congr 2
        exact if_congr ⟨fun hc => ⟨hc, fun ⟨r, hr, _⟩ => (hs.noLeaf i hi hprev).2 r hr⟩, And.left⟩
          rfl rfl
    | some leaf =>
      obtain ⟨-, hsl, -⟩ := hs.lastLeaf i hi leaf hprev
      obtain ⟨hln, -, hli⟩ := hseen i leaf hsl
      have hik : k ≤ pos i := hpos ▸ P.pos_le hj hi hup
      obtain ⟨q, hq, hfirstq⟩ := (@findRoot_spec _ _ _ _ _ _ h hs.links (n + 1)) hln (by omega)
        ⟨i, hli, hik⟩
      obtain ⟨anc, hanc, hlinks⟩ := (@compressTo_spec _ _ _ _ _ _ _ h hs.links (n + 1)) hln
        (by omega) hfirstq
      have hqn : q < n := (h.up_lt hfirstq.up hln).2
      -- `q` is above the last leaf and not finished, so it is above `j` too
      have hlca : ∀ v < n, Up parent q v ↔ Up parent j v ∧ Up parent leaf v := by
        intro v hv
        have hjq : Up parent j q := by
          have hlk := (hseen i leaf hsl).2.1
          have hlow := ((P.block q hqn leaf hln).mp hfirstq.up).1
          have := hfirstq.opened
          exact (P.block q hqn j hj).mpr ⟨by omega, by omega⟩
        refine ⟨fun hqv => ⟨hjq.trans hqv, hfirstq.up.trans hqv⟩, fun ⟨hjv, hlv⟩ => ?_⟩
        exact hfirstq.least v hlv (hpos ▸ P.pos_le hj hv hjv)
      refine ⟨_, by dsimp only; rw [hq, Option.bind_eq_bind, Option.bind_some, hanc]; rfl, ?_⟩
      have hnew := hs.addLeaf hfirst hj hpos hi hseen hmax hlinks
        (Function.update (Function.update s.delta j (s.delta j + 1)) q
          (Function.update s.delta j (s.delta j + 1) q - 1)) fun v hv => ?_
      · rw [newLeaf, hfirst j hj] at hnew
        exact hnew
      · rw [sub_eq_add_neg, subtreeSum_update _ _ hqn, hleafsum, hs.sum v hv, hits_addEntry hi]
        by_cases hjv : Up parent j v
        · by_cases hlv : Up parent leaf v
          · have hhit := (hs.hit_iff h P hj hpos hi hseen hprev hmax hjv).mpr hlv
            rw [if_pos hjv, if_pos ((hlca v hv).mpr ⟨hjv, hlv⟩), if_neg fun hc => hc.2 hhit]
            ring
          · have hhit := mt (hs.hit_iff h P hj hpos hi hseen hprev hmax hjv).mp hlv
            rw [if_pos hjv, if_neg fun hc => hlv ((hlca v hv).mp hc).2, if_pos ⟨hjv, hhit⟩]
            ring
        · rw [if_neg hjv, if_neg fun hc => hjv ((hlca v hv).mp hc).1, if_neg fun hc => hjv hc.1]
          ring

/-- The rows `l` of the column `j` at position `k`. -/
theorem leafRows_spec (h : Upward n parent) (P : PostIndex n parent pos low)
    (hfirst : ∀ v < n, first v = low v) (hj : j < n) (hpos : pos j = k) (l : List ℕ)
    (hl : ∀ i ∈ l, i < n ∧ Up parent j i)
    (hseen : ∀ i r, seen i r → r < n ∧ pos r ≤ k ∧ Up parent r i)
    (hs : LeafInv n parent pos low k base seen s) :
    ∃ s', l.foldlM (leafEntry n first j) s = some s' ∧
      LeafInv n parent pos low k base (fun i r => seen i r ∨ i ∈ l ∧ r = j) s' := by
  -- on the rows of the column
  induction l generalizing s seen with
  | nil =>
    refine ⟨s, rfl, ?_⟩
    have hsame : (fun i r => seen i r ∨ i ∈ ([] : List ℕ) ∧ r = j) = seen := by
      funext i r
      simp
    rw [hsame]
    exact hs
  | cons i l ih =>
    obtain ⟨hi, hup⟩ := hl i List.mem_cons_self
    obtain ⟨s₁, hs₁, hinv₁⟩ := leafEntry_spec h P hfirst hj hpos hi hup hseen hs
    have hseen₁ : ∀ i' r, addEntry seen i j i' r → r < n ∧ pos r ≤ k ∧ Up parent r i' := by
      rintro i' r (hr | ⟨rfl, rfl⟩)
      · exact hseen i' r hr
      · exact ⟨hj, hpos.le, hup⟩
    obtain ⟨s₂, hs₂, hinv₂⟩ := ih (fun i' hi' => hl i' (List.mem_cons_of_mem i hi')) hseen₁ hinv₁
    refine ⟨s₂, by rw [List.foldlM_cons, hs₁]; exact hs₂, ?_⟩
    have hsame : (fun i' r => addEntry seen i j i' r ∨ i' ∈ l ∧ r = j)
        = fun i' r => seen i' r ∨ i' ∈ i :: l ∧ r = j := by
      funext i' r
      simp only [addEntry, List.mem_cons, eq_iff_iff]
      tauto
    rw [← hsame]
    exact hinv₂

variable {below : ℕ → List ℕ}

open Classical in
/-- What the columns at positions below `k` have taken away above their parents. -/
noncomputable def passed (n : ℕ) (parent : ℕ → Option ℕ) (pos : ℕ → ℕ) (k v : ℕ) : ℤ :=
  ∑ u ∈ Finset.range n, if pos u < k ∧ ∃ p, parent u = some p ∧ Up parent p v then 1 else 0

/-- The entries of the columns at positions below `k`. -/
def seenBelow (n : ℕ) (pos : ℕ → ℕ) (below : ℕ → List ℕ) (k i r : ℕ) : Prop :=
  r < n ∧ pos r < k ∧ i ∈ below r

/-- Between two columns. -/
def ColumnsDone (n : ℕ) (parent : ℕ → Option ℕ) (pos low : ℕ → ℕ) (below : ℕ → List ℕ)
    (base : ℕ → ℤ) (k : ℕ) (s : LeafState) : Prop :=
  LeafInv n parent pos low k (fun v => base v - passed n parent pos k v) (seenBelow n pos below k) s

open Classical in
theorem passed_succ (P : PostIndex n parent pos low) (hj : j < n) (hpos : pos j = k) :
    passed n parent pos (k + 1) v
      = passed n parent pos k v + if ∃ p, parent j = some p ∧ Up parent p v then 1 else 0 := by
  unfold passed
  have hpoint : ∀ u ∈ Finset.range n,
      (if pos u < k + 1 ∧ ∃ p, parent u = some p ∧ Up parent p v then (1 : ℤ) else 0)
        = (if pos u < k ∧ ∃ p, parent u = some p ∧ Up parent p v then 1 else 0)
          + if u = j then (if ∃ p, parent j = some p ∧ Up parent p v then 1 else 0) else 0 := by
    intro u hu
    by_cases huj : u = j
    · subst huj
      have hnot : ¬(pos u < k ∧ ∃ p, parent u = some p ∧ Up parent p v) :=
        fun hc => hc.1.ne hpos
      rw [if_pos rfl, if_neg hnot, zero_add]
      exact if_congr (and_iff_right (by omega)) rfl rfl
    · have hne : pos u ≠ k := fun heq =>
        huj (P.pos_inj u (Finset.mem_range.mp hu) j hj (heq.trans hpos.symm))
      rw [if_neg huj, add_zero]
      exact if_congr (and_congr_left fun _ => by omega) rfl rfl
  rw [Finset.sum_congr rfl hpoint, Finset.sum_add_distrib, Finset.sum_ite_eq',
    if_pos (Finset.mem_range.mpr hj)]

open Classical in
/-- A column takes one away above its parent, and adds the leaves of its rows. -/
theorem leafColumn_spec (h : Upward n parent) (P : PostIndex n parent pos low)
    (hfirst : ∀ v < n, first v = low v) (hj : j < n) (hpos : pos j = k)
    (hbelow : ∀ r < n, ∀ i ∈ below r, i < n ∧ Up parent r i)
    (hs : ColumnsDone n parent pos low below base k s) :
    ∃ s', leafColumn n parent below first s j = some s' ∧
      ColumnsDone n parent pos low below base (k + 1) s' := by
  -- the weight taken away at the parent
  set s₁ : LeafState :=
    match parent j with
    | none => s
    | some p => { s with delta := Function.update s.delta p (s.delta p - 1) } with hs₁
  have hinv₁ : LeafInv n parent pos low k (fun v => base v - passed n parent pos (k + 1) v)
      (seenBelow n pos below k) s₁ := by
    have hsum : ∀ v < n, subtreeSum n parent s₁.delta v = subtreeSum n parent s.delta v
        - if ∃ p, parent j = some p ∧ Up parent p v then 1 else 0 := by
      intro v _
      rw [hs₁]
      cases hp : parent j with
      | none => simp
      | some p =>
        have hpn := (h j hj p hp).2
        dsimp only
        rw [sub_eq_add_neg, subtreeSum_update _ _ hpn, sub_eq_add_neg]
        congr 1
        simp only [Option.some.injEq, exists_eq_left']
        split_ifs <;> simp
    have hrest : s₁.ancestor = s.ancestor ∧ s₁.maxfirst = s.maxfirst ∧
        s₁.prevleaf = s.prevleaf := by
      rw [hs₁]
      cases parent j <;> exact ⟨rfl, rfl, rfl⟩
    obtain ⟨hanc, hmax, hprev⟩ := hrest
    refine ⟨hanc ▸ hs.links, ?_, ?_, fun v hv => ?_⟩
    · rw [hmax, hprev]
      exact hs.noLeaf
    · rw [hmax, hprev]
      exact hs.lastLeaf
    · rw [hsum v hv, hs.sum v hv, passed_succ P hj hpos]
      ring
  have hseen : ∀ i r, seenBelow n pos below k i r → r < n ∧ pos r ≤ k ∧ Up parent r i :=
    fun i r hr => ⟨hr.1, hr.2.1.le, (hbelow r hr.1 i hr.2.2).2⟩
  obtain ⟨s₂, hrun, hinv₂⟩ := leafRows_spec h P hfirst hj hpos (below j) (hbelow j hj) hseen hinv₁
  have hsame : (fun i r => seenBelow n pos below k i r ∨ i ∈ below j ∧ r = j)
      = seenBelow n pos below (k + 1) := by
    funext i r
    rw [eq_iff_iff]
    constructor
    · rintro (⟨hr, hrk, hir⟩ | ⟨hir, rfl⟩)
      · exact ⟨hr, by omega, hir⟩
      · exact ⟨hj, by omega, hir⟩
    · rintro ⟨hr, hrk, hir⟩
      rcases Nat.lt_succ_iff_lt_or_eq.mp hrk with hlt | heq
      · exact .inl ⟨hr, hlt, hir⟩
      · obtain rfl := P.pos_inj r hr j hj (heq.trans hpos.symm)
        exact .inr ⟨hir, rfl⟩
  rw [hsame] at hinv₂
  refine ⟨match parent j with
    | none => s₂
    | some p => { s₂ with ancestor := Function.update s₂.ancestor j p }, ?_, ?_⟩
  · exact congrArg (Option.map fun s₂ : LeafState =>
      match parent j with
      | none => s₂
      | some p => { s₂ with ancestor := Function.update s₂.ancestor j p }) hrun
  · have hlinks := hinv₂.links.finish h P hj hpos
    cases hp : parent j with
    | none =>
      rw [hp] at hlinks
      exact ⟨hlinks, hinv₂.noLeaf, hinv₂.lastLeaf, hinv₂.sum⟩
    | some p =>
      rw [hp] at hlinks
      exact ⟨hlinks, hinv₂.noLeaf, hinv₂.lastLeaf, hinv₂.sum⟩

theorem leafColumns_spec (h : Upward n parent) (P : PostIndex n parent pos low)
    (hfirst : ∀ v < n, first v = low v) (hpost : Lists n pos post)
    (hbelow : ∀ r < n, ∀ i ∈ below r, i < n ∧ Up parent r i)
    (hs : ColumnsDone n parent pos low below base 0 s) :
    ∃ s', post.foldlM (leafColumn n parent below first) s = some s' ∧
      ColumnsDone n parent pos low below base post.length s' := by
  have hfold : ∀ (l : List ℕ) (m : ℕ) (s : LeafState),
      (∀ (t j : ℕ), l[t]? = some j → j < n ∧ pos j = m + t) →
      ColumnsDone n parent pos low below base m s →
        ∃ s', l.foldlM (leafColumn n parent below first) s = some s' ∧
          ColumnsDone n parent pos low below base (m + l.length) s' := by
    intro l
    induction l with
    | nil => exact fun m s _ hs => ⟨s, rfl, hs⟩
    | cons a l ih =>
      intro m s hl hs
      obtain ⟨ha, hpa⟩ := hl 0 a rfl
      obtain ⟨s₁, hs₁, hdone⟩ := leafColumn_spec h P hfirst ha hpa hbelow hs
      obtain ⟨s₂, hs₂, hdone₂⟩ := ih (m + 1) s₁ (fun t j ht => by
        obtain ⟨hj, hpj⟩ := hl (t + 1) j ht
        exact ⟨hj, by omega⟩) hdone
      refine ⟨s₂, ?_, by rwa [List.length_cons, Nat.add_comm l.length, ← Nat.add_assoc]⟩
      rw [List.foldlM_cons, hs₁]
      exact hs₂
  obtain ⟨s', hs', hdone⟩ := hfold post 0 s
    (fun t j ht => by rw [Nat.zero_add]; exact hpost t j ht) hs
  rw [Nat.zero_add] at hdone
  exact ⟨s', hs', hdone⟩

end Leaves

/-! ## The counts -/

section Counts

variable {adj : ℕ → ℕ → Prop} {u v : ℕ} {below : ℕ → List ℕ}

/-- The rows of column `j` of the factor, the diagonal included. -/
def factorColumn (adj : ℕ → ℕ → Prop) (j : ℕ) : Set ℕ := {i | i = j ∨ Fill adj i j}

/-- Below a vertex with a child its row has an entry; outside its subtree a row has one where
    the factor has. -/
theorem hit_iff_fill (_ : ∀ i j, adj i j → i < n) (h : Upward n (etree adj))
    (P : PostIndex n (etree adj) pos low) (hu : u < n) (_ : v < n) :
    (∃ r < n, r < u ∧ adj u r ∧ EtreeUp adj r v) ↔
      (EtreeUp adj u v ∧ low u ≠ pos u) ∨ Fill adj u v := by
  constructor
  · rintro ⟨r, hr, hru, hur, hrv⟩
    have hup : EtreeUp adj r u := (Fill.entry hru hur).up
    rcases h.up_total hup hrv with huv | hvu
    · refine .inl ⟨huv, fun hleaf => ?_⟩
      have hb := (P.block u hu r hr).mp hup
      have := P.pos_inj r hr u hu (by omega)
      omega
    · rcases (EtreeUp.le hvu).lt_or_eq with hlt | rfl
      · exact .inr ((Fill.entry hru hur).along hrv hlt)
      · refine .inl ⟨.refl, fun hleaf => ?_⟩
        have hb := (P.block _ hu r hr).mp hup
        have := P.pos_inj r hr _ hu (by omega)
        omega
  -- an entry of the factor lies on the path from an entry of the matrix
  · have hrow : ∀ w, Fill adj u w → EtreeUp adj w v →
        ∃ r < n, r < u ∧ adj u r ∧ EtreeUp adj r v := by
      intro w hfill hwv
      obtain ⟨r, hru, hur, hrw⟩ := (fill_iff_row hfill.lt).mp hfill
      exact ⟨r, hru.trans hu, hru, hur, hrw.trans hwv⟩
    rintro (⟨huv, hnleaf⟩ | hfill)
    · -- a child of `u` has the row `u`
      obtain ⟨c, hc, hcu⟩ : ∃ c < n, etree adj c = some u := by
        by_contra hnone
        refine hnleaf ((P.low_eq_pos_iff h hu).mpr fun c hc hcu => hnone ⟨c, hc, hcu⟩)
      exact hrow c (etree_eq_some.mp hcu).1 (.head hcu huv)
    · exact hrow v hfill .refl

/-- The routine counts the columns of the factor. -/
theorem gnpColumnCounts_eq (hadj : ∀ i j, adj i j → i < n) (h : Upward n (etree adj))
    (hperm : post.Perm (List.range n))
    (hpost : Multifrontal.Postorder (vertexParent n (etree adj)) post)
    (hbelow : ∀ j < n, ∀ i, i ∈ below j ↔ j < i ∧ adj i j) :
    ∃ c, gnpColumnCounts n (etree adj) post below = some c ∧
      ∀ j < n, c j = ((factorColumn adj j).ncard : ℤ) := by
  classical
  obtain ⟨low, P⟩ := exists_postIndex h hperm hpost
  have hlen : post.length = n := by rw [hperm.length_eq, List.length_range]
  have hposlt : ∀ u < n, post.idxOf u < post.length := fun u hu =>
    List.idxOf_lt_length_of_mem (hperm.mem_iff.mpr (List.mem_range.mpr hu))
  have hlists : Lists n post.idxOf post := fun k j hj => by
    refine ⟨List.mem_range.mp (hperm.mem_iff.mp (List.mem_of_getElem? hj)), ?_⟩
    obtain ⟨hk, rfl⟩ := List.getElem?_eq_some_iff.mp hj
    exact hpost.nodup.idxOf_getElem k hk
  -- the first pass finds the first descendants and marks the leaves of the tree
  obtain ⟨s, hs, hdone⟩ := firstSteps_done h P hlists
  have hfirst : ∀ v < n, s.first v = low v := by
    intro v hv
    have := P.low_le hv
    rw [hdone.first v hv, if_pos (lt_of_le_of_lt this (hposlt v hv))]
  have hrows : ∀ r < n, ∀ i ∈ below r, i < n ∧ Up (etree adj) r i := by
    intro r hr i hi
    obtain ⟨hri, hir⟩ := (hbelow r hr i).mp hi
    exact ⟨hadj i r hir, (Fill.entry hri hir).up⟩
  -- the second pass starts with no column scanned
  have hstart : ColumnsDone n (etree adj) post.idxOf low below (subtreeSum n (etree adj) s.delta) 0
      ⟨s.delta, id, fun _ => -1, fun _ => none⟩ := by
    refine ⟨⟨fun _ _ _ => rfl, fun u _ hu => absurd hu (Nat.not_lt_zero _)⟩,
      fun i _ _ => ⟨rfl, fun r hr => absurd hr.2.1 (Nat.not_lt_zero _)⟩,
      fun i _ leaf hleaf => (nomatch hleaf), fun v _ => ?_⟩
    simp [passed, hits, seenBelow]
  obtain ⟨t, ht, htdone⟩ := leafColumns_spec h P hfirst hlists hrows hstart
  refine ⟨sumUp n (etree adj) t.delta, ?_, fun v hv => ?_⟩
  · unfold gnpColumnCounts
    rw [hs, Option.bind_eq_bind, Option.bind_some, ht]
    rfl
  · rw [sumUp_eq h _ v hv, htdone.sum v hv]
    -- the sums over the subtree count, vertex by vertex, the column of the factor
    have hset : factorColumn adj v
        = ((Finset.range n).filter fun u => u = v ∨ Fill adj u v : Finset ℕ) := by
      ext u
      simp only [factorColumn, Set.mem_ofPred_eq, Finset.coe_filter, Finset.mem_range]
      refine (and_iff_right_of_imp ?_).symm
      rintro (rfl | hfill)
      · exact hv
      · exact hfill.row_lt hadj
    rw [hset, Set.ncard_coe_finset, Finset.natCast_card_filter]
    unfold subtreeSum passed hits
    rw [← Finset.sum_sub_distrib, ← Finset.sum_add_distrib]
    refine Finset.sum_congr rfl fun u hu => ?_
    have hun := Finset.mem_range.mp hu
    have hhit : (∃ r, seenBelow n post.idxOf below post.length u r ∧ Up (etree adj) r v) ↔
        (EtreeUp adj u v ∧ low u ≠ post.idxOf u) ∨ Fill adj u v := by
      rw [← hit_iff_fill hadj h P hun hv]
      constructor
      · rintro ⟨r, ⟨hr, -, hir⟩, hup⟩
        obtain ⟨hru, hur⟩ := (hbelow r hr u).mp hir
        exact ⟨r, hr, hru, hur, hup⟩
      · rintro ⟨r, hr, hru, hur, hup⟩
        exact ⟨r, ⟨hr, hposlt r hr, (hbelow r hr u).mpr ⟨hru, hur⟩⟩, hup⟩
    have hpass : (post.idxOf u < post.length ∧ ∃ p, etree adj u = some p ∧ Up (etree adj) p v) ↔
        EtreeUp adj u v ∧ u ≠ v := by
      rw [and_iff_right (hposlt u hun)]
      constructor
      · rintro ⟨p, hp, hup⟩
        have := lt_of_etree hp
        have := EtreeUp.le hup
        exact ⟨.head hp hup, by omega⟩
      · rintro ⟨hup, hne⟩
        exact (up_eq_or hup).resolve_left hne
    have hdelta := hdone.delta u hun (hposlt u hun)
    rw [if_congr hhit rfl rfl, if_congr hpass rfl rfl, hdelta]
    -- below `v`, a vertex counts as `v` itself, as a leaf of its row, or not at all
    by_cases huv : EtreeUp adj u v
    · have hnofill : ¬Fill adj u v := fun hfill => by
        have := hfill.lt
        have := EtreeUp.le huv
        omega
      by_cases heq : u = v
      · subst heq
        by_cases hleaf : low u = post.idxOf u <;> simp [hnofill, hleaf, Relation.ReflTransGen.refl]
      · by_cases hleaf : low u = post.idxOf u <;> simp [huv, hnofill, hleaf, heq]
    · have hne : u ≠ v := fun heq => huv (heq ▸ .refl)
      simp [huv, hne]

/-- Rows of the columns of a pattern that is stored by rows. -/
theorem mem_columnForm {A : LowerPattern} {rows : Csr ℕ}
    (hrows : ∀ k < A.n, ∀ r < k, r ∈ rows.slice k ↔ A.adj k r) {i j : ℕ} :
    i ∈ (columnForm A.n rows).slice j ↔ A.adj i j := by
  have hitem : ∀ e : ℕ × ℕ, e ∈ ((List.range A.n).flatMap fun i =>
      ((rows.slice i).filter (· < i)).map fun j => (j, i)) ↔ A.adj e.2 e.1 := by
    rintro ⟨j, i⟩
    simp only [List.mem_flatMap, List.mem_range, List.mem_map, List.mem_filter, decide_eq_true_eq,
      Prod.mk.injEq]
    constructor
    · rintro ⟨i', hi', j', ⟨hj', hlt⟩, rfl, rfl⟩
      exact (hrows i' hi' j' hlt).mp hj'
    · intro hadj
      have hi := adj_row_lt A i j hadj
      exact ⟨i, hi, j, ⟨(hrows i hi j hadj.1).mpr hadj, hadj.1⟩, rfl, rfl⟩
  unfold columnForm
  rw [Csr.mem_ofItems_slice fun e he => ((hitem e).mp he).2.1]
  exact hitem (j, i)

/-- The transposed columns are the rows of the pattern. -/
theorem mem_transposed {A : LowerPattern} {k r : ℕ} :
    r ∈ (Csr.ofItems A.n ((List.range A.n).flatMap fun k =>
      ((A.csc.slice k).filter (k < ·)).map fun i => (i, k)) fun _ => 0).slice k ↔ A.adj k r := by
  have hitem : ∀ e : ℕ × ℕ, e ∈ ((List.range A.n).flatMap fun k =>
      ((A.csc.slice k).filter (k < ·)).map fun i => (i, k)) ↔ A.adj e.1 e.2 := by
    rintro ⟨i, k⟩
    simp only [List.mem_flatMap, List.mem_range, List.mem_map, List.mem_filter, decide_eq_true_eq,
      Prod.mk.injEq]
    constructor
    · rintro ⟨k', hk', i', ⟨hi', hlt⟩, rfl, rfl⟩
      exact ⟨hlt, hk', hi'⟩
    · rintro ⟨hlt, hk, hi⟩
      exact ⟨k, hk, i, ⟨hi, hlt⟩, rfl, rfl⟩
  rw [Csr.mem_ofItems_slice fun e he => adj_row_lt A _ _ ((hitem e).mp he)]
  exact hitem (k, r)

section Callers

variable {A : LowerPattern} {et : EliminationTree}

theorem TreeOf.counts (htree : TreeOf A et) {below : ℕ → List ℕ}
    (hbelow : ∀ j < A.n, ∀ i, i ∈ below j ↔ A.adj i j) :
    ∃ c, gnpColumnCounts A.n et.parent et.postorder below = some c ∧
      ∀ j < A.n, c j = ((factorColumn A.adj j).ncard : ℤ) := by
  rw [htree.parent]
  refine gnpColumnCounts_eq (adj_row_lt A) (etree_upward A) htree.perm htree.postorder
    fun j hj i => (hbelow j hj i).trans ?_
  exact (and_iff_right_of_imp fun hadj => hadj.1).symm

/-- `filled_column_counts_from_adjacency`. -/
theorem filledColumnCountsFromAdjacency_eq (htree : TreeOf A et) {adjacency : Csr ℕ}
    {perm iperm : ℕ → ℕ}
    (hadj : ∀ j < A.n, ∀ i > j, i ∈ (adjacency.slice (perm j)).map iperm ↔ A.adj i j) :
    ∃ c, filledColumnCountsFromAdjacency A.n adjacency perm iperm et.parent et.postorder = some c ∧
      ∀ j < A.n, c j = ((factorColumn A.adj j).ncard : ℤ) := by
  refine htree.counts fun j hj i => ?_
  rw [List.mem_filter, decide_eq_true_eq, and_comm]
  constructor
  · rintro ⟨hlt, hmem⟩
    exact (hadj j hj i hlt).mp hmem
  · exact fun hij => ⟨hij.1, (hadj j hj i hij.1).mpr hij⟩

/-- `filled_col_counts`. -/
theorem filledColCounts_eq (htree : TreeOf A et) :
    ∃ c, filledColCounts A et = some c ∧ ∀ j < A.n, c j = ((factorColumn A.adj j).ncard : ℤ) :=
  htree.counts fun _ _ _ => mem_columnForm fun _ _ _ _ => mem_transposed

end Callers

/-- Every count routine returns the number of entries of every column of the factor, from any
    postorder of the elimination tree and with the rows of a column in any order. -/
theorem column_counts (A : LowerPattern) (et : EliminationTree) (htree : TreeOf A et) :
    (∀ below : ℕ → List ℕ, (∀ j < A.n, ∀ i, i ∈ below j ↔ A.adj i j) →
      ∃ c, gnpColumnCounts A.n et.parent et.postorder below = some c ∧
        ∀ j < A.n, c j = ((factorColumn A.adj j).ncard : ℤ)) ∧
    (∀ rows : Csr ℕ, (∀ k < A.n, ∀ r < k, r ∈ rows.slice k ↔ A.adj k r) →
      ∃ c, filledColumnCountsFromRows A.n rows et = some c ∧
        ∀ j < A.n, c j = ((factorColumn A.adj j).ncard : ℤ)) ∧
    (∀ (adjacency : Csr ℕ) (perm iperm : ℕ → ℕ),
      (∀ j < A.n, ∀ i > j, i ∈ (adjacency.slice (perm j)).map iperm ↔ A.adj i j) →
        ∃ c, filledColumnCountsFromAdjacency A.n adjacency perm iperm et.parent et.postorder =
          some c ∧
          ∀ j < A.n, c j = ((factorColumn A.adj j).ncard : ℤ)) ∧
    ∃ c, filledColCounts A et = some c ∧ ∀ j < A.n, c j = ((factorColumn A.adj j).ncard : ℤ) :=
  ⟨fun _ hbelow => htree.counts hbelow,
    fun _ hrows => htree.counts fun _ _ _ => mem_columnForm hrows,
    fun _ _ _ hadj => filledColumnCountsFromAdjacency_eq htree hadj, filledColCounts_eq htree⟩

theorem column_counts_kite : ∃ et c, buildEliminationTree kitePattern = some et ∧
    filledColCounts kitePattern et = some c ∧
      ∀ j < 4, c j = ((factorColumn kitePattern.adj j).ncard : ℤ) := by
  obtain ⟨et, het, htree⟩ := buildEliminationTree_eq kitePattern
  obtain ⟨-, -, -, c, hc, hcount⟩ := column_counts kitePattern et htree
  exact ⟨et, c, het, hc, hcount⟩

end Counts

end Symbolic
end SmfSolver
