/-
  SmfSolver.Multifrontal.ChunkArena

  The arenas of the subtree roots' contribution blocks.  A block of at most `chunk`
  elements is taken from the current chunk of a chain, a larger one gets a chunk of
  its own size; nothing taken is given back before a reset.

  * `taken_take` / `Taken.take`: what is taken is taken, and stays so.
  * `read_write_take` / `Taken.read_write_take`: a block written where it was taken
    reads back, and disturbs no block taken before.
-/
import SmfSolver.Lib.Segment
import Mathlib.Logic.Function.Basic

namespace SmfSolver
namespace Multifrontal

open Lib

variable {α : Type*}

/-- An own-size chunk (`Big`). -/
structure Big (α : Type*) where
  data : ℕ → α
  size : ℕ
  taken : Bool

structure ChunkArena (α : Type*) where
  /-- Elements per chunk of the chain. -/
  chunk : ℕ
  chunks : ℕ → ℕ → α
  /-- The chunk taken from, and its elements taken. -/
  cur : ℕ
  used : ℕ
  big : ℕ → Big α
  /-- Number of own-size chunks. -/
  nbig : ℕ

/-- Where a block was taken: a place in a chunk, or an own-size chunk. -/
inductive ArenaRef where
  | chunk (i off : ℕ)
  | big (i : ℕ)

namespace ChunkArena

variable (a : ChunkArena α)

/-- The smallest free own-size chunk that holds `n`. -/
def bestFree (n : ℕ) : Option ℕ :=
  (List.range a.nbig).foldl
    (fun best i =>
      if (a.big i).taken then best
      else match best with
        | none => if n ≤ (a.big i).size then some i else none
        | some k =>
          if n ≤ (a.big i).size ∧ (a.big i).size < (a.big k).size then some i else some k)
    none

/-- The largest free own-size chunk. -/
def largestFree : Option ℕ :=
  (List.range a.nbig).foldl
    (fun largest i =>
      if (a.big i).taken then largest
      else match largest with
        | none => some i
        | some k => if (a.big k).size < (a.big i).size then some i else some k)
    none

/-- `take_big`: the best free chunk, else the largest free one reallocated, else a new one. -/
def takeBig (n : ℕ) : ArenaRef × ChunkArena α :=
  match a.bestFree n with
  | some i => (.big i, { a with big := Function.update a.big i { a.big i with taken := true } })
  | none =>
    match a.largestFree with
    | some i =>
      (.big i, { a with big := Function.update a.big i { a.big i with size := n, taken := true } })
    | none =>
      (.big a.nbig,
        { a with
          big := Function.update a.big a.nbig { a.big a.nbig with size := n, taken := true }
          nbig := a.nbig + 1 })

/-- `take`: `n` elements, valid until the next reset. -/
def take (n : ℕ) : ArenaRef × ChunkArena α :=
  if a.chunk < n then a.takeBig n
  else if a.used + n ≤ a.chunk then (.chunk a.cur a.used, { a with used := a.used + n })
  else (.chunk (a.cur + 1) 0, { a with cur := a.cur + 1, used := n })

/-- The element `t` of the block at `ref`. -/
def get : ArenaRef → ℕ → α
  | .chunk i off, t => a.chunks i (off + t)
  | .big i, t => (a.big i).data t

/-- The block of `n` elements at `ref`. -/
def read (ref : ArenaRef) (n : ℕ) : List α := (List.range n).map (a.get ref)

/-- The arena with `xs` written at `ref`. -/
def write (ref : ArenaRef) (xs : List α) : ChunkArena α :=
  match ref with
  | .chunk i off =>
    { a with chunks := Function.update a.chunks i (writeSeg (a.chunks i) off xs) }
  | .big i =>
    { a with
      big := Function.update a.big i { a.big i with data := writeSeg (a.big i).data 0 xs } }

/-- The `n` elements at `ref` were taken. -/
def Taken : ArenaRef → ℕ → Prop
  | .chunk i off, n => i < a.cur ∨ i = a.cur ∧ off + n ≤ a.used
  | .big i, _ => i < a.nbig ∧ (a.big i).taken = true

variable {a} {ref : ArenaRef} {n m : ℕ} {xs : List α}

theorem read_chunk {i off : ℕ} : a.read (.chunk i off) n = readSeg (a.chunks i) off n := rfl

theorem read_big {i : ℕ} : a.read (.big i) n = readSeg (a.big i).data 0 n :=
  List.map_congr_left fun t _ => by rw [Nat.zero_add, get]

/-- A choice folded over the own-size chunks is a free one of them. -/
theorem foldl_free {step : Option ℕ → ℕ → Option ℕ}
    (h : ∀ best i k, step best i = some k → best = some k ∨ k = i ∧ (a.big i).taken = false)
    {k : ℕ} (hk : (List.range a.nbig).foldl step none = some k) :
    k < a.nbig ∧ (a.big k).taken = false := by
  have key : ∀ (l : List ℕ) (best : Option ℕ),
      (∀ i ∈ l, i < a.nbig) →
      (∀ k, best = some k → k < a.nbig ∧ (a.big k).taken = false) →
      ∀ k, l.foldl step best = some k → k < a.nbig ∧ (a.big k).taken = false := by
    intro l
    induction l with
    | nil => exact fun best _ hbest => hbest
    | cons i l ih =>
      intro best hl hbest
      refine ih _ (fun j hj => hl j (List.mem_cons_of_mem _ hj)) fun k hk => ?_
      rcases h best i k hk with hold | ⟨rfl, hfree⟩
      · exact hbest k hold
      · exact ⟨hl k (List.mem_cons_self ..), hfree⟩
  exact key _ none (fun _ hi => List.mem_range.mp hi) (fun _ hn => nomatch hn) k hk

theorem bestFree_free {k : ℕ} (h : a.bestFree n = some k) :
    k < a.nbig ∧ (a.big k).taken = false := by
  refine foldl_free (fun best i k hk => ?_) h
  by_cases ht : (a.big i).taken = true
  · rw [if_pos ht] at hk
    exact .inl hk
  · rw [if_neg ht] at hk
    have hfree : (a.big i).taken = false := Bool.eq_false_iff.mpr ht
    cases best with
    | none =>
      dsimp only at hk
      split_ifs at hk with hn
      exact .inr ⟨(Option.some.inj hk).symm, hfree⟩
    | some b =>
      dsimp only at hk
      split_ifs at hk with hn
      · exact .inr ⟨(Option.some.inj hk).symm, hfree⟩
      · exact .inl hk

theorem largestFree_free {k : ℕ} (h : a.largestFree = some k) :
    k < a.nbig ∧ (a.big k).taken = false := by
  refine foldl_free (fun best i k hk => ?_) h
  by_cases ht : (a.big i).taken = true
  · rw [if_pos ht] at hk
    exact .inl hk
  · rw [if_neg ht] at hk
    have hfree : (a.big i).taken = false := Bool.eq_false_iff.mpr ht
    cases best with
    | none => exact .inr ⟨(Option.some.inj hk).symm, hfree⟩
    | some b =>
      dsimp only at hk
      split_ifs at hk with hn
      · exact .inr ⟨(Option.some.inj hk).symm, hfree⟩
      · exact .inl hk

/-- `take_big` takes a chunk that was free, or a new one; nothing else changes. -/
theorem takeBig_cases (a : ChunkArena α) (n : ℕ) :
    ∃ i nbig b, a.takeBig n
        = (.big i, { a with big := Function.update a.big i b, nbig := nbig }) ∧
      b.taken = true ∧ (a.big i).data = b.data ∧ a.nbig ≤ nbig ∧ i < nbig ∧
      ¬(i < a.nbig ∧ (a.big i).taken = true) := by
  unfold takeBig
  cases hbest : a.bestFree n with
  | some i =>
    obtain ⟨hlt, hfree⟩ := bestFree_free hbest
    exact ⟨i, a.nbig, _, rfl, rfl, rfl, le_rfl, hlt, fun h => by rw [hfree] at h; cases h.2⟩
  | none =>
    cases hlargest : a.largestFree with
    | some i =>
      obtain ⟨hlt, hfree⟩ := largestFree_free hlargest
      exact ⟨i, a.nbig, _, rfl, rfl, rfl, le_rfl, hlt, fun h => by rw [hfree] at h; cases h.2⟩
    | none =>
      exact ⟨a.nbig, a.nbig + 1, _, rfl, rfl, rfl, Nat.le_succ _, Nat.lt_succ_self _,
        fun h => lt_irrefl _ h.1⟩

/-- What is taken is taken. -/
theorem taken_take (a : ChunkArena α) (n : ℕ) : (a.take n).2.Taken (a.take n).1 n := by
  unfold take
  split_ifs with hbig hfit
  · obtain ⟨i, nbig, b, heq, htaken, -, -, hlt, -⟩ := takeBig_cases a n
    rw [heq]
    exact ⟨hlt, (congrArg Big.taken (Function.update_self i b a.big)).trans htaken⟩
  · exact .inr ⟨rfl, le_rfl⟩
  · exact .inr ⟨rfl, (Nat.zero_add n).le⟩

/-- What was taken stays taken. -/
theorem Taken.take (h : a.Taken ref n) (m : ℕ) : (a.take m).2.Taken ref n := by
  unfold ChunkArena.take
  split_ifs with hbig hfit
  · obtain ⟨i, nbig, b, heq, htaken, -, hle, -, -⟩ := takeBig_cases a m
    rw [heq]
    cases ref with
    | chunk => exact h
    | big k =>
      refine ⟨h.1.trans_le hle, ?_⟩
      by_cases hk : k = i
      · subst hk
        exact (congrArg Big.taken (Function.update_self k b a.big)).trans htaken
      · exact (congrArg Big.taken (Function.update_of_ne hk b a.big)).trans h.2
  · cases ref with
    | chunk i off => exact h.imp_right fun ⟨hi, hle⟩ => ⟨hi, hle.trans (Nat.le_add_right ..)⟩
    | big => exact h
  · cases ref with
    | chunk i off =>
      left
      rcases h with hlt | ⟨rfl, -⟩
      · exact hlt.trans (Nat.lt_succ_self _)
      · exact Nat.lt_succ_self _
    | big => exact h

theorem taken_write {ref' : ArenaRef} : (a.write ref' xs).Taken ref n ↔ a.Taken ref n := by
  cases ref' with
  | chunk i off => cases ref <;> exact Iff.rfl
  | big i =>
    cases ref with
    | chunk => exact Iff.rfl
    | big k =>
      by_cases hk : k = i
      · subst hk
        simp only [write, Taken, Function.update_self]
      · simp only [write, Taken, Function.update_of_ne hk]

/-- A block reads back where it was written. -/
theorem read_write : (a.write ref xs).read ref xs.length = xs := by
  cases ref with
  | chunk i off =>
    rw [read_chunk]
    simp only [write, Function.update_self]
    exact readSeg_writeSeg
  | big i =>
    rw [read_big]
    simp only [write, Function.update_self]
    exact readSeg_writeSeg

/-- A block written where it was taken disturbs no block taken before. -/
theorem Taken.read_write_take (h : a.Taken ref n) (m : ℕ) (xs : List α) :
    ((a.take m).2.write (a.take m).1 xs).read ref n = a.read ref n := by
  unfold ChunkArena.take
  split_ifs with hbig hfit
  · obtain ⟨i, nbig, b, heq, -, hdata, -, -, hfree⟩ := takeBig_cases a m
    rw [heq]
    cases ref with
    | chunk => rfl
    | big k =>
      have hk : k ≠ i := by
        rintro rfl
        exact hfree h
      simp only [read_big, write, Function.update_of_ne hk]
  · cases ref with
    | big => rfl
    | chunk i off =>
      simp only [read_chunk, write]
      by_cases hi : i = a.cur
      · subst hi
        rw [Function.update_self]
        exact readSeg_writeSeg_of_le (h.resolve_left (lt_irrefl _)).2
      · rw [Function.update_of_ne hi]
  · cases ref with
    | big => rfl
    | chunk i off =>
      have hi : i ≠ a.cur + 1 := by
        rcases h with hlt | ⟨rfl, -⟩ <;> omega
      simp only [read_chunk, write, Function.update_of_ne hi]

end ChunkArena

end Multifrontal
end SmfSolver
