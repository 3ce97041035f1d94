/-
  SmfSolver.Solve.SolveBackward

  The backward solve `L^T z = y` (solve_backward.cpp), with `D^-1` applied front by front or
  not: one column front by front from the last step to the first, several columns at once in
  blocks, or, over the layout of a tree-parallel factorization, on the threads of the pool.

  A front reads all its rows and writes its own pivot rows only.  So the parallel solve is
  two runs of the pool with no buffers: the fronts of the top part by `run_dag` from the
  roots, each after its parent, and then the subtrees from a shared counter, each from its
  last step to its first.  A step of a run is one access of one thread, or one step of the
  scheduler.
-/
import SmfSolver.Kernel.NumericFront
import SmfSolver.Lib.Schedule
import SmfSolver.Solve.ParallelForward

namespace SmfSolver
namespace Solve

open Lib Finset

/-! ## The factor -/

/-- A factor with what the backward solve reads besides.  `dinvOffset` is empty when no
    inverses of pivot blocks were built. -/
structure BackwardKeep (K : Type*) extends ParallelKeep K where
  perm : ℕ → ℕ
  /-- The pivot blocks are in the fronts' diagonal slots. -/
  inlineD : Bool
  dinvOffset : List ℕ := []
  dinv : ℕ → K
  dinvKind : ℕ → ℤ

variable {K : Type*} [Field K]

/-! ## D^-1 on a front's pivot rows -/

section Diag

variable [LinearOrder K]

/-- `apply_inline_d` from pivot `c` on, with `fuel` passes left; a pass takes one pivot block,
    so as many passes as pivots are enough. -/
def inlineLoop (L : ℕ → ℕ → K) (p : ℕ) : ℕ → ℕ → (ℕ → K) → ℕ → K
  | 0, _, v => v
  | fuel + 1, c, v =>
    if p ≤ c then v
    else if c + 1 < p ∧ L c (c + 1) ≠ 0 then
      let y := Kernel.solve2x2Scaled (L c c) (L c (c + 1)) (L (c + 1) (c + 1)) (v c) (v (c + 1))
      inlineLoop L p fuel (c + 2) (Function.update (Function.update v c y.1) (c + 1) y.2)
    else
      inlineLoop L p fuel (c + 1)
        (Function.update v c (if L c c = 0 then 0 else v c / L c c))

/-- `apply_inline_d`: `d` on the diagonal, a nonzero slot `(c, c + 1)` marks a 2x2 block. -/
def applyInlineD (L : ℕ → ℕ → K) (p : ℕ) (v : ℕ → K) : ℕ → K := inlineLoop L p p 0 v

end Diag

/-- `apply_dinv` from pivot `c` on. -/
def dinvLoop (e : ℕ → K) (kind : ℕ → ℤ) (p : ℕ) : ℕ → ℕ → (ℕ → K) → ℕ → K
  | 0, _, v => v
  | fuel + 1, c, v =>
    if p ≤ c then v
    else if kind c = 2 then
      let y₀ := e (3 * c) * v c + e (3 * c + 1) * v (c + 1)
      let y₁ := e (3 * c + 1) * v c + e (3 * c + 2) * v (c + 1)
      dinvLoop e kind p fuel (c + 2) (Function.update (Function.update v c y₀) (c + 1) y₁)
    else dinvLoop e kind p fuel (c + 1) (Function.update v c (v c * e (3 * c)))

/-- `apply_dinv`: three entries a pivot. -/
def applyDinv (e : ℕ → K) (kind : ℕ → ℤ) (p : ℕ) (v : ℕ → K) : ℕ → K :=
  dinvLoop e kind p p 0 v

namespace BackwardKeep

variable (fk : BackwardKeep K)

/-- `backward_applies_diag`. -/
def appliesDiag : Bool := fk.inlineD && !fk.isPosdef && !fk.solveSteps.isEmpty

/-- `apply_front_d` for step `k`, when `applyDiag` asks for it. -/
def frontD [LinearOrder K] (applyDiag : Bool) (k : ℕ) : (ℕ → K) → ℕ → K :=
  if applyDiag && fk.appliesDiag then
    if fk.dinvOffset.length = fk.solveSteps.length then
      applyDinv (fun i => fk.dinv (3 * fk.dinvOffset.getD k 0 + i))
        (fun c => fk.dinvKind (fk.dinvOffset.getD k 0 + c)) (fk.front k).p
    else applyInlineD (fk.front k).L (fk.front k).p
  else id

end BackwardKeep

/-! ## Kernels -/

/-- Row `row` of a transposed triangular solve: its unknown, subtracted from the rows before. -/
def transposeRow (posdef : Bool) (L : ℕ → ℕ → K) (b : ℕ → K) (row : ℕ) : ℕ → K :=
  let zr := if posdef then b row / L row row else b row
  fun col => if col = row then zr else if col < row then b col - L row col * zr else b col

/-- `solve_lower_transpose_nonunit_small`, `solve_lower_transpose_unit_small` and
    `smf_dtrsv_lower_transpose`, from the last row to the first. -/
def solveLowerTranspose (posdef : Bool) (L : ℕ → ℕ → K) (p : ℕ) (b : ℕ → K) : ℕ → K :=
  (List.range p).reverse.foldl (transposeRow posdef L) b

/-- `smf_dgemv_transpose` with `q` rows. -/
def dgemvTranspose (A : ℕ → ℕ → K) (q : ℕ) (b : ℕ → K) (j : ℕ) : K := ∑ i ∈ range q, A i j * b i

/-- `sub_dots`: the products of the columns of `L21` with the extended rows, subtracted. -/
def subDots (F : Front K) (w : ℕ → K) (j : ℕ) : K :=
  w j - dgemvTranspose (fun i => F.L (F.p + i)) (F.f - F.p) (fun i => w (F.p + i)) j

/-- Every second product from row `first` on. -/
def everySecond (F : Front K) (w : ℕ → K) (first : ℕ) : K :=
  ((List.range' first ((F.f + 1 - first) / 2) 2).map fun i => F.L i 0 * w i).sum

/-- The pivots of `backward_front` from the front's rows `w`; `d` is `D^-1`. -/
def backwardValues (posdef : Bool) (d : (ℕ → K) → ℕ → K) (F : Front K) (w : ℕ → K) : ℕ → K :=
  let v := d w
  if F.p = 1 then
    let value := v 0 - (everySecond F w 1 + everySecond F w 2)
    fun _ => if posdef then value / F.L 0 0 else value
  else if F.p = 2 then
    let s₀ := ∑ i ∈ Ico 2 F.f, F.L i 0 * w i
    let s₁ := ∑ i ∈ Ico 2 F.f, F.L i 1 * w i
    let x₁ := if posdef then (v 1 - s₁) / F.L 1 1 else v 1 - s₁
    let x₀ := v 0 - F.L 1 0 * x₁ - s₀
    let x₀ := if posdef then x₀ / F.L 0 0 else x₀
    fun i => if i = 0 then x₀ else x₁
  else
    -- the rows below the pivots take part with the solution as it is
    let b := subDots F fun i => if i < F.p then v i else w i
    match F.inv with
    | some inv => dgemvTranspose inv F.p b
    | none => solveLowerTranspose posdef F.L F.p b

/-- `backward_front`. -/
def backwardFront (posdef : Bool) (d : (ℕ → K) → ℕ → K) (F : Front K) (x : ℕ → K) : ℕ → K :=
  if F.p = 0 then x
  else scatter F.rows F.p (backwardValues posdef d F fun i => x (F.rows i)) x

/-- `backward_front_block`, in one column. -/
def backwardFrontBlock (posdef : Bool) (d : (ℕ → K) → ℕ → K) (F : Front K) (x : ℕ → K) : ℕ → K :=
  if F.p = 0 then x
  else
    let w : ℕ → K := fun i => x (F.rows i)
    let v := d w
    let w : ℕ → K := fun i => if i < F.p then v i else w i
    let w₁ :=
      if F.p < kInvDiagMinPivots ∧ F.inv.isNone then
        solveLowerTranspose posdef F.L F.p (subDots F w)
      else
        match F.inv with
        | some inv => dgemvTranspose inv F.p (subDots F w)
        | none => solveLowerTranspose posdef F.L F.p (subDots F w)
    scatter F.rows F.p w₁ x

/-! ## Accesses -/

/-- Where a thread is in `backward_front` of step `k`. -/
inductive BackWork (K : Type*) where
  | idle
  /-- The rows before `i` are read. -/
  | gather (k i : ℕ) (b : ℕ → K)
  /-- The pivots are `w`, and the first `i` stores are done. -/
  | store (k i : ℕ) (w : ℕ → K)

def BackWork.front : BackWork K → Option ℕ
  | .idle => none
  | .gather k _ _ | .store k _ _ => some k

/-- The pivot of the `i`-th store: a front of two pivots stores the second one first. -/
def storeOrder (p i : ℕ) : ℕ := if p = 2 then 1 - i else i

variable (posdef : Bool) (fr : ℕ → Front K) (d : ℕ → (ℕ → K) → ℕ → K)

/-- One access of a thread to the vector. -/
inductive BackAccess : (ℕ → K) → BackWork K → (ℕ → K) → BackWork K → Prop
  | read {x k i b} (hi : i < (fr k).f) :
      BackAccess x (.gather k i b) x
        (.gather k (i + 1) (Function.update b i (x ((fr k).rows i))))
  | solve {x k b} :
      BackAccess x (.gather k (fr k).f b) x
        (.store k 0 (backwardValues posdef (d k) (fr k) b))
  | store {x k i w} (hi : i < (fr k).p) :
      BackAccess x (.store k i w)
        (Function.update x ((fr k).rows (storeOrder (fr k).p i)) (w (storeOrder (fr k).p i)))
        (.store k (i + 1) w)

/-- `backward_front` of step `step i`, as a thread's work inside item `i`; what the buffers
    hold before is left open. -/
def backTask {ι : Type*} (T : ℕ) (step : ι → ℕ) : Task ι T (ℕ → K) (BackWork K) where
  idle := .idle
  enters i a := if (fr (step i)).p = 0 then a = .idle else ∃ b, a = .gather (step i) 0 b
  access _ := BackAccess posdef fr d
  leaves i a := (fr (step i)).p = 0 ∨ ∃ w, a = .store (step i) (fr (step i)).p w

/-! ## The two runs -/

section Runs

/-- What a step of `run_dag` says of the nodes. -/
def DagEvent.mark {n T : ℕ} : DagEvent n T → Mark (Fin n) T
  | .began t i => .begins t i
  | .ended t i => .ends t i
  | _ => .moves

/-- The node that a thread runs. -/
def Pc.node {n : ℕ} : Pc n → Option (Fin n)
  | .body i => some i
  | _ => none

/-- `run_dag` as a scheduler of its nodes. -/
def dagSchedule {n : ℕ} (D : Dag n) (T : ℕ) (ready : List (Fin n)) :
    Schedule (Fin n) T (DagState n T) (DagEvent n T) where
  lts := runDag D T ready
  mark := DagEvent.mark
  inside s t := (s.pc t).node

variable (fk : ParallelKeep K)

/-- The fronts of the top part, parents before children.  A front waits for its parent only,
    so the code counts nothing off: it releases a front's children as `run_dag` releases
    successors that waited for no other. -/
def ParallelKeep.topDown : Dag fk.topSteps where
  edge i j := fk.solveTopParent[j.1]? = some (some i.1)
  dec _ _ := decEq _ _
  wf := Subrelation.wf (fun h => fk.parent_lt _ _ h) (wellFounded_gt (α := Fin fk.topSteps))

/-- The `ready` list of the backward solve: the fronts without a parent in the top part. -/
def ParallelKeep.topRoots : List (Fin fk.topSteps) :=
  (List.finRange fk.topSteps).filter fun i => (fk.solveTopParent.getD i.1 none).isNone

/-- The steps of the subtrees, each from its last step to its first. -/
def ParallelKeep.subtreeJobs : List (List ℕ) :=
    fk.solveSubtrees.map fun r => (rangeIndices r).reverse

/-- `threads` of the backward solve, which needs no slots. -/
def ParallelKeep.backThreads (numThreads : ℕ) : ℕ :=
  let want := min numThreads fk.solveThreads
  if fk.solveSteps ≠ [] ∧ 1 < want ∧ 2 ≤ fk.solveSubtrees.length ∧
      (fk.solveTopParent.length : ℤ) = fk.solveSteps.length - fk.solveTopBegin then
    min want fk.solveSubtrees.length
  else 1

end Runs

variable [LinearOrder K] (fk : BackwardKeep K) (applyDiag : Bool)

namespace BackwardKeep

/-- The first run of the pool. -/
def topDownSweep (T : ℕ) (x : ℕ → K) :
    Lts (Busy (DagState fk.topSteps T) (ℕ → K) (BackWork K) T) (Option (DagEvent fk.topSteps T)) :=
  (backTask fk.isPosdef fk.front (fk.frontD applyDiag) T fun i : Fin fk.topSteps =>
    fk.solveTopBegin + i).system (dagSchedule fk.topDown T fk.topRoots) x

/-- The second run of the pool. -/
def subtreesDown (T : ℕ) (x : ℕ → K) :
    Lts (Busy (ClaimState ℕ T) (ℕ → K) (BackWork K) T) (Option (Mark ℕ T)) :=
  (backTask fk.isPosdef fk.front (fk.frontD applyDiag) T id).system
    (claimed T fk.subtreeJobs) x

/-- One column on `T` threads: what the two runs can make of `x₀`. -/
inductive ParallelBackward (T : ℕ) (x₀ : ℕ → K) : (ℕ → K) → Prop
  | mk {tr₁ s₁ tr₂ s₂} (h₁ : (fk.topDownSweep applyDiag T x₀).Run tr₁ s₁)
      (hall₁ : ∀ t, s₁.sched.pc t = .exited)
      (h₂ : (fk.subtreesDown applyDiag T s₁.mem).Run tr₂ s₂)
      (hall₂ : ∀ t, s₂.sched.pc t = .exited) : ParallelBackward T x₀ s₂.mem

/-! ## solve_backward -/

/-- The fronts in the order of `solve_forward`, each with its `D^-1`. -/
def fronts (ak : AnalysisKeep) : List (Front K × ((ℕ → K) → ℕ → K)) :=
  if fk.solveSteps = [] then ak.solvePostorder.map fun s => (fk.symbolicFront ak s, id)
  else (List.range fk.solveSteps.length).map fun k => (fk.front k, fk.frontD applyDiag k)

/-- `x[perm[j]] = z[j]`. -/
def unpermuted (z : ℕ → K) : ℕ → K := scatter fk.perm fk.n z fun _ => 0

/-- The serial solve: from the last front to the first. -/
def serialBackward (ak : AnalysisKeep) (x : ℕ → K) : ℕ → K :=
  (fk.fronts applyDiag ak).foldr (fun F x => backwardFront fk.isPosdef F.2 F.1 x) x

/-- `solve_backward` on the columns of `B`, with the permutation or without. -/
inductive SolveBackward (ak : AnalysisKeep) (numThreads : ℕ) (permute : Bool) {m : ℕ}
    (B : Fin m → ℕ → K) : (Fin m → ℕ → K) → Prop
  | block (hm : 1 < m) (ht : fk.backThreads numThreads = 1) (hs : fk.solveSteps ≠ []) :
      SolveBackward ak numThreads permute B fun c =>
        let z := (fk.fronts applyDiag ak).foldr
          (fun F x => backwardFrontBlock fk.isPosdef F.2 F.1 x) (B c)
        if permute then fk.unpermuted z else z
  | serial (hm : ¬(1 < m ∧ fk.solveSteps ≠ [])) (ht : fk.backThreads numThreads = 1) :
      SolveBackward ak numThreads permute B fun c =>
        let z := fk.serialBackward applyDiag ak (B c)
        if permute then fk.unpermuted z else z
  | parallel {Z : Fin m → ℕ → K} (ht : 1 < fk.backThreads numThreads)
      (h : ∀ c, fk.ParallelBackward applyDiag (fk.backThreads numThreads) (B c) (Z c)) :
      SolveBackward ak numThreads permute B fun c =>
        if permute then fk.unpermuted (Z c) else Z c

end BackwardKeep

end Solve
end SmfSolver
