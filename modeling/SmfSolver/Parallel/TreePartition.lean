/-
  SmfSolver.Parallel.TreePartition

  A partition of the assembly tree for the tree-parallel factorization: tasks, which are
  postorder ranges of whole subtrees, and the top part, which is the rest.  The top part
  runs as the forest its nodes have among themselves.
-/
import SmfSolver.Multifrontal.AssemblyTree
import SmfSolver.Parallel.TopScheduler
import Mathlib.Order.Basic

namespace SmfSolver
namespace Parallel

open Multifrontal

/-- `TreeParallelBuffers::Partition`: the ranges and the top part's flags. -/
structure Partition (T : AssemblyTree) extends T.Tasks where
  top : ℕ → Bool
  top_iff : ∀ s < T.ns, top s = true ↔ ∀ r ∈ ranges, s ∉ AssemblyTree.taskFronts r

namespace Partition

variable {T : AssemblyTree} (P : Partition T)

/-- Local index -> supernode. -/
def topNodes : List ℕ := (List.range T.ns).filter fun s => P.top s

/-- Supernode -> local index (none: not top). -/
def topLocal (s : ℕ) : Option (Fin P.topNodes.length) := P.topNodes.finIdxOf? s

def topParent (i : Fin P.topNodes.length) : Option (Fin P.topNodes.length) :=
  (T.parent (P.topNodes.get i)).bind P.topLocal

variable {P}

theorem mem_topNodes {s : ℕ} : s ∈ P.topNodes ↔ s < T.ns ∧ P.top s = true := by
  rw [topNodes, List.mem_filter, List.mem_range]

theorem topNodes_nodup : P.topNodes.Nodup := List.nodup_range.filter _

theorem topNodes_get_injective : Function.Injective P.topNodes.get :=
  List.nodup_iff_injective_get.mp topNodes_nodup

/-- Every front of the tree is in a range or in the top part. -/
theorem mem_range_or_top {s : ℕ} (hs : s < T.ns) :
    (∃ r ∈ P.ranges, s ∈ AssemblyTree.taskFronts r) ∨ s ∈ P.topNodes := by
  by_cases htop : P.top s = true
  · exact .inr (mem_topNodes.mpr ⟨hs, htop⟩)
  · rw [P.top_iff s hs] at htop
    push Not at htop
    exact .inl htop

/-- No front is in both. -/
theorem notMem_topNodes {s : ℕ} {r : ℕ × ℕ} (hr : r ∈ P.ranges)
    (hs : s ∈ AssemblyTree.taskFronts r) : s ∉ P.topNodes := by
  intro htop
  obtain ⟨hlt, htop⟩ := mem_topNodes.mp htop
  exact (P.top_iff s hlt).mp htop r hr hs

theorem lt_of_mem_taskFronts {s : ℕ} {r : ℕ × ℕ} (hr : r ∈ P.ranges)
    (hs : s ∈ AssemblyTree.taskFronts r) : s < T.ns :=
  (AssemblyTree.mem_taskFronts.mp hs).2.trans_lt (P.isTask r hr).lt

theorem get_of_topParent {i j : Fin P.topNodes.length} (h : P.topParent i = some j) :
    T.parent (P.topNodes.get i) = some (P.topNodes.get j) := by
  obtain ⟨s, hs, hj⟩ := Option.bind_eq_some_iff.mp h
  rw [hs, (List.finIdxOf?_eq_some_iff.mp hj).1.symm]
  rfl

variable (P) in
/-- The top part as the scheduler sees it: a parent has a larger number. -/
def topForest : Forest P.topNodes.length where
  parent := P.topParent
  wf := by
    refine Subrelation.wf (r := fun c p => P.topNodes.get c < P.topNodes.get p) ?_
      (InvImage.wf P.topNodes.get wellFounded_lt)
    intro c p h
    have hlt : P.topNodes.get c < T.ns := (mem_topNodes.mp (List.get_mem ..)).1
    exact T.lt_parent hlt (get_of_topParent h)

end Partition

end Parallel
end SmfSolver
