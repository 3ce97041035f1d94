/-
  SmfSolver.Symbolic.GraphLists

  Graphs as the orderings get them: the neighbours of vertex `i` are the entries `xadj[i]`
  up to `xadj[i + 1]` of `adjncy`.
-/
import Mathlib.Data.List.Nodup
import Mathlib.Data.List.Range
import Mathlib.Data.Finset.Range

namespace SmfSolver
namespace Symbolic

/-- Entries `xadj[i]` up to `xadj[i + 1]` of `adjncy`. -/
def adjacencyList (xadj adjncy : List ℕ) (i : ℕ) : List ℕ :=
  (adjncy.drop (xadj.getD i 0)).take (xadj.getD (i + 1) 0 - xadj.getD i 0)

/-- Symmetric lists without duplicates or loops. -/
structure ListGraph (n : ℕ) (xadj adjncy : List ℕ) : Prop where
  long : n + 1 ≤ xadj.length
  ends : ∀ i < n, xadj.getD i 0 ≤ xadj.getD (i + 1) 0 ∧ xadj.getD (i + 1) 0 ≤ adjncy.length
  lt : ∀ u < n, ∀ w ∈ adjacencyList xadj adjncy u, w < n
  nodup : ∀ u < n, (adjacencyList xadj adjncy u).Nodup
  symm : ∀ u < n, ∀ w ∈ adjacencyList xadj adjncy u, u ∈ adjacencyList xadj adjncy w
  loopless : ∀ u < n, u ∉ adjacencyList xadj adjncy u

/-- The edges of the graph. -/
def ListEdge (n : ℕ) (xadj adjncy : List ℕ) (u w : ℕ) : Prop :=
  u < n ∧ w ∈ adjacencyList xadj adjncy u

variable {n : ℕ} {xadj adjncy : List ℕ}

theorem ListGraph.edge_symm (g : ListGraph n xadj adjncy) (u w : ℕ)
    (h : ListEdge n xadj adjncy u w) : ListEdge n xadj adjncy w u :=
  ⟨g.lt u h.1 w h.2, g.symm u h.1 w h.2⟩

/-- The difference of the ends is the degree. -/
theorem ListGraph.length (g : ListGraph n xadj adjncy) {u : ℕ} (hu : u < n) :
    (adjacencyList xadj adjncy u).length = xadj.getD (u + 1) 0 - xadj.getD u 0 := by
  obtain ⟨hle, hend⟩ := g.ends u hu
  unfold adjacencyList
  rw [List.length_take, List.length_drop]
  omega

end Symbolic
end SmfSolver
