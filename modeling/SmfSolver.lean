import SmfSolver.Solve.LayoutForward
import SmfSolver.Kernel.AptpWorkRuns
import SmfSolver.Parallel.SolveLayoutSpec
import SmfSolver.Parallel.BudgetRegions
import SmfSolver.Parallel.PassMerge
import SmfSolver.Parallel.LimitedProgress
import SmfSolver.Parallel.LimitedFactor
import SmfSolver.Parallel.DisarmedRuns
import SmfSolver.Parallel.GatherRuns
import SmfSolver.Parallel.FrontLimits
import SmfSolver.Parallel.TreePartition
import SmfSolver.Parallel.TreeSplit
import SmfSolver.Solve.SlackRuns
import SmfSolver.Kernel.FrontResults
import SmfSolver.Kernel.SymSwap
import SmfSolver.Matching.HeapRuns
import SmfSolver.Symbolic.MinimumDegree
import SmfSolver.Parallel.SolvePoolRuns
import SmfSolver.Symbolic.Supervariables
import SmfSolver.Parallel.TopSchedulerRuns
import SmfSolver.Matching.Resume
import SmfSolver.Matching.SearchResult
import SmfSolver.Matching.Hybrid
import SmfSolver.Multifrontal.PassBlocks
import SmfSolver.Parallel.TaskClaim
import SmfSolver.Parallel.EarlyGate
import SmfSolver.Session.AnalysisHistory
import SmfSolver.Parallel.TaskTreeVisits
import SmfSolver.Factor.RescueLaws
import SmfSolver.Factor.StoppedCalls
import SmfSolver.Kernel.PivotGrowth
import SmfSolver.Kernel.RootSearch
import SmfSolver.Kernel.SmallFront
import SmfSolver.Plugin.HandleLaws
import SmfSolver.Solve.SparseForward
import SmfSolver.Solve.RunDagRuns
import SmfSolver.Solve.RefinementRuns
import SmfSolver.Matrix.CleanLowerSpec
import SmfSolver.Matrix.PermutedValuesSpec
import SmfSolver.Matching.AuctionRuns
import SmfSolver.Symbolic.UserPairs
import SmfSolver.Symbolic.MatchingOrderSpec
import SmfSolver.Kernel.AptpInertia
import SmfSolver.Factor.PivotOrderSpec
import SmfSolver.Solve.SolveSystem
