import ProgramAnalysis.Analysis.ConstantPropagation
import ProgramAnalysis.Analysis.DeadCode
import ProgramAnalysis.Analysis.LiveVariables
import ProgramAnalysis.Analysis.Restless
import ProgramAnalysis.CallGraph.Build
import ProgramAnalysis.CallGraph.Drawing
import ProgramAnalysis.CallGraph.Graph
import ProgramAnalysis.CallGraph.Resolution
import ProgramAnalysis.Catalogue
import ProgramAnalysis.Code.Body
import ProgramAnalysis.Code.Expr
import ProgramAnalysis.Code.Operator
import ProgramAnalysis.Code.Reference
import ProgramAnalysis.Code.Stmt
import ProgramAnalysis.Code.Ty
import ProgramAnalysis.Collections.Distinct
import ProgramAnalysis.Collections.OrderedMap
import ProgramAnalysis.Collections.Rebinding
import ProgramAnalysis.Collections.Report
import ProgramAnalysis.Collections.Slice
import ProgramAnalysis.Collections.StableSort
import ProgramAnalysis.Config.Configuration
import ProgramAnalysis.Config.Setting
import ProgramAnalysis.Config.Strategy
import ProgramAnalysis.Dataflow.Analysis
import ProgramAnalysis.Dataflow.Facts
import ProgramAnalysis.Dataflow.Solver
import ProgramAnalysis.Dataflow.Worklist
import ProgramAnalysis.Flow.Drawing
import ProgramAnalysis.Flow.Edge
import ProgramAnalysis.Flow.Graph
import ProgramAnalysis.Flow.Node
import ProgramAnalysis.Hierarchy.Ancestry
import ProgramAnalysis.Hierarchy.Class
import ProgramAnalysis.Hierarchy.Program
import ProgramAnalysis.Hierarchy.Registry
import ProgramAnalysis.Lattice.ConstFact
import ProgramAnalysis.Lattice.Value
import ProgramAnalysis.Lattice.VarSet
import ProgramAnalysis.Number.Binary64
import ProgramAnalysis.Number.Numeral
import ProgramAnalysis.Number.Shortest
import ProgramAnalysis.Number.Word32
import ProgramAnalysis.Search.BreadthFirst
import ProgramAnalysis.Search.DepthFirst
import ProgramAnalysis.Text.Blank
import ProgramAnalysis.Text.Digit
import ProgramAnalysis.Text.Layout
import ProgramAnalysis.Text.Printable
import ProgramAnalysis.Text.Quoted
import ProgramAnalysis.Config.Json
import ProgramAnalysis.Proofs.Bindings
import ProgramAnalysis.Proofs.FactOrder
import ProgramAnalysis.Proofs.BuiltGraphs
import ProgramAnalysis.Proofs.Iteration
import ProgramAnalysis.Proofs.LiveSets
import ProgramAnalysis.Proofs.ConstantFacts
import ProgramAnalysis.Proofs.ReadsAndWrites
import ProgramAnalysis.Proofs.MachineWords
import ProgramAnalysis.Proofs.Execution
import ProgramAnalysis.Proofs.SoundEvaluation
import ProgramAnalysis.Proofs.ExactFolding
import ProgramAnalysis.Proofs.SideEffects
import ProgramAnalysis.Proofs.DeadCodeResults
import ProgramAnalysis.Proofs.ReachableCode
import ProgramAnalysis.Proofs.CriticalDivisions
import ProgramAnalysis.Proofs.LiveFacts
import ProgramAnalysis.Proofs.WorklistOrder
import ProgramAnalysis.Proofs.DeadAssignments
import ProgramAnalysis.Proofs.LeastSolutions
import ProgramAnalysis.Proofs.Convergence
import ProgramAnalysis.Proofs.StepBounds
import ProgramAnalysis.Proofs.InputHistories
import ProgramAnalysis.Proofs.LivePaths
import ProgramAnalysis.Proofs.PrunedReachability
import ProgramAnalysis.Proofs.Ancestors
import ProgramAnalysis.Proofs.Registration
import ProgramAnalysis.Proofs.Resolution
import ProgramAnalysis.Proofs.CallEdges
import ProgramAnalysis.Proofs.CallGraphs
import ProgramAnalysis.Proofs.LargerHierarchies
import ProgramAnalysis.Proofs.Postorder
import ProgramAnalysis.Proofs.Cycles
import ProgramAnalysis.Proofs.Sweeps
import ProgramAnalysis.Proofs.StackSearch
import ProgramAnalysis.Proofs.Refusals
import ProgramAnalysis.Proofs.MissingAncestors
import ProgramAnalysis.Proofs.EdgeTables
import ProgramAnalysis.Proofs.ShortestPaths
import ProgramAnalysis.Proofs.SuperclassChains
import ProgramAnalysis.Proofs.Additions
import ProgramAnalysis.Proofs.FreeOptions
import ProgramAnalysis.Proofs.FactFamilies
import ProgramAnalysis.Proofs.FactMeets
import ProgramAnalysis.Proofs.Subclasses
