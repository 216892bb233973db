import ProgramAnalysis.Dataflow.Analysis
import ProgramAnalysis.Lattice.VarSet

/-!
# Restless analyses

An analysis that reports a change at every step, whatever happens. Its iteration ends only on graphs
without cycles, which makes it the measure of what a limit on the number of steps is for. It carries
the set of parameters along the edges.
-/

namespace ProgramAnalysis.Restless

/-- The name of the analysis in configurations. -/
def name : String := "always-changed"

/-- Takes the input over as output, and claims that the output changed. -/
def transfer (input _output : VarSet) : Bool × VarSet := (true, input)

/-- The restless analysis of a graph in one direction. -/
def analysis (direction : Direction) (g : FlowGraph) : Analysis VarSet where
  direction := direction
  boundary := .ofList g.body.params
  initial := ∅
  meetInto s target := (target.union s).2
  transfer _ := transfer

end ProgramAnalysis.Restless
