import ProgramAnalysis.Dataflow.Analysis
import ProgramAnalysis.Lattice.VarSet

/-!
# Live variables

A backward analysis: a variable is live where its value may be read before it is bound again. Live
before a statement are the variables that it reads, and those live after it that it does not bind.
-/

namespace ProgramAnalysis.LiveVariables

/-- The name of the analysis in configurations. -/
def name : String := "livevar"

/-- The variables live before a statement, given those live after it. -/
def before (s : Stmt) (after : VarSet) : VarSet :=
  let kept := match s.defines with
    | some x => (after.erase x).2
    | none => after
  (reportAll VarSet.insert kept s.uses).2

/-- Replaces the output of a statement, the variables live before it. -/
def transfer (s : Stmt) (input output : VarSet) : Bool × VarSet := output.copyFrom (before s input)

/-- Meets a set of variables into another. -/
def meetInto (s target : VarSet) : VarSet := (target.union s).2

/-- Live variables over a graph. Nothing is live at the exit. -/
def analysis (g : FlowGraph) : Analysis VarSet where
  direction := .backward
  boundary := ∅
  initial := ∅
  meetInto := meetInto
  transfer n := transfer (g.stmtAt n)

end ProgramAnalysis.LiveVariables
