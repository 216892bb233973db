import ProgramAnalysis.Dataflow.Facts

/-!
# Data-flow analyses

A data-flow analysis says how facts travel along the edges of a graph: from which fact it starts,
how facts that arrive at one node are met, and how a statement transforms the fact that arrives
into the fact that leaves. Facts travel with the edges or against them; an `Orientation` is the
graph as it looks to an analysis of one direction, so that whatever iterates an analysis knows no
directions.
-/

namespace ProgramAnalysis

/-- The direction in which facts travel. -/
inductive Direction where
  | forward | backward
deriving DecidableEq, Repr

/-- The name of a direction. -/
def Direction.text : Direction → String
  | forward => "forward"
  | backward => "backward"

/-- A data-flow analysis with facts of type `F`. The *input* of a node is the fact that arrives, the
*output* the fact that leaves, whatever the direction. -/
structure Analysis (F : Type) where
  /-- The direction in which facts travel. -/
  direction : Direction
  /-- The fact at the node where the analysis starts. -/
  boundary : F
  /-- The fact from which every other node starts. -/
  initial : F
  /-- Meets a fact, the first argument, into another. -/
  meetInto : F → F → F
  /-- Computes the new output of a node from its input and its old output, and reports whether the
  output changed. -/
  transfer : Node → F → F → Bool × F

/-- A graph as it looks to an analysis of one direction. -/
structure Orientation where
  /-- The node that keeps the boundary fact. -/
  start : Node
  /-- All nodes. -/
  nodes : List Node
  /-- The nodes at which the output of a node arrives. -/
  next : Node → List Node
  /-- The nodes whose outputs arrive at a node. -/
  prev : Node → List Node

/-- The graph as it looks to an analysis of direction `d`. -/
def FlowGraph.orient (g : FlowGraph) (d : Direction) : Orientation :=
  match d with
  | .forward => ⟨.entry, g.nodes, g.succs, g.preds⟩
  | .backward => ⟨g.exit, g.nodes, g.preds, g.succs⟩

end ProgramAnalysis
