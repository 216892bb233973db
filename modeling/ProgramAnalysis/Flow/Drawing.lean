import ProgramAnalysis.Flow.Graph
import ProgramAnalysis.Text.Layout

/-!
# Drawings and listings of flow graphs

`FlowGraph.dot` describes a graph in the language of the drawing program Graphviz, and
`FlowGraph.summary` lists the nodes, each with its successors and predecessors.
-/

namespace ProgramAnalysis.FlowGraph

/-- The name of a node in a drawing. -/
private def dotName (n : Node) : String :=
  if n.index < 0 then "Sentry" else "S" ++ toString n.index

/-- The line that draws a node. -/
private def dotNode (g : FlowGraph) (n : Node) : String :=
  "  " ++ dotName n ++ " [label=\"" ++
    (if n.isEntry then "entry\", style=filled, fillcolor=\"#ccffcc\"];"
    else if n.isExit then "exit\", style=filled, fillcolor=\"#ffcccc\"];"
    else Text.escapeDoubleQuotes (g.line n) ++ "\"];")

/-- What distinguishes the drawing of an edge by its kind. -/
private def dotStyle : EdgeKind → String
  | .ifTrue => ", color=green, fontcolor=green"
  | .ifFalse => ", color=red, fontcolor=red"
  | .switchDefault => ", style=dashed"
  | _ => ""

/-- The line that draws an edge. -/
private def dotEdge (e : Edge) : String :=
  "  " ++ dotName e.source ++ " -> " ++ dotName e.target ++ " [label=\"" ++ e.kind.text ++
    ((e.case?.map fun v ↦ ": " ++ toString v).getD "") ++ "\"" ++ dotStyle e.kind ++ "];"

/-- The drawing of a graph, with a title unless that is empty. -/
def dot (g : FlowGraph) (title : String) : String :=
  "\n".intercalate <|
    ["digraph CFG \x7b"] ++
    (if title.isEmpty then [] else ["  label=\"" ++ title ++ "\";"]) ++
    ["  node [shape=box, fontname=monospace, fontsize=10];"] ++
    g.nodes.map (dotNode g) ++ g.edges.map dotEdge ++ ["\x7d"]

/-- The line of a node in a listing. -/
private def summaryLine (g : FlowGraph) (n : Node) : String :=
  let succs := (g.outEdges n).map fun e ↦ toString e.target.index ++ "(" ++ e.kind.text ++ ")"
  let preds := (g.preds n).map fun p ↦ toString p.index
  let text := if n.isEntry then "entry" else if n.isExit then "exit" else g.line n
  "  " ++ Text.padRight 32 text ++ " succ=[" ++ ", ".intercalate succs ++ "]  pred=[" ++
    ", ".intercalate preds ++ "]"

/-- The listing of a graph. -/
def summary (g : FlowGraph) : String :=
  "\n".intercalate (g.shown :: g.nodes.map (summaryLine g))

end ProgramAnalysis.FlowGraph
