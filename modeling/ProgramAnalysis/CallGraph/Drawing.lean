import ProgramAnalysis.CallGraph.Graph
import ProgramAnalysis.Text.Layout

/-!
# Drawings and listings of call graphs

`CallGraph.dot` describes a graph in the language of the drawing program Graphviz, and
`CallGraph.summary` lists its statistics and, for each method, what it may call.
-/

namespace ProgramAnalysis.CallGraph

/-- The line that draws a method; where the graph is entered is marked. -/
private def dotMethod (g : CallGraph) (m : MethodRef) : String :=
  let label := Text.escapeDoubleQuotes m.text
  let mark := if m ∈ g.entries then ", style=filled, fillcolor=\"#ccffcc\", shape=invhouse" else ""
  "  \"" ++ label ++ "\" [label=\"" ++ label ++ "\"" ++ mark ++ "];"

/-- What distinguishes the drawing of an edge by its kind. -/
private def dotStyle : CallKind → String
  | .static => ""
  | .special => ", color=gray40"
  | .virtual => ", style=dashed, color=blue"
  | .interface => ", style=dotted, color=purple"

/-- The line that draws an edge. -/
private def dotEdge (e : CallEdge) : String :=
  "  \"" ++ Text.escapeDoubleQuotes e.site.callerText ++ "\" -> \"" ++
    Text.escapeDoubleQuotes e.callee.text ++ "\" [label=\"" ++ e.kind.text ++ ":" ++
    toString e.site.index ++ "\"" ++ dotStyle e.kind ++ "];"

/-- The drawing of a graph, with a title unless that is empty. -/
def dot (g : CallGraph) (title : String) : String :=
  "\n".intercalate <|
    ["digraph CallGraph \x7b", "  rankdir=TB;"] ++
    (if title.isEmpty then [] else ["  label=\"" ++ title ++ "\";"]) ++
    ["  node [shape=box, fontname=\"Helvetica\", fontsize=10];"] ++
    g.reachable.map (dotMethod g) ++ g.edges.map dotEdge ++ ["\x7d"]

/-- The line of a method in a listing. -/
private def summaryLine (g : CallGraph) (t : ClassTable) (m : MethodRef) : String :=
  "  " ++ m.text ++ ": calls [" ++
    ", ".intercalate ((g.calleesOfMethod t m).map MethodRef.text) ++ "]"

/-- The listing of a graph. -/
def summary (g : CallGraph) (t : ClassTable) : String :=
  let s := g.statistics
  "\n".intercalate <|
    ["Call Graph Summary",
      "  Entry methods:        " ++ toString s.entries,
      "  Reachable methods:    " ++ toString s.reachable,
      "  Total edges:          " ++ toString s.edges,
      "  Resolved call sites:  " ++ toString s.resolvedSites,
      "  Polymorphic sites:    " ++ toString s.polymorphicSites,
      "  Static/special edges: " ++ toString (s.staticEdges + s.specialEdges),
      "  Virtual edges:        " ++ toString s.virtualEdges,
      "  Interface edges:      " ++ toString s.interfaceEdges,
      "",
      "Methods:"] ++
    g.reachable.map (summaryLine g t)

end ProgramAnalysis.CallGraph
