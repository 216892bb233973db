import ProgramAnalysis.Code.Body
import ProgramAnalysis.Collections.Distinct
import ProgramAnalysis.Collections.OrderedMap
import ProgramAnalysis.Flow.Edge
import ProgramAnalysis.Search.BreadthFirst

/-!
# Flow graphs

The flow graph of a body has a node for each statement, an entry and an exit. Its edges are added
one by one; both ends have to be nodes, nothing leads out of the exit or into the entry, and an
edge that is there already is not added again.

The edges are kept in two tables, by their source and by their target, each in the order in which
they were added. A node that occurs several times in the body occurs as often in the list of nodes,
and its edges as often in the list of edges.
-/

namespace ProgramAnalysis

/-- The flow graph of a body. -/
structure FlowGraph where
  body : Body
  outgoing : OrderedMap Node (List Edge) := ∅
  incoming : OrderedMap Node (List Edge) := ∅

/-- Why a graph does not take an edge or answer a question. -/
inductive GraphError where
  | foreign (node : Node) (graph : FlowGraph)
  | leavesExit
  | entersEntry
  | edge (cause : EdgeError)

namespace FlowGraph

/-- The graph of a body before any edge is added. -/
def ofBody (b : Body) : FlowGraph := { body := b }

/-! ## Nodes -/

/-- The node after the last statement. -/
def exit (g : FlowGraph) : Node := .exit g.body.length

/-- All nodes: the entry, the statements in their order, and the exit. -/
def nodes (g : FlowGraph) : List Node :=
  .entry :: g.body.slots.map (fun s ↦ .stmt s.index) ++ [g.exit]

/-- Whether a node belongs to the graph. -/
def contains (g : FlowGraph) (n : Node) : Bool := decide (n ∈ g.nodes)

/-- The statement at a node; nothing happens at the entry and at the exit. -/
def stmtAt (g : FlowGraph) : Node → Stmt
  | .stmt i => ((g.body.slots.find? fun s ↦ s.index == i).map Slot.stmt).getD .nop
  | .detached _ s => s
  | _ => .nop

/-- The statement at a node behind its index. -/
def line (g : FlowGraph) (n : Node) : String := (g.stmtAt n).line n.index

/-- The statement at a node behind its form and its index. -/
def nodeShown (g : FlowGraph) (n : Node) : String := (g.stmtAt n).shown n.index

/-! ## Edges -/

/-- The edges that lead out of a node. -/
def outEdges (g : FlowGraph) (n : Node) : List Edge := g.outgoing.findD n []

/-- The edges that lead into a node. -/
def inEdges (g : FlowGraph) (n : Node) : List Edge := g.incoming.findD n []

/-- The nodes to which an edge leads, in the order of the first edge to each. -/
def succs (g : FlowGraph) (n : Node) : List Node := distinct ((g.outEdges n).map Edge.target)

/-- The nodes from which an edge comes, in the order of the first edge from each. -/
def preds (g : FlowGraph) (n : Node) : List Node := distinct ((g.inEdges n).map Edge.source)

/-- All edges, node by node. -/
def edges (g : FlowGraph) : List Edge := g.nodes.flatMap g.outEdges

/-- The graph with an edge whose ends are nodes of it. -/
def insertEdge (g : FlowGraph) (e : Edge) : FlowGraph :=
  if e ∈ g.outEdges e.source then g
  else { g with
    outgoing := g.outgoing.append e.source e
    incoming := g.incoming.append e.target e }

/-- Refuses nodes outside the graph. -/
def checkNode (g : FlowGraph) (n : Node) : Except GraphError Unit :=
  if g.contains n then .ok () else .error (.foreign n g)

/-- Adds an edge, and answers with the edge and the graph that has it. -/
def addEdge (g : FlowGraph) (source target : Node) (kind : EdgeKind) (case? : Option Int) :
    Except GraphError (Edge × FlowGraph) := do
  g.checkNode source
  g.checkNode target
  if source.isExit then throw .leavesExit
  if target.isEntry then throw .entersEntry
  match Edge.between source target kind case? with
  | .ok e => return (e, g.insertEdge e)
  | .error cause => throw (.edge cause)

/-- Answers a question about a node of the graph. -/
def ask {α : Type} (g : FlowGraph) (n : Node) (query : FlowGraph → Node → α) :
    Except GraphError α :=
  (g.checkNode n).map fun _ ↦ query g n

/-- The nodes that can be reached from a node, itself included, in breadth-first order. -/
def reachable (g : FlowGraph) (start : Node) : List Node :=
  BreadthFirst.reach id g.succs g.nodes.length start

/-- The graph in a short form. -/
def shown (g : FlowGraph) : String :=
  "CFG(method=" ++ g.body.shown ++ ", nodes=" ++ toString g.nodes.length ++ ", edges=" ++
    toString g.edges.length ++ ")"

end FlowGraph

/-- The wording of an error. -/
def GraphError.message : GraphError → String
  | foreign node graph => graph.nodeShown node ++ " is not a node of " ++ graph.shown
  | leavesExit => "the exit node cannot have successors"
  | entersEntry => "the entry node cannot have predecessors"
  | edge cause => cause.message

end ProgramAnalysis
