import ProgramAnalysis.Flow.Graph

/-!
# Facts at the nodes of a graph

An analysis attaches two facts to each node: what holds before it, and what holds after it. The
tables need not have a fact for every node, and to ask for one that they lack is an error.
-/

namespace ProgramAnalysis

/-- The facts before and after the nodes of a graph. -/
structure Facts (F : Type) where
  before : OrderedMap Node F := ∅
  after : OrderedMap Node F := ∅

/-- There is no fact for a node. -/
structure NoFact where
  node : Node
  graph : FlowGraph

/-- The wording of an error. -/
def NoFact.message (e : NoFact) : String := "no dataflow fact for " ++ e.graph.nodeShown e.node

namespace Facts

variable {F : Type}

/-- The fact before a node of `g`. -/
def beforeNode (t : Facts F) (g : FlowGraph) (n : Node) : Except NoFact F :=
  match t.before.find? n with
  | some f => .ok f
  | none => .error ⟨n, g⟩

/-- The fact after a node of `g`. -/
def afterNode (t : Facts F) (g : FlowGraph) (n : Node) : Except NoFact F :=
  match t.after.find? n with
  | some f => .ok f
  | none => .error ⟨n, g⟩

end Facts

end ProgramAnalysis
