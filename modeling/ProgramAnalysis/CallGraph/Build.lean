import ProgramAnalysis.CallGraph.Graph
import ProgramAnalysis.CallGraph.Resolution
import ProgramAnalysis.Hierarchy.Program

/-!
# Building call graphs

The call graph of a program is built from an entry method: the calls in its body are resolved, then
those in the bodies of the methods found, and so on, breadth first. A call that resolves to nothing
is noted, and so is, at the end, the size of the graph.
-/

namespace ProgramAnalysis

/-- The name of call-graph construction in configurations. -/
def CallGraph.name : String := "cha"

/-- How much a note matters. -/
inductive Severity where
  | info | warning
deriving DecidableEq, Repr

/-- The name of a severity. -/
def Severity.text : Severity → String
  | info => "INFO"
  | warning => "WARNING"

/-- What there is to say about the construction of a call graph. -/
inductive Note where
  | unresolved (site : CallSite)
  | built (id : String) (graph : CallGraph) (entry : MethodRef)

namespace Note

/-- How much a note matters. -/
def severity : Note → Severity
  | unresolved _ => .warning
  | built .. => .info

/-- The wording of a note. -/
def message : Note → String
  | unresolved site => "unresolved " ++ site.call.kind.text ++ " call site " ++ site.line
  | built id graph entry =>
    id ++ ": " ++ toString graph.reachable.length ++ " reachable methods, " ++
      toString graph.edges.length ++ " call edges from " ++ entry.text

/-- The note on a call site that has been resolved to a list of methods. -/
def ofResolution (site : CallSite) (callees : List MethodRef) : List Note :=
  if callees.isEmpty then [unresolved site] else []

end Note

/-- The methods that the classes of a table declare. -/
def ClassTable.allMethods (t : ClassTable) : List MethodRef := t.classes.keys.flatMap t.methodsOf

namespace CallGraph

/-- The edge from a call site to a callee. -/
def edgeTo (site : CallSite) (callee : MethodRef) : CallEdge := ⟨site.call.kind, site, callee⟩

/-- A construction under way: the graph so far, the methods whose bodies are still to be looked at,
those whose bodies have been looked at, and what there was to note. -/
structure Construction where
  graph : CallGraph
  queue : List MethodRef
  processed : List MethodRef := []
  notes : List Note := []

namespace Construction

/-- The construction that starts from an entry method. -/
def start (entry : MethodRef) : Construction where
  graph := ({} : CallGraph).addEntry entry
  queue := [entry]

/-- Adds the edge from a call site to a callee. The callee is queued unless the graph contains it,
and that is asked before the edge makes it reachable. -/
def link (site : CallSite) (s : Construction) (callee : MethodRef) : Construction :=
  { s with
    graph := (s.graph.addEdge (edgeTo site callee)).2
    queue := if s.graph.contains callee then s.queue else s.queue ++ [callee] }

/-- Resolves a call site and adds its edges. -/
def visit (r : Registry) (t : ClassTable) (s : Construction) (site : CallSite) :
    Except HierarchyError Construction := do
  let callees ← r.resolve t site.call
  return callees.foldl (link site) { s with notes := s.notes ++ Note.ofResolution site callees }

/-- Looks at the body of a method, unless that has been done before. -/
def process (r : Registry) (t : ClassTable) (s : Construction) (m : MethodRef) :
    Except HierarchyError Construction :=
  if m ∈ s.processed then .ok s
  else
    (t.callSites m).foldlM (visit r t)
      { s with graph := (s.graph.addReachable m).2, processed := s.processed ++ [m] }

/-- Takes methods off the queue until it is empty, but not more than `fuel` of them. -/
def run (r : Registry) (t : ClassTable) :
    (fuel : Nat) → Construction → Except HierarchyError Construction
  | 0, s => .ok s
  | fuel + 1, s =>
    match s.queue with
    | [] => .ok s
    | m :: queue => do run r t fuel (← process r t { s with queue := queue } m)

end Construction

/-- Builds the call graph from an entry method. The construction fails if the search for a method
goes round in circles. Every method on the queue but the entry is declared, and none comes back. -/
def build (r : Registry) (t : ClassTable) (id : String) (entry : MethodRef) :
    Except HierarchyError (CallGraph × List Note) := do
  let s ← Construction.run r t (t.allMethods.length + 1) (.start entry)
  return (s.graph, s.notes ++ [.built id s.graph entry])

/-- The concrete methods of a program that its call graph does not reach. -/
def unreachedMethods (g : CallGraph) (p : Program) (t : ClassTable) : List MethodRef :=
  (p.allMethods t).filter fun m ↦ !t.isAbstract m && !g.contains m

end CallGraph

end ProgramAnalysis
