import ProgramAnalysis.Collections.Distinct
import ProgramAnalysis.Hierarchy.Class

/-!
# Call graphs

A call graph has methods as nodes; an edge leads from a call site to a method that the call may run.
Where the graph is entered is recorded, and every entry and every callee is a reachable method.

The edges are kept three times: in the order in which they were added, by their call site and by
their callee.
-/

namespace ProgramAnalysis

/-- A call site, a method that it may run, and the kind of the call. -/
structure CallEdge where
  kind : CallKind
  site : CallSite
  callee : MethodRef
deriving DecidableEq, Repr

/-- The edge in a short form. -/
def CallEdge.shown (e : CallEdge) : String :=
  "CallGraphEdge(" ++ e.site.callerText ++ "[" ++ toString e.site.index ++ "] -> " ++
    e.callee.text ++ ", " ++ e.kind.text ++ ")"

/-- Which methods may be called from where. -/
structure CallGraph where
  entries : List MethodRef := []
  reachable : List MethodRef := []
  edges : List CallEdge := []
  bySite : OrderedMap CallSite (List CallEdge) := ∅
  byCallee : OrderedMap MethodRef (List CallEdge) := ∅

namespace CallGraph

/-! ## Construction -/

/-- Adds a reachable method, and reports whether it is new. -/
def addReachable (g : CallGraph) (m : MethodRef) : Bool × CallGraph :=
  if m ∈ g.reachable then (false, g) else (true, { g with reachable := g.reachable ++ [m] })

/-- Adds a method where the graph is entered. -/
def addEntry (g : CallGraph) (m : MethodRef) : CallGraph :=
  let marked := if m ∈ g.entries then g else { g with entries := g.entries ++ [m] }
  (marked.addReachable m).2

/-- Adds an edge and its callee, and reports whether the edge is new. -/
def addEdge (g : CallGraph) (e : CallEdge) : Bool × CallGraph :=
  if e ∈ g.edges then (false, g)
  else
    let linked := { g with
      edges := g.edges ++ [e]
      bySite := g.bySite.append e.site e
      byCallee := g.byCallee.append e.callee e }
    (true, (linked.addReachable e.callee).2)

/-! ## Queries -/

/-- Whether a method is reachable. -/
def contains (g : CallGraph) (m : MethodRef) : Bool := decide (m ∈ g.reachable)

/-- The edges out of a call site. -/
def edgesOutOf (g : CallGraph) (s : CallSite) : List CallEdge := g.bySite.findD s []

/-- The edges into a method. -/
def edgesInto (g : CallGraph) (m : MethodRef) : List CallEdge := g.byCallee.findD m []

/-- The methods that a call may run. -/
def callees (g : CallGraph) (s : CallSite) : List MethodRef := (g.edgesOutOf s).map CallEdge.callee

/-- The methods that the calls in a method's body may run. -/
def calleesOfMethod (g : CallGraph) (t : ClassTable) (m : MethodRef) : List MethodRef :=
  distinct ((t.callSites m).flatMap g.callees)

/-- The call sites that may run a method. -/
def callers (g : CallGraph) (m : MethodRef) : List CallSite :=
  distinct ((g.edgesInto m).map CallEdge.site)

/-- The number of edges of a kind. -/
def edgeCount (g : CallGraph) (k : CallKind) : Nat := g.edges.countP fun e ↦ e.kind == k

/-- Counts of the parts of a call graph. -/
structure Statistics where
  entries : Nat
  reachable : Nat
  edges : Nat
  resolvedSites : Nat
  polymorphicSites : Nat
  staticEdges : Nat
  specialEdges : Nat
  virtualEdges : Nat
  interfaceEdges : Nat
deriving DecidableEq, Repr

/-- The counts for a graph. A call site is resolved if it has an edge, polymorphic if it has two. -/
def statistics (g : CallGraph) : Statistics where
  entries := g.entries.length
  reachable := g.reachable.length
  edges := g.edges.length
  resolvedSites := g.bySite.size
  polymorphicSites := g.bySite.values.countP fun l ↦ 1 < l.length
  staticEdges := g.edgeCount .static
  specialEdges := g.edgeCount .special
  virtualEdges := g.edgeCount .virtual
  interfaceEdges := g.edgeCount .interface

/-- The graph in a short form. -/
def shown (g : CallGraph) : String :=
  "CallGraph(methods=" ++ toString g.reachable.length ++ ", edges=" ++
    toString g.edges.length ++ ")"

end CallGraph

end ProgramAnalysis
