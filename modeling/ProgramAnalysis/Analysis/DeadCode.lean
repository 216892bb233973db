import ProgramAnalysis.Analysis.ConstantPropagation
import ProgramAnalysis.Analysis.LiveVariables
import ProgramAnalysis.Collections.Slice
import ProgramAnalysis.Dataflow.Solver

/-!
# Dead code

Code is dead in one of two ways. A statement is *unreachable* if control cannot arrive there once
those branches and switches are resolved whose outcome is a known constant. An assignment to a
variable is *dead* if control arrives there, the variable is not live afterwards, and evaluating the
right-hand side cannot be noticed.

Control is followed through dead assignments as through all other statements.
-/

namespace ProgramAnalysis

/-- Whether an evaluation can neither change anything nor trap, as far as the outermost operation
shows: allocations, casts, and accesses to fields and arrays may do either, and a division may
trap. -/
def Expr.hasNoSideEffect : Expr → Bool
  | .alloc .. | .cast .. | .field .. | .elem .. => false
  | .binary op _ _ => !op.divides
  | _ => true

/-- The dead statements of a body. -/
structure DeadCode where
  unreachable : List Node
  deadAssignments : List Node

namespace DeadCode

/-- The name of the analysis in configurations. -/
def name : String := "deadcode"

/-! ## Results -/

/-- Sorts nodes by index, keeping the order of nodes with equal indexes. -/
def sortByIndex (l : List Node) : List Node :=
  stableSort (fun m n ↦ decide (m.index ≤ n.index)) l

/-- The result with the given unreachable statements and dead assignments, each sorted by index. -/
def of (unreachable deadAssignments : List Node) : DeadCode where
  unreachable := sortByIndex unreachable
  deadAssignments := sortByIndex deadAssignments

/-- All dead statements, sorted by index; an unreachable statement stands before an assignment of
the same index. -/
def all (d : DeadCode) : List Node := sortByIndex (d.unreachable ++ d.deadAssignments)

/-- The indexes of the dead statements. -/
def indexes (d : DeadCode) : List Int := d.all.map Node.index

/-- The result in a short form. -/
def shown (d : DeadCode) : String :=
  let list (l : List Node) := "[" ++ ", ".intercalate (l.map fun n ↦ toString n.index) ++ "]"
  "DeadCodeResult(unreachable=" ++ list d.unreachable ++ ", dead_assignments=" ++
    list d.deadAssignments ++ ")"

/-! ## Following control -/

/-- Whether the statement at a node is a dead assignment. -/
def isDeadAssignment (g : FlowGraph) (live : Facts VarSet) (n : Node) : Except NoFact Bool :=
  match g.stmtAt n with
  | .assign (.var x) value _ =>
    (live.afterNode g n).map fun s ↦ decide (x ∉ s) && value.hasNoSideEffect
  | _ => .ok false

/-- The targets of a branch, whose condition has value `v`. -/
def branchTargets (g : FlowGraph) (n : Node) (v : Int) : List Node :=
  ((g.outEdges n).filter fun e ↦
    (e.kind == .ifTrue && v == 1) || (e.kind == .ifFalse && v == 0)).map Edge.target

/-- The targets of a switch with the given cases, whose selector has value `v`. -/
def switchTargets (g : FlowGraph) (n : Node) (cases : List Int) (v : Int) : List Node :=
  ((g.outEdges n).filter fun e ↦
    if v ∈ cases then e.isCase && e.case? == some v else e.kind == .switchDefault).map Edge.target

/-- The nodes where control may arrive next. -/
def successors (g : FlowGraph) (constants : Facts ConstFact) (n : Node) :
    Except NoFact (List Node) :=
  match g.stmtAt n with
  | .branch condition =>
    (constants.beforeNode g n).map fun f ↦
      match (evaluate condition f).constant? with
      | some v => branchTargets g n v
      | none => g.succs n
  | .switch selector cases =>
    (constants.beforeNode g n).map fun f ↦
      match (evaluate (.var selector) f).constant? with
      | some v => switchTargets g n cases v
      | none => g.succs n
  | _ => .ok (g.succs n)

/-- The nodes where control may arrive at all. A node without the facts that it takes to leave it
is a dead end. -/
def reached (g : FlowGraph) (constants : Facts ConstFact) : List Node :=
  BreadthFirst.visits id (fun n ↦ ((successors g constants n).toOption).getD []) g.nodes.length
    .entry

/-- Looks at a reached node: whether it is a dead assignment. All facts that the node takes have to
be there, also those that it takes to leave it. -/
def inspect (g : FlowGraph) (constants : Facts ConstFact) (live : Facts VarSet) (n : Node) :
    Except NoFact (Node × Bool) := do
  let dead ← isDeadAssignment g live n
  let _ ← successors g constants n
  return (n, dead)

/-- The dead code of a graph, given facts about constants and about live variables. The first
reached node without a fact that it takes is the one that is reported. -/
def detect (g : FlowGraph) (constants : Facts ConstFact) (live : Facts VarSet) :
    Except NoFact DeadCode := do
  let reached ← (reached g constants).mapM (inspect g constants live)
  let inner := g.nodes.filter fun n ↦ !n.isExit
  return of (inner.filter fun n ↦ !(reached.map Prod.fst).contains n)
    (inner.filter fun n ↦ reached.contains (n, true))

/-! ## Running all analyses -/

/-- Why the dead code of a graph could not be determined. -/
inductive Failure where
  | handOver (cause : HandOverError)
  | analysis (cause : AnalysisError)
  | noFact (cause : NoFact)

/-- Runs an analysis with the options of another configuration. -/
def runWith {F : Type} (a : Analysis F) (g : FlowGraph) (id : String)
    (options : OrderedMap String Setting) : Except Failure (Solution F) :=
  match Configuration.ofOptions id options with
  | .error cause => .error (.handOver cause)
  | .ok c => (a.run g c none).mapError .analysis

/-- The dead code of a graph. The options of the configuration are handed on to both analyses that
it takes. -/
def analyze (g : FlowGraph) (given : Option Configuration) : Except Failure DeadCode := do
  let options := (given.map Configuration.options).getD ∅
  let constants ← runWith (ConstantPropagation.analysis g) g ConstantPropagation.name options
  let live ← runWith (LiveVariables.analysis g) g LiveVariables.name options
  (detect g constants.toFacts live.toFacts).mapError .noFact

end DeadCode

end ProgramAnalysis
