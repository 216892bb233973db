import ProgramAnalysis.Config.Configuration
import ProgramAnalysis.Dataflow.Analysis
import ProgramAnalysis.Dataflow.Worklist
import ProgramAnalysis.Search.DepthFirst

/-!
# Iterating to a fixed point

At first every node except the one where the analysis starts is pending. As long as some node is,
the next one is processed: the outputs of the nodes before it are met into its input, its output is
computed anew, and if that changed, the nodes behind it are pending again. The start keeps the
boundary fact and is processed only if it is put in by a change before it.

The number of steps is limited. An iteration that is not finished by then is given up.
-/

namespace ProgramAnalysis

/-- A reverse postorder of the nodes of a graph, seen in one direction. -/
def Orientation.order (o : Orientation) : List Node :=
  DepthFirst.reversePostorder o.next (o.start :: o.nodes)

/-- The state of an iteration: the inputs and outputs of the nodes, the pending nodes, and those
that have been processed, the latest first. -/
structure IterationState (F : Type) where
  input : OrderedMap Node F
  output : OrderedMap Node F
  worklist : Worklist
  processed : List Node := []

/-- The facts that an iteration has arrived at, and the nodes in the order in which it processed
them. -/
structure Solution (F : Type) extends Facts F where
  direction : Direction
  trace : List Node

/-- The number of steps that an iteration took. -/
def Solution.steps {F : Type} (s : Solution F) : Nat := s.trace.length

namespace Analysis

variable {F : Type}

/-- The facts before the first step. -/
def initialFacts (a : Analysis F) (o : Orientation) : OrderedMap Node F :=
  .ofList (o.nodes.map fun n ↦ (n, if n = o.start then a.boundary else a.initial))

/-- The worklist before the first step. Ranks are positions in a reverse postorder. -/
def initialWorklist (o : Orientation) (strategy : Strategy) : Worklist :=
  let order := if strategy = .rpo then o.order else []
  let empty : Worklist := { strategy := strategy, rank := fun n ↦ order.idxOf n }
  empty.pushAll (o.nodes.filter (· ≠ o.start))

/-- The state before the first step. -/
def start (a : Analysis F) (o : Orientation) (strategy : Strategy) : IterationState F where
  input := a.initialFacts o
  output := a.initialFacts o
  worklist := initialWorklist o strategy

/-- The input of a node after the outputs of the nodes before it have been met into it. -/
def gather (a : Analysis F) (o : Orientation) (p : IterationState F) (n : Node) : F :=
  (o.prev n).foldl (fun f m ↦ a.meetInto (p.output.findD m a.initial) f)
    (p.input.findD n a.initial)

/-- Processes a node that has been taken out of the worklist. -/
def step (a : Analysis F) (o : Orientation) (p : IterationState F) (n : Node) : IterationState F :=
  let input := a.gather o p n
  let (changed, output) := a.transfer n input (p.output.findD n a.initial)
  { input := p.input.insert n input
    output := p.output.insert n output
    worklist := if changed then p.worklist.pushAll (o.next n) else p.worklist
    processed := n :: p.processed }

/-- Processes pending nodes until none is left; `none` if that takes more than `limit` steps. -/
def iterate (a : Analysis F) (o : Orientation) :
    (limit : Nat) → IterationState F → Option (IterationState F)
  | 0, p => if p.worklist.pop?.isNone then some p else none
  | limit + 1, p =>
    match p.worklist.pop? with
    | none => some p
    | some (n, rest) => a.iterate o limit (a.step o { p with worklist := rest } n)

/-- The solution in terms of before and after. -/
def solution (a : Analysis F) (p : IterationState F) : Solution F :=
  match a.direction with
  | .forward => ⟨⟨p.input, p.output⟩, .forward, p.processed.reverse⟩
  | .backward => ⟨⟨p.output, p.input⟩, .backward, p.processed.reverse⟩

/-- Iterates an analysis of a graph to a fixed point, unless that exceeds the limit. -/
def solve? (a : Analysis F) (g : FlowGraph) (it : Iteration) : Option (Solution F) :=
  let o := g.orient a.direction
  (a.iterate o it.limit.toNat (a.start o it.strategy)).map a.solution

end Analysis

/-! ## Running a configured analysis -/

/-- An analysis was not finished within its limit. -/
structure LimitExceeded where
  id : String
  limit : Int
deriving DecidableEq, Repr

/-- The wording of an error. -/
def LimitExceeded.message (e : LimitExceeded) : String :=
  "analysis '" ++ e.id ++ "' did not reach a fixpoint after " ++ toString e.limit ++ " iterations"

/-- Why a configured analysis has no result. -/
inductive AnalysisError where
  | config (cause : ConfigError)
  | limit (cause : LimitExceeded)

/-- Runs an analysis as its configuration says; a strategy that is given in addition overrides the
configured one. -/
def Analysis.run {F : Type} (a : Analysis F) (g : FlowGraph) (c : Configuration)
    (strategy : Option Strategy) : Except AnalysisError (Solution F) :=
  match c.iteration with
  | .error cause => .error (.config cause)
  | .ok it =>
    match a.solve? g { it with strategy := strategy.getD it.strategy } with
    | some s => .ok s
    | none => .error (.limit ⟨c.id, it.limit⟩)

end ProgramAnalysis
