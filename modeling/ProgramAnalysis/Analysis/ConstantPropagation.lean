import ProgramAnalysis.Dataflow.Analysis
import ProgramAnalysis.Lattice.ConstFact

/-!
# Constant propagation

A forward analysis of the variables that hold 32-bit integers. An expression is evaluated under the
fact that holds before its statement. Literals, variables and binary expressions are modelled; all
other expressions may have any value.

A division or a remainder by the constant zero never yields a value, and this is looked at before
anything else: even a dividend of which nothing can be known does not make the result `varying`.
`evaluate?` is the evaluation that fails where two constants are folded that cannot be folded. What
is looked at first keeps this from ever happening, so `evaluate` has nothing to make up.
-/

namespace ProgramAnalysis

/-- What is known about the result of an operation, given what is known about the operands, or
`none` if two constants are folded that cannot be folded. -/
def Operator.onValues? (op : Operator) (v w : Value) : Option Value :=
  if op.divides ∧ w.constant? = some 0 then some .unseen
  else if v.isNac ∨ w.isNac then some .varying
  else
    match v.constant?, w.constant? with
    | some a, some b => (op.fold? a b).map .constant
    | _, _ => some .unseen

/-- What is known about the value of an expression, or `none` if a folding on the way fails. -/
def evaluate? : Expr → ConstFact → Option Value
  | .int n, _ => some (.ofInt n)
  | .var x, f => some (if x.holdsInt then f.get x else .varying)
  | .binary op left right, f => do
    let v ← evaluate? left f
    let w ← evaluate? right f
    op.onValues? v w
  | _, _ => some .varying

/-- What is known about the value of an expression. -/
def evaluate (e : Expr) (f : ConstFact) : Value := (evaluate? e f).getD .unseen

namespace ConstantPropagation

/-- The name of the analysis in configurations. -/
def name : String := "constprop"

/-- The fact at the entry: nothing is known about the parameters. -/
def boundary (params : List Var) : ConstFact :=
  params.foldl (fun f x ↦ if x.holdsInt then (f.update x .varying).2 else f) ∅

/-- The fact after a statement. A definition binds its variable to the value of its right-hand side,
or unbinds it if the variable does not hold integers. -/
def after (s : Stmt) (f : ConstFact) : ConstFact :=
  match s.defines, s.rvalue? with
  | some x, some e =>
    let rest := (f.remove x).2
    if x.holdsInt then (rest.update x (evaluate e f)).2 else rest
  | _, _ => f

/-- Replaces the output of a statement by the fact that its input leads to. -/
def transfer (s : Stmt) (input output : ConstFact) : Bool × ConstFact :=
  output.replaceWith (after s input)

/-- Constant propagation over a graph. -/
def analysis (g : FlowGraph) : Analysis ConstFact where
  direction := .forward
  boundary := boundary g.body.params
  initial := ∅
  meetInto := ConstFact.meetInto
  transfer n := transfer (g.stmtAt n)

end ConstantPropagation

end ProgramAnalysis
