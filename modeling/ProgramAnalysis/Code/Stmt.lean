import ProgramAnalysis.Code.Expr

/-!
# Statements

A statement is an assignment, a call, a branch, a switch, a return, or one that neither reads nor
writes anything. Calls are statements of their own, with an optional variable for the result; the
type of assignments excludes a call on the right.

`Stmt.defines` is the variable that a statement binds, if any, and `Stmt.uses` lists the variables
that it reads.
-/

namespace ProgramAnalysis

/-- What an assignment can assign to. -/
inductive LValue where
  | var (v : Var)
  | field (ref : FieldRef) (base : Option Var)
  | elem (base : Var) (index : Expr)
deriving DecidableEq, Repr

namespace LValue

/-- The left-hand side as an expression. -/
def toExpr : LValue → Expr
  | var v => .var v
  | field ref base => .field ref base
  | elem base index => .elem base index

/-- The expression as a left-hand side, if it can stand there. -/
def ofExpr? : Expr → Option LValue
  | .var v => some (var v)
  | .field ref base => some (field ref base)
  | .elem base index => some (elem base index)
  | _ => none

/-- The variable that is assigned to, unless it is a field or an array element. -/
def asVar? : LValue → Option Var
  | var v => some v
  | _ => none

/-- The variables that have to be read to find the place that is assigned to. -/
def uses : LValue → List Var
  | var _ => []
  | l => l.toExpr.uses

end LValue

/-- The statements of the intermediate language. -/
inductive Stmt where
  | assign (target : LValue) (value : Expr) (isCall_eq_false : value.isCall = false)
  | invoke (call : Call) (result : Option Var)
  | branch (condition : Expr)
  | switch (selector : Var) (cases : List Int)
  | ret (value : Option Expr)
  | goto
  | nop
  | blank
deriving DecidableEq, Repr

/-- A call stands on the right of an assignment. -/
structure CallAssigned where
  call : Expr

/-- The wording of an error. -/
def CallAssigned.message (e : CallAssigned) : String :=
  "call " ++ e.call.text ++ " must be an Invoke statement, not an assignment"

namespace Stmt

/-- The assignment of a value, unless the value is a call. -/
def ofAssignment (target : LValue) (value : Expr) : Except CallAssigned Stmt :=
  if h : value.isCall = false then .ok (assign target value h) else .error ⟨value⟩

/-- The left-hand side of an assignment or of a call with a result. -/
def lvalue? : Stmt → Option LValue
  | assign target _ _ => some target
  | invoke _ result => result.map .var
  | _ => none

/-- The right-hand side of an assignment or of a call. -/
def rvalue? : Stmt → Option Expr
  | assign _ value _ => some value
  | invoke call _ => some call.toExpr
  | _ => none

/-- Whether the statement has a right-hand side. -/
def isDefinition (s : Stmt) : Bool := s.rvalue?.isSome

/-- The variable that the statement binds. -/
def defines (s : Stmt) : Option Var := s.lvalue?.bind LValue.asVar?

/-- The variables that the statement reads, those of the right-hand side first. -/
def uses : Stmt → List Var
  | assign target value _ => value.uses ++ target.uses
  | invoke call _ => call.toExpr.uses
  | branch condition => condition.uses
  | switch selector _ => [selector]
  | ret value => (value.map Expr.uses).getD []
  | goto | nop | blank => []

/-- The call that the statement makes. -/
def call? : Stmt → Option Call
  | invoke call _ => some call
  | _ => none

/-- The statement as it is written in programs. -/
def text : Stmt → String
  | assign target value _ => target.toExpr.text ++ " = " ++ value.text
  | invoke call none => call.toExpr.text
  | invoke call (some v) => v.name ++ " = " ++ call.toExpr.text
  | branch condition => "if (" ++ condition.text ++ ")"
  | switch selector cases =>
    "switch (" ++ selector.name ++ ") [" ++ ", ".intercalate (cases.map toString) ++ "]"
  | ret none => "return"
  | ret (some value) => "return " ++ value.text
  | goto => "goto"
  | nop => "nop"
  | blank => "stmt"

/-- The name of the statement's form. -/
def form : Stmt → String
  | assign .. => "AssignStmt"
  | invoke .. => "Invoke"
  | branch _ => "If"
  | switch .. => "SwitchStmt"
  | ret _ => "Return"
  | goto => "Goto"
  | nop => "Nop"
  | blank => "Stmt"

/-- The statement behind its index. -/
def line (index : Int) (s : Stmt) : String := toString index ++ ": " ++ s.text

/-- The statement behind its form and its index. -/
def shown (index : Int) (s : Stmt) : String := "<" ++ s.form ++ " " ++ s.line index ++ ">"

end Stmt

/-! ## Statements whose sides are open

Before its sides are chosen, a definition is a statement of which neither the left-hand nor the
right-hand side can be asked for. Such a sketch has a text, but it takes no part in any analysis.
-/

/-- A statement, or a definition without sides. -/
inductive Sketch where
  | complete (s : Stmt)
  | openDefinition
deriving DecidableEq, Repr

/-- A question about a definition has no answer yet. -/
inductive NotChosen where
  | sides

namespace Sketch

/-- The variable that the statement binds. -/
def defines : Sketch → Except NotChosen (Option Var)
  | complete s => .ok s.defines
  | openDefinition => .error .sides

/-- The variables that the statement reads. -/
def uses : Sketch → Except NotChosen (List Var)
  | complete s => .ok s.uses
  | openDefinition => .error .sides

/-- Whether the statement is a definition. -/
def isDefinition : Sketch → Bool
  | complete s => s.isDefinition
  | openDefinition => true

/-- The left-hand side of a definition. -/
def lvalue? : Sketch → Except NotChosen (Option LValue)
  | complete s => .ok s.lvalue?
  | openDefinition => .error .sides

/-- The right-hand side of a definition. -/
def rvalue? : Sketch → Except NotChosen (Option Expr)
  | complete s => .ok s.rvalue?
  | openDefinition => .error .sides

/-- The statement behind its index. -/
def line (index : Int) : Sketch → String
  | complete s => s.line index
  | openDefinition => toString index ++ ": definitionstmt"

/-- The statement behind its form and its index. -/
def shown (index : Int) : Sketch → String
  | complete s => s.shown index
  | openDefinition => "<DefinitionStmt " ++ toString index ++ ": definitionstmt>"

end Sketch

end ProgramAnalysis
