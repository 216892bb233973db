import ProgramAnalysis.Flow.Node

/-!
# Edges of flow graphs

An edge leads from one node to another and has a kind, which says when control takes it. An edge
that is taken for one case of a switch carries the value of the case, and no other edge carries a
value.
-/

namespace ProgramAnalysis

/-- When control takes an edge. -/
inductive EdgeKind where
  | entry | fallThrough | goto | ifTrue | ifFalse | switchCase | switchDefault | ret
deriving DecidableEq, Repr

namespace EdgeKind

/-- All kinds of edges. -/
def all : List EdgeKind :=
  [entry, fallThrough, goto, ifTrue, ifFalse, switchCase, switchDefault, ret]

/-- The name of a kind. -/
def text : EdgeKind → String
  | entry => "entry"
  | fallThrough => "fall-through"
  | goto => "goto"
  | ifTrue => "if-true"
  | ifFalse => "if-false"
  | switchCase => "switch-case"
  | switchDefault => "switch-default"
  | ret => "return"

/-- The kind of a name. -/
def ofText? (s : String) : Option EdgeKind := all.find? fun k ↦ k.text == s

end EdgeKind

/-- An edge between two nodes. -/
structure Edge where
  source : Node
  target : Node
  kind : EdgeKind
  case? : Option Int
  case?_isSome : case?.isSome = decide (kind = .switchCase)
deriving DecidableEq, Repr

/-- Why there is no such edge, or no answer to a question about one. -/
inductive EdgeError where
  | caseMissing (source target : Int)
  | caseUnexpected (kind : EdgeKind) (source target : Int)
  | notACase (edge : Edge)

namespace Edge

/-- The edge between two nodes, if it carries a case value exactly when it is taken for a case. -/
def between (source target : Node) (kind : EdgeKind) (case? : Option Int) :
    Except EdgeError Edge :=
  if h : case?.isSome = decide (kind = .switchCase) then .ok ⟨source, target, kind, case?, h⟩
  else if case?.isSome then .error (.caseUnexpected kind source.index target.index)
  else .error (.caseMissing source.index target.index)

/-- Whether the edge is taken for one case of a switch. -/
def isCase (e : Edge) : Bool := e.kind == .switchCase

/-- The value of the case for which the edge is taken. -/
def caseValue (e : Edge) : Except EdgeError Int :=
  match e.case? with
  | some v => .ok v
  | none => .error (.notACase e)

/-- The edge in a short form. -/
def shown (e : Edge) : String :=
  let label := e.kind.text ++ ((e.case?.map fun v ↦ "(" ++ toString v ++ ")").getD "")
  "CFGEdge(" ++ toString e.source.index ++ " -[" ++ label ++ "]-> " ++
    toString e.target.index ++ ")"

end Edge

/-- The wording of an error. -/
def EdgeError.message : EdgeError → String
  | caseMissing source target =>
    "switch-case edge " ++ toString source ++ " -> " ++ toString target ++ " has no case value"
  | caseUnexpected kind source target =>
    kind.text ++ " edge " ++ toString source ++ " -> " ++ toString target ++
      " cannot carry a case value"
  | notACase edge => edge.shown ++ " is not a switch-case edge"

end ProgramAnalysis
