import ProgramAnalysis.Code.Ty

/-!
# References to classes, methods and fields

Code refers to classes, methods and fields by symbolic references. Two classes may share a name
without being one class, so a class is identified by its name together with a serial number. A class
declares at most one method of each signature, so that a method is identified by its class and its
signature.
-/

namespace ProgramAnalysis

/-- The identity of a class: its name, and a number that sets it apart from its namesakes. -/
structure ClassId where
  name : String
  serial : Nat := 0
deriving DecidableEq, Repr

/-- What distinguishes the methods of one class: a name, the types of the parameters, and the type
of the result, if there is one. -/
structure Signature where
  name : String
  params : List Ty := []
  returns : Option Ty := none
deriving DecidableEq, Repr

/-- The signature as it is written in programs. -/
def Signature.text (s : Signature) : String :=
  (s.returns.map Ty.text).getD "void" ++ " " ++ s.name ++
    "(" ++ ",".intercalate (s.params.map Ty.text) ++ ")"

/-- A method, named by a class and a signature. As the target of a call it may name a class that
does not declare the signature itself. -/
structure MethodRef where
  owner : ClassId
  signature : Signature
deriving DecidableEq, Repr

/-- The method as it is written in programs, without the serial number of its class. -/
def MethodRef.text (m : MethodRef) : String :=
  "<" ++ m.owner.name ++ ": " ++ m.signature.text ++ ">"

/-- A field, named by a class, a name and a type. -/
structure FieldRef where
  owner : String
  name : String
  type : Ty := .int
  isStatic : Bool := false
deriving DecidableEq, Repr

/-- The field as it is written in programs. -/
def FieldRef.text (f : FieldRef) : String :=
  "<" ++ f.owner ++ ": " ++ f.type.text ++ " " ++ f.name ++ ">"

/-- How a call finds the method to run. -/
inductive CallKind where
  | static | special | virtual | interface
deriving DecidableEq, Repr

namespace CallKind

/-- All kinds of calls. -/
def all : List CallKind := [static, special, virtual, interface]

/-- The name of a kind of calls. -/
def text : CallKind → String
  | static => "static"
  | special => "special"
  | virtual => "virtual"
  | interface => "interface"

/-- The kind of calls that has a name. -/
def ofText? (s : String) : Option CallKind := all.find? fun k ↦ k.text == s

/-- Whether the class of the receiver decides which method runs. -/
def dependsOnReceiver : CallKind → Bool
  | virtual | interface => true
  | static | special => false

end CallKind

end ProgramAnalysis
