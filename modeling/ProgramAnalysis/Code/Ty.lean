/-!
# Types and variables

The types of a program are the eight primitive types, named classes, and arrays. Integer analyses
follow only those variables whose type fits into a 32-bit word; `Ty.holdsInt` tells which these are.
-/

namespace ProgramAnalysis

/-- The primitive types. -/
inductive Prim where
  | byte | short | int | char | boolean | long | float | double
deriving DecidableEq, Repr

/-- The name of a primitive type. -/
def Prim.text : Prim → String
  | byte => "byte"
  | short => "short"
  | int => "int"
  | char => "char"
  | boolean => "boolean"
  | long => "long"
  | float => "float"
  | double => "double"

/-- All primitive types. -/
def Prim.all : List Prim := [byte, short, int, char, boolean, long, float, double]

/-- The primitive type of a name. -/
def Prim.ofText? (s : String) : Option Prim := Prim.all.find? fun p ↦ p.text == s

/-- The types of variables, fields, parameters and results. A class may have the name of a primitive
type without being it. -/
inductive Ty where
  | prim (p : Prim)
  | named (name : String)
  | array (element : Ty)
deriving DecidableEq, Repr

namespace Ty

/-- The type of 32-bit integers. -/
abbrev int : Ty := .prim .int

/-- The type as it is written in programs. -/
def text : Ty → String
  | prim p => p.text
  | named name => name
  | array element => element.text ++ "[]"

/-- Whether every value of the type fits into a 32-bit word: the integer types up to `int`, and
`boolean`. -/
def holdsInt : Ty → Bool
  | prim .byte | prim .short | prim .int | prim .char | prim .boolean => true
  | _ => false

end Ty

/-- A local variable or a parameter. Variables of one name and different types are different. -/
structure Var where
  name : String
  type : Ty := .int
deriving DecidableEq, Repr

/-- Whether the variable's type fits into a 32-bit word. -/
def Var.holdsInt (v : Var) : Bool := v.type.holdsInt

/-- The variable together with its type. -/
def Var.typed (v : Var) : String := v.name ++ ":" ++ v.type.text

end ProgramAnalysis
