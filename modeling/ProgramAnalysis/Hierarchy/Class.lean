import ProgramAnalysis.Code.Body
import ProgramAnalysis.Collections.OrderedMap

/-!
# Classes and their methods

A class table holds the classes that exist, whether or not they are registered anywhere. A class
has at most one superclass, a list of interfaces, and methods of pairwise distinct signatures;
methods of interfaces are abstract, and abstract methods have no bodies.
-/

namespace ProgramAnalysis

/-- A method as its class declares it. `revision` counts the bodies that it has had. -/
structure MethodDecl where
  isAbstract : Bool
  isStatic : Bool
  revision : Nat := 0
  body : Option Body := none

/-- A class or an interface as it is declared. -/
structure ClassDecl where
  superclass : Option ClassId := none
  interfaces : List ClassId := []
  isInterface : Bool := false
  isAbstract : Bool := false
  methods : OrderedMap Signature MethodDecl := ∅

/-- The classes that exist. -/
structure ClassTable where
  classes : OrderedMap ClassId ClassDecl := ∅

/-- Why a class does not take a method, or a method has no body. -/
inductive MethodError where
  | declared (owner : ClassId) (signature : Signature)
  | abstractBody (method : MethodRef)
  | noBody (method : MethodRef)
deriving DecidableEq, Repr

namespace ClassTable

/-! ## Classes -/

/-- The declaration of a class; a class outside the table has neither ancestors nor methods. -/
def decl (t : ClassTable) (c : ClassId) : ClassDecl := t.classes.findD c {}

/-- Adds a class that differs from all others. An interface is abstract. -/
def declare (t : ClassTable) (name : String) (d : ClassDecl) : ClassId × ClassTable :=
  let c : ClassId := ⟨name, t.classes.size⟩
  (c, ⟨t.classes.insert c { d with isAbstract := d.isAbstract || d.isInterface }⟩)

/-- Changes the superclass of a class, and nothing else. -/
def setSuperclass (t : ClassTable) (c : ClassId) (super : Option ClassId) : ClassTable :=
  ⟨t.classes.insert c { t.decl c with superclass := super }⟩

/-- The class in a short form. -/
def shown (t : ClassTable) (c : ClassId) : String :=
  "<" ++ (if (t.decl c).isInterface then "interface " else "class ") ++ c.name ++ ">"

/-! ## Methods -/

/-- The declaration of a method. -/
def method? (t : ClassTable) (m : MethodRef) : Option MethodDecl :=
  (t.decl m.owner).methods.find? m.signature

/-- The method of a signature that a class declares itself. -/
def declared? (t : ClassTable) (c : ClassId) (s : Signature) : Option MethodRef :=
  if (t.decl c).methods.contains s then some ⟨c, s⟩ else none

/-- The methods that a class declares itself, in their order. -/
def methodsOf (t : ClassTable) (c : ClassId) : List MethodRef :=
  (t.decl c).methods.keys.map fun s ↦ ⟨c, s⟩

/-- Whether a method is declared abstract. -/
def isAbstract (t : ClassTable) (m : MethodRef) : Bool :=
  ((t.method? m).map MethodDecl.isAbstract).getD false

/-- Adds a method to a class. -/
def declareMethod (t : ClassTable) (c : ClassId) (s : Signature) (isAbstract isStatic : Bool) :
    Except MethodError (MethodRef × ClassTable) :=
  let d := t.decl c
  if d.methods.contains s then .error (.declared c s)
  else
    let m : MethodDecl := ⟨isAbstract || d.isInterface, isStatic, 0, none⟩
    .ok (⟨c, s⟩, ⟨t.classes.insert c { d with methods := d.methods.insert s m }⟩)

/-! ## Bodies -/

/-- The body of a method, if it has one. -/
def body? (t : ClassTable) (m : MethodRef) : Option Body := (t.method? m).bind MethodDecl.body

/-- The body of a method, an error if it has none. -/
def body (t : ClassTable) (m : MethodRef) : Except MethodError Body :=
  match t.body? m with
  | some b => .ok b
  | none => .error (.noBody m)

/-- Gives a method a new body. A method that is not static has a receiver, which is the variable
`this` of the class's type unless another one is given. -/
def setBody (t : ClassTable) (m : MethodRef) (params : List Var) (slots : List Slot)
    (receiver : Option Var) : Except MethodError (Body × ClassTable) :=
  let d := (t.method? m).getD ⟨false, false, 0, none⟩
  if d.isAbstract then .error (.abstractBody m)
  else
    let implicit := if d.isStatic then none else some ⟨"this", .named m.owner.name⟩
    let b : Body := ⟨some m, d.revision + 1, params, receiver.or implicit, slots⟩
    let c := t.decl m.owner
    let d' := { d with revision := b.revision, body := some b }
    .ok (b, ⟨t.classes.insert m.owner { c with methods := c.methods.insert m.signature d' }⟩)

/-- The call sites in the body of a method. -/
def callSites (t : ClassTable) (m : MethodRef) : List CallSite :=
  ((t.body? m).map Body.callSites).getD []

end ClassTable

/-- The wording of an error. -/
def MethodError.message : MethodError → String
  | declared owner signature => owner.name ++ " already declares " ++ signature.text
  | abstractBody method => "abstract method " ++ method.text ++ " cannot have a body"
  | noBody method => method.text ++ " has no body"

end ProgramAnalysis
