import ProgramAnalysis.Hierarchy.Class

/-!
# Registering classes

A registry holds classes of pairwise distinct names and, beside them, three indexes: the direct
subclasses, the direct subinterfaces and the direct implementors of a class, by the name of that
class. The indexes record what a class inherits from at the time when it is registered.

A class can be refused after its registration has begun: its interfaces are looked at one by one,
and what was entered before the first that is not an interface stays entered.
-/

namespace ProgramAnalysis

/-- The registered classes, and the classes directly below each name. -/
structure Registry where
  classes : OrderedMap String ClassId := ∅
  subclasses : OrderedMap String (List ClassId) := ∅
  subinterfaces : OrderedMap String (List ClassId) := ∅
  implementors : OrderedMap String (List ClassId) := ∅

/-- Why a hierarchy is inconsistent. -/
inductive HierarchyError where
  | duplicate (c : ClassId)
  | superIsInterface (c super : ClassId)
  | notAnInterface (c interface : ClassId)
  | cyclic (c : ClassId)
  | entryOutside (m : MethodRef)
deriving DecidableEq, Repr

namespace Registry

/-- The registered class of a name. -/
def find? (r : Registry) (name : String) : Option ClassId := r.classes.find? name

/-- Whether this very class is registered. -/
def contains (r : Registry) (c : ClassId) : Bool := r.find? c.name == some c

/-- The registered classes, in the order of their registration. -/
def all (r : Registry) : List ClassId := r.classes.values

/-- The number of registered classes. -/
def size (r : Registry) : Nat := r.classes.size

/-- The registered classes whose superclass has the name of `c`. -/
def subclassesOf (r : Registry) (c : ClassId) : List ClassId := r.subclasses.findD c.name []

/-- The registered interfaces that extend an interface with the name of `c`. -/
def subinterfacesOf (r : Registry) (c : ClassId) : List ClassId := r.subinterfaces.findD c.name []

/-- The registered classes that implement an interface with the name of `c`. -/
def implementorsOf (r : Registry) (c : ClassId) : List ClassId := r.implementors.findD c.name []

/-- The registry in a short form. -/
def shown (r : Registry) : String := "ClassHierarchy(" ++ toString r.size ++ " classes)"

/-- Enters a class below one of its interfaces. -/
def enterBelow (r : Registry) (c : ClassId) (isInterface : Bool) (interface : ClassId) : Registry :=
  if isInterface then { r with subinterfaces := r.subinterfaces.append interface.name c }
  else { r with implementors := r.implementors.append interface.name c }

/-- Enters a class below each of its interfaces, up to the first that is not one. -/
def enterInterfaces (t : ClassTable) (c : ClassId) (isInterface : Bool) :
    Registry → List ClassId → Registry × Option HierarchyError
  | r, [] => (r, none)
  | r, i :: l =>
    if (t.decl i).isInterface then enterInterfaces t c isInterface (r.enterBelow c isInterface i) l
    else (r, some (.notAnInterface c i))

/-- Registers a class. Beside a reason for refusing it stands the registry as it is then. -/
def add (r : Registry) (t : ClassTable) (c : ClassId) : Registry × Option HierarchyError :=
  let d := t.decl c
  if r.classes.contains c.name then (r, some (.duplicate c))
  else
    match d.superclass.filter fun s ↦ (t.decl s).isInterface with
    | some s => (r, some (.superIsInterface c s))
    | none =>
      let named := { r with classes := r.classes.insert c.name c }
      let below := match d.superclass with
        | some s => { named with subclasses := named.subclasses.append s.name c }
        | none => named
      enterInterfaces t c d.isInterface below d.interfaces

/-- Registers the classes of a list, up to the first that is refused. -/
def addAll (t : ClassTable) : Registry → List ClassId → Registry × Option HierarchyError
  | r, [] => (r, none)
  | r, c :: l =>
    match r.add t c with
    | (r', none) => addAll t r' l
    | (r', some e) => (r', some e)

/-- The registry of the classes of a list. -/
def ofList (t : ClassTable) (l : List ClassId) : Except HierarchyError Registry :=
  match addAll t {} l with
  | (r, none) => .ok r
  | (_, some e) => .error e

end Registry

/-- The wording of an error. -/
def HierarchyError.message : HierarchyError → String
  | duplicate c => "duplicate class " ++ c.name
  | superIsInterface c super => c.name ++ " cannot extend interface " ++ super.name
  | notAnInterface c interface =>
    c.name ++ " lists non-interface " ++ interface.name ++ " as an interface"
  | cyclic c => "cyclic superclass chain above " ++ c.name
  | entryOutside m =>
    "entry method " ++ m.text ++ " is declared in a class outside the hierarchy"

end ProgramAnalysis
