import ProgramAnalysis.Hierarchy.Registry

/-!
# Ancestors

Two questions look upwards from a class, at ancestors that need not be registered. `dispatch` asks
which method runs when one of a given signature is called on an object of the class: the concrete
one that is nearest on the chain of superclasses. `isSubclass` asks whether one class is another or
inherits from it, through superclasses and interfaces.

Nothing keeps a class from being its own ancestor. The chain of superclasses is followed until a
class comes up a second time; the search through all ancestors passes over names that it has met.
-/

namespace ProgramAnalysis.ClassTable

/-! ## Dispatch -/

/-- The concrete method of a signature that a class declares itself. -/
def concrete? (t : ClassTable) (c : ClassId) (s : Signature) : Option MethodRef :=
  ((t.decl c).methods.find? s).bind fun d ↦ if d.isAbstract then none else some ⟨c, s⟩

/-- Follows the chain of superclasses from `c` on, where `seen` are the classes passed so far. -/
def dispatchFrom (t : ClassTable) (s : Signature) (start : ClassId) :
    (fuel : Nat) → (seen : List ClassId) → (c : ClassId) → Except HierarchyError (Option MethodRef)
  | 0, _, _ => .error (.cyclic start)
  | fuel + 1, seen, c =>
    if c ∈ seen then .error (.cyclic start)
    else
      match t.concrete? c s with
      | some m => .ok (some m)
      | none =>
        match (t.decl c).superclass with
        | some super => t.dispatchFrom s start fuel (c :: seen) super
        | none => .ok none

/-- The method that runs when one of signature `s` is called on an object of class `c`: none if no
class on the chain has a concrete one, and an error if the search for one goes round in circles. A
chain with no class twice has at most one class that is not in the table, the last. -/
def dispatch (t : ClassTable) (c : ClassId) (s : Signature) :
    Except HierarchyError (Option MethodRef) :=
  t.dispatchFrom s c (t.classes.size + 2) [] c

/-! ## Subclasses -/

/-- The classes directly above a class, in the order in which a search takes them: the interfaces
from the last to the first, then the superclass. -/
def parents (t : ClassTable) (c : ClassId) : List ClassId :=
  (t.decl c).interfaces.reverse ++ (t.decl c).superclass.toList

/-- Looks for `goal` among the pending classes and their ancestors, passing over names that have
been seen. -/
def searchUp (t : ClassTable) (goal : ClassId) :
    (fuel : Nat) → (seen : List String) → (pending : List ClassId) → Bool
  | 0, _, _ => false
  | _ + 1, _, [] => false
  | fuel + 1, seen, c :: pending =>
    if c = goal then true
    else if c.name ∈ seen then t.searchUp goal fuel seen pending
    else t.searchUp goal fuel (c.name :: seen) (t.parents c ++ pending)

/-- A bound on the number of classes that a search upwards looks at: one at the start, and once for
each class those directly above it. -/
def searchBound (t : ClassTable) : Nat :=
  1 + (t.classes.keys.flatMap t.parents).length

/-- Whether `sub` is `super` or inherits from it. -/
def isSubclass (t : ClassTable) (super sub : ClassId) : Bool :=
  t.searchUp super t.searchBound [] [sub]

end ProgramAnalysis.ClassTable
