import ProgramAnalysis.Collections.Distinct
import ProgramAnalysis.Hierarchy.Ancestry
import ProgramAnalysis.Search.BreadthFirst

/-!
# Resolving calls by the class hierarchy

A static or special call runs the method to which its target dispatches. A virtual or interface call
may run what any class below the class of its target dispatches to. The classes below are found
through the indexes of the registry, breadth first and each name once.
-/

namespace ProgramAnalysis.Registry

/-- The registered classes directly below a class: subclasses, subinterfaces, implementors. -/
def below (r : Registry) (c : ClassId) : List ClassId :=
  r.subclassesOf c ++ r.subinterfacesOf c ++ r.implementorsOf c

/-- A class and the registered classes below it. Every class below has a registered name. -/
def cone (r : Registry) (c : ClassId) : List ClassId :=
  BreadthFirst.visits ClassId.name r.below (r.size + 1) c

/-- The classes whose objects a call may be made on, as far as they matter to which method runs. -/
def receivers (r : Registry) (c : Call) : List ClassId :=
  if c.kind.dependsOnReceiver then r.cone c.target.owner else [c.target.owner]

/-- The methods that a call may run, in the order in which they are found. -/
def resolve (r : Registry) (t : ClassTable) (c : Call) :
    Except HierarchyError (List MethodRef) := do
  let found ← (r.receivers c).mapM fun x ↦ t.dispatch x c.target.signature
  return distinct (found.filterMap fun m ↦ m)

end ProgramAnalysis.Registry
