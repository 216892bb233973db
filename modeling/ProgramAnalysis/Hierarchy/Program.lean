import ProgramAnalysis.Hierarchy.Registry

/-!
# Programs

A program is a hierarchy of classes together with the method where it starts, whose class has to be
registered.
-/

namespace ProgramAnalysis

/-- A hierarchy of classes and the method where the program starts. -/
structure Program where
  registry : Registry
  main : MethodRef

namespace Program

/-- The program that starts with a method of a registered class. -/
def startingWith (registry : Registry) (main : MethodRef) : Except HierarchyError Program :=
  if registry.contains main.owner then .ok ⟨registry, main⟩ else .error (.entryOutside main)

/-- The methods that the registered classes declare. -/
def allMethods (p : Program) (t : ClassTable) : List MethodRef := p.registry.all.flatMap t.methodsOf

/-- The program in a short form. -/
def shown (p : Program) : String :=
  "Program(main=" ++ p.main.text ++ ", " ++ p.registry.shown ++ ")"

end Program

end ProgramAnalysis
