import ProgramAnalysis.Code.Ty
import ProgramAnalysis.Collections.Rebinding
import ProgramAnalysis.Lattice.Value

/-!
# Facts about constants

A fact binds variables to values. A variable that is not bound counts as `unseen`, and binding a
variable to an undefined value unbinds it, so that the facts which arise from the empty one never
store an undefined value. A fact that is given as a list of bindings may store some; they are kept
until the variable is bound again.
-/

namespace ProgramAnalysis

/-- What is known about the values of variables at one point of a program. -/
structure ConstFact where
  bindings : OrderedMap Var Value

namespace ConstFact

/-- The fact that knows nothing. -/
def empty : ConstFact := ⟨∅⟩

instance : EmptyCollection ConstFact := ⟨empty⟩

instance : Inhabited ConstFact := ⟨empty⟩

/-- The fact with the bindings of a list, of which a later one overrides an earlier one. -/
def ofList (l : List (Var × Value)) : ConstFact := ⟨.ofList l⟩

/-- The value of a variable. -/
def get (f : ConstFact) (x : Var) : Value := f.bindings.findD x .unseen

/-- Unbinds a variable, and answers with the value that it had. -/
def remove (f : ConstFact) (x : Var) : Option Value × ConstFact :=
  (f.bindings.find? x, ⟨f.bindings.erase x⟩)

/-- Binds a variable, or unbinds it if the value is undefined. -/
def update (f : ConstFact) (x : Var) (v : Value) : Bool × ConstFact :=
  if v.isUndef then (f.bindings.contains x, ⟨f.bindings.erase x⟩)
  else (decide (f.bindings.find? x ≠ some v), ⟨f.bindings.insert x v⟩)

/-- Takes over all bindings of another fact. -/
def copyFrom (f g : ConstFact) : Bool × ConstFact :=
  reportAll (fun f e ↦ f.update e.1 e.2) f g.bindings.entries

/-- Becomes a copy of another fact, unless both have the same bindings. -/
def replaceWith (f g : ConstFact) : Bool × ConstFact :=
  let r := f.bindings.replaceWith g.bindings
  (r.1, ⟨r.2⟩)

/-- Whether two facts have the same bindings. -/
def same (f g : ConstFact) : Bool := f.bindings.sameBindings g.bindings

/-- Meets every binding of `f` with the value of the same variable in `target`. -/
def meetInto (f target : ConstFact) : ConstFact :=
  f.bindings.entries.foldl (fun t e ↦ (t.update e.1 (e.2.meet (t.get e.1))).2) target

end ConstFact

/-- The bindings of a map from variables to values, as they are written in listings. -/
def bindingsText (m : OrderedMap Var Value) : String :=
  "\x7b" ++ ", ".intercalate (m.entries.map fun e ↦ e.1.name ++ "=" ++ e.2.text) ++ "\x7d"

end ProgramAnalysis
