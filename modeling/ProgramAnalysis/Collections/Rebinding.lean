import ProgramAnalysis.Collections.OrderedMap
import ProgramAnalysis.Collections.Report

/-!
# Changes to a map, with a report

Rebinding a key to the value that it has already is no change, and neither is replacing a map by one
with the same bindings in another order.
-/

namespace ProgramAnalysis.OrderedMap

variable {κ α : Type} [DecidableEq κ] [DecidableEq α]

/-- Binds `k` to `v`. -/
def rebind (m : OrderedMap κ α) (k : κ) (v : α) : Bool × OrderedMap κ α :=
  if m.find? k = some v then (false, m) else (true, m.insert k v)

/-- Takes over all bindings of another map. -/
def copyFrom (m n : OrderedMap κ α) : Bool × OrderedMap κ α :=
  reportAll (fun m e ↦ m.rebind e.1 e.2) m n.entries

/-- Becomes a copy of another map, unless both already have the same bindings: then even the order
stays. -/
def replaceWith (m n : OrderedMap κ α) : Bool × OrderedMap κ α :=
  if m.sameBindings n then (false, m) else (true, n)

end ProgramAnalysis.OrderedMap
