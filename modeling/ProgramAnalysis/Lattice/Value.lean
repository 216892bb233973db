import ProgramAnalysis.Number.Word32

/-!
# The flat lattice of constants

What is known about the value of a variable is one of three things: nothing yet, that it is a
certain constant, or that it is not a constant. Ordered by how much has been seen, `undef` lies
below every constant and every constant below `nac`; the meet of two values is their least upper
bound in this order.

The two extreme elements carry a tag. It means nothing, but it counts when values are compared; the
library itself only forms `Value.unseen` and `Value.varying`, whose tag is zero, and constants that
are 32-bit words. Values of this form are called *canonical*.
-/

namespace ProgramAnalysis

/-- What is known about the value of a variable. -/
inductive Value where
  | undef (tag : Int)
  | constant (n : Int)
  | nac (tag : Int)
deriving DecidableEq, Repr

/-- A value that is no constant was asked for its number. -/
structure NotConstant where
  value : Value

namespace Value

/-- No value has been seen. -/
def unseen : Value := undef 0

/-- Different values have been seen, or the value cannot be known. -/
def varying : Value := nac 0

instance : Inhabited Value := ⟨unseen⟩

/-- The constant with the low 32 bits of `n`. -/
def ofInt (n : Int) : Value := constant (Word32.wrap n)

/-- Formed by `unseen`, `varying` or `ofInt`. -/
def Canonical : Value → Prop
  | undef tag => tag = 0
  | constant n => Word32.InRange n
  | nac tag => tag = 0

instance : DecidablePred Canonical
  | undef tag => inferInstanceAs (Decidable (tag = 0))
  | constant n => inferInstanceAs (Decidable (Word32.InRange n))
  | nac tag => inferInstanceAs (Decidable (tag = 0))

/-- Whether nothing has been seen. -/
def isUndef : Value → Bool
  | undef _ => true
  | _ => false

/-- Whether the value is a constant. -/
def isConstant : Value → Bool
  | constant _ => true
  | _ => false

/-- Whether the value is known not to be a constant. -/
def isNac : Value → Bool
  | nac _ => true
  | _ => false

/-- The number of a constant. -/
def constant? : Value → Option Int
  | constant n => some n
  | _ => none

/-- The number of a constant, an error for other values. -/
def number (v : Value) : Except NotConstant Int :=
  match v with
  | constant n => .ok n
  | _ => .error ⟨v⟩

/-- The value as it is written in facts. -/
def text : Value → String
  | undef _ => "UNDEF"
  | constant n => toString n
  | nac _ => "NAC"

/-- What is known of a variable that has one value on one path and another on a second path. -/
def meet : Value → Value → Value
  | nac _, _ => varying
  | _, nac _ => varying
  | undef _, w => w
  | v, undef _ => v
  | constant m, constant n => if m = n then constant m else varying

/-- The order of the lattice: `undef` below constants below `nac`. Tags do not matter. -/
def LE : Value → Value → Prop
  | undef _, _ => True
  | _, nac _ => True
  | constant m, constant n => m = n
  | _, _ => False

theorem canonical_ofInt (n : Int) : (ofInt n).Canonical := Word32.inRange_wrap n

theorem canonical_unseen : unseen.Canonical := rfl

theorem canonical_varying : varying.Canonical := rfl

theorem canonical_meet {v w : Value} (hv : v.Canonical) (hw : w.Canonical) :
    (v.meet w).Canonical := by
  unfold meet
  split
  · exact canonical_varying
  · exact canonical_varying
  · exact hw
  · exact hv
  · split
    · exact hv
    · exact canonical_varying

end Value

/-- The wording of an error. -/
def NotConstant.message (e : NotConstant) : String := e.value.text ++ " is not a constant"

end ProgramAnalysis
