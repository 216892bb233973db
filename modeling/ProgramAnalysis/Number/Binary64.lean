/-!
# Floating-point numbers as exact values

A double-precision number is taken apart into what it denotes: a sign and a natural number times a
power of two, or one of the values that are not finite. Nothing here computes in floating point.
-/

namespace ProgramAnalysis

/-- The value of a double-precision number. -/
inductive Binary64 where
  | finite (negative : Bool) (significand : Nat) (exponent : Int)
  | infinite (negative : Bool)
  | nan
deriving DecidableEq, Repr

namespace Binary64

/-- The leading bit of a significand that is not the smallest, the 53rd, which is not stored. -/
def hiddenBit : Nat := 1 <<< 52

/-- The number that a bit pattern encodes: one bit of sign, 11 of exponent, 52 of significand. -/
def ofBits (bits : Nat) : Binary64 :=
  let negative := (bits >>> 63) % 2 == 1
  let exponent : Nat := (bits >>> 52) % 2048
  let fraction : Nat := bits % hiddenBit
  if exponent = 2047 then
    if fraction = 0 then .infinite negative else .nan
  else if exponent = 0 then .finite negative fraction (-1074)
  else .finite negative (fraction + hiddenBit) (exponent - 1075)

/-- The value of a machine number. -/
def ofFloat (x : Float) : Binary64 := ofBits x.toBits.toNat

/-- Zero, of either sign. -/
def isZero : Binary64 → Bool
  | finite _ m _ => m == 0
  | _ => false

/-- The natural number `m * 2 ^ e`, without its fraction. -/
private def floorShift (m : Nat) (e : Int) : Nat :=
  if 0 ≤ e then m <<< e.toNat else m >>> (-e).toNat

/-- The integer next to a finite number on the side of zero. -/
def truncate? : Binary64 → Option Int
  | finite negative m e =>
    let n : Int := floorShift m e
    some (if negative then -n else n)
  | _ => none

end Binary64

end ProgramAnalysis
