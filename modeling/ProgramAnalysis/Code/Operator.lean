import ProgramAnalysis.Number.Word32
import ProgramAnalysis.Text.Quoted

/-!
# Binary operators and their arithmetic

The binary operators come in four families. Their arithmetic is that of signed 32-bit words: the
operation is carried out on integers and the result wrapped. Division truncates towards zero, the
remainder takes the sign of the dividend, a comparison yields one or zero, and a shift distance
counts modulo 32. Neither division nor remainder is defined for the divisor zero.
-/

namespace ProgramAnalysis

/-- The four families of binary operators. -/
inductive Family where
  | arithmetic | bitwise | condition | shift
deriving DecidableEq, Repr

/-- The name of a family, as it is part of the names of its expressions and of its operators. -/
def Family.title : Family → String
  | arithmetic => "Arithmetic"
  | bitwise => "Bitwise"
  | condition => "Condition"
  | shift => "Shift"

/-- The binary operators. -/
inductive Operator where
  | add | sub | mul | div | rem
  | or | and | xor
  | eq | ne | lt | gt | le | ge
  | shl | shr | ushr
deriving DecidableEq, Repr

namespace Operator

/-- All operators, family by family. -/
def all : List Operator :=
  [add, sub, mul, div, rem, or, and, xor, eq, ne, lt, gt, le, ge, shl, shr, ushr]

/-- The family to which an operator belongs. -/
def family : Operator → Family
  | add | sub | mul | div | rem => .arithmetic
  | or | and | xor => .bitwise
  | eq | ne | lt | gt | le | ge => .condition
  | shl | shr | ushr => .shift

/-- The operator as it is written between its operands. -/
def symbol : Operator → String
  | add => "+"
  | sub => "-"
  | mul => "*"
  | div => "/"
  | rem => "%"
  | or => "|"
  | and => "&"
  | xor => "^"
  | eq => "=="
  | ne => "!="
  | lt => "<"
  | gt => ">"
  | le => "<="
  | ge => ">="
  | shl => "<<"
  | shr => ">>"
  | ushr => ">>>"

/-- The name of the operator in error messages. -/
def name : Operator → String
  | add => "ADD"
  | sub => "SUB"
  | mul => "MUL"
  | div => "DIV"
  | rem => "REM"
  | or => "OR"
  | and => "AND"
  | xor => "XOR"
  | eq => "EQ"
  | ne => "NE"
  | lt => "LT"
  | gt => "GT"
  | le => "LE"
  | ge => "GE"
  | shl => "SHL"
  | shr => "SHR"
  | ushr => "USHR"

/-- The operator of a symbol; no symbol is shared between families. -/
def ofSymbol? (s : String) : Option Operator := all.find? fun op ↦ op.symbol == s

/-- Whether the operator traps on a right operand of zero. -/
def divides : Operator → Bool
  | div | rem => true
  | _ => false

/-- One for a comparison that holds and zero for one that does not. -/
def truth (p : Prop) [Decidable p] : Int := if p then 1 else 0

/-- The quotient rounded towards zero: that of the absolute values, with its sign changed if exactly
one of the numbers is negative. -/
def quotient (a b : Int) : Int :=
  let q : Int := (a.natAbs / b.natAbs : Nat)
  if decide (a < 0) ≠ decide (b < 0) then -q else q

/-- What the quotient leaves of the dividend. -/
def remainder (a b : Int) : Int := a - b * quotient a b

theorem quotient_eq_tdiv (a b : Int) : quotient a b = a.tdiv b := by
  rw [quotient]
  cases a with
  | ofNat m =>
    cases b with
    | ofNat n =>
      rw [if_neg (by simp [Int.not_lt.mpr (Int.natCast_nonneg _)])]
      rfl
    | negSucc n =>
      rw [if_pos (by simp [Int.negSucc_lt_zero])]
      rfl
  | negSucc m =>
    cases b with
    | ofNat n =>
      rw [if_pos (by simp [Int.negSucc_lt_zero])]
      rfl
    | negSucc n =>
      rw [if_neg (by simp [Int.negSucc_lt_zero])]
      rfl

theorem remainder_eq_tmod (a b : Int) : remainder a b = a.tmod b := by
  rw [remainder, quotient_eq_tdiv, Int.tmod_def]

/-- The number of places by which a shift moves: the low five bits of the right operand. -/
def distance (b : Int) : Nat := (Bitwise.and b 0x1F).toNat

theorem distance_eq_emod (b : Int) : distance b = (b % 32).toNat :=
  congrArg Int.toNat (Bitwise.and_ones b 5)

/-- The operation on integers of unbounded width. A logical shift to the right begins with the low
32 bits, taken as a number that is not negative. -/
def onInt : Operator → Int → Int → Int
  | add, a, b => a + b
  | sub, a, b => a - b
  | mul, a, b => a * b
  | div, a, b => quotient a b
  | rem, a, b => remainder a b
  | or, a, b => Bitwise.or a b
  | and, a, b => Bitwise.and a b
  | xor, a, b => Bitwise.xor a b
  | eq, a, b => truth (a = b)
  | ne, a, b => truth (a ≠ b)
  | lt, a, b => truth (a < b)
  | gt, a, b => truth (a > b)
  | le, a, b => truth (a ≤ b)
  | ge, a, b => truth (a ≥ b)
  | shl, a, b => a <<< distance b
  | shr, a, b => a >>> distance b
  | ushr, a, b => Bitwise.and a 0xFFFFFFFF >>> distance b

/-- The operation on words, or `none` where it traps. -/
def fold? (op : Operator) (a b : Int) : Option Int :=
  if op.divides ∧ b = 0 then none else some (Word32.wrap (op.onInt a b))

theorem fold?_eq_none_iff {op : Operator} {a b : Int} :
    op.fold? a b = none ↔ op.divides = true ∧ b = 0 := by
  unfold fold?
  split <;> simp_all

/-- An operation on words yields a word. -/
theorem inRange_of_fold?_eq_some {op : Operator} {a b c : Int} (h : op.fold? a b = some c) :
    Word32.InRange c := by
  unfold fold? at h
  split at h
  · simp at h
  · exact Option.some.inj h ▸ Word32.inRange_wrap _

end Operator

/-- What stands in an operator's place when an expression is put together: an operator, or a symbol
that denotes none. -/
inductive OperatorSign where
  | known (op : Operator)
  | unknown (symbol : String)
deriving DecidableEq, Repr

/-- What a symbol denotes. -/
def OperatorSign.ofSymbol (s : String) : OperatorSign :=
  match Operator.ofSymbol? s with
  | some op => .known op
  | none => .unknown s

/-- The sign as it appears in error messages. -/
def OperatorSign.shown : OperatorSign → String
  | known op => "<" ++ op.family.title ++ "Op." ++ op.name ++ ": " ++ Text.quoted op.symbol ++ ">"
  | unknown symbol => Text.quoted symbol

end ProgramAnalysis
