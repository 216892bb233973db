import ProgramAnalysis.Text.Blank
import ProgramAnalysis.Text.Digit

/-!
# Reading integers

An integer is written as an optional sign and then digits of any script, among which a single
underscore may stand between two digits. White space around it is ignored. Numerals of more than
4300 digits are refused.
-/

namespace ProgramAnalysis.Numeral

/-- The most digits that a numeral may have. -/
def digitLimit : Nat := 4300

/-- The digits of a numeral without a sign. The flag says whether an underscore may follow, that
is, whether a digit has just been read. -/
def digits? : Bool → List Char → Option (List Nat)
  | afterDigit, [] => if afterDigit then some [] else none
  | afterDigit, c :: l =>
    if c = '_' then
      if afterDigit then digits? false l else none
    else
      match Text.digit? c with
      | some d => (digits? true l).map (d :: ·)
      | none => none

/-- The number that a list of decimal digits denotes. -/
def ofDigits (l : List Nat) : Nat := l.foldl (fun n d ↦ 10 * n + d) 0

/-- The natural number that a numeral without a sign denotes. -/
def natural? (l : List Char) : Option Nat :=
  (digits? false l).bind fun ds ↦ if ds.length ≤ digitLimit then some (ofDigits ds) else none

/-- The integer that a text denotes, if it is the numeral of one. -/
def integer? (s : String) : Option Int :=
  match Text.trim Text.isWhiteSpace s.toList with
  | '-' :: l => (natural? l).map fun n ↦ -(n : Int)
  | '+' :: l => (natural? l).map fun n ↦ (n : Int)
  | l => (natural? l).map fun n ↦ (n : Int)

end ProgramAnalysis.Numeral
