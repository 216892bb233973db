import ProgramAnalysis.Config.Setting

/-!
# Settings as JSON

Settings are exchanged in the notation of JSON. A number with a point or an exponent is a
floating-point number, any other an integer of whatever size, and the fields of a record keep their
order. Beyond the standard, the numbers that are not finite have names.

The reader gives every value at most as many steps as the text has characters. Commas count as
blanks for it, and it stops behind the first value. A strategy is written as its name and a
configuration as a record; what is read is never one of the two.
-/

namespace ProgramAnalysis.Setting

namespace Json

/-! ## Reading -/

/-- The value of a hexadecimal digit. -/
def hexValue (c : Char) : Nat :=
  let n := c.toNat
  if n ≤ 57 then n - 48 else if n ≤ 70 then n - 55 else n - 87

/-- The value of the first four hexadecimal digits. -/
def hex4 (l : List Char) : Nat := (l.take 4).foldl (fun n c ↦ 16 * n + hexValue c) 0

/-- The character that a letter stands for behind a backslash. -/
def unescape : Char → Char
  | 'n' => '\n'
  | 't' => '\t'
  | 'r' => '\r'
  | 'b' => '\x08'
  | 'f' => '\x0c'
  | c => c

/-- The character of a code unit, and of a pair of surrogates; a surrogate alone is replaced. -/
def decodeUnits (n : Nat) (l : List Char) : Char × List Char :=
  if n < 0xD800 ∨ 0xE000 ≤ n then (Char.ofNat n, l)
  else
    match l with
    | '\\' :: 'u' :: r =>
      let m := hex4 r
      if n < 0xDC00 ∧ 0xDC00 ≤ m ∧ m < 0xE000 then
        (Char.ofNat (0x10000 + (n - 0xD800) * 1024 + (m - 0xDC00)), r.drop 4)
      else (Char.ofNat 0xFFFD, l)
    | _ => (Char.ofNat 0xFFFD, l)

/-- The rest of a text up to its closing quote, and what follows. -/
def readText : (fuel : Nat) → List Char → Option (List Char × List Char)
  | 0, _ => none
  | _ + 1, [] => none
  | _ + 1, '"' :: l => some ([], l)
  | fuel + 1, '\\' :: 'u' :: l =>
    let (c, rest) := decodeUnits (hex4 l) (l.drop 4)
    (readText fuel rest).map fun r ↦ (c :: r.1, r.2)
  | fuel + 1, '\\' :: c :: l => (readText fuel l).map fun r ↦ (unescape c :: r.1, r.2)
  | fuel + 1, c :: l => (readText fuel l).map fun r ↦ (c :: r.1, r.2)

/-- The number that a list of digits denotes. -/
def natural (l : List Char) : Nat := l.foldl (fun n c ↦ 10 * n + (c.toNat - 48)) 0

/-- The number that digits behind an optional sign denote. -/
def integer : List Char → Int
  | '-' :: l => -(natural l : Int)
  | '+' :: l => natural l
  | l => natural l

/-- Whether a character marks an exponent. -/
def isExponentMark (c : Char) : Bool := c = 'e' || c = 'E'

/-- The number that a text denotes. -/
def readNumber (l : List Char) : Setting :=
  if l.any fun c ↦ c = '.' || isExponentMark c then
    let negative := l.head? = some '-'
    let body := if negative then l.drop 1 else l
    let mantissa := body.takeWhile fun c ↦ !isExponentMark c
    let fraction := (mantissa.dropWhile (· ≠ '.')).drop 1
    let exponent := integer ((body.dropWhile fun c ↦ !isExponentMark c).drop 1) - fraction.length
    let x := Float.ofScientific (natural (mantissa.filter (· ≠ '.'))) (decide (exponent < 0))
      exponent.natAbs
    .real (.ofFloat (if negative then -x else x))
  else .int (integer l)

/-- Blanks, and what separates items. -/
def isSeparator (c : Char) : Bool := c.toNat ≤ 32 || c = ',' || c = ':'

/-- Whether a character can be part of a number. -/
def isNumberPart (c : Char) : Bool := c.isDigit || c ∈ ['+', '-', '.', 'e', 'E']

mutual

/-- The value at the beginning of a text, and what follows. -/
def readValue : (fuel : Nat) → List Char → Option (Setting × List Char)
  | 0, _ => none
  | fuel + 1, l =>
    match l.dropWhile isSeparator with
    | 'n' :: 'u' :: 'l' :: 'l' :: l => some (.null, l)
    | 't' :: 'r' :: 'u' :: 'e' :: l => some (.bool true, l)
    | 'f' :: 'a' :: 'l' :: 's' :: 'e' :: l => some (.bool false, l)
    | 'N' :: 'a' :: 'N' :: l => some (.real .nan, l)
    | 'I' :: 'n' :: 'f' :: l => some (.real (.infinite false), l.drop 5)
    | '-' :: 'I' :: 'n' :: 'f' :: l => some (.real (.infinite true), l.drop 5)
    | '"' :: l => (readText fuel l).map fun r ↦ (.text (String.ofList r.1), r.2)
    | '[' :: l => (readItems fuel l).map fun r ↦ (.list r.1, r.2)
    | '\x7b' :: l => (readFields fuel l).map fun r ↦ (.record r.1, r.2)
    | l =>
      let digits := l.takeWhile isNumberPart
      if digits.isEmpty then none else some (readNumber digits, l.dropWhile isNumberPart)

/-- The items of a list up to its closing bracket, and what follows. -/
def readItems : (fuel : Nat) → List Char → Option (List Setting × List Char)
  | 0, _ => none
  | fuel + 1, l =>
    match l.dropWhile isSeparator with
    | ']' :: l => some ([], l)
    | l => do
      let (s, l) ← readValue fuel l
      let (rest, l) ← readItems fuel l
      return (s :: rest, l)

/-- The fields of a record up to its closing bracket, and what follows. -/
def readFields : (fuel : Nat) → List Char → Option (List (String × Setting) × List Char)
  | 0, _ => none
  | fuel + 1, l =>
    match l.dropWhile isSeparator with
    | '\x7d' :: l => some ([], l)
    | '"' :: l => do
      let (key, l) ← readText fuel l
      let (s, l) ← readValue fuel l
      let (rest, l) ← readFields fuel l
      return ((String.ofList key, s) :: rest, l)
    | _ => none

end

/-! ## Writing -/

/-- How a character is written inside a text. -/
def escape (c : Char) : List Char :=
  if c = '"' ∨ c = '\\' then ['\\', c]
  else if c.toNat < 32 then '\\' :: 'u' :: Text.hexDigits 4 c.toNat
  else [c]

/-- A text between quotes. -/
def writeText (s : String) : String := "\"" ++ String.ofList (s.toList.flatMap escape) ++ "\""

mutual

/-- The text of a setting. -/
def write : Setting → String
  | .null => "null"
  | .bool true => "true"
  | .bool false => "false"
  | .int n => toString n
  | .real x => realLayout.text x
  | .text s => writeText s
  | .list l => "[" ++ ",".intercalate (writeItems l) ++ "]"
  | .record l => "\x7b" ++ ",".intercalate (writeFields l) ++ "\x7d"
  | .strategy s => writeText s.text
  | .configuration id l =>
    "\x7b" ++ writeText "id" ++ ":" ++ writeText id ++ "," ++ writeText "options" ++ ":\x7b" ++
      ",".intercalate (writeFields l) ++ "\x7d\x7d"

/-- The texts of the items of a list. -/
def writeItems : List Setting → List String
  | [] => []
  | s :: l => write s :: writeItems l

/-- The texts of the fields of a record. -/
def writeFields : List (String × Setting) → List String
  | [] => []
  | (key, s) :: l => (writeText key ++ ":" ++ write s) :: writeFields l

end

end Json

/-- The setting that a text in JSON notation denotes. -/
def ofJson? (s : String) : Option Setting :=
  (Json.readValue (s.length + 1) s.toList).map Prod.fst

/-- The setting in JSON notation. -/
def toJson (s : Setting) : String := Json.write s

end ProgramAnalysis.Setting
