/-!
# Blank characters

Two classes of blank characters are in use: the white space of Unicode, and the slightly larger
class that also counts the four information separators of ASCII.
-/

namespace ProgramAnalysis.Text

/-- White space: the characters with the Unicode property `White_Space`. -/
def isWhiteSpace (c : Char) : Bool :=
  let n := c.toNat
  (9 ≤ n && n ≤ 13) || n == 0x20 || n == 0x85 || n == 0xA0 || n == 0x1680 ||
    (0x2000 ≤ n && n ≤ 0x200A) || n == 0x2028 || n == 0x2029 || n == 0x202F || n == 0x205F ||
    n == 0x3000

/-- White space, and the information separators `U+001C` to `U+001F`. -/
def isBlank (c : Char) : Bool := isWhiteSpace c || (0x1C ≤ c.toNat && c.toNat ≤ 0x1F)

/-- Drops the characters of a class from both ends. -/
def trim (p : Char → Bool) (l : List Char) : List Char :=
  ((l.dropWhile p).reverse.dropWhile p).reverse

theorem isBlank_of_isWhiteSpace {c : Char} (h : isWhiteSpace c = true) : isBlank c = true := by
  simp [isBlank, h]

example : isWhiteSpace '\n' && isWhiteSpace ' ' && !isWhiteSpace '\x1c' && isBlank '\x1c' := by
  decide

end ProgramAnalysis.Text
