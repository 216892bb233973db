/-!
# Laying out text

The small pieces from which listings and graph drawings are made.
-/

namespace ProgramAnalysis.Text

/-- The text followed by as many spaces as bring it to `width` characters. -/
def padRight (width : Nat) (s : String) : String :=
  s ++ String.ofList (List.replicate (width - s.length) ' ')

/-- A text with every double quote behind a backslash, as it stands inside a quoted label. -/
def escapeDoubleQuotes (s : String) : String :=
  String.ofList (s.toList.flatMap fun c ↦ if c = '"' then ['\\', '"'] else [c])

end ProgramAnalysis.Text
