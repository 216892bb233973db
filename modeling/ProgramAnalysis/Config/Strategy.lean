/-!
# Strategies

An iteration processes pending nodes in one of three orders: the oldest first, the latest first, or
the one that comes first in a reverse postorder.
-/

namespace ProgramAnalysis

/-- The order in which pending nodes are processed. -/
inductive Strategy where
  | fifo | lifo | rpo
deriving DecidableEq, Repr

namespace Strategy

/-- All strategies. -/
def all : List Strategy := [fifo, lifo, rpo]

/-- The name of a strategy. -/
def text : Strategy → String
  | fifo => "fifo"
  | lifo => "lifo"
  | rpo => "rpo"

/-- The name of a strategy among the names of all kinds. -/
def qualified (s : Strategy) : String := "WorklistStrategy." ++ s.text.toUpper

end Strategy

end ProgramAnalysis
