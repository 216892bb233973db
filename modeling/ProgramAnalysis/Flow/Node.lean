import ProgramAnalysis.Code.Stmt

/-!
# Nodes of flow graphs

The nodes of a flow graph are the statements of a body, each named by its index, between two nodes
of their own: the entry, with index `-1`, and the exit, whose index is the number of statements.

A detached node is a statement outside every graph. It can be asked for like any other node, and it
is what an edge or a query that does not fit its graph refers to.
-/

namespace ProgramAnalysis

/-- A node of a flow graph, or a statement outside. -/
inductive Node where
  | entry
  | stmt (index : Nat)
  | exit (index : Nat)
  | detached (serial : Nat) (s : Stmt)
deriving DecidableEq, Repr

namespace Node

/-- The place of a node in the order of the statements; nodes outside stand where the entry does. -/
def index : Node → Int
  | entry => -1
  | stmt i => i
  | exit i => i
  | detached _ _ => -1

/-- Whether the node is the entry. -/
def isEntry : Node → Bool
  | entry => true
  | _ => false

/-- Whether the node is the exit. -/
def isExit : Node → Bool
  | exit _ => true
  | _ => false

end Node

end ProgramAnalysis
