import ProgramAnalysis.Config.Strategy
import ProgramAnalysis.Flow.Node

/-!
# Worklists

A worklist holds the nodes that have yet to be processed, each once, in the order in which they will
be. The strategy shows only when a node is put in: behind all others, in front of all others, or by
its rank. A node that is pending already keeps its place.
-/

namespace ProgramAnalysis

/-- The pending nodes of an iteration, each with the rank that it had when it was put in. -/
structure Worklist where
  strategy : Strategy
  rank : Node → Nat
  pending : List (Nat × Node) := []

namespace Worklist

/-- Puts a node of rank `r` in front of the first node of a greater rank. -/
def insertByRank (r : Nat) (n : Node) : List (Nat × Node) → List (Nat × Node)
  | [] => [(r, n)]
  | e :: l => if r < e.1 then (r, n) :: e :: l else e :: insertByRank r n l

/-- Whether a node is pending. -/
def contains (w : Worklist) (n : Node) : Bool := w.pending.any fun e ↦ e.2 = n

/-- Puts a node in, unless it is pending. -/
def push (w : Worklist) (n : Node) : Worklist :=
  if w.contains n then w
  else { w with
    pending := match w.strategy with
      | .fifo => w.pending ++ [(0, n)]
      | .lifo => (0, n) :: w.pending
      | .rpo => insertByRank (w.rank n) n w.pending }

/-- Puts the nodes of a list in, one after the other. -/
def pushAll (w : Worklist) (l : List Node) : Worklist := l.foldl push w

/-- The node to be processed next, and the worklist without it. -/
def pop? (w : Worklist) : Option (Node × Worklist) :=
  match w.pending with
  | [] => none
  | e :: l => some (e.2, { w with pending := l })

end Worklist

end ProgramAnalysis
