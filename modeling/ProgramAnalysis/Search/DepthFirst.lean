/-!
# Depth-first search and reverse postorder

A depth-first search visits a member, then, one after the other, those of its neighbours that have
not been visited by the time their turn comes, and then *finishes* the member. Listing members from
the last one finished to the first gives a reverse postorder: along an edge that lies on no cycle,
the source stands before the target.

The recursion is bounded by the number of members: every call that visits something is inside the
visits of distinct members.
-/

namespace ProgramAnalysis.DepthFirst

variable {α : Type} [DecidableEq α]

/-- The progress of a search: the visited members, and the finished ones, the latest in front. -/
structure Progress (α : Type) where
  visited : List α := []
  finished : List α := []

/-- Visits `a` and all that hangs below it, unless `a` has been visited before. -/
def visit (next : α → List α) : Nat → Progress α → α → Progress α
  | 0, p, _ => p
  | fuel + 1, p, a =>
    if a ∈ p.visited then p
    else
      let below := (next a).foldl (visit next fuel) { p with visited := a :: p.visited }
      { below with finished := a :: below.finished }

/-- A reverse postorder of all that hangs below `roots`, searched from each root in turn. It is
complete if `roots` lists every member. -/
def reversePostorder (next : α → List α) (roots : List α) : List α :=
  (roots.foldl (visit next roots.length) {}).finished

end ProgramAnalysis.DepthFirst
