/-!
# Breadth-first search

A search keeps the members that it has expanded, in order, and a queue of members that it has
discovered and not yet expanded. A member is recognised by its key, and discovered at most once:
when it enters the queue. Expanded members and queue together are therefore the order of discovery,
and they are what the search answers with.

A second search lets members into the queue as often as they come up, and passes over those whose
keys it has visited when it takes them off. It visits what the first one discovers, in the same
order.

The number of expansions is bounded by an argument, since `next` is an arbitrary function. A caller
that knows a finite universe passes its size: every expansion takes one more member of it.
-/

namespace ProgramAnalysis.BreadthFirst

variable {α κ : Type} [DecidableEq κ]

/-- The members of a list whose keys are not among those of `seen`, each key at its first
occurrence. -/
def fresh (key : α → κ) (seen : List α) : List α → List α
  | [] => []
  | a :: l =>
    if key a ∈ seen.map key then fresh key seen l else a :: fresh key (seen ++ [a]) l

/-- Expands the queue from its head, at most `fuel` times, and lists all discovered members. -/
def explore (key : α → κ) (next : α → List α) : Nat → List α → List α → List α
  | 0, expanded, queue => expanded ++ queue
  | _ + 1, expanded, [] => expanded
  | fuel + 1, expanded, a :: queue =>
    explore key next fuel (expanded ++ [a])
      (queue ++ fresh key (expanded ++ a :: queue) (next a))

/-- What can be reached from `start`, in the order of discovery. -/
def reach (key : α → κ) (next : α → List α) (fuel : Nat) (start : α) : List α :=
  explore key next fuel [] [start]

/-- Visits the queue from its head, at most `fuel` times, and lists all members that are visited or
would be visited next. A member whose key has been visited is passed over. -/
def visit (key : α → κ) (next : α → List α) : Nat → List α → List α → List α
  | 0, visited, queue => visited ++ fresh key visited queue
  | fuel + 1, visited, queue =>
    match queue.dropWhile fun a ↦ key a ∈ visited.map key with
    | [] => visited
    | a :: queue => visit key next fuel (visited ++ [a]) (queue ++ next a)

/-- What can be reached from `start`, in the order of the visits. -/
def visits (key : α → κ) (next : α → List α) (fuel : Nat) (start : α) : List α :=
  visit key next fuel [] [start]

/-! ## Keys are met once -/

theorem nodup_append_fresh (key : α → κ) (l seen : List α) (h : (seen.map key).Nodup) :
    ((seen ++ fresh key seen l).map key).Nodup := by
  induction l generalizing seen with
  | nil => simpa [fresh] using h
  | cons a l ih =>
    by_cases ha : key a ∈ seen.map key
    · simpa only [fresh, ha, if_true] using ih seen h
    · have h' : ((seen ++ [a]).map key).Nodup := by
        rw [List.map_append, List.nodup_append]
        refine ⟨h, by simp, ?_⟩
        rintro x hx y hy rfl
        exact ha (List.mem_singleton.mp hy ▸ hx)
      simpa only [fresh, ha, if_false, List.append_assoc, List.singleton_append]
        using ih (seen ++ [a]) h'

theorem nodup_explore (key : α → κ) (next : α → List α) (fuel : Nat) (expanded queue : List α)
    (h : ((expanded ++ queue).map key).Nodup) :
    ((explore key next fuel expanded queue).map key).Nodup := by
  induction fuel generalizing expanded queue with
  | zero => exact h
  | succ fuel ih =>
    cases queue with
    | nil => simpa [explore] using h
    | cons a queue =>
      apply ih
      simpa [List.append_assoc] using nodup_append_fresh key (next a) _ h

/-- No key is listed twice. -/
theorem nodup_reach (key : α → κ) (next : α → List α) (fuel : Nat) (start : α) :
    ((reach key next fuel start).map key).Nodup :=
  nodup_explore key next fuel [] [start] (by simp)

end ProgramAnalysis.BreadthFirst
