/-!
# Keeping first occurrences

`distinct l` lists the members of `l` once each, in the order of their first occurrence. Successor
lists, callee lists and call-site lists are all views of edge lists in which one end may repeat, and
all of them are shown in the order in which the ends were first met.
-/

namespace ProgramAnalysis

variable {α : Type} [DecidableEq α]

/-- The members of a list, each at its first occurrence only. -/
def distinct : List α → List α
  | [] => []
  | a :: l => a :: (distinct l).filter (· ≠ a)

@[simp] theorem distinct_nil : distinct ([] : List α) = [] := rfl

@[simp] theorem mem_distinct {a : α} {l : List α} : a ∈ distinct l ↔ a ∈ l := by
  induction l with
  | nil => simp
  | cons b l ih =>
    by_cases h : a = b
    · simp [distinct, h]
    · simp [distinct, h, ih]

theorem nodup_distinct (l : List α) : (distinct l).Nodup := by
  induction l with
  | nil => simp
  | cons b l ih =>
    rw [distinct, List.nodup_cons]
    exact ⟨by simp, ih.filter _⟩

theorem distinct_sublist (l : List α) : (distinct l).Sublist l := by
  induction l with
  | nil => exact List.Sublist.refl _
  | cons b l ih => exact (List.filter_sublist.trans ih).cons_cons b

/-- A further member goes to the end if it has not been met before. -/
theorem distinct_concat (l : List α) (a : α) :
    distinct (l ++ [a]) = if a ∈ distinct l then distinct l else distinct l ++ [a] := by
  induction l with
  | nil => rfl
  | cons b l ih =>
    rw [List.cons_append, distinct, distinct, ih]
    by_cases hab : a = b
    · subst hab
      split <;> simp
    · have hmem : a ∈ b :: (distinct l).filter (· ≠ b) ↔ a ∈ distinct l := by simp [hab]
      simp only [hmem]
      split <;> simp [hab]

end ProgramAnalysis
