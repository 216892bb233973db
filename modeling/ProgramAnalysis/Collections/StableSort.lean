/-!
# Stable sorting

`stableSort le` inserts the members of a list one by one, from the right, each in front of the first
member that it does not exceed. Members that compare equal therefore keep their order.
-/

namespace ProgramAnalysis

variable {α : Type}

/-- Puts `a` in front of the first member that it does not exceed. -/
def insertSorted (le : α → α → Bool) (a : α) : List α → List α
  | [] => [a]
  | b :: l => if le a b then a :: b :: l else b :: insertSorted le a l

/-- Sorts by `le`, keeping the order of members that compare equal. -/
def stableSort (le : α → α → Bool) : List α → List α
  | [] => []
  | a :: l => insertSorted le a (stableSort le l)

theorem perm_insertSorted (le : α → α → Bool) (a : α) (l : List α) :
    (insertSorted le a l).Perm (a :: l) := by
  induction l with
  | nil => exact .refl _
  | cons b l ih =>
    simp only [insertSorted]
    split
    · exact .refl _
    · exact (List.Perm.cons b ih).trans (.swap a b l)

/-- Sorting loses nothing and adds nothing. -/
theorem perm_stableSort (le : α → α → Bool) (l : List α) : (stableSort le l).Perm l := by
  induction l with
  | nil => exact .refl _
  | cons a l ih => exact (perm_insertSorted le a _).trans (ih.cons a)

@[simp] theorem mem_stableSort {le : α → α → Bool} {a : α} {l : List α} :
    a ∈ stableSort le l ↔ a ∈ l :=
  (perm_stableSort le l).mem_iff

/-! ## Order -/

section Order

variable {le : α → α → Bool} (htotal : ∀ a b, le a b = true ∨ le b a = true)
  (htrans : ∀ a b c, le a b = true → le b c = true → le a c = true)

include htotal htrans

theorem pairwise_insertSorted (a : α) {l : List α} (h : l.Pairwise fun x y ↦ le x y = true) :
    (insertSorted le a l).Pairwise fun x y ↦ le x y = true := by
  induction l with
  | nil => simp [insertSorted]
  | cons b l ih =>
    obtain ⟨hb, hl⟩ := List.pairwise_cons.mp h
    rw [insertSorted]
    split
    · rename_i hab
      refine List.pairwise_cons.mpr ⟨?_, h⟩
      intro c hc
      rcases List.mem_cons.mp hc with rfl | hc
      · exact hab
      · exact htrans a b c hab (hb c hc)
    · rename_i hab
      refine List.pairwise_cons.mpr ⟨?_, ih hl⟩
      intro c hc
      rcases List.mem_cons.mp ((perm_insertSorted le a l).mem_iff.mp hc) with rfl | hc
      · exact (htotal b c).resolve_right hab
      · exact hb c hc

/-- What comes out is in order. -/
theorem pairwise_stableSort (l : List α) :
    (stableSort le l).Pairwise fun x y ↦ le x y = true := by
  induction l with
  | nil => exact .nil
  | cons a l ih => exact pairwise_insertSorted htotal htrans a ih

end Order

end ProgramAnalysis
