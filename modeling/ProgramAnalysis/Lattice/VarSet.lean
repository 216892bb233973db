import ProgramAnalysis.Code.Ty
import ProgramAnalysis.Collections.Distinct
import ProgramAnalysis.Collections.Report
import ProgramAnalysis.Collections.StableSort

/-!
# Sets of variables

A set of variables is a list without repetitions whose order means nothing; it is shown in the order
of the variables' names. The operations that an iteration uses report whether they changed the set.
-/

namespace ProgramAnalysis

/-- A finite set of variables. -/
structure VarSet where
  members : List Var
  nodup_members : members.Nodup

namespace VarSet

/-- The empty set. -/
def empty : VarSet := ⟨[], by simp⟩

instance : EmptyCollection VarSet := ⟨empty⟩

instance : Inhabited VarSet := ⟨empty⟩

/-- The set of the members of a list. -/
def ofList (l : List Var) : VarSet := ⟨distinct l, nodup_distinct l⟩

instance : Membership Var VarSet := ⟨fun s x ↦ x ∈ s.members⟩

instance (x : Var) (s : VarSet) : Decidable (x ∈ s) := inferInstanceAs (Decidable (x ∈ s.members))

/-- The number of members. -/
def size (s : VarSet) : Nat := s.members.length

/-- Adds a member. -/
def insert (s : VarSet) (x : Var) : Bool × VarSet :=
  if h : x ∈ s.members then (false, s)
  else (true, ⟨x :: s.members, List.nodup_cons.mpr ⟨h, s.nodup_members⟩⟩)

/-- Removes a member. -/
def erase (s : VarSet) (x : Var) : Bool × VarSet :=
  (decide (x ∈ s), ⟨s.members.erase x, s.nodup_members.erase x⟩)

/-- Adds the members of another set. -/
def union (s t : VarSet) : Bool × VarSet :=
  reportAll insert s t.members

/-- Whether two sets have the same members. -/
def same (s t : VarSet) : Bool := s.size == t.size && s.members.all fun x ↦ decide (x ∈ t)

/-- Becomes a copy of another set, unless both have the same members. -/
def copyFrom (s t : VarSet) : Bool × VarSet := if s.same t then (false, s) else (true, t)

/-- The set as it is written in listings. -/
def text (s : VarSet) : String :=
  let names := stableSort (fun a b ↦ decide (a ≤ b)) (s.members.map Var.name)
  "\x7b" ++ ", ".intercalate names ++ "\x7d"

/-! ## Members after each operation -/

@[simp] theorem not_mem_empty (x : Var) : x ∉ (∅ : VarSet) := by
  intro h
  exact absurd (show x ∈ ([] : List Var) from h) (by simp)

theorem mem_ofList {x : Var} {l : List Var} : x ∈ ofList l ↔ x ∈ l := mem_distinct

theorem mem_insert {s : VarSet} {x y : Var} : y ∈ (s.insert x).2 ↔ y = x ∨ y ∈ s := by
  unfold insert
  split
  · rename_i h
    exact ⟨Or.inr, fun hy ↦ hy.elim (fun e ↦ e ▸ h) id⟩
  · exact List.mem_cons

theorem mem_erase {s : VarSet} {x y : Var} : y ∈ (s.erase x).2 ↔ y ≠ x ∧ y ∈ s :=
  s.nodup_members.mem_erase_iff

end VarSet

end ProgramAnalysis
