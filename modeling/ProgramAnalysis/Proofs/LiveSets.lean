import Mathlib.Order.Basic
import Mathlib.Data.List.Perm.Subperm
import ProgramAnalysis.Analysis.LiveVariables

/-!
# Sets of live variables

Sets of variables are ordered by inclusion, and only membership counts: every lemma below is about
members, none about the order in which a set lists them.
-/

namespace ProgramAnalysis

namespace VarSet

/-! ## Members -/

theorem mem_reportAll_insert {s : VarSet} {l : List Var} {x : Var} :
    x ∈ (reportAll insert s l).2 ↔ x ∈ l ∨ x ∈ s := by
  rw [reportAll_snd]
  induction l generalizing s with
  | nil => simp
  | cons y l ih =>
    rw [List.foldl_cons, ih, mem_insert, List.mem_cons, or_left_comm, or_assoc]

theorem mem_union {s t : VarSet} {x : Var} : x ∈ (s.union t).2 ↔ x ∈ s ∨ x ∈ t :=
  mem_reportAll_insert.trans Or.comm

theorem same_iff {s t : VarSet} : s.same t = true ↔ ∀ x, x ∈ s ↔ x ∈ t := by
  rw [same, Bool.and_eq_true, beq_iff_eq, List.all_eq_true]
  constructor
  · rintro ⟨hsize, hall⟩ x
    have hsub : s.members ⊆ t.members := fun y hy ↦ of_decide_eq_true (hall y hy)
    have hperm : s.members.Perm t.members :=
      (s.nodup_members.subperm hsub).perm_of_length_le (Nat.le_of_eq hsize.symm)
    exact hperm.mem_iff
  · intro h
    have hperm := (List.perm_ext_iff_of_nodup s.nodup_members t.nodup_members).mpr h
    exact ⟨hperm.length_eq, fun x hx ↦ decide_eq_true ((h x).mp hx)⟩

theorem mem_copyFrom {s t : VarSet} {x : Var} : x ∈ (s.copyFrom t).2 ↔ x ∈ t := by
  rw [copyFrom]
  split
  · rename_i h
    exact same_iff.mp h x
  · exact Iff.rfl

theorem copyFrom_snd_eq_of_unchanged {s t : VarSet} (h : (s.copyFrom t).1 = false) :
    (s.copyFrom t).2 = s := by
  rw [copyFrom] at h ⊢
  split at h
  · rename_i hs
    rw [if_pos hs]
  · simp at h

/-! ## Inclusion -/

instance : Preorder VarSet where
  le s t := ∀ x, x ∈ s → x ∈ t
  le_refl _ _ h := h
  le_trans _ _ _ hst htu x hx := htu x (hst x hx)

theorem le_def {s t : VarSet} : s ≤ t ↔ ∀ x, x ∈ s → x ∈ t := Iff.rfl

theorem empty_le (s : VarSet) : (∅ : VarSet) ≤ s := fun x hx ↦ absurd hx (not_mem_empty x)

theorem same_iff_le {s t : VarSet} : s.same t = true ↔ s ≤ t ∧ t ≤ s := by
  rw [same_iff]
  exact ⟨fun h ↦ ⟨fun x ↦ (h x).mp, fun x ↦ (h x).mpr⟩, fun h x ↦ ⟨h.1 x, h.2 x⟩⟩

end VarSet

namespace LiveVariables

theorem mem_meetInto {s t : VarSet} {x : Var} : x ∈ meetInto s t ↔ x ∈ s ∨ x ∈ t :=
  VarSet.mem_union.trans Or.comm

/-- Live before a statement is what it reads, and what is live after it and not bound by it. -/
theorem mem_before {s : Stmt} {after : VarSet} {x : Var} :
    x ∈ before s after ↔ x ∈ s.uses ∨ (x ∈ after ∧ s.defines ≠ some x) := by
  rw [before, VarSet.mem_reportAll_insert]
  cases h : s.defines with
  | none => simp
  | some y =>
    rw [VarSet.mem_erase, and_comm, Ne, Ne, Option.some.injEq, eq_comm]

theorem before_mono (s : Stmt) {t u : VarSet} (h : t ≤ u) : before s t ≤ before s u := by
  intro x hx
  rw [mem_before] at hx ⊢
  exact hx.imp_right fun ⟨hmem, hdef⟩ ↦ ⟨h x hmem, hdef⟩

end LiveVariables

end ProgramAnalysis
