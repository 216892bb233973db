import Mathlib.Order.Basic
import ProgramAnalysis.Lattice.Value

/-!
# The order of abstract values

Values are ordered by how much has been seen, and `meet` is the least upper bound. Since the tags of
the two extreme elements do not take part, this is a preorder; among canonical values it is
antisymmetric.
-/

namespace ProgramAnalysis.Value

instance : Preorder Value where
  le := Value.LE
  le_refl v := by cases v <;> simp [Value.LE]
  le_trans u v w huv hvw := by
    cases u <;> cases v <;> cases w <;> simp_all [Value.LE]

/-! ## The extreme elements -/

theorem unseen_le (v : Value) : unseen ≤ v := trivial

theorem le_of_isUndef {v : Value} (h : v.isUndef = true) (w : Value) : v ≤ w := by
  cases v with
  | undef tag => exact trivial
  | constant n => simp [isUndef] at h
  | nac tag => simp [isUndef] at h

theorem le_varying (v : Value) : v ≤ varying := by
  cases v <;> exact trivial

theorem isUndef_of_le {v w : Value} (h : v ≤ w) (hw : w.isUndef = true) : v.isUndef = true := by
  cases w with
  | undef tag =>
    cases v with
    | undef tag => rfl
    | constant n => exact absurd h id
    | nac tag => exact absurd h id
  | constant n => simp [isUndef] at hw
  | nac tag => simp [isUndef] at hw

theorem isNac_of_le {v w : Value} (h : v ≤ w) (hv : v.isNac = true) : w.isNac = true := by
  cases v with
  | nac tag =>
    cases w with
    | nac tag => rfl
    | undef tag => exact absurd h id
    | constant n => exact absurd h id
  | undef tag => simp [isNac] at hv
  | constant n => simp [isNac] at hv

theorem constant_le_iff {n : Int} {w : Value} :
    constant n ≤ w ↔ w = constant n ∨ w.isNac = true := by
  cases w with
  | undef tag => exact ⟨fun h ↦ absurd h id, fun h ↦ by simp [isNac] at h⟩
  | constant m =>
    refine ⟨fun h ↦ Or.inl (congrArg constant (show n = m from h).symm), fun h ↦ ?_⟩
    rcases h with h | h
    · exact (constant.inj h).symm
    · simp [isNac] at h
  | nac tag => exact ⟨fun _ ↦ Or.inr rfl, fun _ ↦ trivial⟩

theorem eq_of_canonical_of_isUndef {v : Value} (hc : v.Canonical) (h : v.isUndef = true) :
    v = unseen := by
  cases v with
  | undef tag => exact congrArg undef hc
  | constant n => simp [isUndef] at h
  | nac tag => simp [isUndef] at h

theorem eq_of_canonical_of_isNac {v : Value} (hc : v.Canonical) (h : v.isNac = true) :
    v = varying := by
  cases v with
  | nac tag => exact congrArg nac hc
  | undef tag => simp [isNac] at h
  | constant n => simp [isNac] at h

/-- Canonical values that lie below each other are equal. -/
theorem eq_of_le_of_le {v w : Value} (hv : v.Canonical) (hw : w.Canonical) (hvw : v ≤ w)
    (hwv : w ≤ v) : v = w := by
  cases v with
  | undef tag =>
    rw [eq_of_canonical_of_isUndef hw (isUndef_of_le hwv rfl)]
    exact congrArg undef hv
  | constant n =>
    rcases constant_le_iff.mp hvw with h | h
    · exact h.symm
    · exact absurd (isNac_of_le hwv h) (by simp [isNac])
  | nac tag =>
    rw [eq_of_canonical_of_isNac hw (isNac_of_le hvw rfl)]
    exact congrArg nac hv

/-! ## The meet is the least upper bound -/

theorem le_meet_left (v w : Value) : v ≤ v.meet w := by
  cases v with
  | undef tag => exact trivial
  | constant m =>
    cases w with
    | undef tag => exact le_rfl
    | constant n =>
      rw [meet]
      split
      · exact le_rfl
      · exact le_varying _
    | nac tag => exact le_varying _
  | nac tag => exact le_varying _

theorem le_meet_right (v w : Value) : w ≤ v.meet w := by
  cases w with
  | undef tag => exact trivial
  | constant n =>
    cases v with
    | undef tag => exact le_rfl
    | constant m =>
      rw [meet]
      split
      · rename_i h
        exact h ▸ le_rfl
      · exact le_varying _
    | nac tag => exact le_varying _
  | nac tag =>
    cases v <;> exact le_varying _

theorem meet_le {v w u : Value} (hv : v ≤ u) (hw : w ≤ u) : v.meet w ≤ u := by
  cases u with
  | nac tag => cases v.meet w <;> exact trivial
  | undef tag =>
    have hv' := isUndef_of_le hv rfl
    have hw' := isUndef_of_le hw rfl
    cases v <;> cases w <;> simp_all [isUndef, meet]
  | constant k =>
    cases v with
    | undef tag =>
      cases w with
      | nac tag => exact absurd hw id
      | undef tag => exact hw
      | constant n => exact hw
    | nac tag => exact absurd hv id
    | constant m =>
      have hm : m = k := hv
      cases w with
      | nac tag => exact absurd hw id
      | undef tag => exact hv
      | constant n =>
        have hn : n = k := hw
        rw [meet, if_pos (hm.trans hn.symm)]
        exact hv

theorem unseen_meet {w : Value} (hw : w.Canonical) : unseen.meet w = w := by
  cases w with
  | undef tag => rfl
  | constant n => rfl
  | nac tag => exact congrArg nac (Eq.symm hw)

theorem meet_self {v : Value} (hv : v.Canonical) : v.meet v = v := by
  cases v with
  | undef tag => rfl
  | constant n => exact if_pos rfl
  | nac tag => exact congrArg nac (Eq.symm hv)

/-! ## Levels

A value climbs at most twice: from an undefined value to a constant, and from there to `nac`. -/

/-- How often a value must have climbed. -/
def level : Value → Nat
  | undef _ => 0
  | constant _ => 1
  | nac _ => 2

theorem level_le_two (v : Value) : v.level ≤ 2 := by
  cases v <;> simp [level]

theorem level_eq_two_of_isNac {v : Value} (h : v.isNac = true) : v.level = 2 := by
  cases v with
  | nac tag => rfl
  | undef tag => simp [isNac] at h
  | constant n => simp [isNac] at h

theorem level_le_of_le {v w : Value} (h : v ≤ w) : v.level ≤ w.level := by
  cases v with
  | undef tag => exact Nat.zero_le _
  | constant n =>
    rcases constant_le_iff.mp h with rfl | hnac
    · exact Nat.le_refl _
    · rw [level_eq_two_of_isNac hnac]
      exact level_le_two _
  | nac tag =>
    rw [level_eq_two_of_isNac (isNac_of_le h rfl)]
    exact level_le_two _

theorem level_lt_of_not_ge {v w : Value} (h : v ≤ w) (hnot : ¬w ≤ v) : v.level < w.level := by
  cases v with
  | undef tag =>
    cases w with
    | undef tag => exact absurd (le_of_isUndef rfl _) hnot
    | constant n => exact Nat.zero_lt_one
    | nac tag => exact Nat.zero_lt_two
  | constant n =>
    rcases constant_le_iff.mp h with rfl | hnac
    · exact absurd le_rfl hnot
    · rw [level_eq_two_of_isNac hnac]
      exact Nat.one_lt_two
  | nac tag =>
    -- nothing lies above
    have hnac := isNac_of_le h rfl
    cases w with
    | nac tag => exact absurd trivial hnot
    | undef tag => simp [isNac] at hnac
    | constant n => simp [isNac] at hnac

end ProgramAnalysis.Value
