import Mathlib.Data.List.Nodup
import ProgramAnalysis.Proofs.Ancestors

/-!
# Subclasses

A class is a subclass of those that are reached from it by going on to a superclass or to an
interface, any number of times. Nothing keeps classes from inheriting from each other in a circle or
from themselves, and one class may be reached in many ways.

The search for an ancestor may put a class among the pending ones again and again, and it still
comes to an end, because only the first occurrence of a name is expanded. Its rules leave no choice,
so it has one answer. Where names tell the ancestors of a class apart, that answer is right; this
says nothing about classes elsewhere, which may have the same names.
-/

namespace ProgramAnalysis.ClassTable

open Relation

variable {t : ClassTable} {super sub : ClassId}

/-- At each turn of a search, one rule applies. -/
theorem Ascent.unique {goal : ClassId} {seen : List String} {pending : List ClassId} {r r' : Bool}
    (h : t.Ascent goal seen pending r) (h' : t.Ascent goal seen pending r') : r = r' := by
  induction h with
  | exhausts =>
    cases h' with
    | exhausts => rfl
  | arrives =>
    cases h' with
    | arrives => rfl
    | passesOver hgoal => exact absurd rfl hgoal
    | expands hgoal => exact absurd rfl hgoal
  | passesOver hgoal hseen _ ih =>
    cases h' with
    | arrives => exact absurd rfl hgoal
    | passesOver _ _ hrest => exact ih hrest
    | expands _ hfresh => exact absurd hseen hfresh
  | expands hgoal hfresh _ ih =>
    cases h' with
    | arrives => exact absurd rfl hgoal
    | passesOver _ hseen => exact absurd hseen hfresh
    | expands _ _ hrest => exact ih hrest

theorem ascent_iff {r : Bool} : t.Ascent super [] [sub] r ↔ r = t.isSubclass super sub :=
  ⟨fun h ↦ h.unique (ascent_isSubclass t super sub), fun h ↦ h ▸ ascent_isSubclass t super sub⟩

/-- A set of classes with different names that is closed upwards holds all ancestors of its members,
and these have different names. -/
theorem injOn_name_ancestors {S : Set ClassId} (hclosed : ∀ a ∈ S, ∀ b, t.Extends a b → b ∈ S)
    (hinj : S.InjOn ClassId.name) (hsub : sub ∈ S) :
    {c | ReflTransGen t.Extends sub c}.InjOn ClassId.name := by
  refine hinj.mono fun c hc ↦ ?_
  induction hc with
  | refl => exact hsub
  | tail _ hstep ih => exact hclosed _ ih _ hstep

/-- The search for an ancestor comes to an end by itself, with one answer. If the ancestors of a
class have different names, the answer is that a class is a subclass of another one exactly if a
chain of links to superclasses and interfaces leads from the one to the other. -/
theorem isSubclass_exact (hnames : {c | ReflTransGen t.Extends sub c}.InjOn ClassId.name)
    (super : ClassId) :
    (∀ r, t.Ascent super [] [sub] r ↔ r = t.isSubclass super sub) ∧
      (t.isSubclass super sub = true ↔ ReflTransGen t.Extends sub super) := by
  have hclosed : ∀ a, ReflTransGen t.Extends sub a → ∀ b, t.Extends a b →
      ReflTransGen t.Extends sub b := fun _ hpath _ hstep ↦ hpath.tail hstep
  have hself : ReflTransGen t.Extends sub sub := .refl
  exact ⟨fun _ ↦ ascent_iff, isSubclass_iff hclosed hnames hself⟩

/-- Six classes. The interface `Shape` extends itself, `Filled` and `Framed` extend `Shape`, `Box`
implements both and lists one of them twice, `Box` and `Panel` extend each other, and `Crate`
extends `Box`. -/
def knotted : ClassTable where
  classes := .ofList
    [(⟨"Shape", 0⟩, { interfaces := [⟨"Shape", 0⟩], isInterface := true }),
      (⟨"Filled", 1⟩, { interfaces := [⟨"Shape", 0⟩], isInterface := true }),
      (⟨"Framed", 2⟩, { interfaces := [⟨"Shape", 0⟩], isInterface := true }),
      (⟨"Box", 3⟩,
        { superclass := some ⟨"Panel", 4⟩
          interfaces := [⟨"Filled", 1⟩, ⟨"Framed", 2⟩, ⟨"Filled", 1⟩] }),
      (⟨"Panel", 4⟩, { superclass := some ⟨"Box", 3⟩ }),
      (⟨"Crate", 5⟩, { superclass := some ⟨"Box", 3⟩ })]

/-- `Shape` is found above `Panel` in spite of the circles. `Crate` is not, so no chain of any
length leads to it. -/
theorem isSubclass_exact_knotted :
    {c | ReflTransGen knotted.Extends ⟨"Panel", 4⟩ c}.InjOn ClassId.name ∧
      knotted.isSubclass ⟨"Shape", 0⟩ ⟨"Panel", 4⟩ = true ∧
      ReflTransGen knotted.Extends ⟨"Panel", 4⟩ ⟨"Shape", 0⟩ ∧
      knotted.isSubclass ⟨"Crate", 5⟩ ⟨"Panel", 4⟩ = false ∧
      ¬ReflTransGen knotted.Extends ⟨"Panel", 4⟩ ⟨"Crate", 5⟩ := by
  have hclosed : ∀ a ∈ knotted.classes.keys, ∀ b, knotted.Extends a b →
      b ∈ knotted.classes.keys := by
    have hall : ∀ a ∈ knotted.classes.keys, ∀ b ∈ knotted.parents a, b ∈ knotted.classes.keys := by
      decide
    exact fun a ha b hb ↦ hall a ha b (mem_parents_iff.mpr hb)
  have hinj : {c | c ∈ knotted.classes.keys}.InjOn ClassId.name := by
    have hnodup : (knotted.classes.keys.map ClassId.name).Nodup := by decide
    exact fun _ ha _ hb hname ↦ List.inj_on_of_nodup_map hnodup ha hb hname
  have hpanel : (⟨"Panel", 4⟩ : ClassId) ∈ knotted.classes.keys := by decide
  have hnames : {c | ReflTransGen knotted.Extends ⟨"Panel", 4⟩ c}.InjOn ClassId.name :=
    injOn_name_ancestors hclosed hinj hpanel
  have hshape : knotted.isSubclass ⟨"Shape", 0⟩ ⟨"Panel", 4⟩ = true := by decide
  have hcrate : knotted.isSubclass ⟨"Crate", 5⟩ ⟨"Panel", 4⟩ = false := by decide
  refine ⟨hnames, hshape, (isSubclass_exact hnames _).2.mp hshape, hcrate, fun hpath ↦ ?_⟩
  rw [(isSubclass_exact hnames _).2.mpr hpath] at hcrate
  simp at hcrate

end ProgramAnalysis.ClassTable
