import Mathlib.Data.List.Nodup
import ProgramAnalysis.Proofs.Registration
import ProgramAnalysis.Proofs.Success

/-!
# Which methods a call may run

To resolve a virtual call, the classes below its target are searched through the indexes of the
registry. The indexes go by name, and so does the search when it passes over what it has found.
Since registered classes have different names, this can hide only a class with the name of the
target, and only if the target is not registered itself.

If everything that registered classes inherit from is registered too, going down along the indexes
is the converse of going up from a class to those that it inherits from. A call then resolves to
exactly those methods that run on objects of the registered subclasses of its target.
-/

namespace ProgramAnalysis.Registry

open Relation

variable {t : ClassTable} {r r' : Registry} {c d x : ClassId} {call : Call} {m : MethodRef}

/-! ## The classes below a class -/

/-- What is below a class depends on its name only. -/
theorem below_congr (h : c.name = d.name) : r.below c = r.below d := by
  rw [below, below, subclassesOf, subclassesOf, subinterfacesOf, subinterfacesOf, implementorsOf,
    implementorsOf, h]

theorem cone_eq_reach (r : Registry) (c : ClassId) :
    r.cone c = BreadthFirst.reach ClassId.name r.below (r.size + 1) c :=
  BreadthFirst.visits_eq_reach ..

theorem Filled.contains_of_mem_cone (h : Filled t r) (hx : x ∈ r.cone c) :
    x = c ∨ r.contains x = true := by
  rw [cone_eq_reach] at hx
  refine BreadthFirst.forall_mem_explore (P := fun x ↦ x = c ∨ r.contains x = true) ?_ ?_ x hx
  · intro a ha
    exact Or.inl (List.mem_singleton.mp ha)
  · intro a _ b hb
    exact Or.inr (h.mem_below_iff.mp hb).1

/-- Every name below a class of the cone is the name of a class of the cone. -/
theorem Filled.covers_cone (h : Filled t r) (c : ClassId) :
    BreadthFirst.Covers ClassId.name r.below (r.cone c) (r.cone c) := by
  let univ := c.name :: r.classes.keys
  have huniv : ∀ a, a.name ∈ univ → ∀ b ∈ r.below a, b.name ∈ univ := fun a _ b hb ↦
    List.mem_cons_of_mem _ (name_mem_keys (h.mem_below_iff.mp hb).1)
  have hlength : univ.length = r.size + 1 := congrArg (· + 1) r.classes.length_keys
  rw [cone_eq_reach, ← hlength]
  exact BreadthFirst.covers_reach huniv List.mem_cons_self

/-- The cone of a class is what the indexes lead to, but for classes that share its name. -/
theorem Filled.mem_cone_iff (h : Filled t r) : x ∈ r.cone c ↔
    x = c ∨ (x.name ≠ c.name ∧ ReflTransGen (fun a b ↦ b ∈ r.below a) c x) := by
  have hstart : c ∈ r.cone c := by
    rw [cone_eq_reach]
    exact BreadthFirst.start_mem_reach _ _ _ _
  constructor
  · intro hx
    refine or_iff_not_imp_left.mpr fun hne ↦ ⟨fun hname ↦ hne ?_, ?_⟩
    · rw [cone_eq_reach] at hx hstart
      exact List.inj_on_of_nodup_map (BreadthFirst.nodup_reach _ _ _ _) hx hstart hname
    · rw [cone_eq_reach] at hx
      exact BreadthFirst.reflTransGen_of_mem_reach hx
  · rintro (rfl | ⟨hname, hpath⟩)
    · exact hstart
    refine Or.resolve_left ?_ hname
    clear hname
    induction hpath with
    | refl => exact Or.inl rfl
    | @tail a b _ hb ih =>
      -- a class named like the target has below it what the target has
      obtain ⟨a', ha', hb'⟩ : ∃ a' ∈ r.cone c, b ∈ r.below a' := by
        rcases ih with hname | ha
        · exact ⟨c, hstart, below_congr hname ▸ hb⟩
        · exact ⟨a, ha, hb⟩
      obtain ⟨b', hmem, hname⟩ := List.mem_map.mp (h.covers_cone c a' ha' b hb')
      rcases h.contains_of_mem_cone hmem with rfl | hb'
      · exact Or.inl hname.symm
      · rw [← eq_of_name_eq hb' (h.mem_below_iff.mp hb).1 hname]
        exact Or.inr hmem

/-- From `x` a way leads up to `c` that passes through registered classes only, `c` itself apart. -/
def Linked (r : Registry) (t : ClassTable) (x c : ClassId) : Prop :=
  ReflTransGen (fun a b ↦ r.contains a = true ∧ t.Extends a b) x c

theorem Linked.reflTransGen (h : r.Linked t x c) : ReflTransGen t.Extends x c :=
  ReflTransGen.mono (fun _ _ hstep ↦ hstep.2) _ _ h

theorem Linked.eq_or_contains (h : r.Linked t x c) : x = c ∨ r.contains x = true :=
  (ReflTransGen.cases_head h).imp_right fun ⟨_, hstep, _⟩ ↦ hstep.1

/-- A way up stays among registered classes if none of those that lie on it is missing. -/
theorem linked_of_reflTransGen (hx : ReflTransGen t.Extends x c)
    (hbetween : ∀ p, p ≠ c → ReflTransGen t.Extends x p → ReflTransGen t.Extends p c →
      r.contains p = true) : r.Linked t x c := by
  induction hx using ReflTransGen.head_induction_on with
  | refl => exact .refl
  | @head a b hstep hrest ih =>
    by_cases hac : a = c
    · exact hac ▸ .refl
    · refine ReflTransGen.head ⟨hbetween a hac .refl (hrest.head hstep), hstep⟩ (ih ?_)
      exact fun p hp hbp hpc ↦ hbetween p hp (hbp.head hstep) hpc

/-- Among classes of different names, the cone of a class is all that is linked to it. -/
theorem Filled.mem_cone_iff_linked (h : Filled t r) {S : Set ClassId}
    (hregistered : ∀ x, r.contains x = true → x ∈ S) (hc : c ∈ S)
    (hclosed : ∀ a ∈ S, ∀ b, t.Extends a b → b ∈ S) (hinj : S.InjOn ClassId.name) :
    x ∈ r.cone c ↔ r.Linked t x c := by
  have hmem : ∀ a, r.Linked t a c → a ∈ S := by
    intro a ha
    rcases ha.eq_or_contains with rfl | ha
    · exact hc
    · exact hregistered a ha
  have hdown : ReflTransGen (fun a b ↦ b ∈ r.below a) c x ↔ r.Linked t x c := by
    constructor
    · intro hpath
      induction hpath with
      | refl => exact .refl
      | @tail a b _ hb ih =>
        obtain ⟨hcontains, p, hp, hname⟩ := h.mem_below_iff.mp hb
        obtain rfl := hinj (hclosed b (hregistered b hcontains) p hp) (hmem a ih) hname
        exact ReflTransGen.head ⟨hcontains, hp⟩ ih
    · intro hpath
      induction hpath using ReflTransGen.head_induction_on with
      | refl => exact .refl
      | @head a b hstep _ ih =>
        exact ih.tail (h.mem_below_iff.mpr ⟨hstep.1, b, hstep.2, rfl⟩)
  rw [h.mem_cone_iff, hdown]
  constructor
  · rintro (rfl | ⟨-, hlinked⟩)
    · exact .refl
    · exact hlinked
  · intro hlinked
    exact or_iff_not_imp_left.mpr fun hne ↦
      ⟨fun hname ↦ hne (hinj (hmem x hlinked) hc hname), hlinked⟩

/-- Where registered classes inherit from registered classes only, the cone of one of them is the
set of its registered subclasses. -/
theorem Filled.mem_cone_iff_of_closed (h : Filled t r)
    (hclosed : ∀ x, r.contains x = true → ∀ p, t.Extends x p → r.contains p = true)
    (hc : r.contains c = true) :
    x ∈ r.cone c ↔ r.contains x = true ∧ ReflTransGen t.Extends x c := by
  rw [h.mem_cone_iff_linked (S := {x | r.contains x = true}) (fun _ hx ↦ hx) hc hclosed
    fun _ ha _ hb hname ↦ eq_of_name_eq ha hb hname]
  constructor
  · intro hlinked
    refine ⟨?_, hlinked.reflTransGen⟩
    rcases hlinked.eq_or_contains with rfl | hx <;> assumption
  · rintro ⟨hx, hpath⟩
    refine linked_of_reflTransGen hpath ?_
    rintro p - hxp -
    induction hxp with
    | refl => exact hx
    | @tail a b _ hstep ih => exact hclosed a ih b hstep

/-! ## Resolution -/

/-- A call resolves if all searches for its method come to an end. -/
theorem exists_resolve
    (h : ∀ x ∈ r.receivers call, ∃ o, t.dispatch x call.target.signature = .ok o) :
    ∃ l, r.resolve t call = .ok l := by
  obtain ⟨found, hfound⟩ := exists_mapM_eq_ok h
  rw [resolve, hfound]
  exact ⟨_, rfl⟩

/-- What a call resolves to is what its receivers dispatch to, each method once. -/
theorem of_resolve_eq_ok {l : List MethodRef} (h : r.resolve t call = .ok l) :
    l.Nodup ∧
      ∀ m, m ∈ l ↔ ∃ x ∈ r.receivers call, t.dispatch x call.target.signature = .ok (some m) := by
  rw [resolve] at h
  obtain ⟨found, hfound, h⟩ := exists_of_bind_eq_ok h
  obtain rfl := Except.ok.inj h
  refine ⟨nodup_distinct _, fun m ↦ ?_⟩
  rw [mem_distinct, List.mem_filterMap, ← (mem_of_mapM_eq_ok hfound).2]
  simp

/-- Where chains of superclasses stay among classes that do not go round in circles, every search
for a method comes to an end. -/
theorem exists_dispatch_of_closed {S : Set ClassId} {s : Signature}
    (hclosed : ∀ a ∈ S, ∀ b, t.Extends a b → b ∈ S)
    (hacyclic : ∀ a ∈ S, ¬TransGen (fun a b ↦ (t.decl a).superclass = some b) a a) (hx : x ∈ S) :
    ∃ o, t.dispatch x s = .ok o := by
  refine ClassTable.exists_dispatch fun y hpath ↦ ?_
  have hy : y ∈ S := by
    induction hpath with
    | refl => exact hx
    | @tail a b _ hstep ih => exact hclosed a ih b (Or.inl hstep.2)
  exact ClassTable.not_transGen_handsOn (hacyclic y hy)

/-- A virtual or interface call on a registered class resolves, and to exactly those methods that
run on objects of its registered subclasses. -/
theorem Filled.exists_resolve_mem_iff_dispatch (h : Filled t r)
    (hclosed : ∀ x, r.contains x = true → ∀ p, t.Extends x p → r.contains p = true)
    (hacyclic : ∀ x, r.contains x = true →
      ¬TransGen (fun a b ↦ (t.decl a).superclass = some b) x x)
    (howner : r.contains call.target.owner = true)
    (hkind : call.kind = .virtual ∨ call.kind = .interface) :
    ∃ l, r.resolve t call = .ok l ∧ l.Nodup ∧
      ∀ m, m ∈ l ↔ ∃ x, r.contains x = true ∧ t.isSubclass call.target.owner x = true ∧
        t.dispatch x call.target.signature = .ok (some m) := by
  have hreceivers : ∀ x, x ∈ r.receivers call ↔
      r.contains x = true ∧ ReflTransGen t.Extends x call.target.owner := by
    intro x
    rw [← h.mem_cone_iff_of_closed hclosed howner, receivers, if_pos]
    rcases hkind with hkind | hkind <;> rw [hkind] <;> rfl
  have hsubclass : ∀ x, r.contains x = true → (t.isSubclass call.target.owner x = true ↔
      ReflTransGen t.Extends x call.target.owner) := fun x hx ↦
    ClassTable.isSubclass_iff (S := {x | r.contains x = true}) hclosed
      (fun _ ha _ hb hname ↦ eq_of_name_eq ha hb hname) hx
  obtain ⟨l, hl⟩ := exists_resolve fun x hx ↦
    exists_dispatch_of_closed (S := {x | r.contains x = true}) hclosed hacyclic
      ((hreceivers x).mp hx).1
  obtain ⟨hnodup, hmem⟩ := of_resolve_eq_ok hl
  refine ⟨l, hl, hnodup, fun m ↦ (hmem m).trans (exists_congr fun x ↦ ?_)⟩
  rw [hreceivers, and_assoc]
  exact and_congr_right fun hx ↦ and_congr_left' (hsubclass x hx).symm

/-! ## A hierarchy with a diamond

Two interfaces extend a third one, and a class implements both. Its subclass overrides the method
that it inherits, and lists one of the interfaces again. -/

/-- The signature `int area()`. -/
def area : Signature := ⟨"area", [], some .int⟩

/-- The interface `Shape` with `Round` and `Flat` below it, `Disc` that implements both and inherits
`area` from `Base`, and `Coin` that overrides it. -/
def shapes : ClassTable where
  classes := .ofList
    [(⟨"Shape", 0⟩,
        { isInterface := true
          isAbstract := true
          methods := .ofList [(area, ⟨true, false, 0, none⟩)] }),
      (⟨"Round", 1⟩, { interfaces := [⟨"Shape", 0⟩], isInterface := true, isAbstract := true }),
      (⟨"Flat", 2⟩, { interfaces := [⟨"Shape", 0⟩], isInterface := true, isAbstract := true }),
      (⟨"Base", 3⟩, { methods := .ofList [(area, ⟨false, false, 0, none⟩)] }),
      (⟨"Disc", 4⟩,
        { superclass := some ⟨"Base", 3⟩, interfaces := [⟨"Round", 1⟩, ⟨"Flat", 2⟩] }),
      (⟨"Coin", 5⟩,
        { superclass := some ⟨"Disc", 4⟩
          interfaces := [⟨"Round", 1⟩, ⟨"Round", 1⟩]
          methods := .ofList [(area, ⟨false, false, 0, none⟩)] })]

/-- A call of `area` on a `Shape`. -/
def areaOfShape : Call := ⟨.interface, ⟨⟨"Shape", 0⟩, area⟩, none, []⟩

/-- A call of `area` on an object of class `c`. -/
def areaOf (c : ClassId) : Call := ⟨.virtual, ⟨c, area⟩, none, []⟩

/-- The classes of `shapes`, registered with subclasses in front. -/
def shapeRegistry : Registry :=
  withClasses shapes
    [⟨"Coin", 5⟩, ⟨"Flat", 2⟩, ⟨"Disc", 4⟩, ⟨"Base", 3⟩, ⟨"Round", 1⟩, ⟨"Shape", 0⟩]

theorem filled_shapeRegistry : Filled shapes shapeRegistry :=
  filled_withClasses (by decide)

theorem closed_shapeRegistry (x : ClassId) (hx : shapeRegistry.contains x = true) (p : ClassId)
    (hp : shapes.Extends x p) : shapeRegistry.contains p = true := by
  have hall : ∀ x ∈ shapeRegistry.all, ∀ p ∈ shapes.parents x,
      shapeRegistry.contains p = true := by decide
  exact hall x (mem_all_of_contains hx) p (ClassTable.mem_parents_iff.mpr hp)

theorem acyclic_shapes (x : ClassId) :
    ¬TransGen (fun a b ↦ (shapes.decl a).superclass = some b) x x :=
  ClassTable.not_transGen_superclass (by decide) x

/-- The call resolves to the method that `Disc` inherits and to the one of `Coin`. -/
theorem exists_resolve_mem_iff_dispatch_shapes :
    ∃ l, shapeRegistry.resolve shapes areaOfShape = .ok l ∧
      l.Nodup ∧ ⟨⟨"Base", 3⟩, area⟩ ∈ l ∧ ⟨⟨"Coin", 5⟩, area⟩ ∈ l := by
  have howner : shapeRegistry.contains areaOfShape.target.owner = true := by decide +kernel
  have hkind : areaOfShape.kind = .virtual ∨ areaOfShape.kind = .interface := Or.inr rfl
  obtain ⟨l, hl, hnodup, hmem⟩ := filled_shapeRegistry.exists_resolve_mem_iff_dispatch
    closed_shapeRegistry (fun x _ ↦ acyclic_shapes x) howner hkind
  refine ⟨l, hl, hnodup, (hmem _).mpr ⟨⟨"Disc", 4⟩, ?_⟩, (hmem _).mpr ⟨⟨"Coin", 5⟩, ?_⟩⟩
  · decide +kernel
  · decide +kernel

end ProgramAnalysis.Registry
