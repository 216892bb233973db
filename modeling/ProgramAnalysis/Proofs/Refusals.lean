import ProgramAnalysis.Proofs.Resolution

/-!
# What a refusal leaves behind

A class is refused for one of three reasons. Its name is taken, or its superclass is an interface:
these two are found out before anything is written, and the registry stays as it was. Or one of its
interfaces is not an interface, and this is found out while the interfaces are entered one by one.
By then the class is registered.

What it leaves is what a registration of the same class would enter if it had only the interfaces in
front of the one that is not. So it cannot be told from a class that was not refused. Nothing
removes it again, and a corrected class of its name is refused as a duplicate from then on.
-/

namespace ProgramAnalysis.Registry

variable {t : ClassTable} {r r' : Registry} {c d : ClassId} {e : HierarchyError}

/-! ## The three reasons -/

/-- A registered class keeps every other class of its name out. -/
theorem Gains.add_eq_duplicate {front : List ClassId} (h : Gains r r' t c front)
    (t' : ClassTable) (hname : d.name = c.name) : r'.add t' d = (r', some (.duplicate d)) := by
  have htaken : r'.classes.contains d.name = true := by
    have hfind := h.find?_eq d.name
    rw [if_pos hname.symm] at hfind
    rw [OrderedMap.contains]
    exact Option.isSome_of_eq_some hfind
  rw [add, if_pos htaken]

/-- A refusal leaves the registry as it was, unless the reason is an interface that is not one. In
that case it leaves the class registered, below its superclass and below all interfaces in front of
that one, so that no other class of its name can be registered any more. -/
theorem refusal_leaves (h : r.add t c = (r', some e)) :
    (r' = r ↔ ∀ i, e ≠ .notAnInterface c i) ∧
      ∀ i, e = .notAnInterface c i → ∃ front back, (t.decl c).interfaces = front ++ i :: back ∧
        (∀ j ∈ front, (t.decl j).isInterface = true) ∧ (t.decl i).isInterface = false ∧
        Gains r r' t c front ∧
        ∀ t' d, d.name = c.name → r'.add t' d = (r', some (.duplicate d)) := by
  rcases add_cases r t c with ⟨-, hadd⟩ | ⟨-, s, -, -, hadd⟩ |
    ⟨hfresh, front, i, back, hsplit, hfront, hi, hadd⟩ | ⟨-, -, hadd⟩
  · obtain ⟨rfl, he⟩ := Prod.mk.inj (hadd.symm.trans h)
    obtain rfl := Option.some.inj he
    simp
  · obtain ⟨rfl, he⟩ := Prod.mk.inj (hadd.symm.trans h)
    obtain rfl := Option.some.inj he
    simp
  · obtain ⟨rfl, he⟩ := Prod.mk.inj (hadd.symm.trans h)
    obtain rfl := Option.some.inj he
    have hgains : Gains r (r.entered t c front) t c front := gains_entered hfresh front
    refine ⟨⟨fun hsame ↦ ?_, fun hno ↦ absurd rfl (hno i)⟩, ?_⟩
    · have hsize := hgains.size_eq
      rw [hsame] at hsize
      omega
    · intro i' hi'
      obtain ⟨-, rfl⟩ := HierarchyError.notAnInterface.inj hi'
      exact ⟨front, back, hsplit, hfront, hi, hgains,
        fun t' d hname ↦ hgains.add_eq_duplicate t' hname⟩
  · rw [hadd] at h
    simp at h

/-! ## A class that is refused and stays

`Leaf` extends `Base` and lists it as an interface as well. It is refused, and so is the corrected
`Leaf`. A call of `area` on a `Base` runs the method of the refused class from then on. A `Leaf`
that lists the interface `Drawable` in front of `Base` stays among the implementors of `Drawable`
too. -/

/-- `Base`, a flawed `Leaf`, a corrected one, the interface `Drawable`, and a `Leaf` that is flawed
behind `Drawable`; all but `Drawable` have a method `area`. -/
def leaves : ClassTable where
  classes := .ofList
    [(⟨"Base", 0⟩, { methods := .ofList [(area, ⟨false, false, 0, none⟩)] }),
      (⟨"Leaf", 1⟩,
        { superclass := some ⟨"Base", 0⟩
          interfaces := [⟨"Base", 0⟩]
          methods := .ofList [(area, ⟨false, false, 0, none⟩)] }),
      (⟨"Leaf", 2⟩,
        { superclass := some ⟨"Base", 0⟩
          methods := .ofList [(area, ⟨false, false, 0, none⟩)] }),
      (⟨"Drawable", 3⟩, { isInterface := true }),
      (⟨"Leaf", 4⟩,
        { superclass := some ⟨"Base", 0⟩
          interfaces := [⟨"Drawable", 3⟩, ⟨"Base", 0⟩]
          methods := .ofList [(area, ⟨false, false, 0, none⟩)] })]

/-- The registry of `Base` alone. -/
def baseRegistry : Registry := withClasses leaves [⟨"Base", 0⟩]

/-- The registry of `Base` and `Drawable`. -/
def drawableRegistry : Registry := withClasses leaves [⟨"Base", 0⟩, ⟨"Drawable", 3⟩]

/-- The refused class stays below `Base` and among the implementors of `Drawable`, which it lists in
front of the interface that is not one, and keeps the corrected class out. -/
theorem refusal_leaves_leaf :
    ∃ r', drawableRegistry.add leaves ⟨"Leaf", 4⟩ =
        (r', some (.notAnInterface ⟨"Leaf", 4⟩ ⟨"Base", 0⟩)) ∧
      Gains drawableRegistry r' leaves ⟨"Leaf", 4⟩ [⟨"Drawable", 3⟩] ∧
      r'.subclassesOf ⟨"Base", 0⟩ = [⟨"Leaf", 4⟩] ∧
      r'.implementorsOf ⟨"Drawable", 3⟩ = [⟨"Leaf", 4⟩] ∧
      r'.add leaves ⟨"Leaf", 2⟩ = (r', some (.duplicate ⟨"Leaf", 2⟩)) := by
  have h : drawableRegistry.add leaves ⟨"Leaf", 4⟩ = ((drawableRegistry.add leaves ⟨"Leaf", 4⟩).1,
      some (.notAnInterface ⟨"Leaf", 4⟩ ⟨"Base", 0⟩)) := Prod.ext rfl (by decide)
  obtain ⟨front, back, hsplit, -, -, hgains, hduplicate⟩ := (refusal_leaves h).2 ⟨"Base", 0⟩ rfl
  have hinterfaces : (leaves.decl ⟨"Leaf", 4⟩).interfaces = [⟨"Drawable", 3⟩, ⟨"Base", 0⟩] := by
    decide
  obtain rfl : front = [⟨"Drawable", 3⟩] := by
    match front, hinterfaces.symm.trans hsplit with
    | [], hfirst => exact absurd (List.cons.inj hfirst).1 (by decide)
    | [i], hfirst => rw [(List.cons.inj hfirst).1]
    | i :: j :: front, hlong => simpa using congrArg List.length hlong
  exact ⟨_, h, hgains, by decide, by decide, hduplicate leaves ⟨"Leaf", 2⟩ rfl⟩

/-- The refused class is registered, its corrected namesake is not, and the call has changed. -/
theorem refusal_is_not_atomic :
    Filled leaves baseRegistry ∧ ∃ r', baseRegistry.add leaves ⟨"Leaf", 1⟩ =
        (r', some (.notAnInterface ⟨"Leaf", 1⟩ ⟨"Base", 0⟩)) ∧
      baseRegistry.find? "Leaf" = none ∧ r'.find? "Leaf" = some ⟨"Leaf", 1⟩ ∧
      baseRegistry.size = 1 ∧ r'.size = 2 ∧
      baseRegistry.subclassesOf ⟨"Base", 0⟩ = [] ∧
      r'.subclassesOf ⟨"Base", 0⟩ = [⟨"Leaf", 1⟩] ∧
      (baseRegistry.add leaves ⟨"Leaf", 2⟩).2 = none ∧
      (r'.add leaves ⟨"Leaf", 2⟩).2 = some (.duplicate ⟨"Leaf", 2⟩) ∧
      baseRegistry.resolve leaves (areaOf ⟨"Base", 0⟩) = .ok [⟨⟨"Base", 0⟩, area⟩] ∧
      r'.resolve leaves (areaOf ⟨"Base", 0⟩) = .ok [⟨⟨"Base", 0⟩, area⟩, ⟨⟨"Leaf", 1⟩, area⟩] :=
  ⟨filled_withClasses (by decide), (baseRegistry.add leaves ⟨"Leaf", 1⟩).1,
    Prod.ext rfl (by decide), by decide⟩

end ProgramAnalysis.Registry
