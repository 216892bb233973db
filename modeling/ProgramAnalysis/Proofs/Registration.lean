import ProgramAnalysis.CallGraph.Resolution
import ProgramAnalysis.Proofs.Ancestors
import ProgramAnalysis.Proofs.Reachability

/-!
# Registering classes one by one

The three indexes of a registry go by name, and each registration enters a class in them under the
names of what it inherits from. Taken together they say what is below a name: the registered classes
that have a superclass or an interface of this name. In which order the classes were registered does
not matter to this, and it stays true for as long as they keep their superclasses and interfaces.

A registered class is found under its name, so that two of one name are one class. The indexes do
not go further than that: a class that is not registered may share its name with one that is, and
then has below it what the other one has.
-/

namespace ProgramAnalysis.Registry

open Relation

variable {t : ClassTable} {r r' : Registry} {c d x : ClassId}

/-- The registry arises by registering classes, none of which is refused. When `c` is registered the
table is `past`; since then it may have changed, but not in what `c` inherits from. -/
inductive Filled (t : ClassTable) : Registry → Prop where
  | empty : Filled t {}
  | add {r r' : Registry} {past : ClassTable} {c : ClassId} (hr : Filled t r)
      (h : r.add past c = (r', none))
      (hsuper : (past.decl c).superclass = (t.decl c).superclass)
      (hinterfaces : (past.decl c).interfaces = (t.decl c).interfaces) : Filled t r'

/-! ## What a registration does -/

/-- The registry with `c` under its name and below its superclass. -/
def named (r : Registry) (t : ClassTable) (c : ClassId) : Registry :=
  let r' := { r with classes := r.classes.insert c.name c }
  match (t.decl c).superclass with
  | some s => { r' with subclasses := r'.subclasses.append s.name c }
  | none => r'

/-- The registry with `c` below the interfaces `front` as well. -/
def entered (r : Registry) (t : ClassTable) (c : ClassId) (front : List ClassId) : Registry :=
  front.foldl (fun r i ↦ r.enterBelow c (t.decl c).isInterface i) (r.named t c)

/-- Interfaces are entered up to the first member of the list that is not one. -/
theorem enterInterfaces_cases (t : ClassTable) (c : ClassId) (b : Bool) (r : Registry)
    (l : List ClassId) :
    (∃ front i back, l = front ++ i :: back ∧ (∀ j ∈ front, (t.decl j).isInterface = true) ∧
        (t.decl i).isInterface = false ∧
        enterInterfaces t c b r l =
          (front.foldl (fun r i ↦ r.enterBelow c b i) r, some (.notAnInterface c i))) ∨
      ((∀ i ∈ l, (t.decl i).isInterface = true) ∧
        enterInterfaces t c b r l = (l.foldl (fun r i ↦ r.enterBelow c b i) r, none)) := by
  induction l generalizing r with
  | nil => exact Or.inr ⟨by simp, rfl⟩
  | cons i l ih =>
    rw [enterInterfaces]
    by_cases hi : (t.decl i).isInterface = true
    · rw [if_pos hi]
      refine (ih (r.enterBelow c b i)).imp ?_ ?_
      · rintro ⟨front, j, back, rfl, hfront, hj, h⟩
        exact ⟨i :: front, j, back, rfl, List.forall_mem_cons.mpr ⟨hi, hfront⟩, hj, h⟩
      · rintro ⟨hl, h⟩
        exact ⟨List.forall_mem_cons.mpr ⟨hi, hl⟩, h⟩
    · rw [if_neg hi]
      exact Or.inl ⟨[], i, l, rfl, by simp, Bool.eq_false_iff.mpr hi, rfl⟩

/-- The four ways in which a registration ends, and the registry at the end of each. -/
theorem add_cases (r : Registry) (t : ClassTable) (c : ClassId) :
    (r.find? c.name ≠ none ∧ r.add t c = (r, some (.duplicate c))) ∨
      (r.find? c.name = none ∧ ∃ s, (t.decl c).superclass = some s ∧
        (t.decl s).isInterface = true ∧ r.add t c = (r, some (.superIsInterface c s))) ∨
      (r.find? c.name = none ∧ ∃ front i back, (t.decl c).interfaces = front ++ i :: back ∧
        (∀ j ∈ front, (t.decl j).isInterface = true) ∧ (t.decl i).isInterface = false ∧
        r.add t c = (r.entered t c front, some (.notAnInterface c i))) ∨
      (r.find? c.name = none ∧ (∀ i ∈ (t.decl c).interfaces, (t.decl i).isInterface = true) ∧
        r.add t c = (r.entered t c (t.decl c).interfaces, none)) := by
  rw [add]
  by_cases hname : r.find? c.name = none
  · have hfresh : ¬r.classes.contains c.name = true := by
      simpa [OrderedMap.contains, find?] using hname
    rw [if_neg hfresh]
    cases hsuper : (t.decl c).superclass.filter fun s ↦ (t.decl s).isInterface with
    | some s =>
      obtain ⟨hs, hinterface⟩ := Option.filter_eq_some_iff.mp hsuper
      exact Or.inr (Or.inl ⟨hname, s, hs, hinterface, rfl⟩)
    | none =>
      refine Or.inr (Or.inr ?_)
      refine (enterInterfaces_cases t c (t.decl c).isInterface (r.named t c)
        (t.decl c).interfaces).imp ?_ ?_
      · rintro ⟨front, i, back, hsplit, hfront, hi, h⟩
        exact ⟨hname, front, i, back, hsplit, hfront, hi, h⟩
      · rintro ⟨hall, h⟩
        exact ⟨hname, hall, h⟩
  · have hmem : r.classes.contains c.name = true := by
      simpa [OrderedMap.contains, find?, Option.isSome_iff_ne_none] using hname
    rw [if_pos hmem]
    exact Or.inl ⟨hname, rfl⟩

/-! ## What a registration enters -/

/-- Once for each member of a list that has the name of `d`, the class `c`. -/
def listings (c : ClassId) (l : List ClassId) (d : ClassId) : List ClassId :=
  (l.filter fun i ↦ i.name = d.name).map fun _ ↦ c

/-- Beside what `r` has, `r'` has the class `c`, below its superclass and below the interfaces
`front`. -/
structure Gains (r r' : Registry) (t : ClassTable) (c : ClassId) (front : List ClassId) : Prop where
  find?_eq : ∀ name, r'.find? name = if c.name = name then some c else r.find? name
  contains_iff : ∀ x, r'.contains x = true ↔ r.contains x = true ∨ x = c
  all_eq : r'.all = r.all ++ [c]
  size_eq : r'.size = r.size + 1
  subclassesOf_eq : ∀ d,
    r'.subclassesOf d = r.subclassesOf d ++ listings c (t.decl c).superclass.toList d
  subinterfacesOf_eq : ∀ d, r'.subinterfacesOf d =
    r.subinterfacesOf d ++ listings c (if (t.decl c).isInterface then front else []) d
  implementorsOf_eq : ∀ d, r'.implementorsOf d =
    r.implementorsOf d ++ listings c (if (t.decl c).isInterface then [] else front) d

theorem findD_append_eq_listings (m : OrderedMap String (List ClassId)) (i c d : ClassId) :
    (m.append i.name c).findD d.name [] = m.findD d.name [] ++ listings c [i] d := by
  rw [OrderedMap.findD_append, listings, List.filter_singleton]
  by_cases h : i.name = d.name
  · simp [h]
  · simp [h]

theorem listings_append (c : ClassId) (l l' : List ClassId) (d : ClassId) :
    listings c (l ++ l') d = listings c l d ++ listings c l' d := by
  rw [listings, List.filter_append, List.map_append, listings, listings]

/-- To enter a class below its interfaces changes one index, and nothing else. -/
theorem of_foldl_enterBelow (c : ClassId) (b : Bool) (front : List ClassId) (r : Registry) :
    (front.foldl (fun r i ↦ r.enterBelow c b i) r).classes = r.classes ∧
      (front.foldl (fun r i ↦ r.enterBelow c b i) r).subclasses = r.subclasses ∧
      ∀ d, (front.foldl (fun r i ↦ r.enterBelow c b i) r).subinterfacesOf d =
          r.subinterfacesOf d ++ listings c (if b then front else []) d ∧
        (front.foldl (fun r i ↦ r.enterBelow c b i) r).implementorsOf d =
          r.implementorsOf d ++ listings c (if b then [] else front) d := by
  induction front generalizing r with
  | nil => simp [listings]
  | cons i front ih =>
    obtain ⟨hclasses, hsubclasses, hindexes⟩ := ih (r.enterBelow c b i)
    rw [List.foldl_cons]
    cases b with
    | true =>
      refine ⟨hclasses, hsubclasses, fun d ↦ ⟨(hindexes d).1.trans ?_, (hindexes d).2⟩⟩
      change (r.subinterfaces.append i.name c).findD d.name [] ++ listings c front d = _
      rw [findD_append_eq_listings, List.append_assoc, ← listings_append]
      rfl
    | false =>
      refine ⟨hclasses, hsubclasses, fun d ↦ ⟨(hindexes d).1, (hindexes d).2.trans ?_⟩⟩
      change (r.implementors.append i.name c).findD d.name [] ++ listings c front d = _
      rw [findD_append_eq_listings, List.append_assoc, ← listings_append]
      rfl

theorem of_named (r : Registry) (t : ClassTable) (c : ClassId) :
    (r.named t c).classes = r.classes.insert c.name c ∧
      (r.named t c).subinterfaces = r.subinterfaces ∧
      (r.named t c).implementors = r.implementors ∧
      ∀ d, (r.named t c).subclassesOf d =
        r.subclassesOf d ++ listings c (t.decl c).superclass.toList d := by
  rw [named]
  cases (t.decl c).superclass with
  | none => simp [listings, subclassesOf]
  | some s => exact ⟨rfl, rfl, rfl, fun d ↦ findD_append_eq_listings r.subclasses s c d⟩

/-- A class of a fresh name is entered without a change to what was there before. -/
theorem gains_entered (hfresh : r.find? c.name = none) (front : List ClassId) :
    Gains r (r.entered t c front) t c front := by
  obtain ⟨hclasses, hsubinterfaces, himplementors, hsubclasses⟩ := of_named r t c
  obtain ⟨hclasses', hsubclasses', hindexes⟩ :=
    of_foldl_enterBelow c (t.decl c).isInterface front (r.named t c)
  have hfind : ∀ name, (r.entered t c front).find? name =
      if c.name = name then some c else r.find? name := by
    intro name
    rw [find?, entered, hclasses', hclasses, OrderedMap.find?_insert]
    rfl
  have hentries : (r.entered t c front).classes.entries = r.classes.entries ++ [(c.name, c)] := by
    rw [entered, hclasses', hclasses]
    exact OrderedMap.entries_insert_of_find?_eq_none c hfresh
  refine ⟨hfind, fun x ↦ ?_, ?_, ?_, fun d ↦ ?_, fun d ↦ ?_, fun d ↦ ?_⟩
  · rw [contains, contains, beq_iff_eq, beq_iff_eq, hfind]
    split
    · rename_i hname
      rw [← hname, hfresh]
      simp [eq_comm]
    · rename_i hname
      have hne : x ≠ c := fun he ↦ hname (he ▸ rfl)
      simp [hne]
  · rw [all, OrderedMap.values, hentries, List.map_append]
    rfl
  · rw [size, OrderedMap.size, hentries, List.length_append]
    rfl
  · rw [← hsubclasses, subclassesOf, entered, hsubclasses']
    rfl
  · rw [entered, (hindexes d).1, subinterfacesOf, hsubinterfaces]
    rfl
  · rw [entered, (hindexes d).2, implementorsOf, himplementors]
    rfl

theorem mem_listings {l : List ClassId} : x ∈ listings c l d ↔ x = c ∧ ∃ i ∈ l, i.name = d.name := by
  rw [listings, List.mem_map]
  simp only [List.mem_filter, decide_eq_true_eq]
  exact ⟨fun ⟨i, hi, he⟩ ↦ ⟨he.symm, i, hi⟩, fun ⟨he, i, hi⟩ ↦ ⟨i, hi, he.symm⟩⟩

theorem mem_below_iff : x ∈ r.below d ↔
    x ∈ r.subclassesOf d ∨ x ∈ r.subinterfacesOf d ∨ x ∈ r.implementorsOf d := by
  rw [below, List.mem_append, List.mem_append, or_assoc]

/-- With its superclass and all its interfaces, a class is entered below all that it extends. -/
theorem Gains.mem_below_iff (h : Gains r r' t c (t.decl c).interfaces) : x ∈ r'.below d ↔
    x ∈ r.below d ∨ (x = c ∧ ∃ p, t.Extends c p ∧ p.name = d.name) := by
  rw [Registry.mem_below_iff, Registry.mem_below_iff, h.subclassesOf_eq, h.subinterfacesOf_eq,
    h.implementorsOf_eq]
  simp only [List.mem_append, mem_listings, ClassTable.Extends, Option.mem_toList, or_and_right,
    exists_or, and_or_left]
  cases (t.decl c).isInterface with
  | true => simp [or_assoc, or_comm, or_left_comm]
  | false => simp [or_assoc, or_comm, or_left_comm]

/-- What a registration that is not refused enters. -/
theorem of_add_eq (h : r.add t c = (r', none)) :
    r.find? c.name = none ∧ Gains r r' t c (t.decl c).interfaces := by
  rcases add_cases r t c with ⟨-, hadd⟩ | ⟨-, s, -, -, hadd⟩ |
    ⟨-, front, i, back, -, -, -, hadd⟩ | ⟨hfresh, -, hadd⟩
  · simp [hadd] at h
  · simp [hadd] at h
  · simp [hadd] at h
  · obtain ⟨rfl, -⟩ := Prod.mk.inj (hadd.symm.trans h)
    exact ⟨hfresh, gains_entered hfresh _⟩

/-! ## What is registered -/

/-- Two registered classes of one name are one class. -/
theorem eq_of_name_eq (hc : r.contains c = true) (hd : r.contains d = true)
    (h : c.name = d.name) : c = d := by
  rw [contains, beq_iff_eq] at hc hd
  rw [h] at hc
  exact Option.some.inj (hc.symm.trans hd)

theorem name_mem_keys (hc : r.contains c = true) : c.name ∈ r.classes.keys := by
  rw [contains, beq_iff_eq] at hc
  exact OrderedMap.mem_keys_iff.mpr ⟨c, hc⟩

theorem mem_all_of_contains (hc : r.contains c = true) : c ∈ r.all := by
  rw [contains, beq_iff_eq] at hc
  exact List.mem_map_of_mem (f := Prod.snd) (OrderedMap.mem_entries_iff.mpr hc)

theorem contains_of_add_eq (h : r.add t c = (r', none)) :
    r'.contains x = true ↔ r.contains x = true ∨ x = c :=
  (of_add_eq h).2.contains_iff x

/-- The indexes say of every registered class what it inherits from, and of no other class. -/
theorem Filled.mem_below_iff (h : Filled t r) :
    x ∈ r.below d ↔ r.contains x = true ∧ ∃ p, t.Extends x p ∧ p.name = d.name := by
  induction h with
  | empty =>
    simp [Registry.mem_below_iff, subclassesOf, subinterfacesOf, implementorsOf, contains, find?,
      OrderedMap.findD]
  | @add r r' past c hr h hsuper hinterfaces ih =>
    have hextends (p : ClassId) : past.Extends c p ↔ t.Extends c p := by
      rw [ClassTable.Extends, ClassTable.Extends, hsuper, hinterfaces]
    rw [(of_add_eq h).2.mem_below_iff, contains_of_add_eq h, ih, or_and_right]
    refine or_congr_right (and_congr_right ?_)
    rintro rfl
    simp only [hextends]

/-- The classes of a list that are registered without a refusal fill the registry. -/
theorem Filled.addAll (h : Filled t r) {l : List ClassId} (hl : addAll t r l = (r', none)) :
    Filled t r' := by
  induction l generalizing r with
  | nil =>
    obtain ⟨rfl, -⟩ := Prod.mk.inj hl
    exact h
  | cons c l ih =>
    rw [Registry.addAll] at hl
    split at hl
    · rename_i hadd
      exact ih (h.add hadd rfl rfl) hl
    · simp at hl

theorem contains_of_addAll_eq {l : List ClassId} (hl : addAll t r l = (r', none)) :
    r'.contains x = true ↔ r.contains x = true ∨ x ∈ l := by
  induction l generalizing r with
  | nil =>
    obtain ⟨rfl, -⟩ := Prod.mk.inj hl
    simp
  | cons c l ih =>
    rw [Registry.addAll] at hl
    split at hl
    · rename_i hadd
      rw [ih hl, contains_of_add_eq hadd, or_assoc, List.mem_cons]
    · simp at hl

/-- The registry of the classes of a list, up to the first that is refused. -/
def withClasses (t : ClassTable) (l : List ClassId) : Registry := (addAll t {} l).1

theorem filled_withClasses {l : List ClassId} (h : (addAll t {} l).2 = none) :
    Filled t (withClasses t l) := Filled.empty.addAll (Prod.ext rfl h)

/-- The registry of a list has the classes of the list, and no others. -/
theorem of_ofList_eq_ok {l : List ClassId} (h : ofList t l = .ok r) :
    Filled t r ∧ ∀ x, r.contains x = true ↔ x ∈ l := by
  rw [ofList] at h
  split at h
  · rename_i hall
    obtain rfl := Except.ok.inj h
    refine ⟨Filled.empty.addAll hall, fun x ↦ ?_⟩
    rw [contains_of_addAll_eq hall]
    simp [contains, find?]
  · simp at h

end ProgramAnalysis.Registry
