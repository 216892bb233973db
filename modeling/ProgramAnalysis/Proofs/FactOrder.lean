import ProgramAnalysis.Lattice.ConstFact
import ProgramAnalysis.Proofs.Bindings
import ProgramAnalysis.Proofs.ValueOrder

/-!
# The order of facts about constants

Facts are ordered by what they say about each variable. Meeting one fact into another yields the
least fact above both, and a replacement reports a change exactly if the two facts say different
things.

A *canonical* fact stores canonical values only, and none that is undefined. All facts of an
iteration are canonical, and for them the order is antisymmetric: facts that say the same have the
same bindings.
-/

namespace ProgramAnalysis.ConstFact

/-! ## What the operations do to `get` -/

@[simp] theorem get_empty (x : Var) : (∅ : ConstFact).get x = .unseen := rfl

theorem get_eq_of_find?_eq_some {f : ConstFact} {x : Var} {v : Value}
    (h : f.bindings.find? x = some v) : f.get x = v := by
  rw [get, OrderedMap.findD, h, Option.getD_some]

theorem get_eq_of_find?_eq_none {f : ConstFact} {x : Var} (h : f.bindings.find? x = none) :
    f.get x = .unseen := by
  rw [get, OrderedMap.findD, h, Option.getD_none]

theorem get_remove (f : ConstFact) (x y : Var) :
    (f.remove x).2.get y = if x = y then .unseen else f.get y := by
  simp only [remove, get, OrderedMap.findD, OrderedMap.find?_erase]
  split <;> rfl

theorem get_update (f : ConstFact) (x y : Var) (v : Value) :
    (f.update x v).2.get y =
      if x = y then (if v.isUndef then .unseen else v) else f.get y := by
  rw [update]
  by_cases hv : v.isUndef = true
  · rw [if_pos hv, if_pos hv]
    exact get_remove f x y
  · rw [if_neg hv, if_neg hv]
    exact OrderedMap.findD_insert _ _ _ _ _

theorem le_get_update (f : ConstFact) (x : Var) (v : Value) : v ≤ (f.update x v).2.get x := by
  rw [get_update, if_pos rfl]
  split
  · rename_i h
    exact Value.le_of_isUndef h _
  · exact le_rfl

theorem get_update_le (f : ConstFact) (x : Var) (v : Value) : (f.update x v).2.get x ≤ v := by
  rw [get_update, if_pos rfl]
  split
  · exact Value.unseen_le v
  · exact le_rfl

theorem get_update_of_ne (f : ConstFact) {x y : Var} (h : x ≠ y) (v : Value) :
    (f.update x v).2.get y = f.get y := by
  rw [get_update, if_neg h]

/-! ## Updating by the bindings of another fact

Meeting one fact into another and copying one from another both go through the bindings of the one
and update the other by each. The keys are distinct, so the binding of a variable finds the value
that the variable had in the beginning, and no later binding touches it. -/

section UpdateBy

/-- Updates a variable to what `h` makes of the value that is offered and the value that it has. -/
def updateBy (h : Value → Value → Value) (t : ConstFact) (e : Var × Value) : ConstFact :=
  (t.update e.1 (h e.2 (t.get e.1))).2

variable {h : Value → Value → Value} {x : Var} {v : Value} {l : List (Var × Value)}

theorem get_foldl_updateBy_of_notMem (hx : x ∉ l.map Prod.fst) (t : ConstFact) :
    (l.foldl (updateBy h) t).get x = t.get x := by
  induction l generalizing t with
  | nil => rfl
  | cons e l ih =>
    rw [List.map_cons, List.mem_cons, not_or] at hx
    rw [List.foldl_cons, ih hx.2]
    exact get_update_of_ne t (Ne.symm hx.1) _

theorem get_foldl_updateBy_of_mem (hl : (l.map Prod.fst).Nodup) (hx : (x, v) ∈ l)
    (t : ConstFact) :
    (l.foldl (updateBy h) t).get x = (t.update x (h v (t.get x))).2.get x := by
  induction l generalizing t with
  | nil => simp at hx
  | cons e l ih =>
    rw [List.map_cons, List.nodup_cons] at hl
    rw [List.foldl_cons]
    rcases List.mem_cons.mp hx with rfl | hx
    · exact get_foldl_updateBy_of_notMem hl.1 _
    · have hne : e.1 ≠ x := fun he ↦ hl.1 (he ▸ List.mem_map_of_mem (f := Prod.fst) hx)
      rw [ih hl.2 hx, get_update, get_update, if_pos rfl, if_pos rfl, updateBy,
        get_update_of_ne t hne]

end UpdateBy

theorem get_meetInto_of_none {f : ConstFact} {x : Var} (h : f.bindings.find? x = none)
    (t : ConstFact) : (f.meetInto t).get x = t.get x :=
  get_foldl_updateBy_of_notMem (h := Value.meet) (OrderedMap.find?_eq_none_iff.mp h) t

theorem get_meetInto_of_some {f : ConstFact} {x : Var} {v : Value}
    (h : f.bindings.find? x = some v) (t : ConstFact) :
    (f.meetInto t).get x = (t.update x (v.meet (t.get x))).2.get x :=
  get_foldl_updateBy_of_mem (h := Value.meet) f.bindings.nodup_keys
    (OrderedMap.mem_entries_iff.mpr h) t

/-! ## The order -/

instance : Preorder ConstFact where
  le f g := ∀ x, f.get x ≤ g.get x
  le_refl f x := le_refl (f.get x)
  le_trans _ _ _ hfg hgh x := (hfg x).trans (hgh x)

theorem le_def {f g : ConstFact} : f ≤ g ↔ ∀ x, f.get x ≤ g.get x := Iff.rfl

theorem empty_le (f : ConstFact) : (∅ : ConstFact) ≤ f := fun x ↦ Value.unseen_le (f.get x)

theorem le_meetInto_left (f t : ConstFact) : f ≤ f.meetInto t := by
  intro x
  cases h : f.bindings.find? x with
  | none => exact get_eq_of_find?_eq_none h ▸ Value.unseen_le _
  | some v =>
    rw [get_meetInto_of_some h, get_eq_of_find?_eq_some h]
    exact (Value.le_meet_left v _).trans (le_get_update _ _ _)

theorem le_meetInto_right (f t : ConstFact) : t ≤ f.meetInto t := by
  intro x
  cases h : f.bindings.find? x with
  | none => rw [get_meetInto_of_none h]
  | some v =>
    rw [get_meetInto_of_some h]
    exact (Value.le_meet_right v _).trans (le_get_update _ _ _)

theorem meetInto_le {f t u : ConstFact} (hf : f ≤ u) (ht : t ≤ u) : f.meetInto t ≤ u := by
  intro x
  cases h : f.bindings.find? x with
  | none => rw [get_meetInto_of_none h]; exact ht x
  | some v =>
    rw [get_meetInto_of_some h]
    refine (get_update_le _ _ _).trans (Value.meet_le ?_ (ht x))
    rw [← get_eq_of_find?_eq_some h]
    exact hf x

/-! ## Replacing a fact -/

theorem same_iff {f g : ConstFact} :
    f.same g = true ↔ ∀ x, f.bindings.find? x = g.bindings.find? x :=
  OrderedMap.sameBindings_iff

theorem get_eq_of_same {f g : ConstFact} (h : f.same g = true) (x : Var) : f.get x = g.get x := by
  rw [get, get, OrderedMap.findD, OrderedMap.findD, same_iff.mp h]

theorem get_replaceWith (f g : ConstFact) (x : Var) : (f.replaceWith g).2.get x = g.get x := by
  rw [replaceWith, OrderedMap.replaceWith]
  split
  · rename_i h
    exact get_eq_of_same h x
  · rfl

theorem replaceWith_fst (f g : ConstFact) : (f.replaceWith g).1 = !f.same g := by
  rw [replaceWith, OrderedMap.replaceWith, same]
  split
  · rename_i h
    rw [h]
    rfl
  · rename_i h
    rw [Bool.eq_false_iff.mpr h]
    rfl

theorem replaceWith_snd_eq_of_unchanged {f g : ConstFact} (h : (f.replaceWith g).1 = false) :
    (f.replaceWith g).2 = f := by
  rw [replaceWith, OrderedMap.replaceWith] at h ⊢
  split at h
  · rename_i hs
    rw [if_pos hs]
  · simp at h

theorem replaceWith_snd_eq_or (f g : ConstFact) :
    (f.replaceWith g).2 = f ∨ (f.replaceWith g).2 = g := by
  rw [replaceWith, OrderedMap.replaceWith]
  split
  · exact Or.inl rfl
  · exact Or.inr rfl

/-! ## Canonical facts -/

/-- Every stored value is canonical and defined. -/
def Canonical (f : ConstFact) : Prop :=
  ∀ x v, f.bindings.find? x = some v → v.Canonical ∧ v.isUndef = false

theorem canonical_empty : (∅ : ConstFact).Canonical := by
  intro x v h
  simp [show (∅ : ConstFact).bindings.find? x = none from rfl] at h

theorem Canonical.get {f : ConstFact} (hf : f.Canonical) (x : Var) : (f.get x).Canonical := by
  cases h : f.bindings.find? x with
  | none => exact get_eq_of_find?_eq_none h ▸ Value.canonical_unseen
  | some v => exact get_eq_of_find?_eq_some h ▸ (hf x v h).1

theorem Canonical.remove {f : ConstFact} (hf : f.Canonical) (x : Var) :
    (f.remove x).2.Canonical := by
  intro y v h
  rw [ConstFact.remove, OrderedMap.find?_erase] at h
  split at h
  · simp at h
  · exact hf y v h

theorem Canonical.update {f : ConstFact} (hf : f.Canonical) (x : Var) {v : Value}
    (hv : v.Canonical) : (f.update x v).2.Canonical := by
  rw [ConstFact.update]
  by_cases hu : v.isUndef = true
  · rw [if_pos hu]
    exact hf.remove x
  · rw [if_neg hu]
    intro y w h
    rw [OrderedMap.find?_insert] at h
    split at h
    · exact Option.some.inj h ▸ ⟨hv, Bool.eq_false_iff.mpr hu⟩
    · exact hf y w h

theorem Canonical.foldl_updateBy {h : Value → Value → Value}
    (hh : ∀ v w, v.Canonical → w.Canonical → (h v w).Canonical) {l : List (Var × Value)}
    (hl : ∀ e ∈ l, e.2.Canonical) {t : ConstFact} (ht : t.Canonical) :
    (l.foldl (updateBy h) t).Canonical := by
  induction l generalizing t with
  | nil => exact ht
  | cons e l ih =>
    rw [List.forall_mem_cons] at hl
    exact ih hl.2 (ht.update e.1 (hh _ _ hl.1 (ht.get e.1)))

theorem Canonical.of_mem_entries {f : ConstFact} (hf : f.Canonical) {e : Var × Value}
    (he : e ∈ f.bindings.entries) : e.2.Canonical ∧ e.2.isUndef = false :=
  hf e.1 e.2 (OrderedMap.mem_entries_iff.mp he)

theorem Canonical.meetInto {f t : ConstFact} (hf : f.Canonical) (ht : t.Canonical) :
    (f.meetInto t).Canonical :=
  ht.foldl_updateBy (h := Value.meet) (fun _ _ ↦ Value.canonical_meet)
    fun _ he ↦ (hf.of_mem_entries he).1

theorem Canonical.get_meetInto {f t : ConstFact} (hf : f.Canonical) (ht : t.Canonical) (x : Var) :
    (f.meetInto t).get x = (f.get x).meet (t.get x) := by
  cases h : f.bindings.find? x with
  | none =>
    rw [get_meetInto_of_none h, get_eq_of_find?_eq_none h]
    exact (Value.unseen_meet (ht.get x)).symm
  | some v =>
    have hv := get_eq_of_find?_eq_some h
    rw [get_meetInto_of_some h, get_update, if_pos rfl, hv]
    split
    · rename_i hundef
      have hmeet := Value.canonical_meet (hf.get x) (ht.get x)
      rw [hv] at hmeet
      exact (Value.eq_of_canonical_of_isUndef hmeet hundef).symm
    · rfl

theorem Canonical.replaceWith {f g : ConstFact} (hf : f.Canonical) (hg : g.Canonical) :
    (f.replaceWith g).2.Canonical := by
  rcases replaceWith_snd_eq_or f g with h | h
  · rw [h]
    exact hf
  · rw [h]
    exact hg

theorem Canonical.find?_eq_none_iff {f : ConstFact} (hf : f.Canonical) {x : Var} :
    f.bindings.find? x = none ↔ f.get x = .unseen := by
  refine ⟨get_eq_of_find?_eq_none, fun h ↦ ?_⟩
  cases hx : f.bindings.find? x with
  | none => rfl
  | some v =>
    have hv := (hf x v hx).2
    rw [← get_eq_of_find?_eq_some hx, h] at hv
    simp [Value.unseen, Value.isUndef] at hv

/-- Canonical facts that say the same about each variable have the same bindings. -/
theorem Canonical.same_iff_get {f g : ConstFact} (hf : f.Canonical) (hg : g.Canonical) :
    f.same g = true ↔ ∀ x, f.get x = g.get x := by
  refine ⟨get_eq_of_same, fun h ↦ same_iff.mpr fun x ↦ ?_⟩
  cases hx : f.bindings.find? x with
  | none => exact (hg.find?_eq_none_iff.mpr (h x ▸ get_eq_of_find?_eq_none hx)).symm
  | some v =>
    have hne : g.bindings.find? x ≠ none := by
      rw [Ne, hg.find?_eq_none_iff, ← h x, ← hf.find?_eq_none_iff, hx]
      simp
    rw [OrderedMap.find?_eq_some_findD .unseen hne]
    exact congrArg some ((get_eq_of_find?_eq_some hx).symm.trans (h x))

/-- Canonical facts that lie below each other have the same bindings. -/
theorem Canonical.same_iff_le {f g : ConstFact} (hf : f.Canonical) (hg : g.Canonical) :
    f.same g = true ↔ f ≤ g ∧ g ≤ f := by
  rw [hf.same_iff_get hg]
  refine ⟨fun h ↦ ⟨fun x ↦ (h x).le, fun x ↦ (h x).ge⟩, fun h x ↦ ?_⟩
  exact Value.eq_of_le_of_le (hf.get x) (hg.get x) (h.1 x) (h.2 x)

end ProgramAnalysis.ConstFact
