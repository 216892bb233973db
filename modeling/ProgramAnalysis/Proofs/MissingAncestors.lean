import ProgramAnalysis.Proofs.Resolution

/-!
# Resolution across missing ancestors

Searches upwards follow superclasses and interfaces whether or not these are registered. The search
downwards follows the indexes, and a class gets into the indexes when it is registered. A class that
is not registered may have registered classes below it, but nothing leads down to it.

So the two searches agree about a subclass only if the way up from it passes through registered
classes, its end apart, which need not be registered. A call loses the methods of all other
subclasses, unless one of those that are found dispatches to the same method.
-/

namespace ProgramAnalysis.Registry

open Relation

variable {t : ClassTable} {r : Registry} {call : Call}

/-- Among classes of different names whose chains of superclasses do not go round in circles, a
virtual or interface call resolves to what the classes linked to its target dispatch to. In
particular it does not miss what a registered subclass dispatches to, as long as no class between
the two is missing. -/
theorem Filled.exists_resolve_mem_iff_linked (h : Filled t r) {S : Set ClassId}
    (hregistered : ∀ x, r.contains x = true → x ∈ S) (howner : call.target.owner ∈ S)
    (hclosed : ∀ a ∈ S, ∀ b, t.Extends a b → b ∈ S) (hinj : S.InjOn ClassId.name)
    (hacyclic : ∀ a ∈ S, ¬TransGen (fun a b ↦ (t.decl a).superclass = some b) a a)
    (hkind : call.kind = .virtual ∨ call.kind = .interface) :
    ∃ l, r.resolve t call = .ok l ∧ l.Nodup ∧
      (∀ m, m ∈ l ↔ ∃ x, r.Linked t x call.target.owner ∧
        t.dispatch x call.target.signature = .ok (some m)) ∧
      ∀ x, r.contains x = true → t.isSubclass call.target.owner x = true →
        (∀ p, p ≠ call.target.owner → ReflTransGen t.Extends x p →
          ReflTransGen t.Extends p call.target.owner → r.contains p = true) →
        ∀ m, t.dispatch x call.target.signature = .ok (some m) → m ∈ l := by
  have hreceivers : ∀ x, x ∈ r.receivers call ↔ r.Linked t x call.target.owner := by
    intro x
    rw [← h.mem_cone_iff_linked hregistered howner hclosed hinj, receivers, if_pos]
    rcases hkind with hkind | hkind <;> rw [hkind] <;> rfl
  have hdispatch : ∀ x ∈ r.receivers call, ∃ o, t.dispatch x call.target.signature = .ok o := by
    intro x hx
    apply exists_dispatch_of_closed hclosed hacyclic
    rcases ((hreceivers x).mp hx).eq_or_contains with rfl | hx
    · exact howner
    · exact hregistered x hx
  obtain ⟨l, hl⟩ := exists_resolve hdispatch
  obtain ⟨hnodup, hmem⟩ := of_resolve_eq_ok hl
  have hlinked : ∀ m, m ∈ l ↔ ∃ x, r.Linked t x call.target.owner ∧
      t.dispatch x call.target.signature = .ok (some m) := by
    intro m
    rw [hmem]
    exact exists_congr fun x ↦ and_congr_left' (hreceivers x)
  refine ⟨l, hl, hnodup, hlinked, fun x hx hsubclass hbetween m hm ↦ ?_⟩
  have hpath : ReflTransGen t.Extends x call.target.owner :=
    (ClassTable.isSubclass_iff hclosed hinj (hregistered x hx)).mp hsubclass
  exact (hlinked m).mpr ⟨x, linked_of_reflTransGen hpath hbetween, hm⟩

/-! ## A chain with a gap

`Bottom` extends `Middle`, which extends `Top`. The two ends have a method `area`, and `Middle` is
not registered. -/

/-- The classes of the chain. -/
def chain : ClassTable where
  classes := .ofList
    [(⟨"Top", 0⟩, { methods := .ofList [(area, ⟨false, false, 0, none⟩)] }),
      (⟨"Middle", 1⟩, { superclass := some ⟨"Top", 0⟩ }),
      (⟨"Bottom", 2⟩,
        { superclass := some ⟨"Middle", 1⟩
          methods := .ofList [(area, ⟨false, false, 0, none⟩)] })]

/-- The registry of the two ends. -/
def endsRegistry : Registry := withClasses chain [⟨"Top", 0⟩, ⟨"Bottom", 2⟩]

theorem filled_endsRegistry : Filled chain endsRegistry := filled_withClasses (by decide)

theorem acyclic_chain (c : ClassId) :
    ¬TransGen (fun a b ↦ (chain.decl a).superclass = some b) c c :=
  ClassTable.not_transGen_superclass (by decide) c

/-- A call on `Middle` finds the method of `Bottom`, though `Middle` is not registered. -/
theorem exists_resolve_mem_iff_linked_middle :
    ∃ l, endsRegistry.resolve chain (areaOf ⟨"Middle", 1⟩) = .ok l ∧ ⟨⟨"Bottom", 2⟩, area⟩ ∈ l := by
  have hregistered : ∀ x, endsRegistry.contains x = true → x ∈ chain.classes.keys := by
    have hall : ∀ x ∈ endsRegistry.all, x ∈ chain.classes.keys := by decide
    exact fun x hx ↦ hall x (mem_all_of_contains hx)
  have hclosed : ∀ a ∈ chain.classes.keys, ∀ b, chain.Extends a b → b ∈ chain.classes.keys := by
    have hall : ∀ a ∈ chain.classes.keys, ∀ b ∈ chain.parents a, b ∈ chain.classes.keys := by
      decide
    exact fun a ha b hb ↦ hall a ha b (ClassTable.mem_parents_iff.mpr hb)
  have hinj : {x | x ∈ chain.classes.keys}.InjOn ClassId.name := by
    have hnodup : (chain.classes.keys.map ClassId.name).Nodup := by decide
    exact fun _ ha _ hb hname ↦ List.inj_on_of_nodup_map hnodup ha hb hname
  have howner : (areaOf ⟨"Middle", 1⟩).target.owner ∈ chain.classes.keys := by decide
  have hkind : (areaOf ⟨"Middle", 1⟩).kind = .virtual ∨ (areaOf ⟨"Middle", 1⟩).kind = .interface :=
    Or.inl rfl
  obtain ⟨l, hl, -, hlinked, -⟩ := filled_endsRegistry.exists_resolve_mem_iff_linked
    (S := {x | x ∈ chain.classes.keys}) hregistered howner hclosed hinj
    (fun a _ ↦ acyclic_chain a) hkind
  have hbottom : endsRegistry.Linked chain ⟨"Bottom", 2⟩ ⟨"Middle", 1⟩ :=
    .single ⟨by decide, Or.inl (by decide)⟩
  exact ⟨l, hl, (hlinked _).mpr ⟨⟨"Bottom", 2⟩, hbottom, by decide⟩⟩

/-- A call on `Top` does not find it: `Bottom` is registered, it is a subclass of `Top`, and it
dispatches to its own method, but the call resolves to the method of `Top` alone. -/
theorem resolve_misses_bottom :
    Filled chain endsRegistry ∧ (chain.classes.keys.map ClassId.name).Nodup ∧
      (∀ c, ¬TransGen (fun a b ↦ (chain.decl a).superclass = some b) c c) ∧
      endsRegistry.contains ⟨"Bottom", 2⟩ = true ∧
      chain.isSubclass ⟨"Top", 0⟩ ⟨"Bottom", 2⟩ = true ∧
      chain.dispatch ⟨"Bottom", 2⟩ area = .ok (some ⟨⟨"Bottom", 2⟩, area⟩) ∧
      endsRegistry.resolve chain (areaOf ⟨"Top", 0⟩) = .ok [⟨⟨"Top", 0⟩, area⟩] :=
  ⟨filled_endsRegistry, by decide, acyclic_chain, by decide⟩

end ProgramAnalysis.Registry
