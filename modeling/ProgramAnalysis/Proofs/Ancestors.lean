import Mathlib.Data.List.Perm.Subperm
import Mathlib.Data.Set.Function
import Mathlib.Logic.Relation
import ProgramAnalysis.Hierarchy.Ancestry
import ProgramAnalysis.Proofs.Bindings

/-!
# Searches that look upwards

Both searches through the ancestors of a class are bounded by a number that is read off the table,
and neither bound is ever reached. The search for a method passes no class twice as long as it does
not go round in circles, and every class with a superclass is in the table. The search for an
ancestor takes each class off the pending ones that was put there, and a class puts those above it
there only once. So the bounds are dealt with once: each search is stated as a relation without a
bound, with a rule for every turn that it can take, and whatever is said of its answer is said by
induction on the rules.

The second search recognises by its name what it has seen. It is complete where no two classes have
one name: then a class that is passed over has been expanded itself, and every way from it to the
goal leads through a class that is still pending.
-/

namespace ProgramAnalysis.ClassTable

open Relation

variable {t : ClassTable} {c d : ClassId} {s : Signature}

/-! ## Classes outside the table -/

theorem decl_eq_of_notMem (h : c ∉ t.classes.keys) : t.decl c = {} := by
  rw [decl, OrderedMap.findD, OrderedMap.find?_eq_none_iff.mpr h, Option.getD_none]

theorem parents_eq_nil_of_notMem (h : c ∉ t.classes.keys) : t.parents c = [] := by
  rw [parents, decl_eq_of_notMem h]
  rfl

theorem mem_keys_of_superclass (h : (t.decl c).superclass = some d) : c ∈ t.classes.keys := by
  by_contra hc
  rw [decl_eq_of_notMem hc] at h
  simp at h

/-- Chains of superclasses in which the serial numbers fall do not go round in circles. -/
theorem not_transGen_superclass
    (h : ∀ a ∈ t.classes.keys, ∀ b ∈ (t.decl a).superclass, b.serial < a.serial) (c : ClassId) :
    ¬TransGen (fun a b ↦ (t.decl a).superclass = some b) c c := by
  have hlt : ∀ d, TransGen (fun a b ↦ (t.decl a).superclass = some b) c d →
      d.serial < c.serial := by
    intro d hpath
    induction hpath with
    | single hstep => exact h _ (mem_keys_of_superclass hstep) _ hstep
    | tail _ hstep ih => exact (h _ (mem_keys_of_superclass hstep) _ hstep).trans ih
  exact fun hcycle ↦ Nat.lt_irrefl _ (hlt c hcycle)

/-! ## The search for a method -/

/-- A class declares a method of the signature itself, and not as an abstract one. -/
def Implements (t : ClassTable) (c : ClassId) (s : Signature) : Prop :=
  ∃ m, (t.decl c).methods.find? s = some m ∧ m.isAbstract = false

theorem concrete?_eq_some_iff {m : MethodRef} :
    t.concrete? c s = some m ↔ t.Implements c s ∧ m = ⟨c, s⟩ := by
  rw [concrete?, Option.bind_eq_some_iff]
  constructor
  · rintro ⟨decl, hfind, h⟩
    split at h
    · simp at h
    · rename_i habstract
      exact ⟨⟨decl, hfind, Bool.eq_false_iff.mpr habstract⟩, (Option.some.inj h).symm⟩
  · rintro ⟨⟨decl, hfind, habstract⟩, rfl⟩
    exact ⟨decl, hfind, by rw [habstract]; rfl⟩

theorem concrete?_eq_none_iff : t.concrete? c s = none ↔ ¬t.Implements c s := by
  rw [Option.eq_none_iff_forall_ne_some]
  refine ⟨fun h himp ↦ h ⟨c, s⟩ (concrete?_eq_some_iff.mpr ⟨himp, rfl⟩), fun h m hm ↦ ?_⟩
  exact h (concrete?_eq_some_iff.mp hm).1

/-- A class hands the search for a method on to its superclass. -/
def HandsOn (t : ClassTable) (s : Signature) (c d : ClassId) : Prop :=
  t.concrete? c s = none ∧ (t.decl c).superclass = some d

/-- A search goes round in circles only where the chain of superclasses does. -/
theorem not_transGen_handsOn (h : ¬TransGen (fun a b ↦ (t.decl a).superclass = some b) c c) :
    ¬TransGen (t.HandsOn s) c c :=
  fun hcycle ↦ h (TransGen.mono (fun _ _ hstep ↦ hstep.2) _ _ hcycle)

/-- A search for a method that comes to an end. It has passed the classes of a list and is at a
class, and it goes on until a class comes up again, a class has a concrete method, or there is no
superclass. -/
inductive Search (t : ClassTable) (s : Signature) (start : ClassId) :
    List ClassId → ClassId → Except HierarchyError (Option MethodRef) → Prop
  | meetsAgain {seen : List ClassId} {c : ClassId} (hseen : c ∈ seen) :
    Search t s start seen c (.error (.cyclic start))
  | finds {seen : List ClassId} {c : ClassId} {m : MethodRef} (hfresh : c ∉ seen)
    (hconcrete : t.concrete? c s = some m) : Search t s start seen c (.ok (some m))
  | runsOut {seen : List ClassId} {c : ClassId} (hfresh : c ∉ seen)
    (hconcrete : t.concrete? c s = none) (hsuper : (t.decl c).superclass = none) :
    Search t s start seen c (.ok none)
  | handsOn {seen : List ClassId} {c d : ClassId} {r : Except HierarchyError (Option MethodRef)}
    (hfresh : c ∉ seen) (hstep : t.HandsOn s c d) (hrest : Search t s start (c :: seen) d r) :
    Search t s start seen c r

/-- The bound is never reached: the classes that have been passed are different classes of the
table. -/
theorem search_dispatchFrom {start : ClassId} {fuel : ℕ} {seen : List ClassId}
    (hnodup : seen.Nodup) (hkeys : ∀ x ∈ seen, x ∈ t.classes.keys)
    (hfuel : t.classes.size < fuel + seen.length) :
    t.Search s start seen c (t.dispatchFrom s start fuel seen c) := by
  induction fuel generalizing seen c with
  | zero =>
    -- more classes have been passed than there are in the table
    have hlength : seen.length ≤ t.classes.keys.length := (hnodup.subperm hkeys).length_le
    rw [OrderedMap.length_keys] at hlength
    omega
  | succ fuel ih =>
    rw [dispatchFrom]
    by_cases hseen : c ∈ seen
    · rw [if_pos hseen]
      exact .meetsAgain hseen
    rw [if_neg hseen]
    cases hconcrete : t.concrete? c s with
    | some m => exact .finds hseen hconcrete
    | none =>
      cases hsuper : (t.decl c).superclass with
      | none => exact .runsOut hseen hconcrete hsuper
      | some d =>
        refine .handsOn hseen ⟨hconcrete, hsuper⟩ (ih (List.nodup_cons.mpr ⟨hseen, hnodup⟩) ?_ ?_)
        · exact List.forall_mem_cons.mpr ⟨mem_keys_of_superclass hsuper, hkeys⟩
        · rw [List.length_cons]
          omega

theorem search_dispatch (t : ClassTable) (c : ClassId) (s : Signature) :
    t.Search s c [] c (t.dispatch c s) :=
  search_dispatchFrom List.nodup_nil (by simp) (by simp)

theorem Search.exists_ok {start : ClassId} {seen : List ClassId}
    {r : Except HierarchyError (Option MethodRef)} (h : t.Search s start seen c r)
    (hseen : ∀ x ∈ seen, TransGen (t.HandsOn s) x c)
    (hacyclic : ∀ x, ReflTransGen (t.HandsOn s) c x → ¬TransGen (t.HandsOn s) x x) :
    ∃ o, r = .ok o := by
  induction h with
  | @meetsAgain _ c hc => exact absurd (hseen c hc) (hacyclic c .refl)
  | @finds _ _ m _ _ => exact ⟨some m, rfl⟩
  | runsOut => exact ⟨none, rfl⟩
  | @handsOn _ c d _ _ hstep _ ih =>
    refine ih (fun x hx ↦ ?_) fun x hx ↦ hacyclic x (hx.head hstep)
    rcases List.mem_cons.mp hx with rfl | hx
    · exact .single hstep
    · exact (hseen x hx).tail hstep

/-- The search for a method finds one or runs out of classes if it does not go round in circles. -/
theorem exists_dispatch
    (hacyclic : ∀ x, ReflTransGen (t.HandsOn s) c x → ¬TransGen (t.HandsOn s) x x) :
    ∃ o, t.dispatch c s = .ok o :=
  (search_dispatch t c s).exists_ok (by simp) hacyclic

theorem Search.exists_concrete {start : ClassId} {seen : List ClassId} {m : MethodRef}
    (h : t.Search s start seen c (.ok (some m))) : ∃ d, t.concrete? d s = some m := by
  generalize hr : Except.ok (some m) = r at h
  induction h with
  | meetsAgain => simp at hr
  | @finds _ c _ _ hconcrete =>
    obtain rfl := Option.some.inj (Except.ok.inj hr)
    exact ⟨c, hconcrete⟩
  | runsOut => simp at hr
  | handsOn _ _ _ ih => exact ih hr

/-- What is found is a concrete method of some class. -/
theorem exists_concrete_of_dispatch {m : MethodRef} (h : t.dispatch c s = .ok (some m)) :
    ∃ d, t.concrete? d s = some m := by
  have hsearch := search_dispatch t c s
  rw [h] at hsearch
  exact hsearch.exists_concrete

/-! ## The search for an ancestor -/

/-- A class has another one as its superclass or among its interfaces. -/
def Extends (t : ClassTable) (c d : ClassId) : Prop :=
  (t.decl c).superclass = some d ∨ d ∈ (t.decl c).interfaces

theorem mem_parents_iff : d ∈ t.parents c ↔ t.Extends c d := by
  rw [parents, List.mem_append, List.mem_reverse, Option.mem_toList, or_comm, Extends]

/-- A search for an ancestor that comes to an end. It has seen some names and has classes left to
look at, and it goes on until it comes to the goal or no class is left. -/
inductive Ascent (t : ClassTable) (goal : ClassId) : List String → List ClassId → Bool → Prop
  | exhausts {seen : List String} : Ascent t goal seen [] false
  | arrives {seen : List String} {pending : List ClassId} :
    Ascent t goal seen (goal :: pending) true
  | passesOver {seen : List String} {c : ClassId} {pending : List ClassId} {r : Bool}
    (hgoal : c ≠ goal) (hseen : c.name ∈ seen) (hrest : Ascent t goal seen pending r) :
    Ascent t goal seen (c :: pending) r
  | expands {seen : List String} {c : ClassId} {pending : List ClassId} {r : Bool}
    (hgoal : c ≠ goal) (hfresh : c.name ∉ seen)
    (hrest : Ascent t goal (c.name :: seen) (t.parents c ++ pending) r) :
    Ascent t goal seen (c :: pending) r

/-- The classes that can still be put among the pending ones: those above the classes of the table
whose names have not been seen. -/
def stillAbove (t : ClassTable) (seen : List String) : List ClassId :=
  (t.classes.keys.filter fun c ↦ c.name ∉ seen).flatMap t.parents

theorem length_stillAbove_cons_add_le {seen : List String} (hc : c.name ∉ seen) :
    (t.stillAbove (c.name :: seen)).length + (t.parents c).length ≤ (t.stillAbove seen).length := by
  set unseen := t.classes.keys.filter fun d ↦ d.name ∉ seen with hunseen
  have hkept : (t.classes.keys.filter fun d ↦ d.name ∉ c.name :: seen) =
      unseen.filter fun d ↦ d.name ≠ c.name := by
    rw [hunseen, List.filter_filter]
    refine List.filter_congr fun d _ ↦ ?_
    simp [not_or]
  -- the unseen classes are those of another name and those of this one, `c` among them
  have hsplit : ((unseen.filter fun d ↦ d.name ≠ c.name).flatMap t.parents).length +
      ((unseen.filter fun d ↦ !decide (d.name ≠ c.name)).flatMap t.parents).length =
      (unseen.flatMap t.parents).length := by
    rw [← List.length_append, ← List.flatMap_append]
    exact ((List.filter_append_perm _ unseen).flatMap_right t.parents).length_eq
  have hparents : (t.parents c).length ≤
      ((unseen.filter fun d ↦ !decide (d.name ≠ c.name)).flatMap t.parents).length := by
    by_cases hkeys : c ∈ t.classes.keys
    · refine (List.infix_flatMap_of_mem ?_ t.parents).length_le
      simp [hunseen, hkeys, hc]
    · rw [parents_eq_nil_of_notMem hkeys]
      exact Nat.zero_le _
  rw [stillAbove, hkept, stillAbove, ← hunseen, ← hsplit]
  exact Nat.add_le_add_left hparents _

/-- The bound is never reached: what is pending or can still become so grows less with each turn. -/
theorem ascent_searchUp {goal : ClassId} {fuel : ℕ} {seen : List String} {pending : List ClassId}
    (hfuel : pending.length + (t.stillAbove seen).length ≤ fuel) :
    t.Ascent goal seen pending (t.searchUp goal fuel seen pending) := by
  induction fuel generalizing seen pending with
  | zero =>
    have hnil : pending = [] := List.length_eq_zero_iff.mp (by omega)
    subst hnil
    exact .exhausts
  | succ fuel ih =>
    cases pending with
    | nil => exact .exhausts
    | cons c pending =>
      rw [List.length_cons] at hfuel
      rw [searchUp]
      by_cases hgoal : c = goal
      · rw [if_pos hgoal, hgoal]
        exact .arrives
      rw [if_neg hgoal]
      by_cases hseen : c.name ∈ seen
      · rw [if_pos hseen]
        exact .passesOver hgoal hseen (ih (by omega))
      · rw [if_neg hseen]
        have hbound := length_stillAbove_cons_add_le (t := t) hseen
        refine .expands hgoal hseen (ih ?_)
        rw [List.length_append]
        omega

theorem ascent_isSubclass (t : ClassTable) (super sub : ClassId) :
    t.Ascent super [] [sub] (t.isSubclass super sub) :=
  ascent_searchUp (by simp [stillAbove, searchBound])

/-- A goal that is found is above a class that was pending. -/
theorem Ascent.exists_path {goal : ClassId} {seen : List String} {pending : List ClassId}
    (h : t.Ascent goal seen pending true) : ∃ c ∈ pending, ReflTransGen t.Extends c goal := by
  generalize hr : true = r at h
  induction h with
  | exhausts => simp at hr
  | arrives => exact ⟨goal, List.mem_cons_self, .refl⟩
  | @passesOver _ c _ _ _ _ _ ih =>
    obtain ⟨d, hd, hpath⟩ := ih hr
    exact ⟨d, List.mem_cons_of_mem c hd, hpath⟩
  | @expands _ c _ _ _ _ _ ih =>
    obtain ⟨d, hd, hpath⟩ := ih hr
    rcases List.mem_append.mp hd with hd | hd
    · exact ⟨c, List.mem_cons_self, hpath.head (mem_parents_iff.mp hd)⟩
    · exact ⟨d, List.mem_cons_of_mem c hd, hpath⟩

/-- A search for `goal` has expanded some classes of `S`, without the goal, and still has to look at
others: all that is above an expanded class and has not been expanded is pending. -/
structure Searching (t : ClassTable) (S : Set ClassId) (goal : ClassId)
    (expanded pending : List ClassId) : Prop where
  expanded_subset : ∀ a ∈ expanded, a ∈ S
  pending_subset : ∀ a ∈ pending, a ∈ S
  covers : ∀ a ∈ expanded, ∀ b, t.Extends a b → b ∈ expanded ∨ b ∈ pending
  goal_notMem : goal ∉ expanded

namespace Searching

variable {S : Set ClassId} {goal : ClassId} {expanded pending : List ClassId}

/-- From an expanded class, every way to the goal leads through a class that is still pending. -/
theorem exists_pending (h : t.Searching S goal expanded pending) (hc : c ∈ expanded)
    (hpath : ReflTransGen t.Extends c goal) :
    ∃ d ∈ pending, d ∉ expanded ∧ ReflTransGen t.Extends d goal := by
  induction hpath using ReflTransGen.head_induction_on with
  | refl => exact absurd hc h.goal_notMem
  | @head a b hstep hrest ih =>
    by_cases hb : b ∈ expanded
    · exact ih hb
    · exact ⟨b, (h.covers a hc b hstep).resolve_left hb, hb, hrest⟩

theorem skip (h : t.Searching S goal expanded (c :: pending)) (hc : c ∈ expanded) :
    t.Searching S goal expanded pending where
  expanded_subset := h.expanded_subset
  pending_subset a ha := h.pending_subset a (List.mem_cons_of_mem c ha)
  covers a ha b hstep := by
    rcases h.covers a ha b hstep with hb | hb
    · exact Or.inl hb
    · rcases List.mem_cons.mp hb with rfl | hb
      · exact Or.inl hc
      · exact Or.inr hb
  goal_notMem := h.goal_notMem

theorem expand (h : t.Searching S goal expanded (c :: pending))
    (hclosed : ∀ a ∈ S, ∀ b, t.Extends a b → b ∈ S) (hgoal : c ≠ goal) :
    t.Searching S goal (c :: expanded) (t.parents c ++ pending) where
  expanded_subset :=
    List.forall_mem_cons.mpr ⟨h.pending_subset c List.mem_cons_self, h.expanded_subset⟩
  pending_subset a ha := by
    rcases List.mem_append.mp ha with ha | ha
    · exact hclosed c (h.pending_subset c List.mem_cons_self) a (mem_parents_iff.mp ha)
    · exact h.pending_subset a (List.mem_cons_of_mem c ha)
  covers a ha b hstep := by
    rcases List.mem_cons.mp ha with rfl | ha
    · exact Or.inr (List.mem_append_left pending (mem_parents_iff.mpr hstep))
    · rcases h.covers a ha b hstep with hb | hb
      · exact Or.inl (List.mem_cons_of_mem c hb)
      · rcases List.mem_cons.mp hb with rfl | hb
        · exact Or.inl List.mem_cons_self
        · exact Or.inr (List.mem_append_right _ hb)
  goal_notMem hmem := (List.mem_cons.mp hmem).elim (fun he ↦ hgoal he.symm) h.goal_notMem

/-- Among classes of different names, a search does not end before it has found its goal. -/
theorem answer_eq_true (h : t.Searching S goal expanded pending)
    (hclosed : ∀ a ∈ S, ∀ b, t.Extends a b → b ∈ S) (hinj : S.InjOn ClassId.name) {r : Bool}
    (hrun : t.Ascent goal (expanded.map ClassId.name) pending r)
    (hpath : ∃ a ∈ pending, ReflTransGen t.Extends a goal) : r = true := by
  generalize hnames : expanded.map ClassId.name = seen at hrun
  induction hrun generalizing expanded with
  | exhausts => simp at hpath
  | arrives => rfl
  | @passesOver _ c pending _ _ hseen _ ih =>
    -- the name has been seen, so it is `c` itself that has been expanded
    have hc : c ∈ expanded := by
      obtain ⟨e, he, hname⟩ := List.mem_map.mp (hnames ▸ hseen)
      rwa [← hinj (h.expanded_subset e he) (h.pending_subset c List.mem_cons_self) hname]
    refine ih (h.skip hc) ?_ hnames
    obtain ⟨a, ha, hpath⟩ := hpath
    rcases List.mem_cons.mp ha with rfl | ha
    · obtain ⟨d, hd, hnot, hpath⟩ := h.exists_pending hc hpath
      refine ⟨d, (List.mem_cons.mp hd).resolve_left ?_, hpath⟩
      rintro rfl
      exact hnot hc
    · exact ⟨a, ha, hpath⟩
  | @expands _ c pending _ hgoal _ _ ih =>
    refine ih (h.expand hclosed hgoal) ?_ (by rw [List.map_cons, hnames])
    obtain ⟨a, ha, hpath⟩ := hpath
    rcases List.mem_cons.mp ha with rfl | ha
    · obtain ⟨b, hstep, hpath⟩ := (ReflTransGen.cases_head hpath).resolve_left hgoal
      exact ⟨b, List.mem_append_left pending (mem_parents_iff.mpr hstep), hpath⟩
    · exact ⟨a, List.mem_append_right _ ha, hpath⟩

end Searching

/-- Among classes of different names, to be a subclass is to be connected through superclasses and
interfaces. -/
theorem isSubclass_iff {S : Set ClassId} (hclosed : ∀ a ∈ S, ∀ b, t.Extends a b → b ∈ S)
    (hinj : S.InjOn ClassId.name) {super sub : ClassId} (hsub : sub ∈ S) :
    t.isSubclass super sub = true ↔ ReflTransGen t.Extends sub super := by
  have hrun : t.Ascent super [] [sub] (t.isSubclass super sub) := ascent_isSubclass t super sub
  constructor
  · intro h
    rw [h] at hrun
    obtain ⟨c, hc, hpath⟩ := hrun.exists_path
    rwa [List.mem_singleton.mp hc] at hpath
  · intro hpath
    have hsearch : t.Searching S super [] [sub] :=
      ⟨by simp, by simpa using hsub, by simp, List.not_mem_nil⟩
    exact hsearch.answer_eq_true hclosed hinj hrun ⟨sub, List.mem_singleton_self sub, hpath⟩

end ProgramAnalysis.ClassTable
