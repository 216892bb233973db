import Mathlib.Data.List.Induction
import Mathlib.Logic.Function.Basic
import ProgramAnalysis.Proofs.FactOrder

/-!
# Families of facts

What a fact says is a function from variables to values. Facts are compared, and report their
changes, by their bindings, and bindings can tell more than the function: a variable that is bound
to an undefined value and one that is not bound look the same from outside. Unbinding the former
would be reported as a change, and would make two facts differ that say the same.

Canonical facts store no undefined value, and for them bindings and functions are two forms of one
thing. No operation alone shows that this case never comes up, since facts are copied from each
other and replaced by each other. So the operations are looked at in series, on families of facts,
and what a series makes of empty facts is shown to behave like a family of functions.
-/

namespace ProgramAnalysis

namespace ConstFact

variable {f g : ConstFact} {x : Var} {v : Value}

/-! ## Binding one variable -/

theorem get_update_self (hv : v.Canonical) : (f.update x v).2.get x = v := by
  rw [get_update, if_pos rfl]
  split
  · rename_i hu
    exact (Value.eq_of_canonical_of_isUndef hv hu).symm
  · rfl

/-- A defined value is what a fact says of a variable only if it is stored. -/
theorem find?_eq_some_iff (hv : v.isUndef = false) :
    f.bindings.find? x = some v ↔ f.get x = v := by
  refine ⟨get_eq_of_find?_eq_some, fun h ↦ ?_⟩
  have hne : f.bindings.find? x ≠ none := by
    intro hnone
    rw [← h, get_eq_of_find?_eq_none hnone] at hv
    simp [Value.unseen, Value.isUndef] at hv
  rw [OrderedMap.find?_eq_some_findD .unseen hne]
  exact congrArg some h

theorem Canonical.contains_iff (hf : f.Canonical) :
    f.bindings.contains x = true ↔ f.get x ≠ .unseen := by
  rw [OrderedMap.contains, Option.isSome_iff_ne_none, Ne, hf.find?_eq_none_iff]

theorem Canonical.update_fst_iff (hf : f.Canonical) (hv : v.Canonical) :
    (f.update x v).1 = true ↔ f.get x ≠ v := by
  cases hu : v.isUndef with
  | true =>
    rw [ConstFact.update, if_pos hu, Value.eq_of_canonical_of_isUndef hv hu]
    exact hf.contains_iff
  | false =>
    rw [ConstFact.update, if_neg (by simp [hu]), decide_eq_true_iff]
    exact not_congr (find?_eq_some_iff hu)

theorem Canonical.update_changed_iff (hf : f.Canonical) (hv : v.Canonical) :
    (f.update x v).1 = true ↔ ∃ y, (f.update x v).2.get y ≠ f.get y := by
  rw [hf.update_fst_iff hv]
  constructor
  · intro h
    exact ⟨x, by rw [get_update_self hv]; exact h.symm⟩
  · rintro ⟨y, hy⟩ h
    refine hy ?_
    by_cases hxy : x = y
    · subst hxy
      rw [get_update_self hv, h]
    · rw [get_update_of_ne f hxy]

/-! ## Taking over all bindings

The keys of the source are distinct. So no binding that is taken over undoes the change that an
earlier one has made, and each of them can be compared with the fact as it was in the beginning. -/

theorem copyFrom_snd (f g : ConstFact) :
    (f.copyFrom g).2 = g.bindings.entries.foldl (updateBy fun v _ ↦ v) f :=
  reportAll_snd _ f _

theorem get_copyFrom (hg : g.Canonical) (f : ConstFact) (x : Var) :
    (f.copyFrom g).2.get x = if g.bindings.contains x then g.get x else f.get x := by
  rw [copyFrom_snd, OrderedMap.contains]
  cases h : g.bindings.find? x with
  | none => exact get_foldl_updateBy_of_notMem (OrderedMap.find?_eq_none_iff.mp h) f
  | some v =>
    rw [get_foldl_updateBy_of_mem g.bindings.nodup_keys (OrderedMap.mem_entries_iff.mpr h),
      get_update_self (hg x v h).1, get_eq_of_find?_eq_some h]
    rfl

theorem Canonical.copyFrom (hf : f.Canonical) (hg : g.Canonical) :
    (f.copyFrom g).2.Canonical := by
  rw [copyFrom_snd]
  exact hf.foldl_updateBy (fun _ _ hv _ ↦ hv) fun _ he ↦ (hg.of_mem_entries he).1

theorem Canonical.reportAll_update_fst_iff {l : List (Var × Value)} (hf : f.Canonical)
    (hl : (l.map Prod.fst).Nodup) (hc : ∀ e ∈ l, e.2.Canonical) :
    (reportAll (fun f e ↦ f.update e.1 e.2) f l).1 = true ↔ ∃ e ∈ l, f.get e.1 ≠ e.2 := by
  induction l generalizing f with
  | nil => simp [reportAll]
  | cons e l ih =>
    rw [List.map_cons, List.nodup_cons] at hl
    rw [List.forall_mem_cons] at hc
    have hkept : ∀ e' ∈ l, (f.update e.1 e.2).2.get e'.1 = f.get e'.1 := by
      intro e' he'
      have hne : e.1 ≠ e'.1 := fun h ↦ hl.1 (h ▸ List.mem_map_of_mem (f := Prod.fst) he')
      exact get_update_of_ne f hne e.2
    rw [reportAll_cons, Bool.or_eq_true, hf.update_fst_iff hc.1, ih (hf.update e.1 hc.1) hl.2 hc.2,
      List.exists_mem_cons_iff]
    refine or_congr_right (exists_congr fun e' ↦ and_congr_right fun he' ↦ ?_)
    rw [hkept e' he']

theorem Canonical.copyFrom_changed_iff (hf : f.Canonical) (hg : g.Canonical) :
    (f.copyFrom g).1 = true ↔ ∃ y, (f.copyFrom g).2.get y ≠ f.get y := by
  have hreport : (f.copyFrom g).1 = true ↔ ∃ e ∈ g.bindings.entries, f.get e.1 ≠ e.2 :=
    hf.reportAll_update_fst_iff g.bindings.nodup_keys fun e he ↦ (hg.of_mem_entries he).1
  rw [hreport]
  constructor
  · rintro ⟨⟨y, v⟩, he, hne⟩
    have hfind : g.bindings.find? y = some v := OrderedMap.mem_entries_iff.mp he
    refine ⟨y, ?_⟩
    rw [get_copyFrom hg, OrderedMap.contains, hfind, get_eq_of_find?_eq_some hfind]
    exact Ne.symm hne
  · rintro ⟨y, hy⟩
    rw [get_copyFrom hg] at hy
    split at hy
    · rename_i hcontains
      obtain ⟨v, hv⟩ := Option.isSome_iff_exists.mp hcontains
      rw [get_eq_of_find?_eq_some hv] at hy
      exact ⟨(y, v), OrderedMap.mem_entries_iff.mpr hv, hy.symm⟩
    · exact absurd rfl hy

theorem Canonical.replaceWith_changed_iff (hf : f.Canonical) (hg : g.Canonical) :
    (f.replaceWith g).1 = true ↔ ∃ y, (f.replaceWith g).2.get y ≠ f.get y := by
  rw [replaceWith_fst, Bool.not_eq_true', ← Bool.not_eq_true, hf.same_iff_get hg, not_forall]
  refine exists_congr fun y ↦ ?_
  rw [get_replaceWith]
  exact ne_comm

end ConstFact

/-! ## Series of operations -/

/-- An operation on the facts of a family, which may be one and the same. `copy i j` makes `j` a
copy of `i`; `copyFrom i j` and `replaceWith i j` change `i` after `j`. -/
inductive FactOperation (ι : Type) where
  | update (i : ι) (x : Var) (v : Value) (canonical : v.Canonical)
  | remove (i : ι) (x : Var)
  | copy (i j : ι)
  | copyFrom (i j : ι)
  | replaceWith (i j : ι)

namespace FactOperation

variable {ι : Type} {p : ι → ConstFact}

/-- The fact that is changed. -/
def target : FactOperation ι → ι
  | update i _ _ _ | remove i _ | copy _ i | copyFrom i _ | replaceWith i _ => i

/-- The report, from an operation that makes one, and the target afterwards. -/
def outcome (p : ι → ConstFact) : FactOperation ι → Option Bool × ConstFact
  | update i x v _ => Prod.map some id ((p i).update x v)
  | remove i x => (none, ((p i).remove x).2)
  | copy i _ => (none, p i)
  | copyFrom i j => Prod.map some id ((p i).copyFrom (p j))
  | replaceWith i j => Prod.map some id ((p i).replaceWith (p j))

/-- What an operation makes of its target if each fact is the function that it stands for. -/
def meaning (s : ι → Var → Value) : FactOperation ι → Var → Value
  | update i x v _ => Function.update (s i) x v
  | remove i x => Function.update (s i) x .unseen
  | copy i _ => s i
  | copyFrom i j => fun x ↦ if s j x = .unseen then s i x else s j x
  | replaceWith _ j => s j

theorem get_outcome (hp : ∀ i, (p i).Canonical) (o : FactOperation ι) :
    (o.outcome p).2.get = o.meaning fun i ↦ (p i).get := by
  funext y
  cases o with
  | update i x v hv =>
    rw [meaning, Function.update_apply]
    split
    · rename_i hy
      rw [hy]
      exact ConstFact.get_update_self hv
    · rename_i hy
      exact ConstFact.get_update_of_ne _ (Ne.symm hy) v
  | remove i x =>
    rw [meaning, Function.update_apply]
    exact (ConstFact.get_remove _ x y).trans (if_congr eq_comm rfl rfl)
  | copy i j => rfl
  | copyFrom i j =>
    refine (ConstFact.get_copyFrom (hp j) (p i) y).trans ?_
    rw [meaning, if_congr (hp j).contains_iff rfl rfl, ite_not]
  | replaceWith i j => exact ConstFact.get_replaceWith (p i) (p j) y

theorem report_iff (hp : ∀ i, (p i).Canonical) {o : FactOperation ι} {b : Bool}
    (h : (o.outcome p).1 = some b) :
    b = true ↔ ∃ x, (o.outcome p).2.get x ≠ (p o.target).get x := by
  cases o with
  | update i x v hv =>
    obtain rfl := Option.some.inj h
    exact (hp i).update_changed_iff hv
  | remove i x => simp [outcome] at h
  | copy i j => simp [outcome] at h
  | copyFrom i j =>
    obtain rfl := Option.some.inj h
    exact (hp i).copyFrom_changed_iff (hp j)
  | replaceWith i j =>
    obtain rfl := Option.some.inj h
    exact (hp i).replaceWith_changed_iff (hp j)

theorem canonical_outcome (hp : ∀ i, (p i).Canonical) (o : FactOperation ι) :
    (o.outcome p).2.Canonical := by
  cases o with
  | update i x v hv => exact (hp i).update x hv
  | remove i x => exact (hp i).remove x
  | copy i j => exact hp i
  | copyFrom i j => exact (hp i).copyFrom (hp j)
  | replaceWith i j => exact (hp i).replaceWith (hp j)

variable [DecidableEq ι]

/-- The family after an operation. -/
def perform (p : ι → ConstFact) (o : FactOperation ι) : ι → ConstFact :=
  Function.update p o.target (o.outcome p).2

/-- What a series of operations makes of empty facts. -/
def family (l : List (FactOperation ι)) : ι → ConstFact := l.foldl perform fun _ ↦ ∅

theorem canonical_perform (hp : ∀ i, (p i).Canonical) (o : FactOperation ι) (i : ι) :
    (perform p o i).Canonical := by
  rw [perform, Function.update_apply]
  split
  · exact canonical_outcome hp o
  · exact hp i

theorem canonical_family (l : List (FactOperation ι)) (i : ι) : (family l i).Canonical := by
  induction l using List.reverseRecOn generalizing i with
  | nil => exact ConstFact.canonical_empty
  | append_singleton l o ih =>
    have hlast : family (l ++ [o]) = perform (family l) o := List.foldl_concat ..
    rw [hlast]
    exact canonical_perform ih o i

/-- After any series of operations on any facts, no fact stores an undefined value, facts are the
same exactly if they say the same, and each further operation does what it does to functions and
reports a change exactly if its target says something else than before. In particular, copying from
a fact takes over what it says of the variables that it binds, and nothing else. -/
theorem family_exact (l : List (FactOperation ι)) :
    let p := family l
    (∀ i x v, (p i).bindings.find? x = some v → v.isUndef = false) ∧
      (∀ i j, (p i).same (p j) = true ↔ ∀ x, (p i).get x = (p j).get x) ∧
      (∀ o : FactOperation ι, (o.outcome p).2.get = o.meaning fun i ↦ (p i).get) ∧
      (∀ (o : FactOperation ι) (b : Bool), (o.outcome p).1 = some b →
        (b = true ↔ ∃ x, (o.outcome p).2.get x ≠ (p o.target).get x)) ∧
      ∀ i j x, ((p i).copyFrom (p j)).2.get x =
        if (p j).bindings.contains x then (p j).get x else (p i).get x := by
  intro p
  have hp : ∀ i, (p i).Canonical := canonical_family l
  exact ⟨fun i x v h ↦ (hp i x v h).2, fun i j ↦ (hp i).same_iff_get (hp j), get_outcome hp,
    fun o b ↦ report_iff hp, fun i j ↦ ConstFact.get_copyFrom (hp j) (p i)⟩

/-- The first of three facts binds a variable, is copied to the second and unbinds the variable
again. It then says the same as the third, which has never been touched, and the second fact has
nothing to take over from it. -/
theorem family_exact_unbound :
    let x : Var := ⟨"x", .int⟩
    let p := family [update 0 x (.constant 1) (by decide), copy 0 1, update 0 x .unseen rfl]
    ((p 0).same (p 2) = true ∧ ∀ y, (p 0).get y = (p 2).get y) ∧
      ((copyFrom 1 0).outcome p).1 = some false ∧
      ∀ y, ((copyFrom 1 0).outcome p).2.get y = (p 1).get y := by
  intro x p
  obtain ⟨-, hsame, -, hreport, -⟩ :=
    family_exact [update 0 x (.constant 1) (by decide), copy 0 1, update 0 x .unseen rfl]
  have hequal : (p 0).same (p 2) = true := by decide
  have hkept : ((copyFrom 1 0).outcome p).1 = some false := by decide
  refine ⟨⟨hequal, (hsame 0 2).mp hequal⟩, hkept, fun y ↦ ?_⟩
  by_contra hy
  exact Bool.false_ne_true ((hreport (copyFrom 1 0) false hkept).mpr ⟨y, hy⟩)

end FactOperation

end ProgramAnalysis
