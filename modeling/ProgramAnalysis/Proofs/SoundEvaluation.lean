import ProgramAnalysis.Proofs.Execution

/-!
# Evaluation is sound

A fact that describes a store leaves no evaluation unforeseen: whatever word an expression can have
there, evaluation under the fact finds it varying, or finds exactly this word. An expression found
undefined can therefore have no value at all.

`Expr.Yields` leaves out what fails, so it cannot tell an expression that always fails from one that
nothing is said about. `Expr.Outcome` gives each evaluation an end, which is a word or a failure.

That evaluation itself never divides by zero is a statement about `evaluate?`, which fails where a
folding does.
-/

namespace ProgramAnalysis

/-! ## Evaluations that may fail -/

/-- An evaluation can end in a word, or in a failure: it reads an unbound variable or divides by
zero. -/
inductive Expr.Outcome (s : Store) : Expr → Option (BitVec 32) → Prop where
  | int (n : Int) : Outcome s (.int n) (some (BitVec.ofInt 32 n))
  | var {x : Var} (hx : x.holdsInt = true) : Outcome s (.var x) (s x)
  | binary {op : Operator} {l r : Expr} {a b : Option (BitVec 32)} (hl : Outcome s l a)
      (hr : Outcome s r b) :
      Outcome s (.binary op l r) (a.bind fun v ↦ b.bind fun w ↦ op.onWord? v w)
  | other {e : Expr} (he : e.isModelled = false) (v : BitVec 32) : Outcome s e (some v)

namespace Expr

variable {s : Store} {e : Expr}

theorem Outcome.yields {o : Option (BitVec 32)} (h : e.Outcome s o) :
    ∀ {v : BitVec 32}, o = some v → e.Yields s v := by
  induction h with
  | int n =>
    intro v hv
    exact Option.some.inj hv ▸ .int n
  | var hx => exact fun hv ↦ .var hx hv
  | binary _ _ ihl ihr =>
    intro v hv
    obtain ⟨a, ha, hv⟩ := Option.bind_eq_some_iff.mp hv
    obtain ⟨b, hb, hv⟩ := Option.bind_eq_some_iff.mp hv
    exact .binary (ihl ha) (ihr hb) hv
  | other he w => exact fun _ ↦ .other he _

/-- No evaluation gets stuck. -/
theorem exists_outcome (s : Store) : ∀ e : Expr, ∃ o, e.Outcome s o
  | .int n => ⟨_, .int n⟩
  | .var x =>
    if hx : x.holdsInt = true then ⟨_, .var hx⟩
    else ⟨some 0, .other (by rw [isModelled, Bool.eq_false_iff.mpr hx]) 0⟩
  | .binary _ l r =>
    have ⟨_, hl⟩ := exists_outcome s l
    have ⟨_, hr⟩ := exists_outcome s r
    ⟨_, .binary hl hr⟩
  | .neg _ | .cast _ _ | .alloc _ _ | .field _ _ | .elem _ _ | .call _ _ _ _ =>
    ⟨some 0, .other rfl 0⟩

end Expr

/-! ## Soundness -/

variable {f : ConstFact} {s : Store}

/-- Where nothing is found, every evaluation fails. -/
theorem outcome_iff_of_isUndef (hf : f.Describes s) {e : Expr}
    (h : (evaluate e f).isUndef = true) (o : Option (BitVec 32)) : e.Outcome s o ↔ o = none := by
  have hfails : ∀ {o}, e.Outcome s o → o = none := by
    intro o ho
    cases o with
    | none => rfl
    | some v =>
      have hdefined := (hf.evaluate (ho.yields rfl)).isUndef
      simp [h] at hdefined
  refine ⟨hfails, ?_⟩
  rintro rfl
  obtain ⟨o, ho⟩ := e.exists_outcome s
  exact hfails ho ▸ ho

/-- Evaluation is sound for expressions of any depth. If an evaluation can end in a word, it is
found varying or to be this word; what is found undefined always fails. Evaluation itself never
divides by zero, and the constants that it finds are words. -/
theorem evaluate_sound (hcanonical : ∀ x, (f.get x).Canonical) (hf : f.Describes s) (e : Expr) :
    (∀ v, e.Outcome s (some v) → evaluate e f = .varying ∨ evaluate e f = .constant v.toInt) ∧
      (evaluate e f = .unseen → ∀ o, e.Outcome s o ↔ o = none) ∧
      evaluate? e f = some (evaluate e f) ∧
      ∀ n, evaluate e f = .constant n → Word32.InRange n := by
  refine ⟨fun v hv ↦ hf.evaluate (hv.yields rfl), fun hundef ↦ ?_, evaluate?_eq_some f e,
    fun n hn ↦ ?_⟩
  · exact outcome_iff_of_isUndef hf (by rw [hundef]; rfl)
  · have hvalue := canonical_evaluate hcanonical e
    rw [hn] at hvalue
    exact hvalue

/-- The smallest word over `-1` wraps around, and so does its predecessor; its remainder by zero
fails. -/
theorem evaluate_sound_smallest :
    ∃ f s, (∀ x, (f.get x).Canonical) ∧ ConstFact.Describes f s ∧
      (Expr.binary .sub (.binary .div (.var ⟨"x", .int⟩) (.int (-1))) (.int 1)).Outcome s
        (some 2147483647) ∧
      (evaluate (.binary .sub (.binary .div (.var ⟨"x", .int⟩) (.int (-1))) (.int 1)) f =
          .varying ∨
        evaluate (.binary .sub (.binary .div (.var ⟨"x", .int⟩) (.int (-1))) (.int 1)) f =
          .constant 2147483647) ∧
      ∀ o, (Expr.binary .rem (.var ⟨"x", .int⟩) (.int 0)).Outcome s o ↔ o = none := by
  let x : Var := ⟨"x", .int⟩
  let smallest : Stmt := .assign (.var x) (.int (-2147483648)) rfl
  let f : ConstFact := ConstantPropagation.after smallest ∅
  let s : Store := Store.bind (fun _ ↦ none) x (BitVec.ofInt 32 (-2147483648))
  have hcanonical : f.Canonical :=
    ConstantPropagation.canonical_after ConstFact.canonical_empty smallest
  have hf : f.Describes s :=
    ConstantPropagation.describes_after (fun _ _ h ↦ by simp at h) (.bind rfl rfl rfl (.int _))
  have hsub : (Expr.binary .sub (.binary .div (.var x) (.int (-1))) (.int 1)).Outcome s
      (some 2147483647) :=
    .binary (.binary (.var rfl) (.int (-1))) (.int 1)
  exact ⟨f, s, hcanonical.get, hf, hsub, (evaluate_sound hcanonical.get hf _).1 _ hsub,
    (evaluate_sound hcanonical.get hf _).2.1 (by decide +kernel)⟩

end ProgramAnalysis
