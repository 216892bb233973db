import ProgramAnalysis.Proofs.ConstantFacts

/-!
# Where evaluation is not monotone

An operation on larger values has a larger result, with one exception. A division of a varying
value by a value that has not been seen varies, since any divisor might arrive. If the divisor turns
out to be zero, the division yields nothing, and its result falls back to `unseen`. These divisions
are *critical*, and every other step of constant propagation is monotone.

A critical division may stand deep inside an expression. The operations around it absorb the fall or
pass it on as it is, so that an expression either finds a larger value under the larger fact, or
falls from `varying` to `unseen` itself.
-/

namespace ProgramAnalysis

/-! ## Operations -/

theorem Value.eq_of_constant?_eq_some {v : Value} {n : Int} (h : v.constant? = some n) :
    v = .constant n := by
  cases v with
  | constant m => exact congrArg Value.constant (Option.some.inj h)
  | undef _ | nac _ => simp [constant?] at h

theorem Value.isUndef_or_eq_of_le {v w : Value} (h : v ≤ w) (hw : w.isNac = false) :
    v.isUndef = true ∨ v = w := by
  cases v with
  | undef _ => exact Or.inl rfl
  | constant n =>
    rcases constant_le_iff.mp h with rfl | hnac
    · exact Or.inr rfl
    · simp [hw] at hnac
  | nac _ =>
    have := isNac_of_le h rfl
    simp [hw] at this

theorem Operator.onValues_of_isUndef {op : Operator} {v w : Value} (hv : v.isNac = false)
    (hw : w.isNac = false) (h : v.isUndef = true ∨ w.isUndef = true) :
    op.onValues v w = .unseen := by
  rw [onValues, onValues?]
  split
  · rfl
  · rw [if_neg (by simp [hv, hw])]
    rcases h with h | h
    · cases v <;> simp [Value.isUndef] at h
      rfl
    · cases w <;> simp [Value.isUndef] at h
      cases v <;> rfl

/-- Operations are monotone, unless a varying dividend meets a divisor that turns out to be zero. -/
theorem Operator.onValues_le_or (op : Operator) {v v' w w' : Value} (hv : v ≤ v') (hw : w ≤ w') :
    op.onValues v w ≤ op.onValues v' w' ∨
      (op.divides = true ∧ v.isNac = true ∧ w.isUndef = true ∧ w' = .constant 0) := by
  by_cases hzero : op.divides = true ∧ w'.constant? = some 0
  · -- the larger operation yields nothing, so the smaller one must not either
    obtain ⟨hdiv, hw'⟩ := hzero
    obtain rfl := Value.eq_of_constant?_eq_some hw'
    rcases Value.isUndef_or_eq_of_le hw rfl with hundef | rfl
    · have hnac : w.isNac = false := by cases w <;> simp [Value.isUndef, Value.isNac] at hundef ⊢
      cases hv' : v.isNac with
      | true => exact Or.inr ⟨hdiv, rfl, hundef, rfl⟩
      | false =>
        left
        rw [onValues_of_isUndef hv' hnac (Or.inr hundef)]
        exact Value.unseen_le _
    · left
      rw [onValues_of_zero hdiv]
      exact Value.unseen_le _
  · left
    by_cases hnac : v'.isNac = true ∨ w'.isNac = true
    · rw [onValues_of_isNac hzero hnac]
      exact Value.le_varying _
    · -- no operand varies, so each is unseen on the smaller side or the same on both sides
      simp only [not_or, Bool.not_eq_true] at hnac
      obtain ⟨hv', hw'⟩ := hnac
      have hbelow : ∀ {u u' : Value}, u ≤ u' → u'.isNac = false → u.isNac = false := by
        intro u u' hle hu'
        rw [← Bool.not_eq_true]
        intro hu
        simp [Value.isNac_of_le hle hu] at hu'
      rcases Value.isUndef_or_eq_of_le hv hv' with hundef | rfl
      · rw [onValues_of_isUndef (hbelow hv hv') (hbelow hw hw') (Or.inl hundef)]
        exact Value.unseen_le _
      · rcases Value.isUndef_or_eq_of_le hw hw' with hundef | rfl
        · rw [onValues_of_isUndef hv' (hbelow hw hw') (Or.inr hundef)]
          exact Value.unseen_le _
        · exact le_rfl

/-! ## Expressions -/

/-- Somewhere in the expression, a value that varies in `f` is divided by one that has not been seen
in `f` and is zero in `f'`. -/
inductive Expr.DividesCritically (f f' : ConstFact) : Expr → Prop where
  | here {op : Operator} {l r : Expr} (hop : op.divides = true)
      (hl : (evaluate l f).isNac = true) (hr : (evaluate r f).isUndef = true)
      (hr' : evaluate r f' = .constant 0) : DividesCritically f f' (.binary op l r)
  | left {op : Operator} {l r : Expr} (h : DividesCritically f f' l) :
      DividesCritically f f' (.binary op l r)
  | right {op : Operator} {l r : Expr} (h : DividesCritically f f' r) :
      DividesCritically f f' (.binary op l r)

theorem evaluate_var_le {f f' : ConstFact} (h : f ≤ f') (x : Var) :
    evaluate (.var x) f ≤ evaluate (.var x) f' := by
  rw [evaluate_var, evaluate_var]
  split
  · exact h x
  · exact le_rfl

theorem evaluate_le_or {f f' : ConstFact} (h : f ≤ f') :
    ∀ e : Expr, evaluate e f ≤ evaluate e f' ∨ e.DividesCritically f f'
  | .var x => Or.inl (evaluate_var_le h x)
  | .binary op l r => by
    rcases evaluate_le_or h l with hl | hl
    · rcases evaluate_le_or h r with hr | hr
      · rw [evaluate_binary, evaluate_binary]
        refine (op.onValues_le_or hl hr).imp_right ?_
        rintro ⟨hop, hnac, hundef, hzero⟩
        exact .here hop hnac hundef hzero
      · exact Or.inr (.right hr)
    · exact Or.inr (.left hl)
  | .int _ | .neg _ | .cast _ _ | .alloc _ _ | .field _ _ | .elem _ _ | .call _ _ _ _ =>
    Or.inl le_rfl

/-! ## Falling values

What a critical division does to the expression around it is absorbed, or it goes all the way from
`varying` to `unseen`. An operation finds no constant unless both operands are constants, and a
value that falls is a constant on neither side. -/

/-- The value varies on one side, and nothing has been seen on the other. -/
def Value.Falls (v v' : Value) : Prop := v = .varying ∧ v' = .unseen

theorem Value.Falls.not_le {v v' : Value} (h : v.Falls v') : ¬v ≤ v' := by
  obtain ⟨rfl, rfl⟩ := h
  exact id

theorem Value.le_or_falls {v v' : Value} (h : v = .unseen ∨ v = .varying)
    (h' : v' = .unseen ∨ v' = .varying) : v ≤ v' ∨ v.Falls v' := by
  rcases h with rfl | rfl
  · exact Or.inl (unseen_le v')
  · rcases h' with rfl | rfl
    · exact Or.inr ⟨rfl, rfl⟩
    · exact Or.inl le_rfl

/-- A critical division falls. -/
theorem Operator.falls_onValues {op : Operator} (hdiv : op.divides = true) {v w : Value}
    (hv : v.isNac = true) (hw : w.isUndef = true) (v' : Value) :
    (op.onValues v w).Falls (op.onValues v' (.constant 0)) := by
  have hzero : ¬(op.divides = true ∧ w.constant? = some 0) := by
    rintro ⟨-, hconst⟩
    rw [Value.eq_of_constant?_eq_some hconst] at hw
    simp [Value.isUndef] at hw
  exact ⟨onValues_of_isNac hzero (Or.inl hv), onValues_of_zero hdiv v'⟩

/-- An operation on operands that grow or fall grows or falls. -/
theorem Operator.onValues_le_or_falls (op : Operator) {v v' w w' : Value}
    (hv : v ≤ v' ∨ v.Falls v') (hw : w ≤ w' ∨ w.Falls w') :
    op.onValues v w ≤ op.onValues v' w' ∨ (op.onValues v w).Falls (op.onValues v' w') := by
  rcases hv with hv | ⟨rfl, rfl⟩
  · rcases hw with hw | ⟨rfl, rfl⟩
    · refine (op.onValues_le_or hv hw).imp_right ?_
      rintro ⟨hdiv, hnac, hundef, rfl⟩
      exact falls_onValues hdiv hnac hundef v'
    · exact Value.le_or_falls (op.onValues_eq_unseen_or_varying (Or.inr rfl))
        (op.onValues_eq_unseen_or_varying (Or.inr rfl))
  · exact Value.le_or_falls (op.onValues_eq_unseen_or_varying (Or.inl rfl))
      (op.onValues_eq_unseen_or_varying (Or.inl rfl))

theorem evaluate_le_or_falls {f f' : ConstFact} (h : f ≤ f') :
    ∀ e : Expr, evaluate e f ≤ evaluate e f' ∨ (evaluate e f).Falls (evaluate e f')
  | .var x => Or.inl (evaluate_var_le h x)
  | .binary op l r => by
    rw [evaluate_binary, evaluate_binary]
    exact op.onValues_le_or_falls (evaluate_le_or_falls h l) (evaluate_le_or_falls h r)
  | .int _ | .neg _ | .cast _ _ | .alloc _ _ | .field _ _ | .elem _ _ | .call _ _ _ _ =>
    Or.inl le_rfl

/-- Critical divisions are the only reason why an evaluation under a larger fact does not find a
larger value, and there the value falls from varying to unseen. An expression without critical
divisions is evaluated monotonically, and one that is itself a critical division is not. -/
theorem evaluate_le_unless_dividesCritically {f f' : ConstFact} (h : f ≤ f') :
    (∀ e : Expr, evaluate e f ≤ evaluate e f' ∨
      (e.DividesCritically f f' ∧ evaluate e f = .varying ∧ evaluate e f' = .unseen)) ∧
    (∀ e : Expr, ¬e.DividesCritically f f' → evaluate e f ≤ evaluate e f') ∧
    ∀ (op : Operator) (l r : Expr), op.divides = true → (evaluate l f).isNac = true →
      (evaluate r f).isUndef = true → evaluate r f' = .constant 0 →
      ¬evaluate (.binary op l r) f ≤ evaluate (.binary op l r) f' := by
  refine ⟨fun e ↦ ?_, fun e hnot ↦ (evaluate_le_or h e).resolve_right hnot,
    fun op l r hdiv hnac hundef hzero ↦ ?_⟩
  · rcases evaluate_le_or_falls h e with hle | hfalls
    · exact Or.inl hle
    · exact Or.inr ⟨(evaluate_le_or h e).resolve_left hfalls.not_le, hfalls⟩
  · rw [evaluate_binary, evaluate_binary, hzero]
    exact (Operator.falls_onValues hdiv hnac hundef _).not_le

/-- Below the sum, the quotient falls as soon as its divisor is known to be zero. -/
theorem evaluate_le_unless_dividesCritically_quotient :
    ∃ f f' : ConstFact, f ≤ f' ∧
      (Expr.binary .add (.binary .div (.var ⟨"p", .int⟩) (.var ⟨"y", .int⟩))
        (.int 1)).DividesCritically f f' ∧
      ¬evaluate (.binary .div (.var ⟨"p", .int⟩) (.var ⟨"y", .int⟩)) f ≤
        evaluate (.binary .div (.var ⟨"p", .int⟩) (.var ⟨"y", .int⟩)) f' := by
  let y : Var := ⟨"y", .int⟩
  let f : ConstFact := ConstantPropagation.boundary [⟨"p", .int⟩]
  have hle : f ≤ (f.update y (.constant 0)).2 := by
    intro x
    rw [ConstFact.get_update]
    split
    · rename_i hx
      subst hx
      exact Value.unseen_le _
    · exact le_rfl
  obtain ⟨hfalls, -, hcritical⟩ := evaluate_le_unless_dividesCritically hle
  refine ⟨f, _, hle, ?_, hcritical .div (.var ⟨"p", .int⟩) (.var y) rfl rfl rfl rfl⟩
  rcases hfalls (.binary .add (.binary .div (.var ⟨"p", .int⟩) (.var y)) (.int 1)) with h | h
  · exact absurd h id
  · exact h.1

/-! ## Statements -/

/-- The statement binds a variable that holds integers to a value that divides critically. -/
def Stmt.DividesCritically (f f' : ConstFact) (s : Stmt) : Prop :=
  ∃ x e, s.defines = some x ∧ x.holdsInt = true ∧ s.rvalue? = some e ∧ e.DividesCritically f f'

namespace ConstantPropagation

theorem after_le_or {f f' : ConstFact} (h : f ≤ f') (s : Stmt) :
    after s f ≤ after s f' ∨ s.DividesCritically f f' := by
  cases hx : s.defines with
  | none =>
    left
    rwa [after_of_defines_eq_none hx, after_of_defines_eq_none hx]
  | some x =>
    obtain ⟨e, he⟩ := exists_rvalue?_of_defines hx
    have hother : ∀ y, y ≠ x → (after s f).get y ≤ (after s f').get y := by
      intro y hyx
      have hne : s.defines ≠ some y := fun hy ↦ hyx (Option.some.inj (hy.symm.trans hx))
      rw [get_after_of_ne hne, get_after_of_ne hne]
      exact h y
    cases hint : x.holdsInt with
    | false =>
      left
      intro y
      by_cases hyx : y = x
      · rw [hyx, get_after_self_of_not_holdsInt hx hint]
        exact Value.unseen_le _
      · exact hother y hyx
    | true =>
      refine (evaluate_le_or h e).imp (fun hle y ↦ ?_) fun hcrit ↦ ⟨x, e, hx, hint, he, hcrit⟩
      by_cases hyx : y = x
      · rw [hyx, get_after_self hx he hint, get_after_self hx he hint]
        split
        · exact Value.unseen_le _
        · split
          · rename_i hundef hundef'
            exact absurd (Value.isUndef_of_le hle hundef') hundef
          · exact hle
      · exact hother y hyx

end ConstantPropagation

/-! ## Divisions in the text of a program -/

/-- Whether a division stands somewhere among the operations of an expression. -/
def Expr.hasDivision : Expr → Bool
  | .binary op l r => op.divides || l.hasDivision || r.hasDivision
  | _ => false

theorem Expr.DividesCritically.hasDivision {f f' : ConstFact} {e : Expr}
    (h : e.DividesCritically f f') : e.hasDivision = true := by
  induction h with
  | here hop _ _ _ => simp [Expr.hasDivision, hop]
  | left _ ih => simp [Expr.hasDivision, ih]
  | right _ ih => simp [Expr.hasDivision, ih]

end ProgramAnalysis
