import ProgramAnalysis.Proofs.ConstantFacts

/-!
# What constant propagation reads and writes

Which variables a statement reads and which one it binds is said twice. `Stmt.uses` and
`Stmt.defines` say it for live variables, and evaluation says it again by the variables that it
looks up. The two fit together: the value of an expression depends on no variable but those that it
uses, a statement hands every variable on that it does not define, and the value of the one that it
defines depends on no variable but those that the statement uses.

Nothing is assumed about the facts, which may also store undefined values, and nothing about the
output that a transfer replaces.
-/

namespace ProgramAnalysis

/-- Two facts say the same about each variable of a list. -/
def ConstFact.AgreeOn (l : List Var) (f f' : ConstFact) : Prop := ∀ x ∈ l, f.get x = f'.get x

variable {f f' : ConstFact}

theorem ConstFact.AgreeOn.mono {l l' : List Var} (h : AgreeOn l' f f') (hl : l ⊆ l') :
    AgreeOn l f f' :=
  fun x hx ↦ h x (hl hx)

/-- Evaluation looks up no variable but those that the expression uses. -/
theorem evaluate_eq_of_agreeOn : ∀ e : Expr, ConstFact.AgreeOn e.uses f f' →
    evaluate e f = evaluate e f'
  | .var x, h => by
    have hx : f.get x = f'.get x := h x (by simp [Expr.uses])
    rw [evaluate_var, evaluate_var, hx]
  | .binary op l r, h => by
    have hl : evaluate l f = evaluate l f' :=
      evaluate_eq_of_agreeOn l (h.mono fun x hx ↦ by simp [Expr.uses, hx])
    have hr : evaluate r f = evaluate r f' :=
      evaluate_eq_of_agreeOn r (h.mono fun x hx ↦ by simp [Expr.uses, hx])
    rw [evaluate_binary, evaluate_binary, hl, hr]
  | .int _, _ | .neg _, _ | .cast _ _, _ | .alloc _ _, _ | .field _ _, _ | .elem _ _, _
  | .call _ _ _ _, _ => rfl

theorem evaluate_congr (h : ∀ x, f.get x = f'.get x) (e : Expr) : evaluate e f = evaluate e f' :=
  evaluate_eq_of_agreeOn e fun x _ ↦ h x

/-- A statement uses all that its right-hand side uses. -/
theorem Stmt.uses_subset_of_rvalue? {s : Stmt} {e : Expr} (he : s.rvalue? = some e) :
    e.uses ⊆ s.uses := by
  cases s with
  | assign target value _ =>
    obtain rfl := Option.some.inj he
    exact List.subset_append_left _ _
  | invoke call _ =>
    obtain rfl := Option.some.inj he
    exact List.Subset.refl _
  | branch _ | switch _ _ | ret _ | goto | nop | blank => simp [rvalue?] at he

namespace ConstantPropagation

variable {s : Stmt} {x y : Var}

/-- What is known of the variable that a statement defines comes from those that it uses. -/
theorem get_after_eq_of_agreeOn (h : ConstFact.AgreeOn s.uses f f') (hx : s.defines = some x) :
    (after s f).get x = (after s f').get x := by
  obtain ⟨e, he⟩ := exists_rvalue?_of_defines hx
  cases hint : x.holdsInt with
  | false => rw [get_after_self_of_not_holdsInt hx hint, get_after_self_of_not_holdsInt hx hint]
  | true =>
    have heval : evaluate e f = evaluate e f' :=
      evaluate_eq_of_agreeOn e (h.mono (Stmt.uses_subset_of_rvalue? he))
    rw [get_after_self hx he hint, get_after_self hx he hint, heval]

theorem get_after_congr (h : ∀ x, f.get x = f'.get x) (s : Stmt) (y : Var) :
    (after s f).get y = (after s f').get y := by
  by_cases hy : s.defines = some y
  · exact get_after_eq_of_agreeOn (fun x _ ↦ h x) hy
  · rw [get_after_of_ne hy, get_after_of_ne hy, h]

theorem get_transfer (s : Stmt) (input output : ConstFact) (x : Var) :
    (transfer s input output).2.get x = (after s input).get x :=
  ConstFact.get_replaceWith output (after s input) x

/-- Constant propagation reads the variables that are used and writes the one that is defined, in
expressions of any depth and in statements of every form. -/
theorem reads_uses_and_writes_defines :
    (∀ (e : Expr) (f f' : ConstFact), ConstFact.AgreeOn e.uses f f' →
      evaluate e f = evaluate e f') ∧
    (∀ (s : Stmt) (f f' o o' : ConstFact), ConstFact.AgreeOn s.uses f f' →
      ∀ x, s.defines = some x → (transfer s f o).2.get x = (transfer s f' o').2.get x) ∧
    ∀ (s : Stmt) (f o : ConstFact) (y : Var), s.defines ≠ some y →
      (transfer s f o).2.get y = f.get y := by
  refine ⟨fun e f f' ↦ evaluate_eq_of_agreeOn e, ?_, ?_⟩
  · intro s f f' o o' h x hx
    rw [get_transfer, get_transfer]
    exact get_after_eq_of_agreeOn h hx
  · intro s f o y hy
    rw [get_transfer]
    exact get_after_of_ne hy f

/-- `q = p / y + 1` gives `q` the same value under two facts that differ about `q` itself and about
`z`, and leaves `z` as it is under each. -/
theorem reads_uses_and_writes_defines_quotient :
    ∃ (s : Stmt) (f f' : ConstFact) (q z : Var), s.defines = some q ∧ q ≠ z ∧
      ConstFact.AgreeOn s.uses f f' ∧ f.get q ≠ f'.get q ∧ f.get z ≠ f'.get z ∧
      (transfer s f ∅).2.get q = (transfer s f' f').2.get q ∧
      (transfer s f ∅).2.get z = f.get z ∧ (transfer s f' f').2.get z = f'.get z := by
  let p : Var := ⟨"p", .int⟩
  let y : Var := ⟨"y", .int⟩
  let q : Var := ⟨"q", .int⟩
  let z : Var := ⟨"z", .int⟩
  let s : Stmt := .assign (.var q) (.binary .add (.binary .div (.var p) (.var y)) (.int 1)) rfl
  let f : ConstFact := .ofList [(p, .varying), (y, .constant 2), (q, .constant 7)]
  let f' : ConstFact := .ofList [(z, .constant 3), (y, .constant 2), (p, .varying)]
  have hagree : ConstFact.AgreeOn s.uses f f' := by
    change ∀ x ∈ s.uses, f.get x = f'.get x
    decide
  have hz : s.defines ≠ some z := by decide
  obtain ⟨-, hdefined, hother⟩ := reads_uses_and_writes_defines
  exact ⟨s, f, f', q, z, rfl, by decide, hagree, by decide, by decide,
    hdefined s f f' ∅ f' hagree q rfl, hother s f ∅ z hz, hother s f' f' z hz⟩

end ConstantPropagation

end ProgramAnalysis
