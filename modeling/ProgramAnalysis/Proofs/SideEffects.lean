import Mathlib.Logic.Relation
import ProgramAnalysis.Proofs.Interpreter
import ProgramAnalysis.Proofs.PrunedReachability

/-!
# What an evaluation can do

An assignment counts as dead only if its right-hand side has no side effect, which is decided by the
outermost operation. Whatever stands in its operands is not looked at: in programs in three-address
form these are variables and literals, but the language of expressions lets them be anything.

So there are three notions to compare. `Expr.hasNoSideEffect` looks at the outermost operation,
`Expr.IsEffectless` at all depths, and `Expr.IsHarmless` at evaluations themselves. The last two
agree on every expression. The first one agrees with them as soon as the operands are known to be
effectless and the expression is not a call, which no right-hand side is. Without the first of these
conditions a division can hide below a comparison or a negation, and an assignment that traps counts
as dead.
-/

namespace ProgramAnalysis

namespace Expr

/-! ## Effects at any depth -/

/-- The operands of an operation. -/
def operands : Expr → List Expr
  | .binary _ l r => [l, r]
  | .neg e => [e]
  | _ => []

/-- The expressions of which the expression is put together. -/
def children : Expr → List Expr
  | .alloc _ lengths => lengths
  | .elem _ index => [index]
  | .call _ _ _ args => args
  | e => e.operands

/-- An expression stands at some depth in another one, which may be itself. -/
def Contains : Expr → Expr → Prop := Relation.ReflTransGen fun e c ↦ c ∈ e.children

/-- Whether the outermost operation may change the state or trap. -/
def isEffectful : Expr → Bool
  | .alloc .. | .cast .. | .field .. | .elem .. | .call .. => true
  | .binary op _ _ => op.divides
  | .var _ | .int _ | .neg _ => false

/-- No operation at any depth may change the state or trap. -/
def IsEffectless (e : Expr) : Prop := ∀ e', e.Contains e' → e'.isEffectful = false

variable {e : Expr}

theorem isEffectless_iff :
    e.IsEffectless ↔ e.isEffectful = false ∧ ∀ c ∈ e.children, c.IsEffectless := by
  constructor
  · exact fun h ↦ ⟨h e .refl, fun c hc e' he' ↦ h e' (.head hc he')⟩
  · rintro ⟨he, hchildren⟩ e' h
    rcases h.cases_head with rfl | ⟨c, hc, h⟩
    · exact he
    · exact hchildren c hc e' h

theorem children_eq_operands (h : e.isEffectful = false) : e.children = e.operands := by
  cases e with
  | var _ | int _ | neg _ | binary _ _ _ => rfl
  | cast _ _ | alloc _ _ | field _ _ | elem _ _ | call _ _ _ _ => simp [isEffectful] at h

/-- Calls apart, the classification is right about the outermost operation. -/
theorem hasNoSideEffect_eq (h : e.isCall = false) : e.hasNoSideEffect = !e.isEffectful := by
  cases e with
  | call _ _ _ _ => simp [isCall] at h
  | var _ | int _ | neg _ | binary _ _ _ | cast _ _ | alloc _ _ | field _ _ | elem _ _ => rfl

theorem hasNoSideEffect_iff_isEffectless (hcall : e.isCall = false)
    (hoperands : ∀ o ∈ e.operands, o.IsEffectless) :
    e.hasNoSideEffect = true ↔ e.IsEffectless := by
  rw [hasNoSideEffect_eq hcall, Bool.not_eq_true', isEffectless_iff]
  refine ⟨fun h ↦ ⟨h, ?_⟩, And.left⟩
  rwa [children_eq_operands h]

theorem isEffectless_of_isAtom (h : e.isAtom = true) : e.IsEffectless := by
  cases e with
  | var _ | int _ => exact isEffectless_iff.mpr ⟨rfl, fun _ hc ↦ by simp [children, operands] at hc⟩
  | binary _ _ _ | neg _ | cast _ _ | alloc _ _ | field _ _ | elem _ _ | call _ _ _ _ =>
    simp [isAtom] at h

theorem isEffectless_of_mem_operands (h : e.hasAtomicOperands = true) :
    ∀ o ∈ e.operands, o.IsEffectless := by
  cases e with
  | binary op l r =>
    rw [hasAtomicOperands, Bool.and_eq_true] at h
    intro o ho
    rcases List.mem_pair.mp ho with rfl | rfl
    · exact isEffectless_of_isAtom h.1
    · exact isEffectless_of_isAtom h.2
  | neg e =>
    intro o ho
    rw [List.mem_singleton.mp ho]
    exact isEffectless_of_isAtom h
  | var _ | int _ | cast _ _ | alloc _ _ | field _ _ | elem _ _ | call _ _ _ _ =>
    intro o ho
    simp [operands] at ho

end Expr

/-! ## Evaluations with a state -/

namespace Interpreter

variable {α σ : Type}

/-- The value of an expression and the state in which its evaluation ends, or `none` if it traps.
Operations see values only. Whatever reads or writes the heap or calls a method is up to `perform`,
which is given the expression, the values of its variables and the state. -/
def evalWith (I : Interpreter α) (perform : Expr → List α → σ → Option (α × σ))
    (env : Environment α) : Expr → σ → Option (α × σ)
  | .var x, s => some (env x, s)
  | .int n, s => some (I.literal n, s)
  | .neg e, s => (evalWith I perform env e s).map fun p ↦ (I.negate p.1, p.2)
  | .binary op l r, s =>
    (evalWith I perform env l s).bind fun p ↦
      (evalWith I perform env r p.2).bind fun q ↦ (I.binary op p.1 q.1).map (·, q.2)
  | e, s => perform e (e.uses.map env) s

/-- An interpreter that knows one value only, and traps at every division. -/
def trapping : Interpreter Unit where
  literal _ := ()
  binary op _ _ := if op.divides then none else some ()
  negate _ := ()
  oracle _ _ _ := none
  choice _ _ _ := 0
  isSome_binary op _ _ h := by simp [h]

/-- If everything traps that may, so does an expression that contains an effect. -/
theorem evalWith_trapping {e e' : Expr} (h : e.Contains e') (he' : e'.isEffectful = true)
    (env : Environment Unit) :
    ∀ s : Unit, trapping.evalWith (fun _ _ _ ↦ none) env e s = none := by
  induction h using Relation.ReflTransGen.head_induction_on with
  | refl =>
    intro s
    cases e' with
    | var _ | int _ | neg _ => simp [Expr.isEffectful] at he'
    | binary op l r =>
      have hdiv : op.divides = true := he'
      simp [evalWith, trapping, hdiv]
    | cast _ _ | alloc _ _ | field _ _ | elem _ _ | call _ _ _ _ => rfl
  | @head e c hc _ ih =>
    intro s
    cases e with
    | var _ | int _ => simp [Expr.children, Expr.operands] at hc
    | neg e =>
      rw [List.mem_singleton.mp hc] at ih
      rw [evalWith, ih s, Option.map_none]
    | binary op l r =>
      rcases List.mem_pair.mp hc with rfl | rfl
      · rw [evalWith, ih s, Option.bind_none]
      · simp [evalWith, ih]
    | cast _ _ | alloc _ _ | field _ _ | elem _ _ | call _ _ _ _ => rfl

theorem evalWith_of_isEffectless (I : Interpreter α)
    (perform : Expr → List α → σ → Option (α × σ)) (env : Environment α) :
    ∀ {e : Expr}, e.IsEffectless → ∀ s, ∃ v, I.evalWith perform env e s = some (v, s)
  | .var x, _, s => ⟨env x, rfl⟩
  | .int n, _, s => ⟨I.literal n, rfl⟩
  | .neg e, h, s => by
    obtain ⟨-, hoperands⟩ := Expr.isEffectless_iff.mp h
    obtain ⟨a, ha⟩ := evalWith_of_isEffectless I perform env (hoperands e List.mem_cons_self) s
    exact ⟨I.negate a, by rw [evalWith, ha, Option.map_some]⟩
  | .binary op l r, h, s => by
    obtain ⟨hop, hoperands⟩ := Expr.isEffectless_iff.mp h
    obtain ⟨a, ha⟩ := evalWith_of_isEffectless I perform env (hoperands l List.mem_cons_self) s
    obtain ⟨b, hb⟩ := evalWith_of_isEffectless I perform env
      (hoperands r (List.mem_cons_of_mem _ List.mem_cons_self)) s
    obtain ⟨v, hv⟩ := Option.isSome_iff_exists.mp (I.isSome_binary op a b hop)
    exact ⟨v, by simp [evalWith, ha, hb, hv]⟩
  | .cast _ _, h, _ | .alloc _ _, h, _ | .field _ _, h, _ | .elem _ _, h, _
  | .call _ _ _ _, h, _ => absurd (Expr.isEffectless_iff.mp h).1 (by simp [Expr.isEffectful])

/-- Without a state, the oracle is what performs. -/
theorem evalWith_oracle (I : Interpreter α) (k : Nat) (env : Environment α) :
    ∀ (e : Expr) (s : σ), I.evalWith (fun e l s ↦ (I.oracle k e l).map (·, s)) env e s =
      (I.eval k env e).map (·, s)
  | .binary op l r, s => by
    rw [evalWith, eval, evalWith_oracle I k env l]
    cases I.eval k env l with
    | none => rfl
    | some a =>
      rw [Option.map_some, Option.bind_some, evalWith_oracle I k env r]
      cases I.eval k env r with
      | none => rfl
      | some b => rfl
  | .neg e, s => by
    rw [evalWith, eval, evalWith_oracle I k env e, Option.map_map, Option.map_map]
    rfl
  | .var _, _ | .int _, _ | .cast _ _, _ | .alloc _ _, _ | .field _ _, _
  | .elem _ _, _ | .call _ _ _ _, _ => rfl

theorem isSome_eval_of_isEffectless {I : Interpreter α} {k : Nat} {env : Environment α} {e : Expr}
    (h : e.IsEffectless) : (I.eval k env e).isSome = true := by
  obtain ⟨v, hv⟩ := I.evalWith_of_isEffectless (fun e l s ↦ (I.oracle k e l).map (·, s)) env h ()
  rw [evalWith_oracle, Option.map_eq_some_iff] at hv
  obtain ⟨a, ha, -⟩ := hv
  rw [ha]
  rfl

end Interpreter

/-- No interpreter can tell an evaluation from looking a value up: whatever the environment and the
state, there is a value, and the state stays as it is. -/
def Expr.IsHarmless (e : Expr) : Prop :=
  ∀ (α σ : Type) (I : Interpreter α) (perform : Expr → List α → σ → Option (α × σ))
    (env : Environment α) (s : σ), ∃ v, I.evalWith perform env e s = some (v, s)

/-- Looking for effects at all depths is exact. -/
theorem Expr.isHarmless_iff_isEffectless {e : Expr} : e.IsHarmless ↔ e.IsEffectless := by
  constructor
  · intro h e' hcontains
    by_contra heffect
    obtain ⟨v, hv⟩ := h Unit Unit .trapping (fun _ _ _ ↦ none) (fun _ ↦ ()) ()
    rw [Interpreter.evalWith_trapping hcontains ((Bool.not_eq_false _).mp heffect)] at hv
    simp at hv
  · exact fun h α σ I perform env s ↦ I.evalWith_of_isEffectless perform env h s

/-! ## Assignments that are reported -/

namespace DeadCode

variable {g : FlowGraph} {t : Facts ConstFact} {live : Facts VarSet} {d : DeadCode} {n : Node}

theorem hasNoSideEffect_of_mem_deadAssignments (h : detect g t live = .ok d)
    (hn : n ∈ d.deadAssignments) {target : LValue} {value : Expr} {hcall : value.isCall = false}
    (hst : g.stmtAt n = .assign target value hcall) : value.hasNoSideEffect = true := by
  have hdead := ((mem_deadAssignments_iff h).mp hn).2.2
  obtain ⟨x, value', hcall', s, hst', -, -, hpure⟩ := isDeadAssignment_eq_ok_true_iff.mp hdead
  rw [hst] at hst'
  obtain ⟨-, rfl⟩ := Stmt.assign.inj hst'
  exact hpure

/-- An expression that is no call, and whose operands contain no effects, has no side effect by its
outermost operation exactly if it contains no effects, and exactly if its evaluation can neither
change the state nor trap. Operands that are variables or literals contain no effects. An assignment
that is reported as dead is therefore harmless, unless effects hide in the operands of its
right-hand side. -/
theorem classification_safe :
    (∀ e : Expr, e.isCall = false → (∀ o ∈ e.operands, o.IsEffectless) →
      (e.hasNoSideEffect = true ↔ e.IsEffectless) ∧ (e.hasNoSideEffect = true ↔ e.IsHarmless)) ∧
    (∀ e : Expr, e.hasAtomicOperands = true → ∀ o ∈ e.operands, o.IsEffectless) ∧
    ∀ (g : FlowGraph) (t : Facts ConstFact) (live : Facts VarSet) (d : DeadCode) (n : Node)
      (target : LValue) (value : Expr) (hcall : value.isCall = false),
      detect g t live = .ok d → n ∈ d.deadAssignments →
      g.stmtAt n = .assign target value hcall → (∀ o ∈ value.operands, o.IsEffectless) →
      value.IsEffectless ∧ value.IsHarmless := by
  have hclass : ∀ {e : Expr}, e.isCall = false → (∀ o ∈ e.operands, o.IsEffectless) →
      (e.hasNoSideEffect = true ↔ e.IsEffectless) := Expr.hasNoSideEffect_iff_isEffectless
  refine ⟨fun e hcall hoperands ↦ ⟨hclass hcall hoperands, ?_⟩,
    fun e ↦ Expr.isEffectless_of_mem_operands,
    fun g t live d n target value hcall h hn hst hoperands ↦ ?_⟩
  · rw [hclass hcall hoperands, Expr.isHarmless_iff_isEffectless]
  · have hpure := hasNoSideEffect_of_mem_deadAssignments h hn hst
    have heffectless := (hclass hcall hoperands).mp hpure
    exact ⟨heffectless, Expr.isHarmless_iff_isEffectless.mpr heffectless⟩

/-- Sums may be compared and negated, and the assignment `y = x` may be removed. -/
theorem classification_safe_knownBranch :
    (Expr.binary .lt (.binary .add (.var ⟨"x", .int⟩) (.int 1)) (.var ⟨"y", .int⟩)).IsHarmless ∧
      (Expr.neg (.binary .add (.var ⟨"x", .int⟩) (.int 1))).IsHarmless ∧
      ∃ d, analyze .knownBranch none = .ok d ∧ .stmt 3 ∈ d.deadAssignments ∧
        (Expr.var ⟨"x", .int⟩).IsHarmless := by
  obtain ⟨hclass, hatoms, hreport⟩ := classification_safe
  have hsum : (Expr.binary .add (.var ⟨"x", .int⟩) (.int 1)).IsEffectless :=
    (hclass _ rfl (hatoms _ rfl)).1.mp rfl
  refine ⟨(hclass _ rfl fun o ho ↦ ?_).2.mp rfl, (hclass _ rfl fun o ho ↦ ?_).2.mp rfl, ?_⟩
  · rcases List.mem_pair.mp ho with rfl | rfl
    · exact hsum
    · exact Expr.isEffectless_of_isAtom rfl
  · rw [List.mem_singleton.mp ho]
    exact hsum
  · have hrun : ((analyze .knownBranch none).toOption.any fun d ↦ .stmt 3 ∈ d.deadAssignments) =
        true := by decide +kernel
    obtain ⟨d, hd, hdead⟩ := exists_of_any_toOption hrun
    obtain ⟨_, _, _, _, _, _, _, _, hdetect⟩ := of_analyze_eq_ok hd
    have hmem := of_decide_eq_true hdead
    have hst : FlowGraph.knownBranch.stmtAt (.stmt 3) =
        .assign (.var ⟨"y", .int⟩) (.var ⟨"x", .int⟩) rfl := by decide +kernel
    exact ⟨d, hd, hmem, (hreport _ _ _ _ _ _ _ rfl hdetect hmem hst (hatoms _ rfl)).2⟩

/-! ## An effect that hides -/

/-- A quotient of two variables. -/
def quotientOfVars : Expr := .binary .div (⟨"p", .int⟩ : Var) (⟨"y", .int⟩ : Var)

/-- Whether a quotient is zero. -/
def vanishingQuotient : Expr := .binary .eq quotientOfVars (.int 0)

/-- A graph that asks for the quotient and forgets the answer: `q = p / y == 0`, then `return p`. -/
def forgottenQuotient : FlowGraph :=
  .withEdges
    { params := [⟨"p", .int⟩, ⟨"y", .int⟩]
      slots :=
        [⟨0, .assign (.var ⟨"q", .int⟩) vanishingQuotient rfl⟩,
          ⟨1, .ret (some (.var ⟨"p", .int⟩))⟩] }
    [(.entry, .stmt 0, .entry, none), (.stmt 0, .stmt 1, .fallThrough, none),
      (.stmt 1, .exit 2, .ret, none)]

/-- A call by itself is classified wrongly as well, but is no right-hand side. -/
def bareCall : Expr := .call .static ⟨⟨"C", 0⟩, ⟨"run", [], none⟩⟩ none []

/-- Below the comparison the division is not seen, and the assignment is reported although it may
trap. Below a negation it is not seen either. -/
theorem classification_misses_effects :
    (vanishingQuotient.hasNoSideEffect = true ∧ ¬vanishingQuotient.IsEffectless ∧
      ¬vanishingQuotient.IsHarmless) ∧
    ((Expr.neg quotientOfVars).hasNoSideEffect = true ∧ ¬(Expr.neg quotientOfVars).IsEffectless) ∧
    (bareCall.hasNoSideEffect = true ∧ ¬bareCall.IsEffectless) ∧
    forgottenQuotient.stmtAt (.stmt 0) = .assign (.var ⟨"q", .int⟩) vanishingQuotient rfl ∧
      ∃ d, analyze forgottenQuotient none = .ok d ∧ .stmt 0 ∈ d.deadAssignments := by
  have hhidden : ∀ e : Expr, quotientOfVars ∈ e.children → ¬e.IsEffectless := fun e he h ↦ by
    have hdiv := h quotientOfVars (.single he)
    simp [quotientOfVars, Expr.isEffectful, Operator.divides] at hdiv
  have heffect : ¬vanishingQuotient.IsEffectless := hhidden _ List.mem_cons_self
  have hcall : ¬bareCall.IsEffectless := fun h ↦ by
    have hbare := h bareCall .refl
    simp [bareCall, Expr.isEffectful] at hbare
  have hrun : ((analyze forgottenQuotient none).toOption.any fun d ↦ .stmt 0 ∈ d.deadAssignments) =
      true := by decide +kernel
  obtain ⟨d, hd, hdead⟩ := exists_of_any_toOption hrun
  exact ⟨⟨rfl, heffect, fun h ↦ heffect (Expr.isHarmless_iff_isEffectless.mp h)⟩,
    ⟨rfl, hhidden _ List.mem_cons_self⟩, ⟨rfl, hcall⟩,
    by decide +kernel, d, hd, of_decide_eq_true hdead⟩

end DeadCode

end ProgramAnalysis
