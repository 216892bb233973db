import Mathlib.Logic.Function.Basic
import ProgramAnalysis.Flow.Graph

/-!
# Interpreters

An interpreter runs a flow graph with an environment in which every variable has a value. It is free
in what it does not have to know: what values are, what operations yield, where control goes next,
and the outcome of whatever reads or writes the heap or calls a method. An evaluation traps if it
has no value. Of the operations, only divisions may trap.

Everything that an interpreter is free in depends on the number of the step and on the values of the
variables that are read. Environments that agree on these variables are therefore as good as equal,
as long as only variables and literals are negated: nothing else that is negated counts as read.

Statements can be *removed*: an interpreter then passes over them without any effect.
-/

namespace ProgramAnalysis

/-- What an interpreter is free in, for values of type `α`. -/
structure Interpreter (α : Type) where
  /-- The value of a literal. -/
  literal : Int → α
  /-- The result of an operation, or `none` if it traps. -/
  binary : Operator → α → α → Option α
  /-- The result of a negation. -/
  negate : α → α
  /-- What is neither a literal, a variable nor an operation yields, given the number of the step
  and the values of the variables that are read. -/
  oracle : Nat → Expr → List α → Option α
  /-- The position, among the successors of a node, of the one where control goes next. -/
  choice : Nat → Node → List α → Nat
  isSome_binary : ∀ op a b, op.divides = false → (binary op a b).isSome = true

/-- The values of all variables. -/
abbrev Environment (α : Type) : Type := Var → α

/-- How far a run has got. -/
inductive Snapshot (α : Type) where
  | running (n : Node) (env : Environment α)
  | trapped (n : Node)
  | halted (n : Node)

namespace Interpreter

variable {α : Type} (I : Interpreter α) (k : Nat)

/-! ## Expressions -/

/-- The value of an expression in step `k`. -/
def eval (env : Environment α) : Expr → Option α
  | .var x => some (env x)
  | .int n => some (I.literal n)
  | .binary op l r => do
    let a ← eval env l
    let b ← eval env r
    I.binary op a b
  | .neg e => (eval env e).map I.negate
  | e => I.oracle k e (e.uses.map env)

end Interpreter

namespace Expr

/-- Whether the expression is a variable or a literal. -/
def isAtom : Expr → Bool
  | var _ | int _ => true
  | _ => false

/-- Whether the operands are variables or literals, if the expression is an operation. -/
def hasAtomicOperands : Expr → Bool
  | binary _ l r => l.isAtom && r.isAtom
  | neg e => e.isAtom
  | _ => true

/-- Whether only variables and literals are negated, in an operation of any depth. -/
def negatesAtoms : Expr → Bool
  | binary _ l r => l.negatesAtoms && r.negatesAtoms
  | neg e => e.isAtom
  | _ => true

theorem negatesAtoms_of_isAtom : ∀ {e : Expr}, e.isAtom = true → e.negatesAtoms = true
  | var _, _ | int _, _ => rfl

theorem negatesAtoms_of_hasAtomicOperands {e : Expr} (h : e.hasAtomicOperands = true) :
    e.negatesAtoms = true := by
  cases e with
  | binary op l r =>
    rw [hasAtomicOperands, Bool.and_eq_true] at h
    rw [negatesAtoms, negatesAtoms_of_isAtom h.1, negatesAtoms_of_isAtom h.2, Bool.and_self]
  | neg e => exact h
  | var _ | int _ | cast _ _ | alloc _ _ | field _ _ | elem _ _ | call _ _ _ _ => rfl

end Expr

/-- Whether the operands of an operation that is assigned are variables or literals, and whatever is
negated elsewhere is one of these as well. -/
def Stmt.isThreeAddress : Stmt → Bool
  | .assign _ value _ => value.hasAtomicOperands
  | .branch condition => condition.negatesAtoms
  | .ret (some value) => value.negatesAtoms
  | _ => true

namespace Interpreter

variable {α : Type} {I : Interpreter α} {k : Nat} {env env' : Environment α}

theorem eval_congr : ∀ {e : Expr}, e.negatesAtoms = true → (∀ x ∈ e.uses, env x = env' x) →
    I.eval k env e = I.eval k env' e
  | .var x, _, h => by rw [eval, eval, h x (by simp [Expr.uses])]
  | .neg (.var x), _, h => by
    have hx : env x = env' x := h x (by simp [Expr.uses, Expr.asVar?])
    rw [eval, eval, eval, eval, hx]
  | .binary op l r, hneg, h => by
    rw [Expr.negatesAtoms, Bool.and_eq_true] at hneg
    rw [eval, eval, eval_congr hneg.1 fun x hx ↦ h x (List.mem_append_left _ hx),
      eval_congr hneg.2 fun x hx ↦ h x (List.mem_append_right _ hx)]
  | .int _, _, _ | .neg (.int _), _, _ => rfl
  | .cast _ _, _, h | .alloc _ _, _, h | .field _ _, _, h | .elem _ _, _, h
  | .call _ _ _ _, _, h => congrArg (I.oracle k _) (List.map_congr_left h)

variable (I k)

/-! ## Statements -/

/-- What a statement does in step `k`: it traps, or it binds a variable or none. -/
def outcome (env : Environment α) : Stmt → Option (Option (Var × α))
  | .assign (.var x) value _ => (I.eval k env value).map fun v ↦ some (x, v)
  | .assign target value _ => do
    let _ ← I.eval k env value
    let _ ← I.oracle k target.toExpr (target.uses.map env)
    return none
  | .invoke call result =>
    (I.eval k env call.toExpr).map fun v ↦ result.map fun x ↦ (x, v)
  | .branch condition => (I.eval k env condition).map fun _ ↦ none
  | .ret (some value) => (I.eval k env value).map fun _ ↦ none
  | _ => some none

variable {I k}

theorem outcome_congr {s : Stmt} (hs : s.isThreeAddress = true)
    (h : ∀ x ∈ s.uses, env x = env' x) : I.outcome k env s = I.outcome k env' s := by
  cases s with
  | assign target value hcall =>
    have hvalue : I.eval k env value = I.eval k env' value :=
      eval_congr (Expr.negatesAtoms_of_hasAtomicOperands hs)
        fun x hx ↦ h x (List.mem_append_left _ hx)
    cases target with
    | var x => rw [outcome, outcome, hvalue]
    | field _ _ | elem _ _ =>
      have htarget := fun x hx ↦ h x (List.mem_append_right _ hx)
      rw [outcome, outcome, hvalue, List.map_congr_left htarget]
      · exact fun _ h ↦ by simp at h
      · exact fun _ h ↦ by simp at h
  | invoke call result =>
    have hcall : call.toExpr.negatesAtoms = true := rfl
    rw [outcome, outcome, eval_congr hcall h]
  | branch condition => rw [outcome, outcome, eval_congr hs h]
  | ret value =>
    cases value with
    | none => rfl
    | some value => rw [outcome, outcome, eval_congr hs h]
  | switch _ _ | goto | nop | blank => rfl

/-- Only what the statement defines is bound. -/
theorem defines_of_outcome {s : Stmt} {b : Option (Var × α)} (h : I.outcome k env s = some b) :
    s.defines = b.map Prod.fst := by
  cases s with
  | assign target value _ =>
    cases target with
    | var x =>
      obtain ⟨v, -, rfl⟩ := Option.map_eq_some_iff.mp h
      rfl
    | field _ _ | elem _ _ =>
      obtain ⟨_, -, h⟩ := Option.bind_eq_some_iff.mp h
      obtain ⟨_, -, h⟩ := Option.bind_eq_some_iff.mp h
      obtain rfl := Option.some.inj h
      rfl
  | invoke call result =>
    obtain ⟨v, -, rfl⟩ := Option.map_eq_some_iff.mp h
    cases result <;> rfl
  | branch condition =>
    obtain ⟨v, -, rfl⟩ := Option.map_eq_some_iff.mp h
    rfl
  | ret value =>
    cases value with
    | none =>
      obtain rfl := Option.some.inj h
      rfl
    | some value =>
      obtain ⟨v, -, rfl⟩ := Option.map_eq_some_iff.mp h
      rfl
  | switch _ _ | goto | nop | blank =>
    obtain rfl := Option.some.inj h
    rfl

/-! ## Runs -/

/-- The environment with a variable bound anew, or as it is. -/
def bind (env : Environment α) : Option (Var × α) → Environment α
  | some (x, v) => Function.update env x v
  | none => env

variable (I k)

/-- Leaves a node in step `k`, where the environment is `env` and the binding `b` is made. Where
there is no node to go to, the run halts. What a removed statement reads still counts for the choice
of the next node. -/
def leave (g : FlowGraph) (n : Node) (env : Environment α) (b : Option (Var × α)) : Snapshot α :=
  match (g.succs n)[I.choice k n ((g.stmtAt n).uses.map env)]? with
  | some m => .running m (bind env b)
  | none => .halted n

/-- Step `k` of a run in which the statements at the `removed` nodes have no effect. -/
def advance (g : FlowGraph) (removed : List Node) : Snapshot α → Snapshot α
  | .running n env =>
    match if n ∈ removed then some none else I.outcome k env (g.stmtAt n) with
    | some b => I.leave k g n env b
    | none => .trapped n
  | s => s

/-- How far a run has got after a number of steps. -/
def run (g : FlowGraph) (removed : List Node) (env : Environment α) : Nat → Snapshot α
  | 0 => .running .entry env
  | k + 1 => I.advance k g removed (run g removed env k)

end Interpreter

end ProgramAnalysis
