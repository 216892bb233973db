import ProgramAnalysis.Analysis.ConstantPropagation
import ProgramAnalysis.Proofs.FactOrder
import ProgramAnalysis.Proofs.Iteration

/-!
# The facts of constant propagation

Constant propagation is an iteration in the preorder of facts. Its result is *stable*: all facts are
canonical, the entry keeps the boundary fact, the fact after a statement is the one that the fact
before it leads to, and it lies below the facts before all successors. Monotonicity plays no part in
this, which matters because evaluation is not monotone.
-/

namespace ProgramAnalysis

/-! ## Operations on values -/

/-- What is known about the result of an operation, given what is known about the operands. -/
def Operator.onValues (op : Operator) (v w : Value) : Value := (op.onValues? v w).getD .unseen

namespace Operator

variable {op : Operator} {v w : Value}

/-- Nothing is ever folded that cannot be folded: a folding fails on a divisor of zero only. -/
theorem onValues?_eq_some (op : Operator) (v w : Value) :
    op.onValues? v w = some (op.onValues v w) := by
  have hne : op.onValues? v w ≠ none := by
    rw [onValues?]
    split
    · simp
    · rename_i hzero
      split
      · simp
      · split
        · rename_i a b _ hw
          rw [Ne, Option.map_eq_none_iff, fold?_eq_none_iff]
          rintro ⟨hdiv, rfl⟩
          exact hzero ⟨hdiv, hw⟩
        · simp
  obtain ⟨u, hu⟩ := Option.ne_none_iff_exists'.mp hne
  rw [onValues, hu, Option.getD_some]

theorem onValues_eq_of_onValues?_eq_some {u : Value} (h : op.onValues? v w = some u) :
    op.onValues v w = u := by
  rw [onValues, h, Option.getD_some]

theorem onValues_of_zero (h : op.divides = true) (v : Value) :
    op.onValues v (.constant 0) = .unseen :=
  onValues_eq_of_onValues?_eq_some (by rw [onValues?, if_pos ⟨h, rfl⟩])

theorem onValues_of_isNac (hzero : ¬(op.divides = true ∧ w.constant? = some 0))
    (h : v.isNac = true ∨ w.isNac = true) : op.onValues v w = .varying :=
  onValues_eq_of_onValues?_eq_some (by rw [onValues?, if_neg hzero, if_pos h])

theorem onValues_of_fold?_eq_some {a b c : Int} (h : op.fold? a b = some c) :
    op.onValues (.constant a) (.constant b) = .constant c := by
  have hzero : ¬(op.divides = true ∧ (Value.constant b).constant? = some 0) := by
    rintro ⟨hdiv, hb⟩
    have hnone : op.fold? a b = none := fold?_eq_none_iff.mpr ⟨hdiv, Option.some.inj hb⟩
    simp [h] at hnone
  refine onValues_eq_of_onValues?_eq_some ?_
  rw [onValues?, if_neg hzero, if_neg (by simp [Value.isNac])]
  simp [Value.constant?, h]

/-- An operation finds no constant unless both operands are constants. -/
theorem onValues_eq_unseen_or_varying (op : Operator)
    (h : v.constant? = none ∨ w.constant? = none) :
    op.onValues v w = .unseen ∨ op.onValues v w = .varying := by
  rw [onValues, onValues?]
  split
  · exact Or.inl rfl
  · split
    · exact Or.inr rfl
    · left
      split
      · rename_i hv hw
        simp [hv, hw] at h
      · rfl

theorem canonical_onValues (op : Operator) (v w : Value) : (op.onValues v w).Canonical := by
  rw [onValues, onValues?]
  split
  · exact Value.canonical_unseen
  · split
    · exact Value.canonical_varying
    · split
      · rename_i a b _ _
        cases h : op.fold? a b with
        | none => exact Value.canonical_unseen
        | some c => exact inRange_of_fold?_eq_some h
      · exact Value.canonical_unseen

end Operator

/-! ## Evaluation -/

/-- Evaluation never fails. -/
theorem evaluate?_eq_some (f : ConstFact) : ∀ e : Expr, evaluate? e f = some (evaluate e f)
  | .binary op l r => by
    have hbinary : evaluate? (.binary op l r) f =
        some (op.onValues (evaluate l f) (evaluate r f)) := by
      rw [evaluate?, evaluate?_eq_some f l, evaluate?_eq_some f r]
      exact op.onValues?_eq_some _ _
    rw [evaluate, hbinary, Option.getD_some]
  | .int _ | .var _ | .neg _ | .cast _ _ | .alloc _ _ | .field _ _ | .elem _ _ | .call _ _ _ _ =>
    rfl

theorem evaluate_var (x : Var) (f : ConstFact) :
    evaluate (.var x) f = if x.holdsInt then f.get x else .varying := rfl

theorem evaluate_binary (op : Operator) (l r : Expr) (f : ConstFact) :
    evaluate (.binary op l r) f = op.onValues (evaluate l f) (evaluate r f) := by
  rw [evaluate, evaluate?, evaluate?_eq_some f l, evaluate?_eq_some f r]
  rfl

theorem canonical_evaluate {f : ConstFact} (hf : ∀ x, (f.get x).Canonical) (e : Expr) :
    (evaluate e f).Canonical := by
  cases e with
  | var x =>
    rw [evaluate_var]
    split
    · exact hf x
    · exact Value.canonical_varying
  | int n => exact Value.canonical_ofInt n
  | binary op l r =>
    rw [evaluate_binary]
    exact op.canonical_onValues _ _
  | neg _ | cast _ _ | alloc _ _ | field _ _ | elem _ _ | call _ _ _ _ =>
    exact Value.canonical_varying

namespace ConstantPropagation

/-! ## The fact after a statement -/

theorem exists_rvalue?_of_defines {s : Stmt} {x : Var} (h : s.defines = some x) :
    ∃ e, s.rvalue? = some e := by
  cases s with
  | assign target value _ => exact ⟨value, rfl⟩
  | invoke call result => exact ⟨call.toExpr, rfl⟩
  | branch _ | switch _ _ | ret _ | goto | nop | blank => simp [Stmt.defines, Stmt.lvalue?] at h

theorem after_of_defines_eq_none {s : Stmt} (h : s.defines = none) (f : ConstFact) :
    after s f = f := by
  rw [after, h]

theorem get_after_of_ne {s : Stmt} {y : Var} (h : s.defines ≠ some y) (f : ConstFact) :
    (after s f).get y = f.get y := by
  rw [after]
  split
  · rename_i x e hx _
    have hxy : x ≠ y := fun hxy ↦ h (hxy ▸ hx)
    simp only
    split
    · rw [ConstFact.get_update_of_ne _ hxy, ConstFact.get_remove, if_neg hxy]
    · rw [ConstFact.get_remove, if_neg hxy]
  · rfl

theorem get_after_self {s : Stmt} {x : Var} {e : Expr} (hx : s.defines = some x)
    (he : s.rvalue? = some e) (hint : x.holdsInt = true) (f : ConstFact) :
    (after s f).get x =
      if (evaluate e f).isUndef then .unseen else evaluate e f := by
  rw [after, hx, he]
  simp only [if_pos hint]
  rw [ConstFact.get_update, if_pos rfl]

theorem get_after_self_of_not_holdsInt {s : Stmt} {x : Var} (hx : s.defines = some x)
    (hint : x.holdsInt = false) (f : ConstFact) : (after s f).get x = .unseen := by
  obtain ⟨e, he⟩ := exists_rvalue?_of_defines hx
  rw [after, hx, he]
  simp only [hint, Bool.false_eq_true, if_false]
  rw [ConstFact.get_remove, if_pos rfl]

theorem canonical_after {f : ConstFact} (hf : f.Canonical) (s : Stmt) : (after s f).Canonical := by
  rw [after]
  split
  · simp only
    split
    · exact (hf.remove _).update _ (canonical_evaluate hf.get _)
    · exact hf.remove _
  · exact hf

/-! ## The boundary fact -/

private theorem boundary_foldl (l : List Var) (f : ConstFact) (hf : f.Canonical) :
    (l.foldl (fun f x ↦ if x.holdsInt then (f.update x .varying).2 else f) f).Canonical ∧
      ∀ y, (l.foldl (fun f x ↦ if x.holdsInt then (f.update x .varying).2 else f) f).get y =
        if y ∈ l ∧ y.holdsInt then .varying else f.get y := by
  induction l generalizing f with
  | nil => exact ⟨hf, fun y ↦ by simp⟩
  | cons x l ih =>
    rw [List.foldl_cons]
    by_cases hx : x.holdsInt = true
    · rw [if_pos hx]
      obtain ⟨hc, hget⟩ := ih _ (hf.update x Value.canonical_varying)
      refine ⟨hc, fun y ↦ ?_⟩
      rw [hget, ConstFact.get_update]
      by_cases hxy : x = y
      · subst hxy
        simp [hx, Value.varying, Value.isUndef]
      · simp [hxy, Ne.symm hxy]
    · rw [if_neg hx]
      obtain ⟨hc, hget⟩ := ih f hf
      refine ⟨hc, fun y ↦ ?_⟩
      rw [hget]
      by_cases hxy : y = x
      · subst hxy
        simp [hx]
      · simp [hxy]

theorem canonical_boundary (params : List Var) : (boundary params).Canonical :=
  (boundary_foldl params ∅ ConstFact.canonical_empty).1

theorem get_boundary (params : List Var) (x : Var) :
    (boundary params).get x = if x ∈ params ∧ x.holdsInt then .varying else .unseen :=
  (boundary_foldl params ∅ ConstFact.canonical_empty).2 x

/-! ## Stable facts -/

theorem accumulates (g : FlowGraph) :
    (analysis g).Accumulates fun n ↦ after (g.stmtAt n) where
  initial_le := ConstFact.empty_le
  le_meetInto_left := ConstFact.le_meetInto_left
  le_meetInto_right := ConstFact.le_meetInto_right
  transfer_le n i f x := (ConstFact.get_replaceWith f (after (g.stmtAt n) i) x).le
  le_transfer n i f x := (ConstFact.get_replaceWith f (after (g.stmtAt n) i) x).ge
  le_of_unchanged _ _ _ h := (ConstFact.replaceWith_snd_eq_of_unchanged h).le

theorem canonical_of_reaches {g : FlowGraph} (hg : g.Mirrored) {σ : Strategy}
    {p : IterationState ConstFact} (h : (analysis g).Reaches (g.orient .forward) σ p) (n : Node) :
    ((analysis g).inputAt p n).Canonical ∧ ((analysis g).outputAt p n).Canonical :=
  h.forall_facts (hg.wellFormed_orient .forward) (canonical_boundary _) ConstFact.canonical_empty
    (fun _ _ hf ht ↦ hf.meetInto ht) (fun _ _ _ hi hf ↦ hf.replaceWith (canonical_after hi _)) n

/-- The fact before a node. -/
def factBefore (t : Facts ConstFact) (n : Node) : ConstFact := t.before.findD n ∅

/-- The fact after a node. -/
def factAfter (t : Facts ConstFact) (n : Node) : ConstFact := t.after.findD n ∅

/-- What constant propagation leaves behind. -/
structure Stable (g : FlowGraph) (t : Facts ConstFact) : Prop where
  before_ne_none : ∀ n ∈ g.nodes, t.before.find? n ≠ none
  after_ne_none : ∀ n ∈ g.nodes, t.after.find? n ≠ none
  canonical_before : ∀ n, (factBefore t n).Canonical
  canonical_after : ∀ n, (factAfter t n).Canonical
  before_entry : factBefore t .entry = boundary g.body.params
  after_entry : factAfter t .entry = boundary g.body.params
  after_le : ∀ n ∈ g.nodes, n ≠ .entry → factAfter t n ≤ after (g.stmtAt n) (factBefore t n)
  le_after : ∀ n ∈ g.nodes, n ≠ .entry → after (g.stmtAt n) (factBefore t n) ≤ factAfter t n
  flows : ∀ m n, n ∈ g.succs m → factAfter t m ≤ factBefore t n

theorem exists_state_of_solve? {g : FlowGraph} {it : Iteration} {s : Solution ConstFact}
    (h : (analysis g).solve? g it = some s) :
    ∃ p, (analysis g).Reaches (g.orient .forward) it.strategy p ∧ p.worklist.pop? = none ∧
      (∀ n, factBefore s.toFacts n = (analysis g).inputAt p n) ∧
      (∀ n, factAfter s.toFacts n = (analysis g).outputAt p n) ∧
      s.before = p.input ∧ s.after = p.output := by
  obtain ⟨p, hreach, hdone, hdir, hin, hout⟩ := Analysis.exists_reaches_of_solve? h
  rw [Solution.inputs, hdir] at hin
  rw [Solution.outputs, hdir] at hout
  change s.before = p.input at hin
  change s.after = p.output at hout
  refine ⟨p, hreach, hdone, fun n ↦ ?_, fun n ↦ ?_, hin, hout⟩
  · rw [factBefore, hin]
    rfl
  · rw [factAfter, hout]
    rfl

theorem stable_of_solve? {g : FlowGraph} (hg : g.Mirrored) {it : Iteration}
    {s : Solution ConstFact} (h : (analysis g).solve? g it = some s) : Stable g s.toFacts := by
  obtain ⟨p, hreach, hdone, hbefore, hafter, hin, hout⟩ := exists_state_of_solve? h
  have ho := hg.wellFormed_orient .forward
  have hp := hreach.consistent (accumulates g) ho
  refine ⟨fun n hn ↦ ?_, fun n hn ↦ ?_, fun n ↦ ?_, fun n ↦ ?_, ?_, ?_, fun n hn hne ↦ ?_,
    fun n hn hne ↦ ?_, fun m n hmn ↦ ?_⟩
  · rw [hin]
    exact (hreach.find?_ne_none hn).1
  · rw [hout]
    exact (hreach.find?_ne_none hn).2
  · rw [hbefore]
    exact (canonical_of_reaches hg hreach n).1
  · rw [hafter]
    exact (canonical_of_reaches hg hreach n).2
  · rw [hbefore]
    exact hp.inputAt_start
  · rw [hafter]
    exact hp.outputAt_start
  · rw [hbefore, hafter]
    exact (hp.computed hdone hn hne).1
  · rw [hbefore, hafter]
    exact (hp.computed hdone hn hne).2
  · rw [hbefore, hafter]
    exact hp.outputAt_le_inputAt hdone hmn

theorem Stable.beforeNode_eq_ok {g : FlowGraph} {t : Facts ConstFact} (ht : Stable g t) {n : Node}
    (hn : n ∈ g.nodes) : t.beforeNode g n = .ok (factBefore t n) :=
  Facts.beforeNode_eq_ok (ht.before_ne_none n hn) ∅ g

theorem Stable.afterNode_eq_ok {g : FlowGraph} {t : Facts ConstFact} (ht : Stable g t) {n : Node}
    (hn : n ∈ g.nodes) : t.afterNode g n = .ok (factAfter t n) :=
  Facts.afterNode_eq_ok (ht.after_ne_none n hn) ∅ g

end ConstantPropagation

end ProgramAnalysis
