import ProgramAnalysis.Proofs.ConstantFacts
import ProgramAnalysis.Proofs.MachineWords

/-!
# Constants along executions

A machine executes a body along the edges of its flow graph. Its store binds variables that hold
32-bit integers to words; at the entry exactly the parameters among them are bound. Whatever
constant propagation does not model yields an arbitrary word, and an execution that reads an unbound
variable or divides by zero goes no further.

## The invariant

A fact *describes* a store if it calls every bound variable varying, or the constant to which it is
bound. An unbound variable may stand for anything in the fact. That is why the missing monotonicity
of evaluation does no harm: a fact that describes a store leads to one that describes the next
store, and every fact above a fact that describes a store describes it as well.
-/

namespace ProgramAnalysis

/-! ## Stores and expressions -/

/-- The words to which variables are bound. -/
def Store : Type := Var → Option (BitVec 32)

/-- The store with one more binding. -/
def Store.bind (s : Store) (x : Var) (v : BitVec 32) : Store :=
  fun y ↦ if y = x then some v else s y

theorem Store.bind_self (s : Store) (x : Var) (v : BitVec 32) : s.bind x v x = some v := if_pos rfl

theorem Store.bind_of_ne (s : Store) {x y : Var} (v : BitVec 32) (h : y ≠ x) :
    s.bind x v y = s y := if_neg h

namespace Expr

/-- Whether the value of an expression depends on the values of its operands alone. -/
def isModelled : Expr → Bool
  | .int _ | .binary .. => true
  | .var x => x.holdsInt
  | _ => false

/-- An expression can have a value in a store. -/
inductive Yields (s : Store) : Expr → BitVec 32 → Prop where
  | int (n : Int) : Yields s (.int n) (BitVec.ofInt 32 n)
  | var {x : Var} {v : BitVec 32} (hx : x.holdsInt = true) (hv : s x = some v) :
      Yields s (.var x) v
  | binary {op : Operator} {l r : Expr} {a b v : BitVec 32} (hl : Yields s l a)
      (hr : Yields s r b) (hv : op.onWord? a b = some v) : Yields s (.binary op l r) v
  | other {e : Expr} (he : e.isModelled = false) (v : BitVec 32) : Yields s e v

end Expr

/-- What a statement does to a store: a definition of a variable that holds integers binds it to a
value of the right-hand side, and every other statement leaves the store alone. What such a
statement evaluates is not looked at, so a machine that gets stuck there has fewer executions. -/
inductive Stmt.Effect (st : Stmt) (s : Store) : Store → Prop where
  | keep (h : ∀ x, st.defines = some x → x.holdsInt = false) : Effect st s s
  | bind {x : Var} {e : Expr} {v : BitVec 32} (hx : st.defines = some x)
      (hint : x.holdsInt = true) (he : st.rvalue? = some e) (hv : e.Yields s v) :
      Effect st s (s.bind x v)

theorem Stmt.Effect.of_defines_eq_none {st : Stmt} {s : Store} (h : st.defines = none) :
    st.Effect s s := .keep fun x hx ↦ by simp [h] at hx

namespace FlowGraph

/-- The parameters that hold integers are bound, and nothing else is. -/
def BindsParams (g : FlowGraph) (s : Store) : Prop :=
  ∀ x, (s x).isSome = true ↔ x ∈ g.body.params ∧ x.holdsInt = true

theorem exists_bindsParams_knownBranch : ∃ s, knownBranch.BindsParams s := by
  refine ⟨fun x ↦ if x ∈ knownBranch.body.params ∧ x.holdsInt = true then some 5 else none, ?_⟩
  intro x
  simp only [Option.isSome_ite]

/-- An execution can arrive at a node with a store. -/
inductive Arrives (g : FlowGraph) : Node → Store → Prop where
  | start {s : Store} (hs : g.BindsParams s) : Arrives g .entry s
  | step {n m : Node} {s s' : Store} (hn : Arrives g n s) (he : (g.stmtAt n).Effect s s')
      (hm : m ∈ g.succs n) : Arrives g m s'

end FlowGraph

/-! ## Describing words and stores -/

/-- The value is not known, or it is known to be the given word. -/
def Value.Describes (w : Value) (v : BitVec 32) : Prop := w = .varying ∨ w = .constant v.toInt

theorem Value.Describes.mono {w w' : Value} {v : BitVec 32} (h : w.Describes v) (hle : w ≤ w')
    (hw' : w'.Canonical) : w'.Describes v := by
  rcases h with rfl | rfl
  · left
    exact eq_of_canonical_of_isNac hw' (isNac_of_le hle rfl)
  · rcases constant_le_iff.mp hle with hconst | hnac
    · exact Or.inr hconst
    · exact Or.inl (eq_of_canonical_of_isNac hw' hnac)

theorem Value.Describes.isUndef {w : Value} {v : BitVec 32} (h : w.Describes v) :
    w.isUndef = false := by
  rcases h with rfl | rfl <;> rfl

/-- The fact says nothing wrong about the variables that are bound, and these hold integers. -/
def ConstFact.Describes (f : ConstFact) (s : Store) : Prop :=
  ∀ x v, s x = some v → x.holdsInt = true ∧ (f.get x).Describes v

theorem ConstFact.Describes.mono {f f' : ConstFact} {s : Store} (h : f.Describes s) (hle : f ≤ f')
    (hf' : f'.Canonical) : f'.Describes s := by
  intro x v hv
  obtain ⟨hint, hx⟩ := h x v hv
  exact ⟨hint, hx.mono (hle x) (hf'.get x)⟩

/-! ## Evaluation describes values -/

theorem Operator.describes_onValues {op : Operator} {w w' : Value} {a b v : BitVec 32}
    (hw : w.Describes a) (hw' : w'.Describes b) (hv : op.onWord? a b = some v) :
    (op.onValues w w').Describes v := by
  -- the machine does not trap, so the divisor is not known to be zero
  have hzero : ¬(op.divides = true ∧ w'.constant? = some 0) := by
    rintro ⟨hdiv, h⟩
    rcases hw' with rfl | rfl
    · simp [Value.varying, Value.constant?] at h
    · have hb : b = 0 := BitVec.eq_of_toInt_eq (Option.some.inj h)
      rw [onWord?, if_pos ⟨hdiv, hb⟩] at hv
      simp at hv
  rcases hw with rfl | rfl
  · exact Or.inl (onValues_of_isNac hzero (Or.inl rfl))
  · rcases hw' with rfl | rfl
    · exact Or.inl (onValues_of_isNac hzero (Or.inr rfl))
    · right
      have hfold := op.fold?_toInt a b
      rw [hv] at hfold
      exact onValues_of_fold?_eq_some hfold

/-- A fact that describes a store knows nothing wrong about the values of expressions. -/
theorem ConstFact.Describes.evaluate {f : ConstFact} {s : Store} (hf : f.Describes s) {e : Expr}
    {v : BitVec 32} (h : e.Yields s v) : (evaluate e f).Describes v := by
  induction h with
  | int n =>
    right
    rw [Word32.toInt_ofInt]
    rfl
  | var hx hv =>
    rw [evaluate_var, if_pos hx]
    exact (hf _ _ hv).2
  | binary _ _ hv ihl ihr =>
    rw [evaluate_binary]
    exact Operator.describes_onValues ihl ihr hv
  | @other e he v =>
    left
    cases e with
    | int _ | binary _ _ _ => simp [Expr.isModelled] at he
    | var x => exact if_neg (Bool.eq_false_iff.mp he)
    | neg _ | cast _ _ | alloc _ _ | field _ _ | elem _ _ | call _ _ _ _ => rfl

namespace ConstantPropagation

/-- The fact after a statement describes the store after it. -/
theorem describes_after {f : ConstFact} {s s' : Store} {st : Stmt} (hf : f.Describes s)
    (h : st.Effect s s') : (after st f).Describes s' := by
  intro y w hy
  cases h with
  | keep hkeep =>
    -- a bound variable holds integers, so it is not the one that the fact forgets
    have hint := (hf y w hy).1
    have hne : st.defines ≠ some y := fun hdef ↦ by simp [hkeep y hdef] at hint
    rw [get_after_of_ne hne]
    exact hf y w hy
  | @bind x e v hx hint he hv =>
    by_cases hyx : y = x
    · -- the value described is not unseen, so the update has kept it
      subst hyx
      rw [Store.bind_self] at hy
      obtain rfl := Option.some.inj hy
      have hval := hf.evaluate hv
      rw [get_after_self hx he hint, hval.isUndef]
      exact ⟨hint, hval⟩
    · rw [Store.bind_of_ne _ _ hyx] at hy
      have hne : st.defines ≠ some y := fun hdef ↦ hyx (Option.some.inj (hdef.symm.trans hx))
      rw [get_after_of_ne hne]
      exact hf y w hy

/-! ## Along executions -/

theorem describes_boundary {g : FlowGraph} {s : Store} (hs : g.BindsParams s) :
    (boundary g.body.params).Describes s := by
  intro x v hv
  have hx := (hs x).mp (by rw [hv]; rfl)
  refine ⟨hx.2, Or.inl ?_⟩
  rw [get_boundary, if_pos hx]

variable {g : FlowGraph} {t : Facts ConstFact}

/-- What a node does to a store, its two facts do to each other. -/
theorem Stable.describes_factAfter (ht : Stable g t) {n : Node} {s s' : Store}
    (hn : n ∈ g.nodes) (hs : (factBefore t n).Describes s) (he : (g.stmtAt n).Effect s s') :
    (factAfter t n).Describes s' := by
  have hafter := describes_after hs he
  by_cases hentry : n = .entry
  · -- nothing happens at the entry, and both of its facts are the boundary fact
    subst hentry
    have hid : after (g.stmtAt .entry) (factBefore t .entry) = factBefore t .entry :=
      after_of_defines_eq_none rfl _
    rw [hid, ht.before_entry] at hafter
    rwa [ht.after_entry]
  · exact hafter.mono (ht.le_after n hn hentry) (ht.canonical_after n)

/-- Stable facts describe every store with which an execution arrives. -/
theorem Stable.describes_of_arrives (hg : g.Mirrored) (ht : Stable g t) {n : Node} {s : Store}
    (h : g.Arrives n s) : (factBefore t n).Describes s := by
  induction h with
  | start hs =>
    rw [ht.before_entry]
    exact describes_boundary hs
  | @step n m s s' _ he hm ih =>
    have hn := (hg.mem_nodes_of_mem_succs hm).1
    exact (ht.describes_factAfter hn ih he).mono (ht.flows n m hm) (ht.canonical_before m)

theorem mem_nodes_of_arrives (hg : g.Mirrored) {n : Node} {s : Store} (h : g.Arrives n s) :
    n ∈ g.nodes := by
  cases h with
  | start => exact g.entry_mem_nodes
  | step _ _ hm => exact (hg.mem_nodes_of_mem_succs hm).2

/-- Constant propagation is sound: whatever the graph, the strategy and the execution, the fact
before a node at which the execution arrives calls each bound variable varying, or exactly the
constant to which it is bound. -/
theorem fact_describes_arrivals (hg : g.Built) {c : Configuration} {strategy : Option Strategy}
    {sol : Solution ConstFact} (h : (analysis g).run g c strategy = .ok sol) {n : Node} {s : Store}
    (hn : g.Arrives n s) :
    ∃ f, sol.beforeNode g n = .ok f ∧
      ∀ x v, s x = some v → f.get x = .varying ∨ f.get x = .constant v.toInt := by
  obtain ⟨it, hit⟩ := Analysis.exists_solve?_of_run h
  have ht := stable_of_solve? hg.mirrored hit
  have hmem := mem_nodes_of_arrives hg.mirrored hn
  refine ⟨factBefore sol.toFacts n, ht.beforeNode_eq_ok hmem, fun x v hv ↦ ?_⟩
  exact (ht.describes_of_arrives hg.mirrored hn x v hv).2

/-- In the small graph, `x` is bound to five where the branch is, and found to be. -/
theorem fact_describes_arrivals_knownBranch :
    ∃ sol f, (analysis .knownBranch).run .knownBranch ⟨name, ∅⟩ (some .lifo) = .ok sol ∧
      sol.beforeNode .knownBranch (.stmt 1) = .ok f ∧
      (f.get ⟨"x", .int⟩ = .varying ∨ f.get ⟨"x", .int⟩ = .constant 5) := by
  have hrun : (((analysis .knownBranch).run .knownBranch ⟨name, ∅⟩ (some .lifo)).toOption.any
      fun _ ↦ true) = true := by decide +kernel
  obtain ⟨sol, hsol, -⟩ := exists_of_any_toOption hrun
  obtain ⟨s, hs⟩ := FlowGraph.exists_bindsParams_knownBranch
  have hfirst : FlowGraph.knownBranch.Arrives (.stmt 0) s :=
    (FlowGraph.Arrives.start hs).step (.of_defines_eq_none (by decide +kernel))
      (by decide +kernel)
  have hbranch : FlowGraph.knownBranch.Arrives (.stmt 1) (s.bind ⟨"x", .int⟩ 5) :=
    hfirst.step (.bind (by decide +kernel) rfl (by decide +kernel) (.int 5)) (by decide +kernel)
  obtain ⟨f, hf, hdescribes⟩ :=
    fact_describes_arrivals FlowGraph.built_knownBranch hsol hbranch
  exact ⟨sol, f, hsol, hf, hdescribes ⟨"x", .int⟩ 5 (Store.bind_self _ _ _)⟩

end ConstantPropagation

end ProgramAnalysis
