import ProgramAnalysis.Proofs.LiveFacts
import ProgramAnalysis.Proofs.SideEffects

/-!
# Dead assignments can be removed

A run of a graph and the run without its dead assignments go side by side: they are at the same
node, with environments that agree on the variables that are live there. A node reads live variables
only, so both runs trap, or both go on to the same successor. What one of them binds there and the
other does not is not live behind the node.

All dead assignments are removed at once. A removed assignment still counts as a reader of its
variables, so a variable that only dead assignments read is kept in agreement all the same.
-/

namespace ProgramAnalysis

/-- The runs have got equally far, and if both go on, the environments agree on the variables that
matter at the node. -/
inductive Snapshot.AgreesOn {α : Type} (matters : Node → Var → Prop) :
    Snapshot α → Snapshot α → Prop where
  | running {n : Node} {env env' : Environment α} (h : ∀ x, matters n x → env x = env' x) :
      AgreesOn matters (.running n env) (.running n env')
  | trapped (n : Node) : AgreesOn matters (.trapped n) (.trapped n)
  | halted (n : Node) : AgreesOn matters (.halted n) (.halted n)

namespace DeadCode

open LiveVariables

variable {g : FlowGraph} {live : Facts VarSet} {α : Type}

/-! ## What is known of a dead assignment -/

theorem of_isDeadAssignment_eq_ok {n : Node} (hlive : Solved g live) (hn : n ∈ g.nodes)
    (h : isDeadAssignment g live n = .ok true) :
    ∃ x value hcall, g.stmtAt n = .assign (.var x) value hcall ∧ x ∉ liveAfter live n ∧
      value.hasNoSideEffect = true := by
  obtain ⟨x, value, hcall, s, hst, hs, hx, hpure⟩ := isDeadAssignment_eq_ok_true_iff.mp h
  rw [hlive.afterNode_eq_ok hn] at hs
  obtain rfl := Except.ok.inj hs
  exact ⟨x, value, hcall, hst, hx, hpure⟩

/-- A statement binds a variable that is dead behind it, and does not trap. -/
theorem outcome_of_isDeadAssignment {n : Node} (hlive : Solved g live) (hn : n ∈ g.nodes)
    (h : isDeadAssignment g live n = .ok true) (hatoms : (g.stmtAt n).isThreeAddress = true)
    (I : Interpreter α) (k : Nat) (env : Environment α) :
    ∃ x v, I.outcome k env (g.stmtAt n) = some (some (x, v)) ∧ x ∉ liveAfter live n := by
  obtain ⟨x, value, hcall, hst, hx, hpure⟩ := of_isDeadAssignment_eq_ok hlive hn h
  rw [hst] at hatoms ⊢
  have heffectless : value.IsEffectless :=
    (Expr.hasNoSideEffect_iff_isEffectless hcall (Expr.isEffectless_of_mem_operands hatoms)).mp hpure
  obtain ⟨v, hv⟩ :=
    Option.isSome_iff_exists.mp (Interpreter.isSome_eval_of_isEffectless heffectless)
  exact ⟨x, v, by rw [Interpreter.outcome, hv, Option.map_some], hx⟩

/-! ## Side by side -/

/-- The environments agree on the variables that are live before a node. -/
def AgreesBefore (live : Facts VarSet) (n : Node) (env env' : Environment α) : Prop :=
  ∀ x ∈ liveBefore live n, env x = env' x

/-- Binding the same variable to the same value on both sides makes the environments agree behind
the node, if they do so before it. -/
theorem bind_agrees (hlive : Solved g live) {n : Node} (hn : n ∈ g.nodes)
    {env env' : Environment α} (h : AgreesBefore live n env env') {b : Option (Var × α)}
    (hdef : (g.stmtAt n).defines = b.map Prod.fst) {x : Var} (hx : x ∈ liveAfter live n) :
    Interpreter.bind env b x = Interpreter.bind env' b x := by
  cases b with
  | none => exact h x (hlive.mem_liveBefore hn (Or.inr ⟨hx, by simp [hdef]⟩))
  | some b =>
    obtain ⟨y, v⟩ := b
    by_cases hxy : x = y
    · subst hxy
      rw [Interpreter.bind, Interpreter.bind, Function.update_self, Function.update_self]
    · rw [Interpreter.bind, Interpreter.bind, Function.update_of_ne hxy,
        Function.update_of_ne hxy]
      refine h x (hlive.mem_liveBefore hn (Or.inr ⟨hx, ?_⟩))
      simpa [hdef] using Ne.symm hxy

/-- Binding a dead variable on one side only does no harm. -/
theorem bind_dead_agrees (hlive : Solved g live) {n : Node} (hn : n ∈ g.nodes)
    {env env' : Environment α} (h : AgreesBefore live n env env') {y : Var} {v : α}
    (hdef : (g.stmtAt n).defines = some y) (hy : y ∉ liveAfter live n) {x : Var}
    (hx : x ∈ liveAfter live n) : Interpreter.bind env (some (y, v)) x = env' x := by
  have hxy : x ≠ y := fun hxy ↦ hy (hxy ▸ hx)
  rw [Interpreter.bind, Function.update_of_ne hxy]
  refine h x (hlive.mem_liveBefore hn (Or.inr ⟨hx, ?_⟩))
  simpa [hdef] using Ne.symm hxy

/-- The invariant: both runs are at the same node of the graph and agree on what is live there, or
both have stopped at the same node. -/
inductive InStep (g : FlowGraph) (live : Facts VarSet) : Snapshot α → Snapshot α → Prop where
  | running {n : Node} {env env' : Environment α} (hn : n ∈ g.nodes)
      (h : AgreesBefore live n env env') : InStep g live (.running n env) (.running n env')
  | trapped (n : Node) : InStep g live (.trapped n) (.trapped n)
  | halted (n : Node) : InStep g live (.halted n) (.halted n)

theorem inStep_leave (hg : g.Mirrored) (hlive : Solved g live) (I : Interpreter α) (k : Nat)
    {n : Node} (hn : n ∈ g.nodes) {env env' : Environment α} (h : AgreesBefore live n env env')
    {b b' : Option (Var × α)}
    (hbind : ∀ x ∈ liveAfter live n, Interpreter.bind env b x = Interpreter.bind env' b' x) :
    InStep g live (I.leave k g n env b) (I.leave k g n env' b') := by
  -- both sides read the same values, so they choose the same successor
  have hread : (g.stmtAt n).uses.map env = (g.stmtAt n).uses.map env' :=
    List.map_congr_left fun x hx ↦ h x (hlive.mem_liveBefore hn (Or.inl hx))
  rw [Interpreter.leave, Interpreter.leave, hread]
  cases hm : (g.succs n)[I.choice k n ((g.stmtAt n).uses.map env')]? with
  | none => exact .halted n
  | some m =>
    have hsucc := List.mem_of_getElem? hm
    refine .running (hg.mem_nodes_of_mem_succs hsucc).2 fun x hx ↦ hbind x ?_
    exact hlive.flows n m hsucc x hx

theorem InStep.advance (hg : g.Mirrored) (hlive : Solved g live)
    (hatoms : ∀ n ∈ g.nodes, (g.stmtAt n).isThreeAddress = true) {removed : List Node}
    (hremoved : ∀ n ∈ removed, isDeadAssignment g live n = .ok true) (I : Interpreter α) (k : Nat)
    {s s' : Snapshot α} (h : InStep g live s s') :
    InStep g live (I.advance k g [] s) (I.advance k g removed s') := by
  cases h with
  | trapped n => exact .trapped n
  | halted n => exact .halted n
  | @running n env env' hn hagree =>
    rw [Interpreter.advance, Interpreter.advance, if_neg List.not_mem_nil]
    by_cases hmem : n ∈ removed
    · -- only the first run binds a variable, and that variable is dead
      rw [if_pos hmem]
      obtain ⟨x, v, hout, hx⟩ :=
        outcome_of_isDeadAssignment hlive hn (hremoved n hmem) (hatoms n hn) I k env
      have hdef := Interpreter.defines_of_outcome hout
      rw [hout]
      exact inStep_leave hg hlive I k hn hagree fun y hy ↦
        bind_dead_agrees hlive hn hagree hdef hx hy
    · -- both runs read the same values, so they trap or bind alike
      rw [if_neg hmem]
      have houtcome : I.outcome k env (g.stmtAt n) = I.outcome k env' (g.stmtAt n) :=
        Interpreter.outcome_congr (hatoms n hn)
          fun x hx ↦ hagree x (hlive.mem_liveBefore hn (Or.inl hx))
      rw [houtcome]
      cases hb : I.outcome k env' (g.stmtAt n) with
      | none => exact .trapped n
      | some b =>
        have hdef := Interpreter.defines_of_outcome hb
        exact inStep_leave hg hlive I k hn hagree fun y hy ↦
          bind_agrees hlive hn hagree hdef hy

theorem inStep_run (hg : g.Mirrored) (hlive : Solved g live)
    (hatoms : ∀ n ∈ g.nodes, (g.stmtAt n).isThreeAddress = true) {removed : List Node}
    (hremoved : ∀ n ∈ removed, isDeadAssignment g live n = .ok true) (I : Interpreter α)
    (env : Environment α) (k : Nat) : InStep g live (I.run g [] env k) (I.run g removed env k) := by
  induction k with
  | zero => exact .running g.entry_mem_nodes fun _ _ ↦ rfl
  | succ k ih => exact ih.advance hg hlive hatoms hremoved I k

/-- What a run reads, and what any finished iteration of the analysis finds live. -/
def Matters (g : FlowGraph) (n : Node) (x : Var) : Prop := x ∈ (g.stmtAt n).uses ∨ LiveAt g n x

theorem InStep.agreesOn (hg : g.Mirrored) {it : Iteration} {sol : Solution VarSet}
    (hsol : (analysis g).solve? g it = some sol) {s s' : Snapshot α}
    (h : InStep g sol.toFacts s s') : s.AgreesOn (Matters g) s' := by
  cases h with
  | trapped n => exact .trapped n
  | halted n => exact .halted n
  | running hn hagree =>
    refine .running fun x hx ↦ hagree x ?_
    rcases hx with hx | hx
    · exact (solved_of_solve? hg hsol).mem_liveBefore hn (Or.inl hx)
    · exact mem_liveBefore_of_liveAt hg hsol hn hx

/-- Removing all dead assignments at once changes nothing that matters: whatever the interpreter and
the environment, the runs visit the same nodes, trap at the same node if at all, and agree at every
node on all variables that are read there or live there. -/
theorem removal_preserves_runs (hg : g.Built)
    (hatoms : ∀ n ∈ g.nodes, (g.stmtAt n).isThreeAddress = true) {given : Option Configuration}
    {d : DeadCode} (hd : analyze g given = .ok d) (I : Interpreter α) (env : Environment α)
    (k : Nat) :
    (I.run g [] env k).AgreesOn (Matters g) (I.run g d.deadAssignments env k) := by
  obtain ⟨_, _, _, sol, _, _, _, hsol, hdetect⟩ := of_analyze_eq_ok hd
  have hlive := solved_of_solve? hg.mirrored hsol
  have hremoved : ∀ n ∈ d.deadAssignments, isDeadAssignment g sol.toFacts n = .ok true :=
    fun n hn ↦ ((mem_deadAssignments_iff hdetect).mp hn).2.2
  exact (inStep_run hg.mirrored hlive hatoms hremoved I env k).agreesOn hg.mirrored hsol

/-- An interpreter of integers that goes to the first successor. -/
def firstSuccessor : Interpreter Int where
  literal n := n
  binary op a b := op.fold? a b
  negate a := -a
  oracle _ _ _ := some 0
  choice _ _ _ := 0
  isSome_binary op a b h := by simp [Operator.fold?, h]

/-- In the small graph, the assignment `y = x` is removed, and the runs agree behind it. -/
theorem removal_preserves_runs_knownBranch :
    ∃ d, analyze .knownBranch none = .ok d ∧ .stmt 3 ∈ d.deadAssignments ∧
      (firstSuccessor.run .knownBranch [] (fun _ ↦ 7) 5).AgreesOn (Matters .knownBranch)
        (firstSuccessor.run .knownBranch d.deadAssignments (fun _ ↦ 7) 5) := by
  have hrun : ((analyze .knownBranch none).toOption.any fun d ↦ .stmt 3 ∈ d.deadAssignments) =
      true := by decide +kernel
  obtain ⟨d, hd, hdead⟩ := exists_of_any_toOption hrun
  exact ⟨d, hd, of_decide_eq_true hdead, removal_preserves_runs FlowGraph.built_knownBranch
    (by decide +kernel) hd firstSuccessor (fun _ ↦ 7) 5⟩

end DeadCode

end ProgramAnalysis
