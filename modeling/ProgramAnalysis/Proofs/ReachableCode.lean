import ProgramAnalysis.Proofs.DeadCodeResults
import ProgramAnalysis.Proofs.Execution

/-!
# Code that is executed is reachable

An execution that resolves branches and switches takes an edge out of a branch or a switch only if
the value of the condition or of the selector allows it. The detection of dead code follows the
edges that the *known* values allow, and these are at least as many: a value that is known is the
right one, since facts describe stores.

That the condition of a branch is a comparison matters here. It then is one or zero, and one of the
two kinds of edges is taken. For any other known value, the detection would take none.
-/

namespace ProgramAnalysis

/-! ## Executions that resolve branches and switches -/

/-- Whether the expression is a comparison. -/
def Expr.isComparison : Expr → Bool
  | .binary op _ _ => op.family = .condition
  | _ => false

/-- Whether the statement is no branch, or branches on a comparison. -/
def Stmt.branchesOnComparison : Stmt → Bool
  | .branch condition => condition.isComparison
  | _ => true

/-- A statement can be left along an edge. -/
def Stmt.Takes (s : Store) (e : Edge) : Stmt → Prop
  | .branch condition =>
    ∃ v, condition.Yields s v ∧ (v = 1 → e.kind = .ifTrue) ∧ (v = 0 → e.kind = .ifFalse)
  | .switch selector cases =>
    ∃ v, (Expr.var selector).Yields s v ∧
      if v.toInt ∈ cases then e.case? = some v.toInt else e.kind = .switchDefault
  | _ => True

/-- An execution that resolves branches and switches can visit a node with a store. -/
inductive FlowGraph.Visits (g : FlowGraph) : Node → Store → Prop where
  | start {s : Store} (hs : g.BindsParams s) : Visits g .entry s
  | step {n : Node} {s s' : Store} {e : Edge} (hn : Visits g n s)
      (heffect : (g.stmtAt n).Effect s s') (he : e ∈ g.outEdges n)
      (htakes : (g.stmtAt n).Takes s e) : Visits g e.target s'

theorem FlowGraph.Visits.arrives {g : FlowGraph} {n : Node} {s : Store} (h : g.Visits n s) :
    g.Arrives n s := by
  induction h with
  | start hs => exact .start hs
  | step _ heffect he _ ih => exact ih.step heffect (mem_succs_iff.mpr ⟨_, he, rfl⟩)

/-- A statement that may go along any edge may go to any successor. -/
theorem FlowGraph.Visits.step_succ {g : FlowGraph} {n m : Node} {s s' : Store} (hn : g.Visits n s)
    (heffect : (g.stmtAt n).Effect s s') (hm : m ∈ g.succs n)
    (htakes : ∀ e, (g.stmtAt n).Takes s e) : g.Visits m s' := by
  obtain ⟨e, he, rfl⟩ := mem_succs_iff.mp hm
  exact hn.step heffect he (htakes e)

/-! ## Known outcomes -/

/-- A comparison is one or zero. -/
theorem Expr.Yields.eq_one_or_zero {s : Store} {e : Expr} {v : BitVec 32} (h : e.Yields s v)
    (he : e.isComparison = true) : v = 1 ∨ v = 0 := by
  have htruth : ∀ p : Bool, Operator.truthWord p = 1 ∨ Operator.truthWord p = 0 := by
    intro p
    cases p
    · exact Or.inr rfl
    · exact Or.inl rfl
  cases h with
  | int _ | var _ _ => simp [isComparison] at he
  | @binary op _ _ a b _ _ _ hv =>
    have hfamily : op.family = .condition := of_decide_eq_true he
    cases op <;> simp [Operator.family] at hfamily <;>
      exact Option.some.inj hv ▸ htruth _
  | other hmodel =>
    cases e <;> simp [isComparison, isModelled] at he hmodel

namespace DeadCode

variable {g : FlowGraph} {t : Facts ConstFact} {n : Node} {s : Store} {e : Edge}

theorem mem_switchTargets {cases : List Int} {v : Int} (he : e ∈ g.outEdges n)
    (hkind : if v ∈ cases then e.case? = some v else e.kind = .switchDefault) :
    e.target ∈ switchTargets g n cases v := by
  refine mem_switchTargets_iff.mpr ⟨e, he, rfl, ?_⟩
  split at hkind
  · rename_i hv
    have hcase : e.kind = .switchCase := by
      have h := e.case?_isSome
      rw [hkind] at h
      exact of_decide_eq_true h.symm
    rw [if_pos hv]
    exact ⟨hcase, hkind⟩
  · rename_i hv
    rwa [if_neg hv]

/-- Where an execution goes, the detection lets control pass. -/
theorem passes_of_takes (ht : ConstantPropagation.Stable g t) (hn : n ∈ g.nodes)
    (hbranch : (g.stmtAt n).branchesOnComparison = true)
    (hs : (ConstantPropagation.factBefore t n).Describes s) (he : e ∈ g.outEdges n)
    (htakes : (g.stmtAt n).Takes s e) : Passes g t n e.target := by
  have hsucc : e.target ∈ g.succs n := FlowGraph.mem_succs_iff.mpr ⟨e, he, rfl⟩
  have hfact := ht.beforeNode_eq_ok hn
  rw [Passes, successors]
  -- a value that is not known leaves all successors over
  cases hst : g.stmtAt n with
  | branch condition =>
    rw [hst] at htakes hbranch
    obtain ⟨v, hv, hone, hzero⟩ := htakes
    refine ⟨_, congrArg (Except.map _) hfact, ?_⟩
    rcases hs.evaluate hv with hval | hval
    · simp only [hval]
      exact hsucc
    · simp only [hval, Value.constant?]
      refine mem_branchTargets_iff.mpr ⟨e, he, rfl, ?_⟩
      rcases hv.eq_one_or_zero hbranch with rfl | rfl
      · exact Or.inl ⟨hone rfl, rfl⟩
      · exact Or.inr ⟨hzero rfl, rfl⟩
  | switch selector cases =>
    rw [hst] at htakes
    obtain ⟨v, hv, hkind⟩ := htakes
    refine ⟨_, congrArg (Except.map _) hfact, ?_⟩
    rcases hs.evaluate hv with hval | hval
    · simp only [hval]
      exact hsucc
    · simp only [hval, Value.constant?]
      exact mem_switchTargets he hkind
  | assign _ _ _ | invoke _ _ | ret _ | goto | nop | blank => exact ⟨_, rfl, hsucc⟩

/-- Control arrives wherever an execution does. -/
theorem mem_reached_of_visits (hg : g.Mirrored) (ht : ConstantPropagation.Stable g t)
    (hbranch : ∀ n ∈ g.nodes, (g.stmtAt n).branchesOnComparison = true)
    (h : g.Visits n s) : n ∈ reached g t := by
  rw [mem_reached_iff hg]
  induction h with
  | start => exact .refl
  | step hn _ he htakes ih =>
    have hmem := ConstantPropagation.mem_nodes_of_arrives hg hn.arrives
    have hdescribes := ht.describes_of_arrives hg hn.arrives
    exact ih.tail (passes_of_takes ht hmem (hbranch _ hmem) hdescribes he htakes)

/-- Code that is executed is never reported unreachable, whatever the graph, the configuration and
the execution. -/
theorem notMem_unreachable_of_visits (hg : g.Built)
    (hbranch : ∀ n ∈ g.nodes, (g.stmtAt n).branchesOnComparison = true)
    {given : Option Configuration} {d : DeadCode} (hd : analyze g given = .ok d)
    (h : g.Visits n s) : n ∉ d.unreachable := by
  obtain ⟨it, _, sol, _, _, hsolve, _, _, hdetect⟩ := of_analyze_eq_ok hd
  have ht := ConstantPropagation.stable_of_solve? hg.mirrored hsolve
  rw [mem_unreachable_iff hdetect]
  exact fun hmem ↦ hmem.2 (mem_reached_of_visits hg.mirrored ht hbranch h)

/-- In the small graph, the target of the branch is executed and not reported, as the assignment
that is jumped over is. -/
theorem notMem_unreachable_knownBranch :
    ∃ d, analyze .knownBranch none = .ok d ∧ .stmt 2 ∈ d.unreachable ∧
      .stmt 3 ∉ d.unreachable := by
  have hrun : ((analyze .knownBranch none).toOption.any fun d ↦ .stmt 2 ∈ d.unreachable) = true :=
    by decide +kernel
  obtain ⟨d, hd, hdead⟩ := exists_of_any_toOption hrun
  obtain ⟨s, hs⟩ := FlowGraph.exists_bindsParams_knownBranch
  have hx : (s.bind ⟨"x", .int⟩ 5) ⟨"x", .int⟩ = some 5 := Store.bind_self _ _ _
  have hfirst : FlowGraph.knownBranch.Visits (.stmt 0) s :=
    (FlowGraph.Visits.start hs).step_succ (.of_defines_eq_none (by decide +kernel))
      (by decide +kernel) fun _ ↦ trivial
  have hbranch : FlowGraph.knownBranch.Visits (.stmt 1) (s.bind ⟨"x", .int⟩ 5) :=
    hfirst.step_succ (.bind (by decide +kernel) rfl (by decide +kernel) (.int 5))
      (by decide +kernel) fun _ ↦ trivial
  obtain ⟨e, he, htarget, hkind⟩ : ∃ e ∈ FlowGraph.knownBranch.outEdges (.stmt 1),
      e.target = .stmt 3 ∧ e.kind = .ifTrue := by decide +kernel
  have hjump : FlowGraph.knownBranch.Visits e.target (s.bind ⟨"x", .int⟩ 5) := by
    refine hbranch.step (.of_defines_eq_none (by decide +kernel)) he ?_
    exact ⟨1, .binary (.var rfl hx) (.int 5) rfl, fun _ ↦ hkind, fun h ↦ absurd h (by decide)⟩
  rw [htarget] at hjump
  have hsafe := notMem_unreachable_of_visits FlowGraph.built_knownBranch (by decide +kernel) hd
    hjump
  exact ⟨d, hd, of_decide_eq_true hdead, hsafe⟩

end DeadCode

end ProgramAnalysis
