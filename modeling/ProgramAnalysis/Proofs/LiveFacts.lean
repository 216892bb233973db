import ProgramAnalysis.Proofs.Iteration
import ProgramAnalysis.Proofs.LiveSets

/-!
# The facts of live variables

The result of the analysis solves its equations at every node: live before a statement is what it
reads and what it lets through of the variables that are live after it, and whatever is live before
a successor is live after the node.

Unlike evaluation, the equations are monotone. An iteration therefore stays below each of their
solutions, and two iterations that are finished, in whatever order they have taken the nodes, agree.
-/

namespace ProgramAnalysis.LiveVariables

/-- The variables live before a node. -/
def liveBefore (t : Facts VarSet) (n : Node) : VarSet := t.before.findD n ∅

/-- The variables live after a node. -/
def liveAfter (t : Facts VarSet) (n : Node) : VarSet := t.after.findD n ∅

theorem accumulates (g : FlowGraph) :
    (analysis g).Accumulates fun n ↦ before (g.stmtAt n) where
  initial_le := VarSet.empty_le
  le_meetInto_left _ _ _ hx := mem_meetInto.mpr (Or.inl hx)
  le_meetInto_right _ _ _ hx := mem_meetInto.mpr (Or.inr hx)
  transfer_le _ _ _ _ hx := VarSet.mem_copyFrom.mp hx
  le_transfer _ _ _ _ hx := VarSet.mem_copyFrom.mpr hx
  le_of_unchanged _ _ _ h := (VarSet.copyFrom_snd_eq_of_unchanged h).le

/-- What the analysis leaves behind. -/
structure Solved (g : FlowGraph) (t : Facts VarSet) : Prop where
  before_ne_none : ∀ n ∈ g.nodes, t.before.find? n ≠ none
  after_ne_none : ∀ n ∈ g.nodes, t.after.find? n ≠ none
  before_exit : liveBefore t g.exit = ∅
  after_exit : liveAfter t g.exit = ∅
  before_le : ∀ n ∈ g.nodes, n ≠ g.exit → liveBefore t n ≤ before (g.stmtAt n) (liveAfter t n)
  le_before : ∀ n ∈ g.nodes, n ≠ g.exit → before (g.stmtAt n) (liveAfter t n) ≤ liveBefore t n
  flows : ∀ n m, m ∈ g.succs n → liveBefore t m ≤ liveAfter t n

theorem exists_state_of_solve? {g : FlowGraph} {it : Iteration} {s : Solution VarSet}
    (h : (analysis g).solve? g it = some s) :
    ∃ p, (analysis g).Reaches (g.orient .backward) it.strategy p ∧ p.worklist.pop? = none ∧
      s.before = p.output ∧ s.after = p.input := by
  obtain ⟨p, hreach, hdone, hdir, hin, hout⟩ := Analysis.exists_reaches_of_solve? h
  rw [Solution.inputs, hdir] at hin
  rw [Solution.outputs, hdir] at hout
  exact ⟨p, hreach, hdone, hout, hin⟩

theorem solved_of_solve? {g : FlowGraph} (hg : g.Mirrored) {it : Iteration} {s : Solution VarSet}
    (h : (analysis g).solve? g it = some s) : Solved g s.toFacts := by
  obtain ⟨p, hreach, hdone, hbefore, hafter⟩ := exists_state_of_solve? h
  have hp := hreach.consistent (accumulates g) (hg.wellFormed_orient .backward)
  have hlive : ∀ n, liveBefore s.toFacts n = (analysis g).outputAt p n := fun n ↦ by
    rw [liveBefore, hbefore]
    rfl
  have hlive' : ∀ n, liveAfter s.toFacts n = (analysis g).inputAt p n := fun n ↦ by
    rw [liveAfter, hafter]
    rfl
  refine ⟨fun n hn ↦ ?_, fun n hn ↦ ?_, ?_, ?_, fun n hn hne ↦ ?_, fun n hn hne ↦ ?_,
    fun n m hm ↦ ?_⟩
  · rw [hbefore]
    exact (hreach.find?_ne_none hn).2
  · rw [hafter]
    exact (hreach.find?_ne_none hn).1
  · rw [hlive]
    exact hp.outputAt_start
  · rw [hlive']
    exact hp.inputAt_start
  · rw [hlive, hlive']
    exact (hp.computed hdone hn hne).1
  · rw [hlive, hlive']
    exact (hp.computed hdone hn hne).2
  · rw [hlive, hlive']
    exact hp.outputAt_le_inputAt hdone (hg.mem_succs_iff_mem_preds.mp hm)

theorem Solved.beforeNode_eq_ok {g : FlowGraph} {t : Facts VarSet} (ht : Solved g t) {n : Node}
    (hn : n ∈ g.nodes) : t.beforeNode g n = .ok (liveBefore t n) :=
  Facts.beforeNode_eq_ok (ht.before_ne_none n hn) ∅ g

theorem Solved.afterNode_eq_ok {g : FlowGraph} {t : Facts VarSet} (ht : Solved g t) {n : Node}
    (hn : n ∈ g.nodes) : t.afterNode g n = .ok (liveAfter t n) :=
  Facts.afterNode_eq_ok (ht.after_ne_none n hn) ∅ g

/-! ## Independence of the order -/

/-- Nothing is read at the exit. -/
theorem Solved.before_liveAfter_exit_le {g : FlowGraph} {t : Facts VarSet} (ht : Solved g t)
    (u : VarSet) : before (g.stmtAt g.exit) (liveAfter t g.exit) ≤ u := by
  rw [ht.after_exit]
  intro x hx
  rcases mem_before.mp hx with hx | hx
  · exact absurd hx List.not_mem_nil
  · exact absurd hx.1 (VarSet.not_mem_empty x)

theorem liveAfter_le_of_solved {g : FlowGraph} (hg : g.Mirrored) {it : Iteration}
    {s : Solution VarSet} (h : (analysis g).solve? g it = some s) {t : Facts VarSet}
    (ht : Solved g t) (n : Node) : liveAfter s.toFacts n ≤ liveAfter t n := by
  obtain ⟨p, hreach, hdone, -, hafter⟩ := exists_state_of_solve? h
  have ho := hg.wellFormed_orient .backward
  -- nodes outside the graph have no facts in `t`, so the outputs are taken from the equations
  have hsolves : (analysis g).Solves (g.orient .backward) (fun n ↦ before (g.stmtAt n))
      (liveAfter t) (fun n ↦ before (g.stmtAt n) (liveAfter t n)) := by
    refine ⟨VarSet.empty_le _, fun n _ _ ↦ le_rfl, fun m n hnext ↦ ?_⟩
    by_cases hm : m = g.exit
    · rw [hm]
      exact ht.before_liveAfter_exit_le _
    · have hsucc := hg.mem_succs_iff_mem_preds.mpr hnext
      exact (ht.le_before m (hg.mem_nodes_of_mem_succs hsucc).2 hm).trans (ht.flows n m hsucc)
  have hle := (hreach.le_of_solves (accumulates g) (fun f t u hf ht x hx ↦
    (mem_meetInto.mp hx).elim (hf x) (ht x)) ho (fun n _ _ ↦ before_mono (g.stmtAt n)) hsolves).1
  by_cases hn : n = g.exit
  · rw [hn, (solved_of_solve? hg h).after_exit]
    exact VarSet.empty_le _
  · rw [liveAfter, hafter]
    exact hle n hn

/-- The variables live after a node do not depend on how the analysis is iterated. -/
theorem mem_liveAfter_iff_of_solve? {g : FlowGraph} (hg : g.Mirrored) {it it' : Iteration}
    {s s' : Solution VarSet} (h : (analysis g).solve? g it = some s)
    (h' : (analysis g).solve? g it' = some s') (n : Node) (x : Var) :
    x ∈ liveAfter s.toFacts n ↔ x ∈ liveAfter s'.toFacts n :=
  ⟨liveAfter_le_of_solved hg h (solved_of_solve? hg h') n x,
    liveAfter_le_of_solved hg h' (solved_of_solve? hg h) n x⟩

/-- The variables live before a node do not depend on how the analysis is iterated either. -/
theorem liveBefore_le_of_solve? {g : FlowGraph} (hg : g.Mirrored) {it it' : Iteration}
    {s s' : Solution VarSet} (h : (analysis g).solve? g it = some s)
    (h' : (analysis g).solve? g it' = some s') {n : Node} (hn : n ∈ g.nodes) :
    liveBefore s.toFacts n ≤ liveBefore s'.toFacts n := by
  have ht := solved_of_solve? hg h
  have ht' := solved_of_solve? hg h'
  by_cases hexit : n = g.exit
  · rw [hexit, ht.before_exit]
    exact VarSet.empty_le _
  · refine (ht.before_le n hn hexit).trans (le_trans ?_ (ht'.le_before n hn hexit))
    exact before_mono _ (liveAfter_le_of_solved hg h ht' n)

/-- The variable is live before the node, as the analysis finds in some order. -/
def LiveAt (g : FlowGraph) (n : Node) (x : Var) : Prop :=
  ∃ it s f, (analysis g).solve? g it = some s ∧ s.beforeNode g n = .ok f ∧ x ∈ f

theorem mem_liveBefore_of_liveAt {g : FlowGraph} (hg : g.Mirrored) {it : Iteration}
    {s : Solution VarSet} (h : (analysis g).solve? g it = some s) {n : Node} (hn : n ∈ g.nodes)
    {x : Var} (hx : LiveAt g n x) : x ∈ liveBefore s.toFacts n := by
  obtain ⟨it', s', f, h', hf, hmem⟩ := hx
  rw [(solved_of_solve? hg h').beforeNode_eq_ok hn] at hf
  obtain rfl := Except.ok.inj hf
  exact liveBefore_le_of_solve? hg h' h hn x hmem

/-- What a node reads and what it lets through is live before it. -/
theorem Solved.mem_liveBefore {g : FlowGraph} {t : Facts VarSet} (ht : Solved g t) {n : Node}
    (hn : n ∈ g.nodes) {x : Var}
    (hx : x ∈ (g.stmtAt n).uses ∨ (x ∈ liveAfter t n ∧ (g.stmtAt n).defines ≠ some x)) :
    x ∈ liveBefore t n := by
  by_cases hexit : n = g.exit
  · -- the exit reads nothing, and nothing is live after it
    subst hexit
    exact absurd (ht.before_liveAfter_exit_le ∅ x (mem_before.mpr hx)) (VarSet.not_mem_empty x)
  · exact ht.le_before n hn hexit x (mem_before.mpr hx)

end ProgramAnalysis.LiveVariables
