import ProgramAnalysis.Proofs.CriticalDivisions
import ProgramAnalysis.Proofs.DeadCodeResults
import ProgramAnalysis.Proofs.LiveFacts
import ProgramAnalysis.Proofs.ReadsAndWrites

/-!
# When the order of the nodes matters

Two iterations of constant propagation that are finished need not agree. A critical division can
leave its value at a node behind it before the divisor arrives, and inputs never forget: if the
other order has the divisor in time, the value never gets there.

This is the only way to disagree. An iteration *overtakes* a solution if it meets into some input
the output of a critical division and thereby leaves the solution behind; as long as it does not,
its inputs stay below those of the solution. Two iterations agree if and only if neither overtakes
the other, and then they lead to the same dead code.
-/

namespace ProgramAnalysis

namespace ConstantPropagation

variable {g : FlowGraph} {t t' : Facts ConstFact} {it it' : Iteration}
  {s s' : Solution ConstFact}

/-! ## Agreement -/

/-- The facts before and after each node are there and compare equal. -/
def Agree (g : FlowGraph) (t t' : Facts ConstFact) : Prop :=
  ∀ n ∈ g.nodes,
    (∃ f f', t.beforeNode g n = .ok f ∧ t'.beforeNode g n = .ok f' ∧ f.same f' = true) ∧
      ∃ f f', t.afterNode g n = .ok f ∧ t'.afterNode g n = .ok f' ∧ f.same f' = true

theorem agree_iff (ht : Stable g t) (ht' : Stable g t') :
    Agree g t t' ↔ ∀ n ∈ g.nodes, (factBefore t n).same (factBefore t' n) = true ∧
      (factAfter t n).same (factAfter t' n) = true := by
  refine forall₂_congr fun n hn ↦ ?_
  rw [ht.beforeNode_eq_ok hn, ht'.beforeNode_eq_ok hn, ht.afterNode_eq_ok hn,
    ht'.afterNode_eq_ok hn]
  simp only [Except.ok.injEq, exists_eq_left', exists_and_left]

/-- Facts that lie below each other before the nodes agree. -/
theorem agree_of_le (ht : Stable g t) (ht' : Stable g t')
    (hle : ∀ n ∈ g.nodes, n ≠ .entry → factBefore t n ≤ factBefore t' n)
    (hle' : ∀ n ∈ g.nodes, n ≠ .entry → factBefore t' n ≤ factBefore t n) : Agree g t t' := by
  rw [agree_iff ht ht']
  intro n hn
  by_cases hentry : n = .entry
  · rw [hentry, ht.before_entry, ht'.before_entry, ht.after_entry, ht'.after_entry, and_self,
      (canonical_boundary _).same_iff_le (canonical_boundary _)]
    exact ⟨le_rfl, le_rfl⟩
  · have hbefore : (factBefore t n).same (factBefore t' n) = true :=
      ((ht.canonical_before n).same_iff_le (ht'.canonical_before n)).mpr
        ⟨hle n hn hentry, hle' n hn hentry⟩
    have hafter : after (g.stmtAt n) (factBefore t n) ≤ after (g.stmtAt n) (factBefore t' n) ∧
        after (g.stmtAt n) (factBefore t' n) ≤ after (g.stmtAt n) (factBefore t n) := by
      have hget := get_after_congr (ConstFact.get_eq_of_same hbefore) (g.stmtAt n)
      exact ⟨fun x ↦ (hget x).le, fun x ↦ (hget x).ge⟩
    refine ⟨hbefore, ((ht.canonical_after n).same_iff_le (ht'.canonical_after n)).mpr ⟨?_, ?_⟩⟩
    · exact (ht.after_le n hn hentry).trans (hafter.1.trans (ht'.le_after n hn hentry))
    · exact (ht'.after_le n hn hentry).trans (hafter.2.trans (ht.le_after n hn hentry))

/-! ## Overtaking -/

/-- Iterating with a strategy comes to a node `n` where the output of a critical division arrives
that the fact of `t` before `n` does not cover, although the input of the division has not left
`t` behind. -/
def Overtakes (g : FlowGraph) (strategy : Strategy) (t : Facts ConstFact) : Prop :=
  ∃ p n rest m, (analysis g).Reaches (g.orient .forward) strategy p ∧
    p.worklist.pop? = some (n, rest) ∧ m ∈ g.preds n ∧
    (analysis g).inputAt p m ≤ factBefore t m ∧
    (g.stmtAt m).DividesCritically ((analysis g).inputAt p m) (factBefore t m) ∧
    ¬(analysis g).outputAt p m ≤ factBefore t n

/-- An iteration that does not overtake a solution stays below it. -/
theorem factBefore_le_of_not_overtakes (hg : g.Mirrored) (h : (analysis g).solve? g it = some s)
    (ht : Stable g t) (hnot : ¬Overtakes g it.strategy t) {n : Node} (hn : n ≠ .entry) :
    factBefore s.toFacts n ≤ factBefore t n := by
  obtain ⟨q, hq, -, hbefore, -⟩ := exists_state_of_solve? h
  have ho := hg.wellFormed_orient .forward
  rw [hbefore]
  refine hq.inputAt_le (accumulates g) (fun _ _ _ ↦ ConstFact.meetInto_le) ho ?_ n hn
  intro p n rest hp hpop hin m hm
  have hflow := ht.flows m n (hg.mem_succs_iff_mem_preds.mpr hm)
  have hcons := hp.consistent (accumulates g) ho
  by_cases hentry : m = .entry
  · -- the entry sends out the boundary fact in every iteration
    rw [hentry] at hflow ⊢
    have hout : (analysis g).outputAt p .entry = boundary g.body.params := hcons.outputAt_start
    rwa [hout, ← ht.after_entry]
  · rcases hcons.computed_or m hentry with hcomp | ⟨hinitial, -⟩
    · -- the input of `m` is below the solution so far, and only a critical division can leave it
      rcases after_le_or (hin m hentry) (g.stmtAt m) with hle | hcrit
      · have hmem := ho.mem_nodes_of_mem_prev hm
        exact hcomp.1.trans (hle.trans ((ht.le_after m hmem hentry).trans hflow))
      · by_contra hover
        exact hnot ⟨p, n, rest, m, hp, hpop, hm, hin m hentry, hcrit, hover⟩
    · rw [hinitial]
      exact ConstFact.empty_le _

/-- An iteration does not overtake a solution that lies above its own. -/
theorem not_overtakes_of_le (hg : g.Mirrored) (h : (analysis g).solve? g it = some s)
    (hle : ∀ n ∈ g.nodes, factBefore s.toFacts n ≤ factBefore t n) :
    ¬Overtakes g it.strategy t := by
  obtain ⟨q, hq, hdone, hbefore, -⟩ := exists_state_of_solve? h
  rintro ⟨p, n, rest, m, hp, hpop, hm, -, -, hover⟩
  have hn := (hg.mem_nodes_of_mem_succs (hg.mem_succs_iff_mem_preds.mpr hm)).2
  have harrived := hp.outputAt_le_inputAt_of_pop (accumulates g) hpop hm hq hdone
  rw [← hbefore] at harrived
  exact hover (harrived.trans (hle n hn))

theorem agree_iff_not_overtakes (hg : g.Mirrored) (h : (analysis g).solve? g it = some s)
    (h' : (analysis g).solve? g it' = some s') :
    Agree g s.toFacts s'.toFacts ↔
      ¬Overtakes g it.strategy s'.toFacts ∧ ¬Overtakes g it'.strategy s.toFacts := by
  have ht := stable_of_solve? hg h
  have ht' := stable_of_solve? hg h'
  constructor
  · rw [agree_iff ht ht']
    intro hagree
    have hle := fun n hn ↦
      ((ht.canonical_before n).same_iff_le (ht'.canonical_before n)).mp (hagree n hn).1
    exact ⟨not_overtakes_of_le hg h fun n hn ↦ (hle n hn).1,
      not_overtakes_of_le hg h' fun n hn ↦ (hle n hn).2⟩
  · rintro ⟨hnot, hnot'⟩
    exact agree_of_le ht ht' (fun _ _ hn ↦ factBefore_le_of_not_overtakes hg h ht' hnot hn)
      fun _ _ hn ↦ factBefore_le_of_not_overtakes hg h' ht hnot' hn

/-- Without divisions, the order of the nodes does not matter. -/
theorem agree_of_no_division (hg : g.Built)
    (hdiv : ∀ n ∈ g.nodes, ∀ e, (g.stmtAt n).rvalue? = some e → e.hasDivision = false)
    (h : (analysis g).solve? g it = some s) (h' : (analysis g).solve? g it' = some s') :
    Agree g s.toFacts s'.toFacts := by
  have hnot : ∀ strategy t, ¬Overtakes g strategy t := by
    rintro strategy t ⟨p, n, rest, m, -, -, hm, -, ⟨x, e, -, -, he, hcrit⟩, -⟩
    have hmem := (hg.mirrored.wellFormed_orient .forward).mem_nodes_of_mem_prev hm
    have hfalse := hdiv m hmem e he
    simp [hcrit.hasDivision] at hfalse
  exact (agree_iff_not_overtakes hg.mirrored h h').mpr ⟨hnot _ _, hnot _ _⟩

end ConstantPropagation

/-! ## The same dead code -/

namespace DeadCode

open ConstantPropagation LiveVariables

variable {g : FlowGraph} {t t' : Facts ConstFact} {live live' : Facts VarSet}

theorem successors_congr (ht : Stable g t) (ht' : Stable g t') (hagree : Agree g t t') {n : Node}
    (hn : n ∈ g.nodes) : successors g t n = successors g t' n := by
  have hsame := ((agree_iff ht ht').mp hagree n hn).1
  rw [successors, successors, ht.beforeNode_eq_ok hn, ht'.beforeNode_eq_ok hn]
  simp only [Except.map, evaluate_congr (ConstFact.get_eq_of_same hsame)]

theorem mem_reached_congr (hg : g.Mirrored) (ht : Stable g t) (ht' : Stable g t')
    (hagree : Agree g t t') (n : Node) : n ∈ reached g t ↔ n ∈ reached g t' := by
  have hpasses : Passes g t = Passes g t' := by
    funext n m
    by_cases hn : n ∈ g.nodes
    · rw [Passes, Passes, successors_congr ht ht' hagree hn]
    · -- nothing leads out of a node that is not part of the graph
      have hnot : ∀ u, ¬Passes g u n m := fun u h ↦
        hn (hg.mem_nodes_of_mem_succs h.mem_succs).1
      rw [eq_false (hnot t), eq_false (hnot t')]
  rw [mem_reached_iff hg, mem_reached_iff hg, hpasses]

theorem isDeadAssignment_congr (hlive : Solved g live) (hlive' : Solved g live') {n : Node}
    (hn : n ∈ g.nodes) (h : ∀ x, x ∈ liveAfter live n ↔ x ∈ liveAfter live' n) :
    isDeadAssignment g live n = isDeadAssignment g live' n := by
  rw [isDeadAssignment, isDeadAssignment, hlive.afterNode_eq_ok hn, hlive'.afterNode_eq_ok hn]
  simp only [Except.map, h]

/-- Iterations of constant propagation that agree lead to the same dead code. Live variables do not
depend on the order anyway. -/
theorem eq_of_agree (hg : g.Mirrored) {given given' : Option Configuration} {it it' : Iteration}
    {s s' : Solution ConstFact} (hit : Iterates ConstantPropagation.name (optionsOf given) it)
    (hit' : Iterates ConstantPropagation.name (optionsOf given') it')
    (hs : (ConstantPropagation.analysis g).solve? g it = some s)
    (hs' : (ConstantPropagation.analysis g).solve? g it' = some s')
    (hagree : Agree g s.toFacts s'.toFacts) {d d' : DeadCode} (hd : analyze g given = .ok d)
    (hd' : analyze g given' = .ok d') : d = d' := by
  obtain ⟨it₁, _, s₁, l, hit₁, hs₁, -, hl, hdetect⟩ := of_analyze_eq_ok hd
  obtain ⟨it₂, _, s₂, l', hit₂, hs₂, -, hl', hdetect'⟩ := of_analyze_eq_ok hd'
  obtain rfl := hit.unique hit₁
  obtain rfl := hit'.unique hit₂
  obtain rfl := Option.some.inj (hs.symm.trans hs₁)
  obtain rfl := Option.some.inj (hs'.symm.trans hs₂)
  have hreached := mem_reached_congr hg (stable_of_solve? hg hs) (stable_of_solve? hg hs') hagree
  refine eq_of_detect_eq_ok hdetect hdetect' hreached fun n hn ↦ ?_
  rw [isDeadAssignment_congr (solved_of_solve? hg hl) (solved_of_solve? hg hl') hn
    (mem_liveAfter_iff_of_solve? hg hl hl' n)]

/-- Exactly when neither iteration overtakes the other do the facts not depend on which of the two
is configured, and then neither does the dead code. -/
theorem order_independent_iff_not_overtakes (hg : g.Built) {it it' : Iteration}
    {s s' : Solution ConstFact}
    (hs : (ConstantPropagation.analysis g).solve? g it = some s)
    (hs' : (ConstantPropagation.analysis g).solve? g it' = some s') :
    (Agree g s.toFacts s'.toFacts ↔
      ¬Overtakes g it.strategy s'.toFacts ∧ ¬Overtakes g it'.strategy s.toFacts) ∧
    (Agree g s.toFacts s'.toFacts → ∀ given given' d d',
      Iterates ConstantPropagation.name (optionsOf given) it →
      Iterates ConstantPropagation.name (optionsOf given') it' →
      analyze g given = .ok d → analyze g given' = .ok d' → d = d') := by
  refine ⟨agree_iff_not_overtakes hg.mirrored hs hs', ?_⟩
  intro hagree given given' d d' hit hit' hd hd'
  exact eq_of_agree hg.mirrored hit hit' hs hs' hagree hd hd'

/-! ## A graph where the order matters

The division `q = p / y` can be arrived at directly, where `y` has not been bound, and through
`y = 0`. Whoever takes it early sends a varying `q` to the branch on `q == 1`. -/

/-- `if (p > 0)` to `q = p / y`, else `y = 0`, then `if (p == 0)` to the division, else `q = 1`;
then `if (q == 1)` to `return q`, else `return p`. -/
def lateDivisor : FlowGraph :=
  .withEdges
    { params := [⟨"p", .int⟩]
      slots :=
        [⟨0, .branch (.binary .gt (.var ⟨"p", .int⟩) (.int 0))⟩,
          ⟨1, .assign (.var ⟨"q", .int⟩) (.binary .div (.var ⟨"p", .int⟩) (.var ⟨"y", .int⟩)) rfl⟩,
          ⟨2, .branch (.binary .eq (.var ⟨"q", .int⟩) (.int 1))⟩,
          ⟨3, .assign (.var ⟨"y", .int⟩) (.int 0) rfl⟩,
          ⟨4, .branch (.binary .eq (.var ⟨"p", .int⟩) (.int 0))⟩,
          ⟨5, .assign (.var ⟨"q", .int⟩) (.int 1) rfl⟩,
          ⟨6, .ret (some (.var ⟨"q", .int⟩))⟩,
          ⟨7, .ret (some (.var ⟨"p", .int⟩))⟩] }
    [(.entry, .stmt 0, .entry, none), (.stmt 0, .stmt 1, .ifTrue, none),
      (.stmt 0, .stmt 3, .ifFalse, none), (.stmt 1, .stmt 2, .fallThrough, none),
      (.stmt 2, .stmt 6, .ifTrue, none), (.stmt 2, .stmt 7, .ifFalse, none),
      (.stmt 3, .stmt 4, .fallThrough, none), (.stmt 4, .stmt 1, .ifTrue, none),
      (.stmt 4, .stmt 5, .ifFalse, none), (.stmt 5, .stmt 2, .goto, none),
      (.stmt 6, .exit 8, .ret, none), (.stmt 7, .exit 8, .ret, none)]

theorem built_lateDivisor : lateDivisor.Built := FlowGraph.built_withEdges _ _

theorem not_agree_lateDivisor :
    ∃ s s', (ConstantPropagation.analysis lateDivisor).solve? lateDivisor ⟨.fifo, 100⟩ = some s ∧
      (ConstantPropagation.analysis lateDivisor).solve? lateDivisor ⟨.rpo, 100⟩ = some s' ∧
      ¬Agree lateDivisor s.toFacts s'.toFacts := by
  have hdiffer : (((ConstantPropagation.analysis lateDivisor).solve? lateDivisor ⟨.fifo, 100⟩).bind
      fun s ↦ ((ConstantPropagation.analysis lateDivisor).solve? lateDivisor ⟨.rpo, 100⟩).map
        fun s' ↦ (factBefore s.toFacts (.stmt 2)).same (factBefore s'.toFacts (.stmt 2))) =
      some false := by decide +kernel
  obtain ⟨s, hs, hdiffer⟩ := Option.bind_eq_some_iff.mp hdiffer
  obtain ⟨s', hs', hdiffer⟩ := Option.map_eq_some_iff.mp hdiffer
  refine ⟨s, s', hs, hs', fun hagree ↦ ?_⟩
  have hg := built_lateDivisor.mirrored
  have hsame := (agree_iff (stable_of_solve? hg hs) (stable_of_solve? hg hs')).mp hagree (.stmt 2)
    (by decide +kernel)
  simp [hdiffer] at hsame

/-- The configuration that asks for an order. -/
def ordered (strategy : Strategy) : Configuration :=
  ⟨DeadCode.name, .ofList [("strategy", .text strategy.text)]⟩

theorem order_matters_lateDivisor :
    (∃ s s', (ConstantPropagation.analysis lateDivisor).solve? lateDivisor ⟨.fifo, 100⟩ = some s ∧
      (ConstantPropagation.analysis lateDivisor).solve? lateDivisor ⟨.rpo, 100⟩ = some s' ∧
      ¬Agree lateDivisor s.toFacts s'.toFacts) ∧
    ((analyze lateDivisor (some (ordered .fifo))).toOption.map DeadCode.unreachable = some [] ∧
      (analyze lateDivisor (some (ordered .rpo))).toOption.map DeadCode.unreachable =
        some [.stmt 7]) :=
  ⟨not_agree_lateDivisor, by decide +kernel, by decide +kernel⟩

/-- One of the two orders overtakes the other there. -/
theorem overtakes_lateDivisor :
    ∃ s s', (ConstantPropagation.analysis lateDivisor).solve? lateDivisor ⟨.fifo, 100⟩ = some s ∧
      (ConstantPropagation.analysis lateDivisor).solve? lateDivisor ⟨.rpo, 100⟩ = some s' ∧
      (Overtakes lateDivisor .fifo s'.toFacts ∨ Overtakes lateDivisor .rpo s.toFacts) := by
  obtain ⟨s, s', hs, hs', hnot⟩ := not_agree_lateDivisor
  have hiff := (order_independent_iff_not_overtakes built_lateDivisor hs hs').1
  refine ⟨s, s', hs, hs', ?_⟩
  by_contra hneither
  rw [not_or] at hneither
  exact hnot (hiff.mpr hneither)

end DeadCode

end ProgramAnalysis
