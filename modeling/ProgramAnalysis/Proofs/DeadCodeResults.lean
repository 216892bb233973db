import ProgramAnalysis.Analysis.DeadCode
import ProgramAnalysis.Proofs.BuiltGraphs
import ProgramAnalysis.Proofs.Reachability

/-!
# What dead-code detection reports

A result of the detection is read off two facts about a node: whether control can arrive there,
along targets that known outcomes of branches and switches leave over, and whether the statement
there is a dead assignment. All targets are successors, so control never leaves the nodes of the
graph, and the search for arrivals is exhaustive.
-/

namespace ProgramAnalysis

namespace DeadCode

variable {g : FlowGraph} {t : Facts ConstFact} {live : Facts VarSet} {d : DeadCode} {n m : Node}

/-! ## Following control -/

theorem mem_targets_iff {p : Edge → Bool} :
    m ∈ ((g.outEdges n).filter p).map Edge.target ↔
      ∃ e ∈ g.outEdges n, e.target = m ∧ p e = true := by
  simp only [List.mem_map, List.mem_filter, and_assoc, and_comm (a := p _ = true)]

theorem mem_branchTargets_iff {v : Int} : m ∈ branchTargets g n v ↔
    ∃ e ∈ g.outEdges n, e.target = m ∧
      ((e.kind = .ifTrue ∧ v = 1) ∨ (e.kind = .ifFalse ∧ v = 0)) := by
  rw [branchTargets, mem_targets_iff]
  simp only [Bool.or_eq_true, Bool.and_eq_true, beq_iff_eq]

theorem mem_switchTargets_iff {cases : List Int} {v : Int} : m ∈ switchTargets g n cases v ↔
    ∃ e ∈ g.outEdges n, e.target = m ∧
      if v ∈ cases then e.kind = .switchCase ∧ e.case? = some v else e.kind = .switchDefault := by
  rw [switchTargets, mem_targets_iff]
  split <;> simp only [Edge.isCase, Bool.and_eq_true, beq_iff_eq]

theorem mem_succs_of_mem_targets {p : Edge → Bool}
    (h : m ∈ ((g.outEdges n).filter p).map Edge.target) : m ∈ g.succs n := by
  obtain ⟨e, he, htarget, -⟩ := mem_targets_iff.mp h
  exact FlowGraph.mem_succs_iff.mpr ⟨e, he, htarget⟩

/-- Whatever is known, control goes to successors only. -/
theorem mem_succs_of_successors_eq_ok {l : List Node} (h : successors g t n = .ok l) (hm : m ∈ l) :
    m ∈ g.succs n := by
  rw [successors] at h
  split at h
  · obtain ⟨f, -, rfl⟩ := exists_of_map_eq_ok h
    split at hm
    · exact mem_succs_of_mem_targets hm
    · exact hm
  · obtain ⟨f, -, rfl⟩ := exists_of_map_eq_ok h
    split at hm
    · exact mem_succs_of_mem_targets hm
    · exact hm
  · obtain rfl := Except.ok.inj h
    exact hm

/-- Control can pass from one node to another. -/
def Passes (g : FlowGraph) (t : Facts ConstFact) (n m : Node) : Prop :=
  ∃ l, successors g t n = .ok l ∧ m ∈ l

theorem Passes.mem_succs (h : Passes g t n m) : m ∈ g.succs n := by
  obtain ⟨l, hl, hm⟩ := h
  exact mem_succs_of_successors_eq_ok hl hm

/-- The search for the nodes where control may arrive is sound and complete. -/
theorem mem_reached_iff (hg : g.Mirrored) :
    n ∈ reached g t ↔ Relation.ReflTransGen (Passes g t) .entry n := by
  have hpasses : ∀ n m, m ∈ ((successors g t n).toOption).getD [] ↔ Passes g t n m := by
    intro n m
    rw [Passes]
    cases successors g t n with
    | error _ => simp [Except.toOption]
    | ok l => simp [Except.toOption]
  rw [reached, BreadthFirst.visits_eq_reach, BreadthFirst.mem_reach_iff ?_ g.entry_mem_nodes]
  · simp only [hpasses]
  · exact fun a _ b hb ↦ (hg.mem_nodes_of_mem_succs ((hpasses a b).mp hb).mem_succs).2

/-! ## Results -/

theorem inspect_eq_ok_iff {r : Node × Bool} :
    inspect g t live n = .ok r ↔
      r.1 = n ∧ isDeadAssignment g live n = .ok r.2 ∧ ∃ l, successors g t n = .ok l := by
  rw [inspect]
  constructor
  · intro h
    obtain ⟨b, hdead, h⟩ := exists_of_bind_eq_ok h
    obtain ⟨l, hsucc, h⟩ := exists_of_bind_eq_ok h
    obtain rfl := Except.ok.inj h
    exact ⟨rfl, hdead, l, hsucc⟩
  · rintro ⟨rfl, hdead, l, hsucc⟩
    rw [hdead, hsucc]
    rfl

/-- The nodes on which a result reports. -/
def inner (g : FlowGraph) : List Node := g.nodes.filter fun n ↦ !n.isExit

theorem mem_inner : n ∈ inner g ↔ n ∈ g.nodes ∧ n.isExit = false := by
  rw [inner, List.mem_filter, Bool.not_eq_true']

/-- A result lists the inner nodes where control cannot arrive, and the dead assignments among
those where it can; the facts that this takes are there. -/
theorem of_detect_eq_ok (h : detect g t live = .ok d) :
    (∀ n ∈ reached g t, (∃ b, isDeadAssignment g live n = .ok b) ∧ ∃ l, successors g t n = .ok l) ∧
      ∃ p q : Node → Bool, d = .of ((inner g).filter p) ((inner g).filter q) ∧
        (∀ n, p n = true ↔ n ∉ reached g t) ∧
        ∀ n, q n = true ↔ n ∈ reached g t ∧ isDeadAssignment g live n = .ok true := by
  rw [detect] at h
  obtain ⟨l, hl, h⟩ := exists_of_bind_eq_ok h
  obtain ⟨hall, hmem⟩ := mem_of_mapM_eq_ok hl
  have hlooked : ∀ n ∈ reached g t,
      (∃ b, isDeadAssignment g live n = .ok b) ∧ ∃ l, successors g t n = .ok l := by
    intro n hn
    obtain ⟨r, hr⟩ := hall n hn
    obtain ⟨-, hdead, hsucc⟩ := inspect_eq_ok_iff.mp hr
    exact ⟨⟨r.2, hdead⟩, hsucc⟩
  refine ⟨hlooked, _, _, (Except.ok.inj h).symm, fun n ↦ ?_, fun n ↦ ?_⟩
  -- the first components of what was looked at are the arrivals themselves
  · rw [Bool.not_eq_true', ← Bool.not_eq_true, List.contains_iff_mem, List.mem_map]
    refine not_congr ⟨?_, fun hn ↦ ?_⟩
    · rintro ⟨r, hr, rfl⟩
      obtain ⟨m, hm, hinspect⟩ := (hmem r).mp hr
      rwa [(inspect_eq_ok_iff.mp hinspect).1]
    · obtain ⟨r, hr⟩ := hall n hn
      exact ⟨r, (hmem r).mpr ⟨n, hn, hr⟩, (inspect_eq_ok_iff.mp hr).1⟩
  · rw [List.contains_iff_mem, hmem]
    constructor
    · rintro ⟨m, hm, hinspect⟩
      obtain ⟨rfl, hdead, -⟩ := inspect_eq_ok_iff.mp hinspect
      exact ⟨hm, hdead⟩
    · rintro ⟨hn, hdead⟩
      exact ⟨n, hn, inspect_eq_ok_iff.mpr ⟨rfl, hdead, (hlooked n hn).2⟩⟩

theorem mem_sortByIndex {l : List Node} : n ∈ sortByIndex l ↔ n ∈ l := mem_stableSort

theorem mem_unreachable_iff (h : detect g t live = .ok d) :
    n ∈ d.unreachable ↔ n ∈ inner g ∧ n ∉ reached g t := by
  obtain ⟨-, p, q, rfl, hp, -⟩ := of_detect_eq_ok h
  rw [of, mem_sortByIndex, List.mem_filter, hp]

theorem mem_deadAssignments_iff (h : detect g t live = .ok d) :
    n ∈ d.deadAssignments ↔
      n ∈ inner g ∧ n ∈ reached g t ∧ isDeadAssignment g live n = .ok true := by
  obtain ⟨-, p, q, rfl, -, hq⟩ := of_detect_eq_ok h
  rw [of, mem_sortByIndex, List.mem_filter, hq]

/-- A result depends on the arrivals and on the dead assignments alone. -/
theorem eq_of_detect_eq_ok {t' : Facts ConstFact} {live' : Facts VarSet} {d' : DeadCode}
    (h : detect g t live = .ok d) (h' : detect g t' live' = .ok d')
    (hreached : ∀ n, n ∈ reached g t ↔ n ∈ reached g t')
    (hdead : ∀ n ∈ g.nodes,
      isDeadAssignment g live n = .ok true ↔ isDeadAssignment g live' n = .ok true) : d = d' := by
  obtain ⟨-, p, q, rfl, hp, hq⟩ := of_detect_eq_ok h
  obtain ⟨-, p', q', rfl, hp', hq'⟩ := of_detect_eq_ok h'
  have hpp : (inner g).filter p = (inner g).filter p' :=
    List.filter_congr fun n _ ↦ by rw [Bool.eq_iff_iff, hp, hp', hreached]
  have hqq : (inner g).filter q = (inner g).filter q' :=
    List.filter_congr fun n hn ↦ by
      rw [Bool.eq_iff_iff, hq, hq', hreached, hdead n (mem_inner.mp hn).1]
  rw [hpp, hqq]

/-! ## The analyses behind a result -/

/-- How an analysis iterates when it is run with the options of another configuration. -/
def Iterates (id : String) (options : OrderedMap String Setting) (it : Iteration) : Prop :=
  ∃ c, Configuration.ofOptions id options = .ok c ∧ c.iteration = .ok it

theorem Iterates.unique {id : String} {options : OrderedMap String Setting} {it it' : Iteration}
    (h : Iterates id options it) (h' : Iterates id options it') : it = it' := by
  obtain ⟨c, hc, hit⟩ := h
  obtain ⟨c', hc', hit'⟩ := h'
  obtain rfl := Except.ok.inj (hc.symm.trans hc')
  exact Except.ok.inj (hit.symm.trans hit')

theorem of_runWith_eq_ok {F : Type} {a : Analysis F} {id : String}
    {options : OrderedMap String Setting} {s : Solution F}
    (h : runWith a g id options = .ok s) :
    ∃ it, Iterates id options it ∧ a.solve? g it = some s := by
  rw [runWith] at h
  split at h
  · simp at h
  · rename_i c hc
    have hrun := eq_ok_of_mapError_eq_ok h
    rw [Analysis.run] at hrun
    split at hrun
    · simp at hrun
    · rename_i it hit
      split at hrun
      · rename_i hs
        obtain rfl := Except.ok.inj hrun
        exact ⟨it, ⟨c, hc, hit⟩, hs⟩
      · simp at hrun

/-- The options of a configuration that may be missing. -/
def optionsOf (given : Option Configuration) : OrderedMap String Setting :=
  (given.map Configuration.options).getD ∅

/-- A result comes from a solution of each analysis, iterated as the options say. -/
theorem of_analyze_eq_ok {given : Option Configuration} (h : analyze g given = .ok d) :
    ∃ it it' s s', Iterates ConstantPropagation.name (optionsOf given) it ∧
      (ConstantPropagation.analysis g).solve? g it = some s ∧
      Iterates LiveVariables.name (optionsOf given) it' ∧
      (LiveVariables.analysis g).solve? g it' = some s' ∧
      detect g s.toFacts s'.toFacts = .ok d := by
  rw [analyze] at h
  obtain ⟨s, hs, h⟩ := exists_of_bind_eq_ok h
  obtain ⟨s', hs', h⟩ := exists_of_bind_eq_ok h
  obtain ⟨it, hit, hsolve⟩ := of_runWith_eq_ok hs
  obtain ⟨it', hit', hsolve'⟩ := of_runWith_eq_ok hs'
  exact ⟨it, it', s, s', hit, hsolve, hit', hsolve', eq_ok_of_mapError_eq_ok h⟩

end DeadCode

end ProgramAnalysis
