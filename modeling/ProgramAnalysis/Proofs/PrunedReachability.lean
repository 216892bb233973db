import Mathlib.Data.List.Nodup
import ProgramAnalysis.Proofs.DeadCodeResults

/-!
# Which code is dead, exactly

Facts about constants rule out edges: a condition or a selector that is a known constant leaves only
the edges for its value. What the detection reports as unreachable is what no path along the
remaining edges leads to, and what it reports as dead assignments lies on such paths. Nothing is
assumed about the facts, except that there are some: they need not come from an analysis, and they
may rule out all edges of a branch.

The order of the results is that of the statements. Sorting alone makes their indexes go up, and
they go up strictly because a statement stands in the body once and is reported in one way only.
-/

namespace ProgramAnalysis

/-- The fact before the statement does not rule out that control leaves it along an edge. -/
def Stmt.Allows (f : ConstFact) (e : Edge) : Stmt → Prop
  | .branch condition => ∀ v, evaluate condition f = .constant v →
      (e.kind = .ifTrue ∧ v = 1) ∨ (e.kind = .ifFalse ∧ v = 0)
  | .switch selector cases => ∀ v, evaluate (.var selector) f = .constant v →
      if v ∈ cases then e.kind = .switchCase ∧ e.case? = some v else e.kind = .switchDefault
  | _ => True

/-- An edge leads from `n` to `m` that the fact before `n` does not rule out. -/
def FlowGraph.Leads (g : FlowGraph) (t : Facts ConstFact) (n m : Node) : Prop :=
  ∃ e ∈ g.outEdges n, e.target = m ∧ ∀ f, t.beforeNode g n = .ok f → (g.stmtAt n).Allows f e

/-- The node assigns a variable that is not live after it, and evaluating the right-hand side cannot
be noticed. -/
def FlowGraph.AssignsInVain (g : FlowGraph) (live : Facts VarSet) (n : Node) : Prop :=
  ∃ x e h s, g.stmtAt n = .assign (.var x) e h ∧ live.afterNode g n = .ok s ∧ x ∉ s ∧
    e.hasNoSideEffect = true

theorem FlowGraph.Leads.mem_succs {g : FlowGraph} {t : Facts ConstFact} {n m : Node}
    (h : g.Leads t n m) : m ∈ g.succs n := by
  obtain ⟨e, he, rfl, -⟩ := h
  exact mem_succs_iff.mpr ⟨e, he, rfl⟩

theorem FlowGraph.mem_reachable_iff {g : FlowGraph} (hg : g.Mirrored) {start n : Node}
    (hstart : start ∈ g.nodes) :
    n ∈ g.reachable start ↔ Relation.ReflTransGen (fun m k ↦ k ∈ g.succs m) start n :=
  BreadthFirst.mem_reach_iff (fun _ _ _ h ↦ (hg.mem_nodes_of_mem_succs h).2) hstart

namespace DeadCode

variable {g : FlowGraph} {t : Facts ConstFact} {live : Facts VarSet} {d : DeadCode} {n m : Node}

/-! ## The edges that are left -/

/-- Control passes along the edges that are not ruled out. -/
theorem passes_iff_leads (ht : ∃ f, t.beforeNode g n = .ok f) :
    Passes g t n m ↔ g.Leads t n m := by
  obtain ⟨f, hf⟩ := ht
  have hleads : g.Leads t n m ↔
      ∃ e ∈ g.outEdges n, e.target = m ∧ (g.stmtAt n).Allows f e := by
    simp only [FlowGraph.Leads, hf, Except.ok.injEq, forall_eq']
  rw [hleads, Passes, successors, hf]
  cases hst : g.stmtAt n with
  | branch condition =>
    cases hv : evaluate condition f with
    | constant v =>
      simp [Except.map, Value.constant?, Stmt.Allows, hv, mem_branchTargets_iff]
    | undef _ | nac _ =>
      simp [Except.map, Value.constant?, Stmt.Allows, hv, FlowGraph.mem_succs_iff]
  | switch selector cases =>
    cases hv : evaluate (.var selector) f with
    | constant v =>
      simp [Except.map, Value.constant?, Stmt.Allows, hv, mem_switchTargets_iff]
    | undef _ | nac _ =>
      simp [Except.map, Value.constant?, Stmt.Allows, hv, FlowGraph.mem_succs_iff]
  | assign _ _ _ | invoke _ _ | ret _ | goto | nop | blank =>
    simp [Stmt.Allows, FlowGraph.mem_succs_iff]

/-- The search arrives where the edges that are left lead. -/
theorem mem_reached_iff_leads (hg : g.Mirrored)
    (ht : ∀ n ∈ g.nodes, ∃ f, t.beforeNode g n = .ok f) :
    n ∈ reached g t ↔ Relation.ReflTransGen (g.Leads t) .entry n := by
  have hsame : Passes g t = g.Leads t := by
    funext n m
    refine propext ⟨fun h ↦ ?_, fun h ↦ ?_⟩
    · exact (passes_iff_leads (ht n (hg.mem_nodes_of_mem_succs h.mem_succs).1)).mp h
    · exact (passes_iff_leads (ht n (hg.mem_nodes_of_mem_succs h.mem_succs).1)).mpr h
  rw [mem_reached_iff hg, hsame]

theorem mem_nodes_of_mem_reached (hg : g.Mirrored) (h : n ∈ reached g t) : n ∈ g.nodes := by
  rcases ((mem_reached_iff hg).mp h).cases_tail with rfl | ⟨m, -, hpass⟩
  · exact g.entry_mem_nodes
  · exact (hg.mem_nodes_of_mem_succs hpass.mem_succs).2

/-! ## Dead assignments -/

theorem isDeadAssignment_eq_ok_true_iff :
    isDeadAssignment g live n = .ok true ↔ g.AssignsInVain live n := by
  rw [isDeadAssignment, FlowGraph.AssignsInVain]
  constructor
  · intro h
    split at h
    · rename_i x e hvalid hst
      obtain ⟨s, hs, hdead⟩ := exists_of_map_eq_ok h
      rw [Bool.and_eq_true, decide_eq_true_iff] at hdead
      exact ⟨x, e, hvalid, s, hst, hs, hdead⟩
    · simp at h
  · rintro ⟨x, e, hvalid, s, hst, hs, hx, heffect⟩
    simp [hst, hs, Except.map, hx, heffect]

theorem exists_isDeadAssignment (hlive : ∃ s, live.afterNode g n = .ok s) :
    ∃ b, isDeadAssignment g live n = .ok b := by
  obtain ⟨s, hs⟩ := hlive
  rw [isDeadAssignment, hs]
  split <;> exact ⟨_, rfl⟩

theorem exists_successors (ht : ∃ f, t.beforeNode g n = .ok f) :
    ∃ l, successors g t n = .ok l := by
  obtain ⟨f, hf⟩ := ht
  rw [successors, hf]
  split <;> exact ⟨_, rfl⟩

/-- The detection needs no facts but those of the nodes. -/
theorem exists_detect (hg : g.Mirrored) (ht : ∀ n ∈ g.nodes, ∃ f, t.beforeNode g n = .ok f)
    (hlive : ∀ n ∈ g.nodes, ∃ s, live.afterNode g n = .ok s) :
    ∃ d, detect g t live = .ok d := by
  have hinspect : ∀ n ∈ reached g t, ∃ r, inspect g t live n = .ok r := by
    intro n hn
    have hmem := mem_nodes_of_mem_reached hg hn
    obtain ⟨b, hb⟩ := exists_isDeadAssignment (hlive n hmem)
    exact ⟨(n, b), inspect_eq_ok_iff.mpr ⟨rfl, hb, exists_successors (ht n hmem)⟩⟩
  obtain ⟨l, hl⟩ := exists_mapM_eq_ok hinspect
  rw [detect, hl]
  exact ⟨_, rfl⟩

/-! ## The order of results -/

theorem mem_inner_iff_ne_exit : n ∈ inner g ↔ n ∈ g.nodes ∧ n ≠ g.exit := by
  rw [mem_inner]
  refine and_congr_right fun hn ↦ ⟨?_, fun hne ↦ ?_⟩
  · rintro hexit rfl
    simp [FlowGraph.exit, Node.isExit] at hexit
  · rw [FlowGraph.nodes, List.mem_append, List.mem_cons, List.mem_map] at hn
    rcases hn with (rfl | ⟨s, -, rfl⟩) | hn
    · rfl
    · rfl
    · exact absurd (List.mem_singleton.mp hn) hne

theorem eq_of_index_eq (hn : n ∈ inner g) (hm : m ∈ inner g) (h : n.index = m.index) : n = m := by
  have hform : ∀ k ∈ inner g, k = .entry ∨ ∃ i, k = .stmt i := by
    intro k hk
    obtain ⟨hnodes, hexit⟩ := mem_inner.mp hk
    rw [FlowGraph.nodes, List.mem_append, List.mem_cons, List.mem_map] at hnodes
    rcases hnodes with (rfl | ⟨s, -, rfl⟩) | hk
    · exact Or.inl rfl
    · exact Or.inr ⟨s.index, rfl⟩
    · obtain rfl := List.mem_singleton.mp hk
      simp [FlowGraph.exit, Node.isExit] at hexit
  rcases hform n hn with rfl | ⟨i, rfl⟩ <;> rcases hform m hm with rfl | ⟨j, rfl⟩
  · rfl
  · simp only [Node.index] at h
    omega
  · simp only [Node.index] at h
    omega
  · simp only [Node.index, Int.natCast_inj] at h
    rw [h]

theorem nodup_inner (hbody : g.body.Distinct) : (inner g).Nodup :=
  (FlowGraph.nodup_nodes hbody).filter _

/-- Different nodes of the graph are sorted into a list whose indexes go up strictly. -/
theorem pairwise_lt_sortByIndex {l : List Node} (hl : l.Nodup) (hinner : ∀ n ∈ l, n ∈ inner g) :
    ((sortByIndex l).map Node.index).Pairwise (· < ·) := by
  have hle : (sortByIndex l).Pairwise fun m n ↦ decide (m.index ≤ n.index) = true :=
    pairwise_stableSort (fun m n ↦ by simpa using Int.le_total m.index n.index)
      (fun k m n ↦ by simpa using Int.le_trans) l
  have hne : (sortByIndex l).Pairwise (· ≠ ·) := (perm_stableSort _ l).nodup_iff.mpr hl
  rw [List.pairwise_map]
  refine (hle.and hne).imp_of_mem ?_
  rintro m n hm hn ⟨hmn, hdiff⟩
  have hindex : m.index ≠ n.index := fun h ↦
    hdiff (eq_of_index_eq (hinner m (mem_sortByIndex.mp hm)) (hinner n (mem_sortByIndex.mp hn)) h)
  have hle := of_decide_eq_true hmn
  omega

/-! ## Exactness -/

/-- What a result says, about every node. -/
structure Exact (d : DeadCode) (g : FlowGraph) (t : Facts ConstFact) (live : Facts VarSet) :
    Prop where
  mem_unreachable_iff : ∀ n, n ∈ d.unreachable ↔
    n ∈ g.nodes ∧ n ≠ g.exit ∧ ¬Relation.ReflTransGen (g.Leads t) .entry n
  mem_deadAssignments_iff : ∀ n, n ∈ d.deadAssignments ↔
    Relation.ReflTransGen (g.Leads t) .entry n ∧ g.AssignsInVain live n
  disjoint : d.unreachable.Disjoint d.deadAssignments
  entry_notMem : .entry ∉ d.all
  exit_notMem : g.exit ∉ d.all
  mem_all_iff : ∀ n, n ∈ d.all ↔ n ∈ d.unreachable ∨ n ∈ d.deadAssignments
  increasing_all : d.indexes.Pairwise (· < ·)
  increasing_unreachable : (d.unreachable.map Node.index).Pairwise (· < ·)
  increasing_deadAssignments : (d.deadAssignments.map Node.index).Pairwise (· < ·)
  mem_unreachable_of_notMem : ∀ n ∈ g.nodes, n ≠ g.exit → n ∉ g.reachable .entry →
    n ∈ d.unreachable

theorem increasing_of_detect_eq_ok (hbody : g.body.Distinct) (h : detect g t live = .ok d) :
    (d.unreachable.map Node.index).Pairwise (· < ·) ∧
      (d.deadAssignments.map Node.index).Pairwise (· < ·) ∧ d.indexes.Pairwise (· < ·) := by
  obtain ⟨-, p, q, rfl, hp, hq⟩ := of_detect_eq_ok h
  have hnodup (p : Node → Bool) : ((inner g).filter p).Nodup := (nodup_inner hbody).filter p
  have hsorted (p : Node → Bool) : (sortByIndex ((inner g).filter p)).Nodup :=
    (perm_stableSort _ _).nodup_iff.mpr (hnodup p)
  have hinner {p : Node → Bool} : ∀ n ∈ (inner g).filter p, n ∈ inner g := fun _ hn ↦
    (List.mem_filter.mp hn).1
  refine ⟨pairwise_lt_sortByIndex (hnodup p) hinner, pairwise_lt_sortByIndex (hnodup q) hinner,
    pairwise_lt_sortByIndex (g := g) ?_ ?_⟩
  · -- the same node would be reached and not reached
    refine List.nodup_append.mpr ⟨hsorted p, hsorted q, ?_⟩
    rintro n hn _ hn' rfl
    have hnot := (hp n).mp (List.mem_filter.mp (mem_sortByIndex.mp hn)).2
    exact hnot ((hq n).mp (List.mem_filter.mp (mem_sortByIndex.mp hn')).2).1
  · intro n hn
    exact (List.mem_append.mp hn).elim (fun hn ↦ hinner n (mem_sortByIndex.mp hn)) fun hn ↦
      hinner n (mem_sortByIndex.mp hn)

theorem exact_of_detect_eq_ok (hg : g.Mirrored) (hbody : g.body.Distinct)
    (ht : ∀ n ∈ g.nodes, ∃ f, t.beforeNode g n = .ok f) (h : detect g t live = .ok d) :
    d.Exact g t live := by
  have hreached (n : Node) := mem_reached_iff_leads (n := n) hg ht
  have hunreachable (n : Node) : n ∈ d.unreachable ↔ n ∈ inner g ∧ n ∉ reached g t :=
    mem_unreachable_iff h
  have hdead (n : Node) : n ∈ d.deadAssignments ↔
      n ∈ inner g ∧ n ∈ reached g t ∧ g.AssignsInVain live n := by
    rw [mem_deadAssignments_iff h, isDeadAssignment_eq_ok_true_iff]
  have hall (n : Node) : n ∈ d.all ↔ n ∈ d.unreachable ∨ n ∈ d.deadAssignments := by
    rw [all, mem_sortByIndex, List.mem_append]
  obtain ⟨hincreasing, hincreasing', hincreasing_all⟩ := increasing_of_detect_eq_ok hbody h
  -- nothing is assigned at the entry and at the exit
  have hentry : ¬g.AssignsInVain live .entry := fun ⟨_, _, _, _, hst, _⟩ ↦ by
    simp [FlowGraph.stmtAt] at hst
  have hexit : ¬g.AssignsInVain live g.exit := fun ⟨_, _, _, _, hst, _⟩ ↦ by
    simp [FlowGraph.stmtAt, FlowGraph.exit] at hst
  refine
    { mem_unreachable_iff := fun n ↦ ?_
      mem_deadAssignments_iff := fun n ↦ ?_
      disjoint := fun n hn hn' ↦ ((hunreachable n).mp hn).2 ((hdead n).mp hn').2.1
      entry_notMem := fun hn ↦ ?_
      exit_notMem := fun hn ↦ ?_
      mem_all_iff := hall
      increasing_all := hincreasing_all
      increasing_unreachable := hincreasing
      increasing_deadAssignments := hincreasing'
      mem_unreachable_of_notMem := fun n hn hne hnot ↦ ?_ }
  · rw [hunreachable, hreached, mem_inner_iff_ne_exit, and_assoc]
  · rw [hdead, hreached, and_iff_right_of_imp]
    rintro ⟨hpath, hvain⟩
    refine mem_inner_iff_ne_exit.mpr ⟨mem_nodes_of_mem_reached hg ((hreached n).mpr hpath), ?_⟩
    rintro rfl
    exact hexit hvain
  · rcases (hall _).mp hn with hn | hn
    · exact ((hunreachable _).mp hn).2 ((hreached _).mpr .refl)
    · exact hentry ((hdead _).mp hn).2.2
  · rcases (hall _).mp hn with hn | hn
    · exact (mem_inner_iff_ne_exit.mp ((hunreachable _).mp hn).1).2 rfl
    · exact hexit ((hdead _).mp hn).2.2
  · refine (hunreachable n).mpr ⟨mem_inner_iff_ne_exit.mpr ⟨hn, hne⟩, fun hr ↦ hnot ?_⟩
    rw [FlowGraph.mem_reachable_iff hg g.entry_mem_nodes]
    exact Relation.ReflTransGen.mono (fun _ _ h ↦ h.mem_succs) _ _ ((hreached n).mp hr)

/-- There is a result for all facts that cover the nodes, and it is exact. -/
theorem exists_exact (hg : g.Built) (hbody : g.body.Distinct)
    (ht : ∀ n ∈ g.nodes, ∃ f, t.beforeNode g n = .ok f)
    (hlive : ∀ n ∈ g.nodes, ∃ s, live.afterNode g n = .ok s) :
    ∃ d, detect g t live = .ok d ∧ d.Exact g t live := by
  obtain ⟨d, hd⟩ := exists_detect hg.mirrored ht hlive
  exact ⟨d, hd, exact_of_detect_eq_ok hg.mirrored hbody ht hd⟩

/-! ## Facts that no analysis computes -/

/-- Before the branch of the small graph `x` is 5, and nothing is known elsewhere. -/
def assumedConstants : Facts ConstFact where
  before := .ofList (FlowGraph.knownBranch.nodes.map fun n ↦
    (n, if n = .stmt 1 then (ConstFact.empty.update ⟨"x", .int⟩ (.ofInt 5)).2 else .empty))

/-- No variable is live anywhere in the small graph. -/
def assumedLive : Facts VarSet where
  after := .ofList (FlowGraph.knownBranch.nodes.map fun n ↦ (n, ∅))

/-- Under these facts, the assignment that is jumped over is unreachable, and the other two are
dead. -/
theorem exists_exact_knownBranch :
    ∃ d, detect .knownBranch assumedConstants assumedLive = .ok d ∧
      d.Exact .knownBranch assumedConstants assumedLive ∧
      d.unreachable = [.stmt 2] ∧ d.deadAssignments = [.stmt 0, .stmt 3] := by
  have ht : ∀ n ∈ FlowGraph.knownBranch.nodes,
      ∃ f, assumedConstants.beforeNode .knownBranch n = .ok f := by
    intro n hn
    rw [Facts.beforeNode, assumedConstants, OrderedMap.find?_ofList_map, if_pos hn]
    exact ⟨_, rfl⟩
  have hlive : ∀ n ∈ FlowGraph.knownBranch.nodes,
      ∃ s, assumedLive.afterNode .knownBranch n = .ok s := by
    intro n hn
    rw [Facts.afterNode, assumedLive, OrderedMap.find?_ofList_map, if_pos hn]
    exact ⟨_, rfl⟩
  obtain ⟨d, hd, hexact⟩ :=
    exists_exact FlowGraph.built_knownBranch (by decide +kernel) ht hlive
  have hrun : (detect .knownBranch assumedConstants assumedLive).toOption.map
      (fun d ↦ (d.unreachable, d.deadAssignments)) = some ([.stmt 2], [.stmt 0, .stmt 3]) := by
    decide +kernel
  rw [hd] at hrun
  obtain ⟨hunreachable, hdead⟩ := Prod.mk.inj (Option.some.inj hrun)
  exact ⟨d, hd, hexact, hunreachable, hdead⟩

end DeadCode

end ProgramAnalysis
