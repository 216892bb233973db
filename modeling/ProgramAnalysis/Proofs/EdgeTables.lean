import ProgramAnalysis.Proofs.BuiltGraphs

/-!
# Tables of edges that fit together

A graph answers five questions about its edges: which there are, which lead out of a node and which
into one, and what the successors and the predecessors of a node are. It is *coherent* if the
answers tell of the same edges and list nothing twice. Edges between the same nodes that differ in
their kind or in their case value are different edges, and nevertheless one successor and one
predecessor.

Whether a graph takes an edge depends on five conditions, four of which the graph looks at and one
the edge. A request that does not meet them changes nothing, nor does one for an edge that is there;
any other request puts the edge at the end of the lists of its two ends. Each list is therefore a
set kept in the order of arrival, and the two lists in which an edge can stand have it both or
neither.
-/

namespace ProgramAnalysis.FlowGraph

variable {g g' : FlowGraph} {source target : Node} {kind : EdgeKind} {case? : Option Int} {e : Edge}

/-! ## Requests -/

/-- The ends are nodes, neither the exit as the source nor the entry as the target, and there is a
case value exactly for a case of a switch. -/
def Admits (g : FlowGraph) (source target : Node) (kind : EdgeKind) (case? : Option Int) : Prop :=
  source ∈ g.nodes ∧ target ∈ g.nodes ∧ source ≠ g.exit ∧ target ≠ .entry ∧
    (case?.isSome = true ↔ kind = .switchCase)

instance : Decidable (g.Admits source target kind case?) :=
  inferInstanceAs (Decidable (source ∈ g.nodes ∧ target ∈ g.nodes ∧ source ≠ g.exit ∧
    target ≠ .entry ∧ (case?.isSome = true ↔ kind = .switchCase)))

theorem Admits.exists_addEdge (h : g.Admits source target kind case?) : ∃ e : Edge,
    (e.source = source ∧ e.target = target ∧ e.kind = kind ∧ e.case? = case?) ∧
      g.addEdge source target kind case? = .ok (e, g.insertEdge e) := by
  obtain ⟨hs, ht, hx, hy, hcase⟩ := h
  have hsome : case?.isSome = decide (kind = .switchCase) := by
    rw [Bool.eq_iff_iff, hcase, decide_eq_true_iff]
  refine ⟨⟨source, target, kind, case?, hsome⟩, ⟨rfl, rfl, rfl, rfl⟩, ?_⟩
  exact addEdge_eq_ok_iff.mpr ⟨⟨hs, ht, hx, hy⟩, ⟨rfl, rfl, rfl, rfl⟩, rfl⟩

theorem admits_of_addEdge_eq_ok (h : g.addEdge source target kind case? = .ok (e, g')) :
    g.Admits source target kind case? := by
  obtain ⟨⟨hs, ht, hx, hy⟩, ⟨-, -, rfl, rfl⟩, -⟩ := addEdge_eq_ok_iff.mp h
  refine ⟨hs, ht, hx, hy, ?_⟩
  rw [e.case?_isSome, decide_eq_true_iff]

theorem exists_error_of_not_admits (h : ¬g.Admits source target kind case?) :
    ∃ cause, g.addEdge source target kind case? = .error cause := by
  cases hadd : g.addEdge source target kind case? with
  | error cause => exact ⟨cause, rfl⟩
  | ok r => exact absurd (admits_of_addEdge_eq_ok hadd) h

theorem insertEdge_of_mem (h : e ∈ g.outEdges e.source) : g.insertEdge e = g := if_pos h

theorem withEdges_concat (b : Body) (l : List (Node × Node × EdgeKind × Option Int))
    (source target : Node) (kind : EdgeKind) (case? : Option Int) :
    withEdges b (l ++ [(source, target, kind, case?)]) =
      match (withEdges b l).addEdge source target kind case? with
      | .ok r => r.2
      | .error _ => withEdges b l := by
  rw [withEdges, List.foldl_append]
  rfl

theorem body_withEdges (b : Body) (l : List (Node × Node × EdgeKind × Option Int)) :
    (withEdges b l).body = b := by
  refine List.foldlRecOn (motive := fun g : FlowGraph ↦ g.body = b) l _ rfl fun g hg e _ ↦ ?_
  split
  · rename_i r hr
    obtain ⟨-, -, hinsert⟩ := addEdge_eq_ok_iff.mp hr
    rw [hinsert, insertEdge]
    split <;> exact hg
  · exact hg

/-! ## Nothing is listed twice -/

/-- Between two nodes, an edge is determined by its kind and its case value. -/
theorem edge_eq_of_fields {e e' : Edge} (h : e.source = e'.source ∧ e.target = e'.target ∧
    e.kind = e'.kind ∧ e.case? = e'.case?) : e = e' := by
  have he : Edge.between e'.source e'.target e'.kind e'.case? = .ok e := between_eq_ok_iff.mpr h
  have he' : Edge.between e'.source e'.target e'.kind e'.case? = .ok e' :=
    between_eq_ok_iff.mpr ⟨rfl, rfl, rfl, rfl⟩
  exact Except.ok.inj (he.symm.trans he')

theorem Built.nodup_tables (hg : g.Built) (n : Node) :
    (g.outEdges n).Nodup ∧ (g.inEdges n).Nodup := by
  have hconcat {l : List Edge} {e : Edge} {p : Prop} [Decidable p] (hl : l.Nodup) :
      (if p ∧ e ∉ l then l ++ [e] else l).Nodup := by
    split
    · rename_i h
      exact hl.append (List.nodup_singleton e) (List.disjoint_singleton.mpr h.2)
    · exact hl
  induction hg with
  | ofBody b => exact ⟨List.nodup_nil, List.nodup_nil⟩
  | @addEdge g g' source target kind case? e hg h ih =>
    obtain ⟨-, -, rfl⟩ := addEdge_eq_ok_iff.mp h
    rw [outEdges_insertEdge, inEdges_insertEdge n hg.mirrored.mem_iff]
    exact ⟨hconcat ih.1, hconcat ih.2⟩

theorem Mirrored.mem_edges_iff (hg : g.Mirrored) : e ∈ g.edges ↔ e ∈ g.outEdges e.source := by
  rw [edges, List.mem_flatMap]
  constructor
  · rintro ⟨n, -, he⟩
    rwa [hg.source_eq he]
  · exact fun he ↦ ⟨e.source, hg.source_mem he, he⟩

/-- An edge to a successor might as well be looked for among all edges. -/
theorem Mirrored.mem_succs_iff_exists_edge (hg : g.Mirrored) {m n : Node} :
    n ∈ g.succs m ↔ ∃ e ∈ g.edges, e.source = m ∧ e.target = n := by
  simp only [hg.mem_edges_iff]
  refine ⟨hg.exists_edge, ?_⟩
  rintro ⟨e, he, rfl, rfl⟩
  exact mem_succs_iff.mpr ⟨e, he, rfl⟩

/-- A new edge goes to the end of the lists of its ends. -/
theorem Mirrored.tables_insertEdge (hg : g.Mirrored) (he : e ∉ g.edges) (n : Node) :
    (g.insertEdge e).outEdges n = (if n = e.source then g.outEdges n ++ [e] else g.outEdges n) ∧
      (g.insertEdge e).inEdges n =
        if n = e.target then g.inEdges n ++ [e] else g.inEdges n := by
  have hout (m : Node) : e ∉ g.outEdges m := fun hm ↦
    he (hg.mem_edges_iff.mpr (hg.source_eq hm ▸ hm))
  have hin : e ∉ g.inEdges n := fun hn ↦
    hout e.source (hg.mem_iff.mpr (hg.target_eq hn ▸ hn))
  rw [outEdges_insertEdge, inEdges_insertEdge n hg.mem_iff]
  simp only [hout n, hin, not_false_eq_true, and_true, and_self]

theorem Built.nodup_edges (hg : g.Built) (hbody : g.body.Distinct) : g.edges.Nodup := by
  rw [edges, List.nodup_flatMap]
  refine ⟨fun n _ ↦ (hg.nodup_tables n).1, (nodup_nodes hbody).imp fun hne e he he' ↦ ?_⟩
  exact hne ((hg.mirrored.source_eq he).symm.trans (hg.mirrored.source_eq he'))

/-! ## Coherent graphs -/

/-- All answers about edges tell of the same edges, and none of them lists anything twice. -/
structure Coherent (g : FlowGraph) : Prop where
  /-- No two edges agree in their ends, their kind and their case value. -/
  pairwise_edges : g.edges.Pairwise fun e e' ↦
    ¬(e.source = e'.source ∧ e.target = e'.target ∧ e.kind = e'.kind ∧ e.case? = e'.case?)
  mem_edges_iff : ∀ e, e ∈ g.edges ↔ e ∈ g.outEdges e.source
  /-- What leads out of a node comes from there, and leads into its target. -/
  mem_outEdges_iff : ∀ e n, e ∈ g.outEdges n ↔ e.source = n ∧ e ∈ g.inEdges e.target
  /-- What leads into a node goes there, and leads out of its source. -/
  mem_inEdges_iff : ∀ e n, e ∈ g.inEdges n ↔ e.target = n ∧ e ∈ g.outEdges e.source
  nodup_outEdges : ∀ n, (g.outEdges n).Nodup
  nodup_inEdges : ∀ n, (g.inEdges n).Nodup
  /-- The successors are the targets of the edges that come from a node. -/
  mem_succs_iff : ∀ m n, n ∈ g.succs m ↔ ∃ e ∈ g.edges, e.source = m ∧ e.target = n
  /-- The predecessors are the converse of the successors. -/
  mem_succs_iff_mem_preds : ∀ m n, n ∈ g.succs m ↔ m ∈ g.preds n
  nodup_succs : ∀ n, (g.succs n).Nodup
  nodup_preds : ∀ n, (g.preds n).Nodup
  inEdges_entry : g.inEdges .entry = []
  outEdges_exit : g.outEdges g.exit = []
  ends_mem_nodes : ∀ e ∈ g.edges, e.source ∈ g.nodes ∧ e.target ∈ g.nodes
  isSome_case?_iff : ∀ e ∈ g.edges, e.case?.isSome = true ↔ e.kind = .switchCase

theorem Built.coherent (hg : g.Built) (hbody : g.body.Distinct) : g.Coherent := by
  have hm : g.Mirrored := hg.mirrored
  exact {
    pairwise_edges := by
      exact (hg.nodup_edges hbody).imp fun hne h ↦ hne (edge_eq_of_fields h)
    mem_edges_iff := fun e ↦ hm.mem_edges_iff
    mem_outEdges_iff := fun e n ↦ by
      rw [← hm.mem_iff]
      refine ⟨fun he ↦ ?_, fun ⟨hn, he⟩ ↦ hn ▸ he⟩
      obtain rfl := hm.source_eq he
      exact ⟨rfl, he⟩
    mem_inEdges_iff := fun e n ↦ by
      rw [hm.mem_iff]
      refine ⟨fun he ↦ ?_, fun ⟨hn, he⟩ ↦ hn ▸ he⟩
      obtain rfl := hm.target_eq he
      exact ⟨rfl, he⟩
    nodup_outEdges := fun n ↦ (hg.nodup_tables n).1
    nodup_inEdges := fun n ↦ (hg.nodup_tables n).2
    mem_succs_iff := fun m n ↦ hm.mem_succs_iff_exists_edge
    mem_succs_iff_mem_preds := fun m n ↦ hm.mem_succs_iff_mem_preds
    nodup_succs := fun n ↦ nodup_distinct _
    nodup_preds := fun n ↦ nodup_distinct _
    inEdges_entry := List.eq_nil_iff_forall_not_mem.mpr fun e he ↦ by
      obtain ht := hm.target_eq he
      exact isEntry_eq_false_iff.mp (hm.target_isEntry (hm.mem_iff.mpr (ht ▸ he))) ht
    outEdges_exit := List.eq_nil_iff_forall_not_mem.mpr fun e he ↦ by
      obtain hs := hm.source_eq he
      rw [← hs] at he
      exact (isExit_eq_false_iff (hm.source_mem he)).mp (hm.source_isExit he) hs
    ends_mem_nodes := fun e he ↦ by
      rw [hm.mem_edges_iff] at he
      exact ⟨hm.source_mem he, hm.target_mem he⟩
    isSome_case?_iff := fun e _ ↦ by rw [e.case?_isSome, decide_eq_true_iff] }

/-- After any series of requests a graph is coherent, whatever was asked for. One more request that
the graph does not admit is refused and changes nothing; one that it admits is granted. An edge that
is there already stays where it is, and a new one goes to the end of two lists. -/
theorem coherent_withEdges {b : Body} (hbody : b.Distinct)
    (l : List (Node × Node × EdgeKind × Option Int)) :
    (withEdges b l).Coherent ∧ ∀ source target kind case?,
      let g := withEdges b l
      let g' := withEdges b (l ++ [(source, target, kind, case?)])
      (¬g.Admits source target kind case? →
        (∃ cause, g.addEdge source target kind case? = .error cause) ∧ g' = g) ∧
      (g.Admits source target kind case? → ∃ e : Edge,
        (e.source = source ∧ e.target = target ∧ e.kind = kind ∧ e.case? = case?) ∧
        g.addEdge source target kind case? = .ok (e, g') ∧
        (e ∈ g.edges → g' = g) ∧
        (e ∉ g.edges →
          (∀ n, g'.outEdges n = if n = source then g.outEdges n ++ [e] else g.outEdges n) ∧
          ∀ n, g'.inEdges n = if n = target then g.inEdges n ++ [e] else g.inEdges n)) := by
  have hbuilt : (withEdges b l).Built := built_withEdges b l
  have hm : (withEdges b l).Mirrored := hbuilt.mirrored
  refine ⟨hbuilt.coherent ((body_withEdges b l).symm ▸ hbody), fun source target kind case? ↦ ?_⟩
  dsimp only
  rw [withEdges_concat]
  refine ⟨fun hnot ↦ ?_, fun hadmits ↦ ?_⟩
  · obtain ⟨cause, hcause⟩ := exists_error_of_not_admits hnot
    rw [hcause]
    exact ⟨⟨cause, rfl⟩, rfl⟩
  · obtain ⟨e, hfields, hadd⟩ := hadmits.exists_addEdge
    rw [hadd]
    refine ⟨e, hfields, rfl, fun he ↦ insertEdge_of_mem (hm.mem_edges_iff.mp he), fun he ↦ ?_⟩
    obtain ⟨rfl, rfl, -, -⟩ := hfields
    exact ⟨fun n ↦ (hm.tables_insertEdge he n).1, fun n ↦ (hm.tables_insertEdge he n).2⟩

/-! ## Parallel edges

Two cases of a switch lead to the same statement, and that leads back. -/

/-- `switch (p)` with the cases 1 and 2, `p = 3`, and `return p`. -/
def switchBody : Body where
  params := [⟨"p", .int⟩]
  slots :=
    [⟨0, .switch ⟨"p", .int⟩ [1, 2]⟩,
      ⟨1, .assign (.var ⟨"p", .int⟩) (.int 3) rfl⟩,
      ⟨2, .ret (some (.var ⟨"p", .int⟩))⟩]

/-- Requests for the edges of the switch. One comes twice and five are refused. -/
def switchRequests : List (Node × Node × EdgeKind × Option Int) :=
  [(.entry, .stmt 0, .entry, none), (.stmt 0, .stmt 1, .switchCase, some 1),
    (.stmt 0, .stmt 1, .switchCase, some 2), (.stmt 0, .stmt 1, .switchCase, some 1),
    (.stmt 0, .stmt 2, .switchCase, none), (.stmt 0, .stmt 2, .switchDefault, none),
    (.stmt 1, .stmt 0, .goto, some 1), (.stmt 1, .stmt 0, .goto, none),
    (.stmt 1, .entry, .goto, none), (.exit 3, .stmt 0, .goto, none),
    (.stmt 2, .exit 3, .ret, none), (.stmt 2, .detached 0 .nop, .goto, none)]

/-- The graph of the switch. -/
def switchLoop : FlowGraph := withEdges switchBody switchRequests

theorem built_switchLoop : switchLoop.Built := built_withEdges _ _

/-- The switch has three edges and two successors. An edge into the entry is refused, and the first
of the two cases is not entered again. -/
theorem coherent_withEdges_switchLoop :
    switchBody.Distinct ∧ switchLoop.Coherent ∧ switchLoop.edges.length = 6 ∧
      (switchLoop.outEdges (.stmt 0)).length = 3 ∧
      switchLoop.succs (.stmt 0) = [.stmt 1, .stmt 2] ∧
      switchLoop.preds (.stmt 1) = [.stmt 0] ∧
      (∃ cause, switchLoop.addEdge (.stmt 1) .entry .goto none = .error cause) ∧
      withEdges switchBody (switchRequests ++ [(.stmt 1, .entry, .goto, none)]) = switchLoop ∧
      withEdges switchBody (switchRequests ++ [(.stmt 0, .stmt 1, .switchCase, some 1)]) =
        switchLoop := by
  have hbody : switchBody.Distinct := by decide
  obtain ⟨hcoherent, hrequest⟩ := coherent_withEdges hbody switchRequests
  obtain ⟨hrefused, hsame⟩ := (hrequest (.stmt 1) .entry .goto none).1 (by decide)
  obtain ⟨e, hfields, -, hagain, -⟩ :=
    (hrequest (.stmt 0) (.stmt 1) .switchCase (some 1)).2 (by decide)
  have he : e = ⟨.stmt 0, .stmt 1, .switchCase, some 1, rfl⟩ := edge_eq_of_fields hfields
  have hmem : e ∈ switchLoop.edges := by
    rw [he]
    decide
  exact ⟨hbody, hcoherent, by decide, by decide, by decide, by decide, hrefused, hsame, hagain hmem⟩

end ProgramAnalysis.FlowGraph
