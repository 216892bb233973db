import Mathlib.Data.List.Nodup
import ProgramAnalysis.Dataflow.Analysis
import ProgramAnalysis.Proofs.Bindings
import ProgramAnalysis.Proofs.Success

/-!
# Graphs built edge by edge

A flow graph is *built* if it arises from a body by adding edges. The two tables of a built graph
mirror each other, both ends of every edge are nodes, nothing leads into the entry and nothing out
of the exit. Seen in either direction, a built graph is therefore a graph whose predecessors are the
converse of its successors and whose start has no predecessor.
-/

namespace ProgramAnalysis

namespace FlowGraph

/-- The graph arises from a body by adding edges. -/
inductive Built : FlowGraph → Prop where
  | ofBody (b : Body) : Built (.ofBody b)
  | addEdge {g g' : FlowGraph} {source target : Node} {kind : EdgeKind} {case? : Option Int}
      {e : Edge} (hg : Built g) (h : g.addEdge source target kind case? = .ok (e, g')) : Built g'

/-- The graph of a body with the given edges, without those that a graph does not take. -/
def withEdges (b : Body) (l : List (Node × Node × EdgeKind × Option Int)) : FlowGraph :=
  l.foldl (fun g e ↦
    match g.addEdge e.1 e.2.1 e.2.2.1 e.2.2.2 with
    | .ok r => r.2
    | .error _ => g) (.ofBody b)

theorem built_withEdges (b : Body) (l : List (Node × Node × EdgeKind × Option Int)) :
    (withEdges b l).Built := by
  refine List.foldlRecOn l _ (Built.ofBody b) fun g hg e _ ↦ ?_
  split
  · rename_i r h
    exact hg.addEdge h
  · exact hg

/-- A graph with a branch whose outcome is known: `x = 5`, then `x = p` unless `x == 5`, then
`y = x` and `return x`. -/
def knownBranch : FlowGraph :=
  withEdges
    { params := [⟨"p", .int⟩]
      slots :=
        [⟨0, .assign (.var ⟨"x", .int⟩) (.int 5) rfl⟩,
          ⟨1, .branch (.binary .eq (.var ⟨"x", .int⟩) (.int 5))⟩,
          ⟨2, .assign (.var ⟨"x", .int⟩) (.var ⟨"p", .int⟩) rfl⟩,
          ⟨3, .assign (.var ⟨"y", .int⟩) (.var ⟨"x", .int⟩) rfl⟩,
          ⟨4, .ret (some (.var ⟨"x", .int⟩))⟩] }
    [(.entry, .stmt 0, .entry, none), (.stmt 0, .stmt 1, .fallThrough, none),
      (.stmt 1, .stmt 3, .ifTrue, none), (.stmt 1, .stmt 2, .ifFalse, none),
      (.stmt 2, .stmt 3, .fallThrough, none), (.stmt 3, .stmt 4, .fallThrough, none),
      (.stmt 4, .exit 5, .ret, none)]

theorem built_knownBranch : knownBranch.Built := built_withEdges _ _

/-- A graph with a loop: `i = 2`, then `i = i + 1` as long as `i < p`, then `return i`. -/
def countingLoop : FlowGraph :=
  withEdges
    { params := [⟨"p", .int⟩]
      slots :=
        [⟨0, .assign (.var ⟨"i", .int⟩) (.int 2) rfl⟩,
          ⟨1, .branch (.binary .lt (.var ⟨"i", .int⟩) (.var ⟨"p", .int⟩))⟩,
          ⟨2, .assign (.var ⟨"i", .int⟩) (.binary .add (.var ⟨"i", .int⟩) (.int 1)) rfl⟩,
          ⟨3, .ret (some (.var ⟨"i", .int⟩))⟩] }
    [(.entry, .stmt 0, .entry, none), (.stmt 0, .stmt 1, .fallThrough, none),
      (.stmt 1, .stmt 2, .ifTrue, none), (.stmt 1, .stmt 3, .ifFalse, none),
      (.stmt 2, .stmt 1, .goto, none), (.stmt 3, .exit 4, .ret, none)]

theorem built_countingLoop : countingLoop.Built := built_withEdges _ _

/-! ## What it takes to add an edge -/

theorem checkNode_eq_ok_iff {g : FlowGraph} {n : Node} {u : Unit} :
    g.checkNode n = .ok u ↔ n ∈ g.nodes := by
  rw [checkNode, contains]
  split
  · rename_i h
    exact ⟨fun _ ↦ of_decide_eq_true h, fun _ ↦ rfl⟩
  · rename_i h
    refine ⟨fun hu ↦ by simp at hu, fun hn ↦ absurd (decide_eq_true hn) h⟩

theorem between_eq_ok_iff {source target : Node} {kind : EdgeKind} {case? : Option Int} {e : Edge} :
    Edge.between source target kind case? = .ok e ↔
      e.source = source ∧ e.target = target ∧ e.kind = kind ∧ e.case? = case? := by
  rw [Edge.between]
  constructor
  · intro h
    split at h
    · obtain rfl := Except.ok.inj h
      exact ⟨rfl, rfl, rfl, rfl⟩
    · split at h <;> simp at h
  · rintro ⟨rfl, rfl, rfl, rfl⟩
    rw [dif_pos e.case?_isSome]

theorem isExit_eq_false_iff {g : FlowGraph} {n : Node} (hn : n ∈ g.nodes) :
    n.isExit = false ↔ n ≠ g.exit := by
  rw [nodes, List.mem_append, List.mem_cons, List.mem_map] at hn
  rcases hn with (rfl | ⟨s, -, rfl⟩) | hn
  · simp [Node.isExit, exit]
  · simp [Node.isExit, exit]
  · simp [List.mem_singleton.mp hn, Node.isExit, exit]

theorem isEntry_eq_false_iff {n : Node} : n.isEntry = false ↔ n ≠ .entry := by
  cases n <;> simp [Node.isEntry]

/-- Everything that is checked before an edge is added, and what the new graph is. -/
theorem addEdge_eq_ok_iff {g g' : FlowGraph} {source target : Node} {kind : EdgeKind}
    {case? : Option Int} {e : Edge} : g.addEdge source target kind case? = .ok (e, g') ↔
      (source ∈ g.nodes ∧ target ∈ g.nodes ∧ source ≠ g.exit ∧ target ≠ .entry) ∧
      (e.source = source ∧ e.target = target ∧ e.kind = kind ∧ e.case? = case?) ∧
      g' = g.insertEdge e := by
  rw [FlowGraph.addEdge]
  constructor
  · intro h
    obtain ⟨_, hs, h⟩ := exists_of_bind_eq_ok h
    obtain ⟨_, ht, h⟩ := exists_of_bind_eq_ok h
    have hx : source.isExit = false := by
      rw [← Bool.not_eq_true]
      intro hx
      simp [hx, bind, Except.bind, throw, throwThe, MonadExceptOf.throw] at h
    have hy : target.isEntry = false := by
      rw [← Bool.not_eq_true]
      intro hy
      simp [hx, hy, bind, Except.bind, throw, throwThe, MonadExceptOf.throw] at h
    simp only [hx, hy, Bool.false_eq_true, if_false] at h
    rw [checkNode_eq_ok_iff] at hs ht
    rw [isExit_eq_false_iff hs] at hx
    rw [isEntry_eq_false_iff] at hy
    split at h
    · rename_i e' he
      obtain ⟨rfl, rfl⟩ := Prod.mk.inj (Except.ok.inj h)
      exact ⟨⟨hs, ht, hx, hy⟩, between_eq_ok_iff.mp he, rfl⟩
    · simp [throw, throwThe, MonadExceptOf.throw] at h
  · rintro ⟨⟨hs, ht, hx, hy⟩, he, rfl⟩
    rw [← isExit_eq_false_iff hs] at hx
    rw [← isEntry_eq_false_iff] at hy
    have hs' : g.checkNode source = .ok () := checkNode_eq_ok_iff.mpr hs
    have ht' : g.checkNode target = .ok () := checkNode_eq_ok_iff.mpr ht
    simp only [hs', ht', hx, hy, between_eq_ok_iff.mpr he, Bool.false_eq_true, if_false]
    rfl

/-! ## The two tables -/

private theorem mem_ite_append {α : Type} [DecidableEq α] {l : List α} {a b : α} {p : Prop}
    [Decidable p] : b ∈ (if p ∧ a ∉ l then l ++ [a] else l) ↔ b ∈ l ∨ (b = a ∧ p) := by
  split
  · rename_i h
    rw [List.mem_append, List.mem_singleton, and_iff_left h.1]
  · rename_i h
    refine ⟨Or.inl, fun hb ↦ hb.elim id ?_⟩
    rintro ⟨rfl, hp⟩
    exact not_not.mp fun hnot ↦ h ⟨hp, hnot⟩

/-- An edge goes to the end of the list of its source, unless it stands there. -/
theorem outEdges_insertEdge (g : FlowGraph) (e : Edge) (n : Node) :
    (g.insertEdge e).outEdges n =
      if n = e.source ∧ e ∉ g.outEdges n then g.outEdges n ++ [e] else g.outEdges n := by
  rw [insertEdge]
  split
  · rename_i h
    rw [if_neg fun hn ↦ hn.2 (hn.1 ▸ h)]
  · rename_i h
    exact OrderedMap.findD_append_of_notMem h n

/-- In the list of its target an edge is treated in the same way, although only the list of its
source is looked at: it stands in both or in neither. -/
theorem inEdges_insertEdge {g : FlowGraph} {e : Edge} (n : Node)
    (he : e ∈ g.outEdges e.source ↔ e ∈ g.inEdges e.target) :
    (g.insertEdge e).inEdges n =
      if n = e.target ∧ e ∉ g.inEdges n then g.inEdges n ++ [e] else g.inEdges n := by
  rw [insertEdge]
  split
  · rename_i h
    rw [if_neg fun hn ↦ hn.2 (hn.1 ▸ he.mp h)]
  · rename_i h
    exact OrderedMap.findD_append_of_notMem (fun hin ↦ h (he.mpr hin)) n

theorem mem_outEdges_insertEdge {g : FlowGraph} {e e' : Edge} {n : Node} :
    e' ∈ (g.insertEdge e).outEdges n ↔ e' ∈ g.outEdges n ∨ (e' = e ∧ n = e.source) := by
  rw [outEdges_insertEdge, mem_ite_append]

theorem mem_inEdges_insertEdge {g : FlowGraph} {e e' : Edge} {n : Node}
    (he : e ∈ g.outEdges e.source ↔ e ∈ g.inEdges e.target) :
    e' ∈ (g.insertEdge e).inEdges n ↔ e' ∈ g.inEdges n ∨ (e' = e ∧ n = e.target) := by
  rw [inEdges_insertEdge n he, mem_ite_append]

theorem nodes_insertEdge (g : FlowGraph) (e : Edge) : (g.insertEdge e).nodes = g.nodes := by
  rw [insertEdge]
  split <;> rfl

/-- The tables of a graph mirror each other, and edges respect the entry and the exit. -/
structure Mirrored (g : FlowGraph) : Prop where
  source_eq : ∀ {n e}, e ∈ g.outEdges n → e.source = n
  target_eq : ∀ {n e}, e ∈ g.inEdges n → e.target = n
  mem_iff : ∀ {e}, e ∈ g.outEdges e.source ↔ e ∈ g.inEdges e.target
  source_mem : ∀ {e}, e ∈ g.outEdges e.source → e.source ∈ g.nodes
  target_mem : ∀ {e}, e ∈ g.outEdges e.source → e.target ∈ g.nodes
  source_isExit : ∀ {e}, e ∈ g.outEdges e.source → e.source.isExit = false
  target_isEntry : ∀ {e}, e ∈ g.outEdges e.source → e.target.isEntry = false

theorem mirrored_ofBody (b : Body) : (ofBody b).Mirrored := by
  have hout : ∀ n, (ofBody b).outEdges n = [] := fun _ ↦ rfl
  have hin : ∀ n, (ofBody b).inEdges n = [] := fun _ ↦ rfl
  constructor <;> simp [hout, hin]

theorem Mirrored.insertEdge {g : FlowGraph} (hg : g.Mirrored) {e : Edge}
    (hs : e.source ∈ g.nodes) (ht : e.target ∈ g.nodes) (hx : e.source.isExit = false)
    (hy : e.target.isEntry = false) : (g.insertEdge e).Mirrored := by
  have hin {e' : Edge} {n : Node} :
      e' ∈ (g.insertEdge e).inEdges n ↔ e' ∈ g.inEdges n ∨ (e' = e ∧ n = e.target) :=
    mem_inEdges_insertEdge hg.mem_iff
  have hout {e' : Edge} (h : e' ∈ (g.insertEdge e).outEdges e'.source) :
      e' ∈ g.outEdges e'.source ∨ e' = e :=
    (mem_outEdges_insertEdge.mp h).imp_right And.left
  constructor
  · intro n e' h
    rcases mem_outEdges_insertEdge.mp h with h | ⟨rfl, rfl⟩
    · exact hg.source_eq h
    · rfl
  · intro n e' h
    rcases hin.mp h with h | ⟨rfl, rfl⟩
    · exact hg.target_eq h
    · rfl
  · intro e'
    rw [mem_outEdges_insertEdge, hin, hg.mem_iff]
    refine or_congr_right ⟨fun h ↦ ⟨h.1, h.1 ▸ rfl⟩, fun h ↦ ⟨h.1, h.1 ▸ rfl⟩⟩
  · intro e' h
    rw [nodes_insertEdge]
    exact (hout h).elim hg.source_mem (· ▸ hs)
  · intro e' h
    rw [nodes_insertEdge]
    exact (hout h).elim hg.target_mem (· ▸ ht)
  · exact fun h ↦ (hout h).elim hg.source_isExit (· ▸ hx)
  · exact fun h ↦ (hout h).elim hg.target_isEntry (· ▸ hy)

theorem Built.mirrored {g : FlowGraph} (h : g.Built) : g.Mirrored := by
  induction h with
  | ofBody b => exact mirrored_ofBody b
  | addEdge _ h ih =>
    obtain ⟨⟨hs, ht, hx, hy⟩, ⟨rfl, rfl, -, -⟩, rfl⟩ := addEdge_eq_ok_iff.mp h
    exact ih.insertEdge hs ht ((isExit_eq_false_iff hs).mpr hx) (isEntry_eq_false_iff.mpr hy)

/-! ## Successors and predecessors -/

theorem mem_succs_iff {g : FlowGraph} {m n : Node} :
    n ∈ g.succs m ↔ ∃ e ∈ g.outEdges m, e.target = n := by
  rw [succs, mem_distinct, List.mem_map]

theorem mem_preds_iff {g : FlowGraph} {m n : Node} :
    m ∈ g.preds n ↔ ∃ e ∈ g.inEdges n, e.source = m := by
  rw [preds, mem_distinct, List.mem_map]

namespace Mirrored

variable {g : FlowGraph} (hg : g.Mirrored)

include hg

theorem mem_succs_iff_mem_preds {m n : Node} : n ∈ g.succs m ↔ m ∈ g.preds n := by
  rw [mem_succs_iff, mem_preds_iff]
  constructor
  · rintro ⟨e, he, rfl⟩
    obtain rfl := hg.source_eq he
    exact ⟨e, hg.mem_iff.mp he, rfl⟩
  · rintro ⟨e, he, rfl⟩
    obtain rfl := hg.target_eq he
    exact ⟨e, hg.mem_iff.mpr he, rfl⟩

/-- An edge behind every successor. -/
theorem exists_edge {m n : Node} (h : n ∈ g.succs m) :
    ∃ e, e ∈ g.outEdges e.source ∧ e.source = m ∧ e.target = n := by
  obtain ⟨e, he, rfl⟩ := mem_succs_iff.mp h
  obtain rfl := hg.source_eq he
  exact ⟨e, he, rfl, rfl⟩

theorem mem_nodes_of_mem_succs {m n : Node} (h : n ∈ g.succs m) : m ∈ g.nodes ∧ n ∈ g.nodes := by
  obtain ⟨e, he, rfl, rfl⟩ := hg.exists_edge h
  exact ⟨hg.source_mem he, hg.target_mem he⟩

theorem entry_notMem_succs (m : Node) : Node.entry ∉ g.succs m := by
  intro h
  obtain ⟨e, he, -, htarget⟩ := hg.exists_edge h
  have := hg.target_isEntry he
  simp [htarget, Node.isEntry] at this

theorem exit_notMem_preds (n : Node) : g.exit ∉ g.preds n := by
  intro h
  obtain ⟨e, he, hsource, -⟩ := hg.exists_edge (hg.mem_succs_iff_mem_preds.mpr h)
  have := hg.source_isExit he
  simp [hsource, exit, Node.isExit] at this

end Mirrored

/-- If no statement occurs twice, no node does. -/
theorem nodup_nodes {g : FlowGraph} (hbody : g.body.Distinct) : g.nodes.Nodup := by
  have hslots : (g.body.slots.map fun s ↦ Node.stmt s.index).Nodup := by
    have hmap : (g.body.slots.map fun s ↦ Node.stmt s.index) =
        (g.body.slots.map Slot.index).map Node.stmt := by
      rw [List.map_map]
      rfl
    rw [hmap]
    exact List.Nodup.map (fun _ _ h ↦ Node.stmt.inj h) hbody
  rw [nodes, List.nodup_append, List.nodup_cons]
  refine ⟨⟨by simp, hslots⟩, List.nodup_singleton _, ?_⟩
  simp [exit]

theorem entry_mem_nodes (g : FlowGraph) : Node.entry ∈ g.nodes := by
  simp [nodes]

theorem exit_mem_nodes (g : FlowGraph) : g.exit ∈ g.nodes := by
  simp [nodes]

end FlowGraph

/-! ## Graphs seen in one direction -/

/-- The predecessors are the converse of the successors, all of them are nodes, and the start has no
predecessor. -/
structure Orientation.WellFormed (o : Orientation) : Prop where
  mem_prev_iff : ∀ {m n}, m ∈ o.prev n ↔ n ∈ o.next m
  mem_nodes_of_mem_next : ∀ {m n}, n ∈ o.next m → n ∈ o.nodes
  mem_nodes_of_mem_prev : ∀ {m n}, m ∈ o.prev n → m ∈ o.nodes
  start_notMem_next : ∀ m, o.start ∉ o.next m
  start_mem_nodes : o.start ∈ o.nodes

theorem FlowGraph.nodes_orient (g : FlowGraph) (d : Direction) : (g.orient d).nodes = g.nodes := by
  cases d <;> rfl

theorem FlowGraph.Mirrored.wellFormed_orient {g : FlowGraph} (hg : g.Mirrored) (d : Direction) :
    (g.orient d).WellFormed := by
  cases d with
  | forward =>
    refine ⟨hg.mem_succs_iff_mem_preds.symm, fun h ↦ (hg.mem_nodes_of_mem_succs h).2, fun h ↦ ?_,
      hg.entry_notMem_succs, g.entry_mem_nodes⟩
    exact (hg.mem_nodes_of_mem_succs (hg.mem_succs_iff_mem_preds.mpr h)).1
  | backward =>
    refine ⟨hg.mem_succs_iff_mem_preds, fun h ↦ ?_, fun h ↦ (hg.mem_nodes_of_mem_succs h).2,
      hg.exit_notMem_preds, g.exit_mem_nodes⟩
    exact (hg.mem_nodes_of_mem_succs (hg.mem_succs_iff_mem_preds.mpr h)).1

end ProgramAnalysis
