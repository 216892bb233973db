import Mathlib.Data.List.Nodup
import ProgramAnalysis.CallGraph.Graph
import ProgramAnalysis.Proofs.Bindings

/-!
# The views of a call graph

A call graph keeps its edges three times and its methods apart from them, and each query looks at
one of these views only. A graph is *consistent* if they agree: the edges of a call site, or into a
method, are what a search through all edges would find, and no edge leads out of the methods. Every
addition enters an edge in all views, so that whatever is built from the empty graph is consistent.

What can be asked about the edges of a consistent graph is answered by the list of all of them. To
follow a series of additions it is therefore enough to know how this list changes.
-/

namespace ProgramAnalysis.CallGraph

variable {g : CallGraph} {e : CallEdge} {m n : MethodRef}

/-! ## Single additions -/

theorem addReachable_eq (g : CallGraph) (m : MethodRef) : (g.addReachable m).2 =
    { g with reachable := if m ∈ g.reachable then g.reachable else g.reachable ++ [m] } := by
  rw [addReachable]
  split <;> rfl

theorem reachable_addReachable (g : CallGraph) (m : MethodRef) : (g.addReachable m).2.reachable =
    if m ∈ g.reachable then g.reachable else g.reachable ++ [m] := by
  rw [addReachable_eq]

theorem mem_reachable_addReachable :
    n ∈ (g.addReachable m).2.reachable ↔ n ∈ g.reachable ∨ n = m := by
  rw [reachable_addReachable]
  split
  · rename_i hm
    exact ⟨Or.inl, fun h ↦ h.elim id fun hn ↦ hn ▸ hm⟩
  · rw [List.mem_append, List.mem_singleton]

theorem addReachable_of_mem (h : m ∈ g.reachable) : (g.addReachable m).2 = g := by
  rw [addReachable, if_pos h]

theorem addEntry_eq (g : CallGraph) (m : MethodRef) : g.addEntry m =
    { (g.addReachable m).2 with
      entries := if m ∈ g.entries then g.entries else g.entries ++ [m] } := by
  rw [addEntry, addReachable, addReachable]
  split <;> split <;> simp_all

theorem addEdge_of_mem (h : e ∈ g.edges) : (g.addEdge e).2 = g := by
  rw [addEdge, if_pos h]

/-- The callee of a new edge might as well be made reachable before the edge is entered. -/
theorem addEdge_of_notMem (h : e ∉ g.edges) : (g.addEdge e).2 =
    { (g.addReachable e.callee).2 with
      edges := g.edges ++ [e]
      bySite := g.bySite.append e.site e
      byCallee := g.byCallee.append e.callee e } := by
  simp only [addEdge, if_neg h, addReachable]
  split <;> rfl

theorem edges_addEdge (g : CallGraph) (e : CallEdge) :
    (g.addEdge e).2.edges = if e ∈ g.edges then g.edges else g.edges ++ [e] := by
  split
  · rename_i h
    rw [addEdge_of_mem h]
  · rename_i h
    rw [addEdge_of_notMem h]

/-! ## Consistent graphs -/

/-- The views of the graph agree. -/
structure Consistent (g : CallGraph) : Prop where
  nodup_reachable : g.reachable.Nodup
  nodup_edges : g.edges.Nodup
  mem_of_mem_entries : ∀ m ∈ g.entries, m ∈ g.reachable
  callee_mem : ∀ e ∈ g.edges, e.callee ∈ g.reachable
  edgesOutOf_eq : ∀ s, g.edgesOutOf s = g.edges.filter fun e ↦ e.site = s
  edgesInto_eq : ∀ m, g.edgesInto m = g.edges.filter fun e ↦ e.callee = m

theorem consistent_empty : Consistent {} where
  nodup_reachable := List.nodup_nil
  nodup_edges := List.nodup_nil
  mem_of_mem_entries _ h := h
  callee_mem _ h := absurd h List.not_mem_nil
  edgesOutOf_eq _ := rfl
  edgesInto_eq _ := rfl

namespace Consistent

theorem callees_eq (h : g.Consistent) (s : CallSite) :
    g.callees s = (g.edges.filter fun e ↦ e.site = s).map CallEdge.callee := by
  rw [callees, h.edgesOutOf_eq]

theorem addReachable (h : g.Consistent) (m : MethodRef) : (g.addReachable m).2.Consistent := by
  by_cases hm : m ∈ g.reachable
  · rwa [addReachable_of_mem hm]
  rw [CallGraph.addReachable, if_neg hm]
  exact {
    nodup_reachable :=
      h.nodup_reachable.append (List.nodup_singleton m) (List.disjoint_singleton.mpr hm)
    nodup_edges := h.nodup_edges
    mem_of_mem_entries := fun n hn ↦ List.mem_append_left [m] (h.mem_of_mem_entries n hn)
    callee_mem := fun e he ↦ List.mem_append_left [m] (h.callee_mem e he)
    edgesOutOf_eq := h.edgesOutOf_eq
    edgesInto_eq := h.edgesInto_eq }

theorem addEntry (h : g.Consistent) (m : MethodRef) : (g.addEntry m).Consistent := by
  have hmem : m ∈ (g.addReachable m).2.reachable := mem_reachable_addReachable.mpr (Or.inr rfl)
  rw [addEntry_eq]
  refine { h.addReachable m with mem_of_mem_entries := fun n hn ↦ ?_ }
  have hn : n ∈ g.entries ∨ n = m := by
    dsimp only at hn
    split at hn
    · exact Or.inl hn
    · rwa [List.mem_append, List.mem_singleton] at hn
  rcases hn with hn | rfl
  · exact mem_reachable_addReachable.mpr (Or.inl (h.mem_of_mem_entries n hn))
  · exact hmem

theorem addEdge (h : g.Consistent) (e : CallEdge) : (g.addEdge e).2.Consistent := by
  by_cases he : e ∈ g.edges
  · rwa [addEdge_of_mem he]
  rw [addEdge_of_notMem he]
  refine { h.addReachable e.callee with
    nodup_edges :=
      h.nodup_edges.append (List.nodup_singleton e) (List.disjoint_singleton.mpr he)
    callee_mem := fun e' he' ↦ mem_reachable_addReachable.mpr ?_
    edgesOutOf_eq := fun s ↦ ?_
    edgesInto_eq := fun m ↦ ?_ }
  · rcases List.mem_append.mp he' with he' | he'
    · exact Or.inl (h.callee_mem e' he')
    · exact Or.inr (congrArg CallEdge.callee (List.mem_singleton.mp he'))
  · have hs := h.edgesOutOf_eq s
    rw [edgesOutOf] at hs ⊢
    rw [OrderedMap.findD_append, hs, List.filter_append]
    split <;> simp_all
  · have hm := h.edgesInto_eq m
    rw [edgesInto] at hm ⊢
    rw [OrderedMap.findD_append, hm, List.filter_append]
    split <;> simp_all

/-- The callee of an edge that is there already is reachable. -/
theorem reachable_addEdge (h : g.Consistent) (e : CallEdge) : (g.addEdge e).2.reachable =
    if e.callee ∈ g.reachable then g.reachable else g.reachable ++ [e.callee] := by
  by_cases he : e ∈ g.edges
  · rw [addEdge_of_mem he, if_pos (h.callee_mem e he)]
  · rw [addEdge_of_notMem he]
    exact reachable_addReachable g e.callee

end Consistent

/-! ## Series of additions -/

/-- The graph with all edges of a list. -/
def addEdges (g : CallGraph) (l : List CallEdge) : CallGraph :=
  l.foldl (fun g e ↦ (g.addEdge e).2) g

theorem Consistent.addEdges (h : g.Consistent) (l : List CallEdge) : (g.addEdges l).Consistent :=
  List.foldlRecOn l _ h fun _ hg e _ ↦ hg.addEdge e

/-- Of different edges, those are added that the graph does not have. -/
theorem edges_addEdges (g : CallGraph) {l : List CallEdge} (hl : l.Nodup) :
    (g.addEdges l).edges = g.edges ++ l.filter fun e ↦ e ∉ g.edges := by
  induction l generalizing g with
  | nil => exact (List.append_nil _).symm
  | cons e l ih =>
    obtain ⟨he, hl⟩ := List.nodup_cons.mp hl
    have hstep : g.addEdges (e :: l) = (g.addEdge e).2.addEdges l := rfl
    rw [hstep, ih _ hl, edges_addEdge]
    split
    · rename_i hmem
      rw [List.filter_cons_of_neg (by simpa using hmem)]
    · rename_i hmem
      -- `e` does not come up again, so that the others are added as before
      have hfilter : (l.filter fun e' ↦ e' ∉ g.edges ++ [e]) = l.filter fun e' ↦ e' ∉ g.edges := by
        refine List.filter_congr fun e' he' ↦ ?_
        have hne : e' ≠ e := fun h ↦ he (h ▸ he')
        simp [hne]
      rw [hfilter, List.filter_cons_of_pos (by simpa using hmem), List.append_assoc,
        List.singleton_append]

end ProgramAnalysis.CallGraph
