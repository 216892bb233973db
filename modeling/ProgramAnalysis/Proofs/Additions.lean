import Mathlib.Data.Finset.Card
import ProgramAnalysis.Proofs.CallEdges

/-!
# What a series of additions leaves

A call graph is filled by three kinds of additions: of entries, of reachable methods and of edges.
They may come in any order and be repeated, an edge may be of another kind than the call at its
site, and neither its site nor its callee need be known before.

The entries, the reachable methods and the edges are those that were asked for, each once and in the
order of the first requests. One addition puts an item at the end of its list unless it stands there
already, and this is how the first occurrences in a series change when the series gets longer
(`distinct_concat`). The reachable methods need more than that. An edge that is there already is not
entered, and that its callee is reachable nevertheless is a matter of consistency.

The other queries, and the statistics, follow from the list of edges. What is counted by call sites
needs that the index has a key for each site with an edge and for no other.
-/

namespace ProgramAnalysis

/-- A request to a call graph. -/
inductive Addition where
  | entry (m : MethodRef)
  | reachable (m : MethodRef)
  | edge (e : CallEdge)
deriving DecidableEq, Repr

namespace Addition

/-- The method that is made reachable. -/
def method : Addition → MethodRef
  | entry m | reachable m => m
  | edge e => e.callee

/-- The method at which the graph is to be entered, if the request is of this kind. -/
def entry? : Addition → Option MethodRef
  | entry m => some m
  | reachable _ | edge _ => none

/-- The edge, if the request is for one. -/
def edge? : Addition → Option CallEdge
  | edge e => some e
  | entry _ | reachable _ => none

end Addition

namespace CallGraph

variable {g : CallGraph} {l : List Addition}

/-- The graph after one addition. -/
def add (g : CallGraph) : Addition → CallGraph
  | .entry m => g.addEntry m
  | .reachable m => (g.addReachable m).2
  | .edge e => (g.addEdge e).2

/-- The graph that a series of additions leaves. -/
def ofAdditions (l : List Addition) : CallGraph := l.foldl add {}

/-! ## Reports -/

/-- The report on a method is whether the list of methods has become longer. -/
theorem addReachable_fst_iff (g : CallGraph) (m : MethodRef) :
    ((g.addReachable m).1 = true ↔ g.reachable.length < (g.addReachable m).2.reachable.length) ∧
      ((g.addReachable m).1 = false → (g.addReachable m).2 = g) := by
  rw [addReachable]
  split <;> simp

/-- The report on an edge is whether the list of edges has become longer. -/
theorem addEdge_fst_iff (g : CallGraph) (e : CallEdge) :
    ((g.addEdge e).1 = true ↔ g.edges.length < (g.addEdge e).2.edges.length) ∧
      ((g.addEdge e).1 = false → (g.addEdge e).2 = g) := by
  by_cases he : e ∈ g.edges
  · simp [addEdge, he]
  · rw [edges_addEdge, if_neg he]
    simp [addEdge, he]

/-! ## The lists of a graph -/

theorem Consistent.add (h : g.Consistent) (a : Addition) : (g.add a).Consistent := by
  cases a with
  | entry m => exact h.addEntry m
  | reachable m => exact h.addReachable m
  | edge e => exact h.addEdge e

theorem Consistent.reachable_add (h : g.Consistent) (a : Addition) : (g.add a).reachable =
    if a.method ∈ g.reachable then g.reachable else g.reachable ++ [a.method] := by
  cases a with
  | entry m => rw [CallGraph.add, addEntry_eq, reachable_addReachable, Addition.method]
  | reachable m => exact reachable_addReachable g m
  | edge e => exact h.reachable_addEdge e

theorem entries_add (g : CallGraph) (a : Addition) : (g.add a).entries =
    a.entry?.elim g.entries fun m ↦
      if m ∈ g.entries then g.entries else g.entries ++ [m] := by
  cases a with
  | entry m => rw [add, addEntry_eq, addReachable_eq, Addition.entry?, Option.elim_some]
  | reachable m => rw [add, addReachable_eq, Addition.entry?, Option.elim_none]
  | edge e =>
    rw [add, Addition.entry?, Option.elim_none]
    by_cases he : e ∈ g.edges
    · rw [addEdge_of_mem he]
    · rw [addEdge_of_notMem he, addReachable_eq]

theorem edges_add (g : CallGraph) (a : Addition) : (g.add a).edges =
    a.edge?.elim g.edges fun e ↦ if e ∈ g.edges then g.edges else g.edges ++ [e] := by
  cases a with
  | entry m => rw [add, addEntry_eq, addReachable_eq, Addition.edge?, Option.elim_none]
  | reachable m => rw [add, addReachable_eq, Addition.edge?, Option.elim_none]
  | edge e => exact edges_addEdge g e

/-- A call site enters its index with its first edge. -/
theorem keys_bySite_add (h : g.bySite.keys = distinct (g.edges.map CallEdge.site)) (a : Addition) :
    (g.add a).bySite.keys = distinct ((g.add a).edges.map CallEdge.site) := by
  cases a with
  | entry m => rwa [add, addEntry_eq, addReachable_eq]
  | reachable m => rwa [add, addReachable_eq]
  | edge e =>
    rw [add]
    by_cases he : e ∈ g.edges
    · rwa [addEdge_of_mem he]
    · rw [addEdge_of_notMem he, addReachable_eq]
      dsimp only
      rw [OrderedMap.keys_append, h, List.map_append, List.map_singleton, distinct_concat]

/-- The graph holds what was asked for, in the order in which it was asked for first. -/
structure Records (g : CallGraph) (l : List Addition) : Prop extends g.Consistent where
  entries_eq : g.entries = distinct (l.filterMap Addition.entry?)
  reachable_eq : g.reachable = distinct (l.map Addition.method)
  edges_eq : g.edges = distinct (l.filterMap Addition.edge?)
  /-- The call sites with edges stand in the order of their first edges. -/
  sites_eq : g.bySite.keys = distinct (g.edges.map CallEdge.site)

theorem records_empty : Records {} [] where
  toConsistent := consistent_empty
  entries_eq := rfl
  reachable_eq := rfl
  edges_eq := rfl
  sites_eq := rfl

/-- One more request concerns at most one more item. -/
theorem distinct_filterMap_concat {α : Type} [DecidableEq α] (f : Addition → Option α)
    (l : List Addition) (a : Addition) : distinct ((l ++ [a]).filterMap f) =
      (f a).elim (distinct (l.filterMap f)) fun x ↦
        if x ∈ distinct (l.filterMap f) then distinct (l.filterMap f)
        else distinct (l.filterMap f) ++ [x] := by
  rw [List.filterMap_append, List.filterMap_cons, List.filterMap_nil]
  cases f a with
  | none => exact congrArg distinct (List.append_nil _)
  | some x => exact distinct_concat _ x

theorem Records.add (h : g.Records l) (a : Addition) : (g.add a).Records (l ++ [a]) where
  toConsistent := h.toConsistent.add a
  entries_eq := by rw [entries_add, h.entries_eq, distinct_filterMap_concat]
  reachable_eq := by
    rw [h.toConsistent.reachable_add, h.reachable_eq, List.map_append, List.map_singleton,
      distinct_concat]
  edges_eq := by rw [edges_add, h.edges_eq, distinct_filterMap_concat]
  sites_eq := keys_bySite_add h.sites_eq a

theorem records_ofAdditions (l : List Addition) : (ofAdditions l).Records l := by
  induction l using List.reverseRecOn with
  | nil => exact records_empty
  | append_singleton l a ih =>
    have hadd : ofAdditions (l ++ [a]) = (ofAdditions l).add a := List.foldl_concat ..
    rw [hadd]
    exact ih.add a

/-! ## Statistics -/

/-- An edge is of one of four kinds. -/
theorem length_edges_eq_sum (g : CallGraph) : g.edges.length = g.edgeCount .static +
    g.edgeCount .special + g.edgeCount .virtual + g.edgeCount .interface := by
  simp only [edgeCount]
  induction g.edges with
  | nil => rfl
  | cons e l ih =>
    simp only [List.length_cons, List.countP_cons, ih]
    cases e.kind <;> simp <;> omega

/-- The call sites of the edges. -/
def sites (g : CallGraph) : Finset CallSite := (g.edges.map CallEdge.site).toFinset

theorem Records.toFinset_keys (h : g.Records l) : g.bySite.keys.toFinset = g.sites := by
  ext s
  rw [sites, h.sites_eq, List.mem_toFinset, List.mem_toFinset, mem_distinct]

theorem Records.resolvedSites_eq (h : g.Records l) :
    g.statistics.resolvedSites = g.sites.card := by
  have hnodup : g.bySite.keys.Nodup := g.bySite.nodup_keys
  rw [← h.toFinset_keys, List.toFinset_card_of_nodup hnodup, OrderedMap.length_keys]
  rfl

/-- Whether a call site has two edges can be asked of its list in the index. -/
theorem Records.polymorphicSites_eq (h : g.Records l) : g.statistics.polymorphicSites =
    (g.sites.filter fun s ↦ 2 ≤ (g.edges.filter fun e ↦ e.site = s).length).card := by
  have hnodup : g.bySite.keys.Nodup := g.bySite.nodup_keys
  have hvalues : g.bySite.values = g.bySite.keys.map g.edgesOutOf :=
    g.bySite.values_eq_map_findD []
  have hcount : g.statistics.polymorphicSites =
      g.bySite.keys.countP fun s ↦ 2 ≤ (g.edges.filter fun e ↦ e.site = s).length := by
    rw [statistics, hvalues, List.countP_map]
    refine List.countP_congr fun s _ ↦ ?_
    rw [Function.comp_apply, h.edgesOutOf_eq]
    rfl
  rw [hcount, ← h.toFinset_keys, List.countP_eq_length_filter,
    ← List.toFinset_card_of_nodup (hnodup.filter _), List.toFinset_filter]
  simp only [decide_eq_true_eq]

/-! ## The views together -/

/-- The counts of a graph are those of its edges. -/
structure Tallied (g : CallGraph) : Prop where
  edges_eq : g.statistics.edges = g.edges.length
  edges_eq_sum : g.statistics.edges = g.statistics.staticEdges + g.statistics.specialEdges +
    g.statistics.virtualEdges + g.statistics.interfaceEdges
  resolvedSites_eq : g.statistics.resolvedSites = g.sites.card
  polymorphicSites_eq : g.statistics.polymorphicSites =
    (g.sites.filter fun s ↦ 2 ≤ (g.edges.filter fun e ↦ e.site = s).length).card

/-- After any series of additions, the graph holds the items of the series, its queries and its
statistics tell of the same edges, and one more addition reports whether it has changed anything. -/
theorem views_ofAdditions (l : List Addition) :
    let g := ofAdditions l
    g.Records l ∧ g.Tallied ∧
      (∀ m, (g.callers m).Nodup ∧ (g.callers m).Sublist ((g.edgesInto m).map CallEdge.site) ∧
        ∀ s, s ∈ g.callers m ↔ ∃ e ∈ g.edgesInto m, e.site = s) ∧
      (∀ m, ((g.addReachable m).1 = true ↔
          g.reachable.length < (g.addReachable m).2.reachable.length) ∧
        ((g.addReachable m).1 = false → (g.addReachable m).2 = g)) ∧
      ∀ e, ((g.addEdge e).1 = true ↔ g.edges.length < (g.addEdge e).2.edges.length) ∧
        ((g.addEdge e).1 = false → (g.addEdge e).2 = g) := by
  intro g
  have h : g.Records l := records_ofAdditions l
  refine ⟨h, ?_, fun m ↦ ⟨nodup_distinct _, distinct_sublist _, fun s ↦ ?_⟩,
    addReachable_fst_iff g, addEdge_fst_iff g⟩
  · exact ⟨rfl, length_edges_eq_sum g, h.resolvedSites_eq, h.polymorphicSites_eq⟩
  · rw [callers, mem_distinct, List.mem_map]

end CallGraph

end ProgramAnalysis
