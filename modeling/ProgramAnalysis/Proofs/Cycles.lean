import ProgramAnalysis.Analysis.Restless
import ProgramAnalysis.Proofs.Convergence
import ProgramAnalysis.Proofs.Postorder

/-!
# Iterations on graphs with and without cycles

An analysis that reports a change at every step never comes to its end on a graph with a cycle, and
always does on a graph without, whatever it computes and in whatever order nodes are processed.

## Cycles

A node on a cycle is not the start, and one of the nodes behind it is on a cycle as well. So as soon
as one node on a cycle is taken out and reports a change, another one is pending, and since all are
pending at first, some node on a cycle always is. It need not be the same cycle.

## Without cycles

A bound has to hold for every order of the nodes, so a node may be processed again each time that
one before it has been. It is then processed once for each way that leads to it. Seen from the other
end: what a pending node can cause is a step for each way that begins there, the empty one included.
To process it takes the empty way off, and those that are left begin at the nodes behind it.
-/

namespace ProgramAnalysis

open Relation

variable {F : Type}

/-! ## Graphs without cycles -/

/-- No way leads from a node back to itself. -/
def Orientation.Acyclic (o : Orientation) : Prop := ∀ n, ¬TransGen (fun m n ↦ n ∈ o.next m) n n

/-- No way along the edges leads from a node back to itself. -/
def FlowGraph.Acyclic (g : FlowGraph) : Prop := ∀ n, ¬TransGen (fun m n ↦ n ∈ g.succs m) n n

/-- A cycle is one in either direction. -/
theorem FlowGraph.Mirrored.acyclic_orient_iff {g : FlowGraph} (hg : g.Mirrored) (d : Direction) :
    (g.orient d).Acyclic ↔ g.Acyclic := by
  cases d with
  | forward => exact Iff.rfl
  | backward =>
    have hswap : (fun m n ↦ n ∈ g.preds m) = Function.swap fun m n ↦ n ∈ g.succs m := by
      funext m n
      exact propext hg.mem_succs_iff_mem_preds.symm
    refine forall_congr' fun n ↦ not_congr ?_
    change TransGen (fun m n ↦ n ∈ g.preds m) n n ↔ _
    rw [hswap]
    exact transGen_swap

/-- A graph whose edges all climb has no cycle. -/
theorem FlowGraph.Mirrored.acyclic_of_rank {g : FlowGraph} (hg : g.Mirrored) (rank : Node → ℕ)
    (hrank : ∀ m ∈ g.nodes, ∀ n ∈ g.succs m, rank m < rank n) : g.Acyclic := by
  have hclimbs : ∀ m n, TransGen (fun m n ↦ n ∈ g.succs m) m n → rank m < rank n := by
    intro m n h
    induction h with
    | single h => exact hrank _ (hg.mem_nodes_of_mem_succs h).1 _ h
    | tail _ h ih => exact ih.trans (hrank _ (hg.mem_nodes_of_mem_succs h).1 _ h)
  exact fun n h ↦ (hclimbs n n h).false

/-- A graph whose indices say nothing about its order: `goto 0`, which is never reached, then
`return`, and `goto 1`, where the body begins. -/
def FlowGraph.backwardJumps : FlowGraph :=
  withEdges { slots := [⟨0, .goto⟩, ⟨1, .ret none⟩, ⟨2, .goto⟩] }
    [(.entry, .stmt 2, .entry, none), (.stmt 2, .stmt 1, .goto, none),
      (.stmt 0, .stmt 1, .goto, none), (.stmt 1, .exit 3, .ret, none)]

theorem FlowGraph.built_backwardJumps : backwardJumps.Built := built_withEdges _ _

theorem FlowGraph.acyclic_backwardJumps : backwardJumps.Acyclic :=
  built_backwardJumps.mirrored.acyclic_of_rank
    (fun n ↦ [.entry, .stmt 2, .stmt 0, .stmt 1, .exit 3].idxOf n) (by decide)

/-- A graph with a loop that is never reached: `return`, and then `goto 1` at index 1. -/
def FlowGraph.strandedLoop : FlowGraph :=
  withEdges { slots := [⟨0, .ret none⟩, ⟨1, .goto⟩] }
    [(.entry, .stmt 0, .entry, none), (.stmt 0, .exit 2, .ret, none),
      (.stmt 1, .stmt 1, .goto, none)]

theorem FlowGraph.built_strandedLoop : strandedLoop.Built := built_withEdges _ _

theorem FlowGraph.not_acyclic_strandedLoop : ¬strandedLoop.Acyclic :=
  fun h ↦ h (.stmt 1) (.single (by decide))

/-! ## A node on a cycle is always pending -/

namespace Analysis

variable {a : Analysis F} {o : Orientation} {σ : Strategy} {p : IterationState F} {n : Node}

/-- The analysis reports a change at every step. -/
def IsRestless (a : Analysis F) : Prop := ∀ n i f, (a.transfer n i f).1 = true

theorem IsRestless.mem_worklist_step (ha : a.IsRestless) {k : Node} :
    k ∈ (a.step o p n).worklist ↔ k ∈ o.next n ∨ k ∈ p.worklist := by
  rw [Analysis.mem_worklist_step, and_iff_right (ha _ _ _)]

/-- Whichever node of a cycle is processed, the next one of the cycle is pending then. -/
theorem Reaches.exists_mem_worklist_transGen (ho : o.WellFormed) (ha : a.IsRestless)
    (hcycle : ∃ n, TransGen (fun m n ↦ n ∈ o.next m) n n) (h : a.Reaches o σ p) :
    ∃ n ∈ p.worklist, TransGen (fun m n ↦ n ∈ o.next m) n n := by
  induction h using Reaches.induct with
  | start =>
    obtain ⟨n, hn⟩ := hcycle
    obtain ⟨m, -, hm⟩ := TransGen.tail'_iff.mp hn
    refine ⟨n, mem_initialWorklist.mpr ⟨ho.mem_nodes_of_mem_next hm, ?_⟩, hn⟩
    rintro rfl
    exact ho.start_notMem_next m hm
  | step p n rest _ hpop ih =>
    obtain ⟨k, hk, hcyclic⟩ := ih
    rcases (Worklist.mem_iff_of_pop? hpop).mp hk with rfl | hrest
    · obtain ⟨b, hb, hback⟩ := TransGen.head'_iff.mp hcyclic
      exact ⟨b, ha.mem_worklist_step.mpr (Or.inl hb), .tail' hback hb⟩
    · exact ⟨k, ha.mem_worklist_step.mpr (Or.inr hrest), hcyclic⟩

/-- No limit is high enough for an iteration of the analysis, and a run of it says so. -/
structure ExceedsEveryLimit (a : Analysis F) (g : FlowGraph) : Prop where
  solve?_eq_none : ∀ it, a.solve? g it = none
  run_eq_error : ∀ (c : Configuration) (it : Iteration) (strategy : Option Strategy),
    c.iteration = .ok it → a.run g c strategy = .error (.limit ⟨c.id, it.limit⟩)

theorem IsRestless.exceedsEveryLimit {g : FlowGraph} (hg : g.Mirrored) (ha : a.IsRestless)
    (hcyclic : ¬g.Acyclic) : a.ExceedsEveryLimit g := by
  have hcycle : ∃ n, TransGen (fun m n ↦ n ∈ (g.orient a.direction).next m) n n := by
    rw [← hg.acyclic_orient_iff a.direction] at hcyclic
    obtain ⟨n, hn⟩ := not_forall.mp hcyclic
    exact ⟨n, not_not.mp hn⟩
  have hsolve : ∀ it, a.solve? g it = none := by
    intro it
    rw [solve?, Option.map_eq_none_iff, Option.eq_none_iff_forall_ne_some]
    intro q hq
    obtain ⟨hreach, hdone⟩ := reflTransGen_of_iterate hq
    obtain ⟨n, hn, -⟩ := Reaches.exists_mem_worklist_transGen (hg.wellFormed_orient _) ha hcycle
      hreach
    exact Worklist.notMem_of_pop?_eq_none hdone n hn
  refine ⟨hsolve, fun c it strategy hit ↦ ?_⟩
  rw [run, hit]
  simp only [hsolve]

end Analysis

theorem Restless.isRestless (d : Direction) (g : FlowGraph) : (analysis d g).IsRestless :=
  fun _ _ _ ↦ rfl

/-! ## Every way is walked at most once -/

namespace Orientation

variable {o : Orientation} {n : Node}

/-- The number of ways of at most `k` edges that begin at a node. -/
def waysWithin (o : Orientation) : ℕ → Node → ℕ
  | 0, _ => 1
  | k + 1, n => 1 + ((o.next n).map (o.waysWithin k)).sum

/-- The number of ways that begin at a node of a graph without cycles. -/
def ways (o : Orientation) (n : Node) : ℕ := o.waysWithin o.nodes.length n

/-- The order in which a graph is searched lists all nodes. -/
theorem WellFormed.mem_order_iff (ho : o.WellFormed) : n ∈ o.order ↔ n ∈ o.nodes := by
  rw [order, DepthFirst.mem_reversePostorder_iff, List.mem_cons, or_iff_right_of_imp]
  · rintro rfl
    exact ho.start_mem_nodes
  · exact fun _ _ _ h ↦ List.mem_cons_of_mem _ (ho.mem_nodes_of_mem_next h)

theorem WellFormed.topological_order (ho : o.WellFormed) :
    DepthFirst.Topological o.next o.order :=
  DepthFirst.topological_reversePostorder
    fun _ _ _ h ↦ List.mem_cons_of_mem _ (ho.mem_nodes_of_mem_next h)

/-- No way is longer than the list of nodes in an order along the edges. -/
theorem Acyclic.waysWithin_succ (ho : o.Acyclic) {l : List Node}
    (hl : DepthFirst.Topological o.next l) {k : ℕ} (hk : l.length ≤ k) (hn : n ∈ l) :
    o.waysWithin (k + 1) n = o.waysWithin k n := by
  induction l generalizing k n with
  | nil => simp at hn
  | cons a l ih =>
    obtain ⟨-, hnext, hrest⟩ := hl
    obtain ⟨k, rfl⟩ : ∃ j, k = j + 1 := ⟨k - 1, by simp at hk; omega⟩
    rw [List.length_cons, Nat.add_le_add_iff_right] at hk
    rcases List.mem_cons.mp hn with rfl | hn
    · rw [waysWithin, waysWithin]
      congr 2
      refine List.map_congr_left fun b hb ↦ ih hrest hk ?_
      exact (hnext b hb).resolve_right fun hback ↦ ho n (.head' hb hback)
    · exact ih hrest (Nat.le_succ_of_le hk) hn

/-- A way is empty, or goes on from one of the nodes behind. -/
theorem Acyclic.ways_eq (hacyclic : o.Acyclic) (ho : o.WellFormed) (hn : n ∈ o.nodes) :
    o.ways n = 1 + ((o.next n).map o.ways).sum := by
  have hlength : o.order.length ≤ o.nodes.length := by
    have hsub : o.order ⊆ o.nodes := fun _ h ↦ ho.mem_order_iff.mp h
    exact (ho.topological_order.nodup.subperm hsub).length_le
  rw [ways, ← hacyclic.waysWithin_succ ho.topological_order hlength (ho.mem_order_iff.mpr hn),
    waysWithin]
  rfl

/-- The number of ways that begin at a node other than the start. -/
def totalWays (o : Orientation) : ℕ := ∑ n ∈ o.nodes.toFinset.erase o.start, o.ways n

end Orientation

namespace Analysis

variable {a : Analysis F} {o : Orientation} {σ : Strategy}

/-- The ways that begin at pending nodes bound the steps that are left. -/
theorem lowers_weight_ways (ho : o.WellFormed) (hacyclic : o.Acyclic) :
    a.Lowers o σ fun p ↦ p.worklist.weight o.ways := by
  intro p n rest hp hpop
  have hn : n ∈ o.nodes :=
    (hp.mem_nodes_of_mem_worklist ho n ((Worklist.mem_iff_of_pop? hpop).mpr (Or.inl rfl))).1
  have hbehind : (a.step o { p with worklist := rest } n).worklist.weight o.ways ≤
      rest.weight o.ways + ((o.next n).map o.ways).sum := by
    refine (weight_worklist_step_le o.ways).trans (Nat.add_le_add_left ?_ _)
    split <;> omega
  have htaken := Worklist.weight_of_pop? o.ways hpop
  have hways := hacyclic.ways_eq ho hn
  change (a.step o { p with worklist := rest } n).worklist.weight o.ways < p.worklist.weight o.ways
  omega

/-- On a graph without cycles, no analysis takes more steps than there are ways. -/
theorem convergesWithin_of_acyclic {g : FlowGraph} (hg : g.Mirrored) (hacyclic : g.Acyclic)
    {bound : ℕ} (hbound : (g.orient a.direction).totalWays ≤ bound) :
    a.ConvergesWithin g bound := by
  have ho := hg.wellFormed_orient a.direction
  apply convergesWithin_of_lowers
    fun σ ↦ lowers_weight_ways ho ((hg.acyclic_orient_iff a.direction).mpr hacyclic)
  intro σ
  change (initialWorklist _ σ).weight _ ≤ _
  rw [weight_initialWorklist]
  exact hbound

end Analysis

/-! ## What a limit is for -/

/-- An analysis that reports a change at every step exceeds every limit if there is a cycle anywhere
in the graph. If there is none, then some bound that is read off the graph alone is high enough for
every strategy and every analysis, those that report a change at every step among them. -/
theorem FlowGraph.Built.restless_limits {g : FlowGraph} (hg : g.Built) :
    (¬g.Acyclic → ∀ {F : Type} (a : Analysis F), a.IsRestless → a.ExceedsEveryLimit g) ∧
      (g.Acyclic → ∃ bound, ∀ {F : Type} (a : Analysis F), a.ConvergesWithin g bound) := by
  refine ⟨fun hcyclic F a ha ↦ ha.exceedsEveryLimit hg.mirrored hcyclic, fun hacyclic ↦ ?_⟩
  refine ⟨max (g.orient .forward).totalWays (g.orient .backward).totalWays, fun a ↦ ?_⟩
  apply Analysis.convergesWithin_of_acyclic hg.mirrored hacyclic
  cases a.direction with
  | forward => exact le_max_left _ _
  | backward => exact le_max_right _ _

/-- Neither that a loop is out of reach nor that all jumps lead backward makes a difference. -/
theorem FlowGraph.restless_limits_loop_and_jumps :
    (Restless.analysis .backward strandedLoop).ExceedsEveryLimit strandedLoop ∧
      ∃ bound, (Restless.analysis .forward backwardJumps).ConvergesWithin backwardJumps bound := by
  refine ⟨built_strandedLoop.restless_limits.1 not_acyclic_strandedLoop _
    (Restless.isRestless _ _), ?_⟩
  obtain ⟨bound, hbound⟩ := built_backwardJumps.restless_limits.2 acyclic_backwardJumps
  exact ⟨bound, hbound _⟩

end ProgramAnalysis
