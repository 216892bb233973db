import Mathlib.Order.Interval.Set.Basic
import ProgramAnalysis.Proofs.Sweeps

/-!
# Searching with a stack

A depth-first search need not recurse. It can keep the members that are being visited on a stack,
each with those of its neighbours whose turn has yet to come, and mark a member when it is put there
and not when it is finished. One step then looks at one neighbour, finishes one member or turns to
one root.

What the search has on its stack is what the recursion would have on its own. So the two are
compared one visit at a time: from any stack, the steps that begin with a turn of a member end, with
the same stack, where the visit of that member ends. Neighbours and roots have their turns in the
same way, so that one induction on a list serves both.

Nothing is said about the stack beyond that. That the members on it lead to one another, which is
why a postorder respects the edges, is a fact about recursive visits and is known of them.
-/

namespace ProgramAnalysis

open Relation

namespace DepthFirst

variable {α : Type} [DecidableEq α] {next : α → List α} {univ l : List α} {a : α}
  {p q : Progress α} {fuel : ℕ}

/-! ## What a visit leaves unvisited -/

/-- At most `k` of the members of `univ` have not been visited. -/
def Progress.LeavesAtMost (univ : List α) (k : ℕ) (p : Progress α) : Prop :=
  (univ.toFinset \ p.visited.toFinset).card ≤ k

theorem Progress.LeavesAtMost.mono (h : p.LeavesAtMost univ fuel) (hsub : p.visited ⊆ q.visited) :
    q.LeavesAtMost univ fuel := by
  refine le_trans (Finset.card_le_card (Finset.sdiff_subset_sdiff (Finset.Subset.refl _) ?_)) h
  exact fun a ha ↦ List.mem_toFinset.mpr (hsub (List.mem_toFinset.mp ha))

theorem Progress.LeavesAtMost.mem_visited (h : p.LeavesAtMost univ 0) (ha : a ∈ univ) :
    a ∈ p.visited := by
  have hempty : univ.toFinset \ p.visited.toFinset = ∅ :=
    Finset.card_eq_zero.mp (Nat.le_zero.mp h)
  exact List.mem_toFinset.mp (Finset.sdiff_eq_empty_iff_subset.mp hempty (List.mem_toFinset.mpr ha))

/-- To visit a member leaves one less. -/
theorem Progress.LeavesAtMost.cons (h : p.LeavesAtMost univ (fuel + 1)) (ha : a ∈ univ)
    (hfresh : a ∉ p.visited) : { p with visited := a :: p.visited }.LeavesAtMost univ fuel := by
  have herase : univ.toFinset \ (a :: p.visited).toFinset =
      (univ.toFinset \ p.visited.toFinset).erase a := by
    rw [List.toFinset_cons, Finset.sdiff_insert]
  have hmem : a ∈ univ.toFinset \ p.visited.toFinset := by
    rw [Finset.mem_sdiff, List.mem_toFinset, List.mem_toFinset]
    exact ⟨ha, hfresh⟩
  rw [LeavesAtMost, herase, Finset.card_erase_of_mem hmem]
  exact Nat.sub_le_iff_le_add.mpr h

theorem visit_of_mem (ha : a ∈ p.visited) : visit next fuel p a = p := by
  cases fuel with
  | zero => rfl
  | succ fuel => rw [visit, if_pos ha]

theorem visited_subset_foldl_visit
    (hvisit : ∀ (q : Progress α) b, q.visited ⊆ (visit next fuel q b).visited) (p : Progress α)
    (l : List α) : p.visited ⊆ (l.foldl (visit next fuel) p).visited :=
  List.foldlRecOn (motive := fun q : Progress α ↦ p.visited ⊆ q.visited) l _
    (List.Subset.refl _) fun q hq b _ ↦ List.Subset.trans hq (hvisit q b)

/-- What has been visited stays visited. -/
theorem visited_subset_visit (next : α → List α) (fuel : ℕ) (p : Progress α) (a : α) :
    p.visited ⊆ (visit next fuel p a).visited := by
  induction fuel generalizing p a with
  | zero => exact List.Subset.refl _
  | succ fuel ih =>
    rw [visit]
    split
    · exact List.Subset.refl _
    · exact List.Subset.trans (List.subset_cons_self a p.visited)
        (visited_subset_foldl_visit ih { p with visited := a :: p.visited } (next a))

theorem mem_visited_visit (next : α → List α) (fuel : ℕ) (p : Progress α) (a : α) :
    a ∈ (visit next (fuel + 1) p a).visited := by
  rw [visit]
  split
  · assumption
  · exact visited_subset_foldl_visit (visited_subset_visit next fuel)
      { p with visited := a :: p.visited } (next a) List.mem_cons_self

/-- The turn of a member that has been visited makes no difference. -/
theorem foldl_visit_filter (l : List α) (ha : a ∈ p.visited) :
    (l.filter (· ≠ a)).foldl (visit next fuel) p = l.foldl (visit next fuel) p := by
  induction l generalizing p with
  | nil => rfl
  | cons b l ih =>
    rw [List.filter_cons, List.foldl_cons]
    split
    · exact ih (visited_subset_visit next fuel p b ha)
    · rename_i h
      obtain rfl : b = a := by simpa using h
      rw [visit_of_mem ha]
      exact ih ha

/-! ## The steps of a search with a stack -/

/-- The state of a search that does not recurse. -/
structure Walk (α : Type) extends Progress α where
  /-- The members that are being visited, the latest in front, each with the neighbours whose turn
  has yet to come. -/
  stack : List (α × List α) := []
  /-- The roots whose turn has yet to come. -/
  roots : List α := []

namespace Walk

/-- The turn of a member: unless it has been visited before, it is marked and put on the stack. -/
def enter (next : α → List α) (w : Walk α) (a : α) : Walk α :=
  if a ∈ w.visited then w
  else { w with visited := a :: w.visited, stack := (a, next a) :: w.stack }

/-- One step of a search; `none` when it is over. -/
def step? (next : α → List α) (w : Walk α) : Option (Walk α) :=
  match w.stack with
  | (a, b :: l) :: s => some ({ w with stack := (a, l) :: s }.enter next b)
  | (a, []) :: s => some { w with stack := s, finished := a :: w.finished }
  | [] =>
    match w.roots with
    | [] => none
    | a :: l => some ({ w with roots := l }.enter next a)

/-- Some number of steps leads from one state to the other. -/
def Runs (next : α → List α) : Walk α → Walk α → Prop :=
  ReflTransGen fun w w' ↦ w.step? next = some w'

/-- A search from the given roots comes to its end, with the members finished in the order of the
list. -/
def Returns (next : α → List α) (roots l : List α) : Prop :=
  ∃ w, Runs next { roots := roots } w ∧ w.step? next = none ∧ w.finished.reverse = l

/-- Members that have their turns one after the other are visited one after the other. -/
theorem runs_foldl (state : Progress α → List α → Walk α)
    (hturn : ∀ p b l, (state p (b :: l)).step? next = some ((state p l).enter next b))
    (hvisit : ∀ p, p.LeavesAtMost univ fuel → ∀ b ∈ univ, ∀ l,
      Runs next ((state p l).enter next b) (state (visit next fuel p b) l))
    (hp : p.LeavesAtMost univ fuel) (hl : l ⊆ univ) :
    Runs next (state p l) (state (l.foldl (visit next fuel) p) []) := by
  induction l generalizing p with
  | nil => exact .refl
  | cons b l ih =>
    obtain ⟨hb, hl⟩ := List.cons_subset.mp hl
    have hrest := ih (hp.mono (visited_subset_visit next fuel p b)) hl
    exact .head (hturn p b l) ((hvisit p hp b hb l).trans hrest)

/-- The steps that begin with the turn of a member visit it, whatever is on the stack below. -/
theorem runs_visit (hclosed : ∀ a ∈ univ, ∀ b ∈ next a, b ∈ univ) (hp : p.LeavesAtMost univ fuel)
    (ha : a ∈ univ) (s : List (α × List α)) (r : List α) :
    Runs next (enter next ⟨p, s, r⟩ a) ⟨visit next fuel p a, s, r⟩ := by
  induction fuel generalizing p a s with
  | zero =>
    rw [enter, if_pos (hp.mem_visited ha)]
    exact .refl
  | succ fuel ih =>
    by_cases hseen : a ∈ p.visited
    · rw [enter, if_pos hseen, visit_of_mem hseen]
      exact .refl
    rw [enter, if_neg hseen, visit, if_neg hseen]
    have hneighbours := runs_foldl (fun p l ↦ ⟨p, (a, l) :: s, r⟩)
      (fun _ _ _ ↦ rfl) (fun p hp b hb l ↦ ih hp hb ((a, l) :: s)) (hp.cons ha hseen) (hclosed a ha)
    exact hneighbours.tail rfl

/-- A search with a stack finishes the same members in the same order as one that recurses. -/
theorem returns_foldl_visit (hclosed : ∀ a ∈ univ, ∀ b ∈ next a, b ∈ univ)
    (hfuel : univ.length ≤ fuel) (hl : l ⊆ univ) :
    Returns next l (l.foldl (visit next fuel) {}).finished.reverse := by
  have hempty : ({} : Progress α).LeavesAtMost univ fuel := by
    rw [Progress.LeavesAtMost, List.toFinset_nil, Finset.sdiff_empty]
    exact (List.toFinset_card_le univ).trans hfuel
  have hruns := runs_foldl (fun p r ↦ ⟨p, [], r⟩) (fun _ _ _ ↦ rfl)
    (fun p hp b hb r ↦ runs_visit hclosed hp hb [] r) hempty hl
  exact ⟨_, hruns, rfl, rfl⟩

theorem returns_reversePostorder (hclosed : ∀ a ∈ l, ∀ b ∈ next a, b ∈ l) :
    Returns next l (reversePostorder next l).reverse :=
  returns_foldl_visit hclosed (Nat.le_refl _) (List.Subset.refl l)

/-- The first root need not come up again among the others. -/
theorem returns_reversePostorder_cons (hclosed : ∀ b ∈ a :: l, ∀ c ∈ next b, c ∈ a :: l) :
    Returns next (a :: l.filter (· ≠ a)) (reversePostorder next (a :: l)).reverse := by
  have hsub : a :: l.filter (· ≠ a) ⊆ a :: l :=
    List.cons_subset_cons a (List.filter_subset_self _)
  have h := returns_foldl_visit hclosed (Nat.le_refl _) hsub
  rw [List.foldl_cons, List.length_cons,
    foldl_visit_filter l (mem_visited_visit next l.length {} a)] at h
  exact h

end Walk

end DepthFirst

/-! ## The order in which the nodes of a graph are finished -/

namespace Orientation

variable {o : Orientation}

/-- The list is a postorder of the graph. -/
structure IsPostorder (o : Orientation) (l : List Node) : Prop where
  nodup : l.Nodup
  mem_iff : ∀ n, n ∈ l ↔ n ∈ o.nodes
  /-- The target of an edge comes before the source unless it leads back there. -/
  pair_sublist : ∀ m, ∀ n ∈ o.next m, ¬ReflTransGen (fun m n ↦ n ∈ o.next m) n m → [n, m].Sublist l

theorem IsPostorder.of_topological {l : List Node} (hmem : ∀ n, n ∈ l ↔ n ∈ o.nodes)
    (hl : DepthFirst.Topological o.next l) (ho : o.WellFormed) : o.IsPostorder l.reverse := by
  refine ⟨List.nodup_reverse.mpr hl.nodup, fun n ↦ List.mem_reverse.trans (hmem n), ?_⟩
  intro m n hn hback
  have hm : m ∈ l := (hmem m).mpr (ho.mem_nodes_of_mem_prev (ho.mem_prev_iff.mpr hn))
  exact List.reverse_sublist.mpr (hl.pair_sublist hm hn hback)

theorem WellFormed.isPostorder_order (ho : o.WellFormed) : o.IsPostorder o.order.reverse :=
  .of_topological (fun _ ↦ ho.mem_order_iff) ho.topological_order ho

/-- Ranks number the nodes from zero. -/
theorem WellFormed.bijOn_rank (ho : o.WellFormed) :
    Set.BijOn (Analysis.initialWorklist o .rpo).rank {n | n ∈ o.nodes}
      (Set.Iio o.nodes.toFinset.card) := by
  have hnodup : o.order.Nodup := ho.topological_order.nodup
  have hlength : o.order.length = o.nodes.toFinset.card := by
    rw [← List.toFinset_card_of_nodup hnodup]
    congr 1
    ext n
    rw [List.mem_toFinset, List.mem_toFinset, ho.mem_order_iff]
  rw [Analysis.rank_initialWorklist, ← hlength]
  refine ⟨fun n hn ↦ List.idxOf_lt_length_of_mem (ho.mem_order_iff.mpr hn), ?_, ?_⟩
  · intro m hm n _ heq
    exact (List.idxOf_inj (ho.mem_order_iff.mpr hm)).mp heq
  · intro i hi
    exact ⟨o.order[i], ho.mem_order_iff.mp (List.getElem_mem hi), hnodup.idxOf_getElem i hi⟩

/-- Along an edge that lies on no cycle the rank grows. -/
theorem WellFormed.rank_lt (ho : o.WellFormed) {m n : Node} (hn : n ∈ o.next m)
    (hback : ¬ReflTransGen (fun m n ↦ n ∈ o.next m) n m) :
    (Analysis.initialWorklist o .rpo).rank m < (Analysis.initialWorklist o .rpo).rank n := by
  have hm : m ∈ o.order := ho.mem_order_iff.mpr (ho.mem_nodes_of_mem_prev (ho.mem_prev_iff.mpr hn))
  have hpair := ho.topological_order.pair_sublist hm hn hback
  have hlt := List.pairwise_pair.mp ((pairwise_idxOf_lt ho.topological_order.nodup).sublist hpair)
  rw [Analysis.rank_initialWorklist]
  exact hlt

/-- Searches of the graph with a stack give a postorder, and ranks are positions in one, counted
from its end. -/
structure SearchedInPostorder (o : Orientation) : Prop where
  /-- After the start the other roots may come in any order, as long as no node is left out. -/
  exists_returns : ∀ roots, (∀ n, n ∈ o.start :: roots ↔ n ∈ o.nodes) →
    ∃ l, DepthFirst.Walk.Returns o.next (o.start :: roots) l ∧ o.IsPostorder l
  /-- The ranks are taken from a search in which they come in the order of the nodes. -/
  returns_order : DepthFirst.Walk.Returns o.next (o.start :: o.nodes.filter (· ≠ o.start))
    o.order.reverse
  isPostorder_order : o.IsPostorder o.order.reverse
  bijOn_rank : Set.BijOn (Analysis.initialWorklist o .rpo).rank {n | n ∈ o.nodes}
    (Set.Iio o.nodes.toFinset.card)
  rank_lt : ∀ m, ∀ n ∈ o.next m, ¬ReflTransGen (fun m n ↦ n ∈ o.next m) n m →
    (Analysis.initialWorklist o .rpo).rank m < (Analysis.initialWorklist o .rpo).rank n

end Orientation

/-- In either direction, a search with a stack finishes every node once, and after the nodes behind
it, but for those that lead back. The ranks that a worklist goes by number the nodes in the opposite
order. -/
theorem FlowGraph.Built.searchedInPostorder {g : FlowGraph} (hg : g.Built) (d : Direction) :
    (g.orient d).SearchedInPostorder := by
  have ho := hg.mirrored.wellFormed_orient d
  refine ⟨?_, ?_, ho.isPostorder_order, ho.bijOn_rank, fun _ _ ↦ ho.rank_lt⟩
  · intro roots hroots
    have hclosed : ∀ a ∈ (g.orient d).start :: roots, ∀ b ∈ (g.orient d).next a,
        b ∈ (g.orient d).start :: roots :=
      fun _ _ b hb ↦ (hroots b).mpr (ho.mem_nodes_of_mem_next hb)
    refine ⟨_, DepthFirst.Walk.returns_reversePostorder hclosed, ?_⟩
    exact .of_topological (fun n ↦ (DepthFirst.mem_reversePostorder_iff hclosed).trans (hroots n))
      (DepthFirst.topological_reversePostorder hclosed) ho
  · exact DepthFirst.Walk.returns_reversePostorder_cons
      fun _ _ _ hb ↦ List.mem_cons_of_mem _ (ho.mem_nodes_of_mem_next hb)

/-- Against the edges, `strandedLoop` is searched from its exit, which leads to the entry, and then
from the loop, which only its own jump leads to. -/
theorem FlowGraph.searchedInPostorder_strandedLoop :
    strandedLoop.Built ∧ (strandedLoop.orient .backward).SearchedInPostorder ∧
      DepthFirst.Walk.Returns (strandedLoop.orient .backward).next
        [.exit 2, .entry, .stmt 0, .stmt 1] [.entry, .stmt 0, .exit 2, .stmt 1] ∧
      (strandedLoop.orient .backward).IsPostorder [.entry, .stmt 0, .exit 2, .stmt 1] := by
  have h := built_strandedLoop.searchedInPostorder .backward
  have horder : (strandedLoop.orient .backward).order.reverse =
      [.entry, .stmt 0, .exit 2, .stmt 1] := by decide
  have hroots : (strandedLoop.orient .backward).start ::
      (strandedLoop.orient .backward).nodes.filter (· ≠ (strandedLoop.orient .backward).start) =
        [.exit 2, .entry, .stmt 0, .stmt 1] := by decide
  refine ⟨built_strandedLoop, h, ?_, ?_⟩
  · rw [← horder, ← hroots]
    exact h.returns_order
  · rw [← horder]
    exact h.isPostorder_order

end ProgramAnalysis
