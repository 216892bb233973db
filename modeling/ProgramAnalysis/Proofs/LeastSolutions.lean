import Mathlib.Data.Fintype.Order
import Mathlib.Order.CompletePartialOrder
import Mathlib.Order.Lattice.Nat
import ProgramAnalysis.Proofs.Iteration

/-!
# The equations of an analysis and their least solution

An analysis poses two equations at each node other than the start: the output is what the node makes
of its input, and the input is the join of the outputs that arrive there. This file says how far the
facts at the end of an iteration solve them. All statements hold for both directions and all
strategies, because they speak of a graph as the analysis sees it.

## Without monotonicity

The first equation holds whatever the nodes do with their inputs, and every output has been met into
the inputs to which it leads. The inputs may lie higher than that: an output that has been taken
back since leaves its trace. No property of the nodes is needed, only that meeting yields an upper
bound and that changes are reported.

## The least solution

If the nodes are monotone and facts are met into their join, nothing is left behind. The outputs at
the end can be gathered anew, into inputs that know of no earlier ones; these solve the equations
too, up to `≤`, and an iteration stays below whatever does. So both equations hold exactly, the
solution is the least one, and the order of the nodes does not show.
-/

namespace ProgramAnalysis

variable {F : Type}

/-! ## Reading a solution -/

namespace Solution

/-- The input of a node of `g`: forward the fact before it, backward the fact after it. -/
def inputNode (s : Solution F) (g : FlowGraph) (n : Node) : Except NoFact F :=
  match s.direction with
  | .forward => s.beforeNode g n
  | .backward => s.afterNode g n

/-- The output of a node of `g`: forward the fact after it, backward the fact before it. -/
def outputNode (s : Solution F) (g : FlowGraph) (n : Node) : Except NoFact F :=
  match s.direction with
  | .forward => s.afterNode g n
  | .backward => s.beforeNode g n

variable {s : Solution F} {n : Node}

theorem inputNode_eq_ok (h : s.inputs.find? n ≠ none) (d : F) (g : FlowGraph) :
    s.inputNode g n = .ok (s.inputs.findD n d) := by
  rw [inputs] at h ⊢
  rw [inputNode]
  cases hd : s.direction with
  | forward =>
    rw [hd] at h
    exact Facts.beforeNode_eq_ok h d g
  | backward =>
    rw [hd] at h
    exact Facts.afterNode_eq_ok h d g

theorem outputNode_eq_ok (h : s.outputs.find? n ≠ none) (d : F) (g : FlowGraph) :
    s.outputNode g n = .ok (s.outputs.findD n d) := by
  rw [outputs] at h ⊢
  rw [outputNode]
  cases hd : s.direction with
  | forward =>
    rw [hd] at h
    exact Facts.afterNode_eq_ok h d g
  | backward =>
    rw [hd] at h
    exact Facts.beforeNode_eq_ok h d g

end Solution

namespace Analysis

variable {a : Analysis F} {T : Node → F → F} {g : FlowGraph} {it : Iteration} {s : Solution F}

/-- A solution answers with the facts of the last state of an iteration. -/
theorem exists_state_of_solve? (h : a.solve? g it = some s) :
    ∃ p, a.Reaches (g.orient a.direction) it.strategy p ∧ p.worklist.pop? = none ∧
      ∀ n ∈ g.nodes, s.inputNode g n = .ok (a.inputAt p n) ∧
        s.outputNode g n = .ok (a.outputAt p n) := by
  obtain ⟨p, hreach, hdone, -, hin, hout⟩ := exists_reaches_of_solve? h
  refine ⟨p, hreach, hdone, ?_⟩
  intro n hn
  rw [← g.nodes_orient a.direction] at hn
  obtain ⟨hinput, houtput⟩ := hreach.find?_ne_none hn
  constructor
  · rw [s.inputNode_eq_ok (hin ▸ hinput) a.initial g, hin]
    rfl
  · rw [s.outputNode_eq_ok (hout ▸ houtput) a.initial g, hout]
    rfl

/-- The analysis whose nodes compute `T`, whose facts start from the least one and are joined. -/
def ofNodes [SemilatticeSup F] [OrderBot F] [DecidableEq F] (d : Direction) (boundary : F)
    (T : Node → F → F) : Analysis F where
  direction := d
  boundary := boundary
  initial := ⊥
  meetInto f t := t ⊔ f
  transfer n i f := (decide (T n i ≠ f), T n i)

/-! ## Arbitrary nodes -/

section Tracks

variable [PartialOrder F]

/-- The initial fact is the least one, facts are met into some upper bound of both, and a transfer
replaces the output by what `T` makes of the input and reports exactly whether that is a change. The
function `T` itself may be any. -/
structure Tracks (a : Analysis F) (T : Node → F → F) : Prop where
  initial_le : ∀ f, a.initial ≤ f
  le_meetInto_left : ∀ f t, f ≤ a.meetInto f t
  le_meetInto_right : ∀ f t, t ≤ a.meetInto f t
  transfer_snd : ∀ n i f, (a.transfer n i f).2 = T n i
  transfer_fst : ∀ n i f, (a.transfer n i f).1 = true ↔ T n i ≠ f

theorem tracks_ofNodes {F : Type} [SemilatticeSup F] [OrderBot F] [DecidableEq F] (d : Direction)
    (boundary : F) (T : Node → F → F) : (ofNodes d boundary T).Tracks T where
  initial_le _ := bot_le
  le_meetInto_left _ _ := le_sup_right
  le_meetInto_right _ _ := le_sup_left
  transfer_snd _ _ _ := rfl
  transfer_fst _ _ _ := decide_eq_true_iff

theorem Tracks.accumulates (ha : a.Tracks T) : a.Accumulates T where
  initial_le := ha.initial_le
  le_meetInto_left := ha.le_meetInto_left
  le_meetInto_right := ha.le_meetInto_right
  transfer_le n i f := (ha.transfer_snd n i f).le
  le_transfer n i f := (ha.transfer_snd n i f).ge
  le_of_unchanged n i f h := by
    have hsame : T n i = f := by
      by_contra hne
      have hchanged := (ha.transfer_fst n i f).mpr hne
      simp [h] at hchanged
    exact ((ha.transfer_snd n i f).trans hsame).le

/-- No output is lost. Whatever the nodes make of their inputs, at the end each output except that
of the start is the one that belongs to the input of its node, and every output, that of the start
included, lies below the inputs to which it leads. -/
theorem no_output_lost (hg : g.Built) (ha : a.Tracks T) (h : a.solve? g it = some s) :
    (∀ n ∈ g.nodes, n ≠ (g.orient a.direction).start →
      ∃ i, s.inputNode g n = .ok i ∧ s.outputNode g n = .ok (T n i)) ∧
    ∀ m n, n ∈ (g.orient a.direction).next m →
      ∃ f i, s.outputNode g m = .ok f ∧ s.inputNode g n = .ok i ∧ f ≤ i := by
  obtain ⟨p, hreach, hdone, hfacts⟩ := exists_state_of_solve? h
  have ho := hg.mirrored.wellFormed_orient a.direction
  have hp := hreach.consistent ha.accumulates ho
  constructor
  · intro n hn hne
    obtain ⟨hin, hout⟩ := hfacts n hn
    rw [← g.nodes_orient a.direction] at hn
    have hcomputed := hp.computed hdone hn hne
    refine ⟨a.inputAt p n, hin, ?_⟩
    rw [hout, le_antisymm hcomputed.1 hcomputed.2]
  · intro m n hnext
    have hm := ho.mem_nodes_of_mem_prev (ho.mem_prev_iff.mpr hnext)
    have hn := ho.mem_nodes_of_mem_next hnext
    rw [g.nodes_orient] at hm hn
    exact ⟨_, _, (hfacts m hm).2, (hfacts n hn).1, hp.outputAt_le_inputAt hdone hnext⟩

end Tracks

/-- Nodes that negate are as little monotone as can be: taken from the end, the exit of the small
loop holds `true` at first, and takes it back once the `return` before it has been processed. -/
theorem no_output_lost_negating :
    ∃ s, (ofNodes .forward false fun _ ↦ not).solve? .countingLoop ⟨.lifo, 100⟩ = some s ∧
      (∃ i, s.inputNode .countingLoop (.stmt 1) = .ok i ∧
        s.outputNode .countingLoop (.stmt 1) = .ok !i) ∧
      ∃ f i, s.outputNode .countingLoop (.stmt 2) = .ok f ∧
        s.inputNode .countingLoop (.stmt 1) = .ok i ∧ f ≤ i := by
  have hrun : ((ofNodes .forward false fun _ ↦ not).solve? .countingLoop ⟨.lifo, 100⟩).isSome =
      true := by decide +kernel
  obtain ⟨s, hs⟩ := Option.isSome_iff_exists.mp hrun
  obtain ⟨hcomputed, hflows⟩ :=
    no_output_lost FlowGraph.built_countingLoop (tracks_ofNodes .forward false fun _ ↦ not) hs
  exact ⟨s, hs, hcomputed (.stmt 1) (by decide +kernel) (by decide +kernel),
    hflows (.stmt 2) (.stmt 1) (by decide +kernel)⟩

/-! ## Least solutions -/

section Preorder

variable [Preorder F] {o : Orientation} {σ : Strategy} {p : IterationState F} {I O : Node → F}

/-- The inputs `I` and the outputs `O` solve the equations of an analysis at the nodes of a graph,
and all facts that are above what the equations demand are above these. -/
structure IsLeastSolution (a : Analysis F) (o : Orientation) (T : Node → F → F)
    (I O : Node → F) : Prop where
  input_start : I o.start = a.boundary
  output_start : O o.start = a.boundary
  output_eq : ∀ n ∈ o.nodes, n ≠ o.start → O n = T n (I n)
  isLUB_input : ∀ n ∈ o.nodes, n ≠ o.start → IsLUB (O '' {m | m ∈ o.prev n}) (I n)
  le_of_solves : ∀ I' O', a.Solves o T I' O' →
    ∀ n ∈ o.nodes, n ≠ o.start → I n ≤ I' n ∧ O n ≤ O' n

theorem IsLeastSolution.solves (ho : o.WellFormed) (h : a.IsLeastSolution o T I O) :
    a.Solves o T I O where
  boundary_le := h.output_start.ge
  transfer_le n hn hne := (h.output_eq n hn hne).ge
  output_le_input m n hnext := by
    have hne : n ≠ o.start := by
      rintro rfl
      exact ho.start_notMem_next m hnext
    have hlub := h.isLUB_input n (ho.mem_nodes_of_mem_next hnext) hne
    exact hlub.1 ⟨m, ho.mem_prev_iff.mpr hnext, rfl⟩

/-- The outputs that arrive at a node, gathered into the initial fact instead of the input. -/
def gatherAnew (a : Analysis F) (o : Orientation) (p : IterationState F) (n : Node) : F :=
  a.gather o { p with input := ∅ } n

theorem gatherAnew_le (ha : a.Accumulates T)
    (hleast : ∀ f t u, f ≤ u → t ≤ u → a.meetInto f t ≤ u) {n : Node} {u : F}
    (hout : ∀ m ∈ o.prev n, a.outputAt p m ≤ u) : a.gatherAnew o p n ≤ u :=
  gather_le (p := { p with input := ∅ }) hleast (ha.initial_le u) hout

/-- At the end of a monotone iteration, the outputs and what can be gathered of them are above what
the equations demand. -/
theorem Consistent.solves_gatherAnew (ha : a.Accumulates T)
    (hleast : ∀ f t u, f ≤ u → t ≤ u → a.meetInto f t ≤ u) (ho : o.WellFormed)
    (hmono : ∀ n f f', f ≤ f' → T n f ≤ T n f') (hp : a.Consistent o T p)
    (hdone : p.worklist.pop? = none) : a.Solves o T (a.gatherAnew o p) (a.outputAt p) where
  boundary_le := hp.outputAt_start.ge
  transfer_le n hn hne := by
    -- what is gathered anew has been met into the input as well
    have hle : a.gatherAnew o p n ≤ a.inputAt p n :=
      gatherAnew_le ha hleast fun m hm ↦
        hp.outputAt_le_inputAt hdone (ho.mem_prev_iff.mp hm)
    exact (hmono n _ _ hle).trans (hp.computed hdone hn hne).2
  output_le_input m n hnext :=
    ha.outputAt_le_gather (p := { p with input := ∅ }) (ho.mem_prev_iff.mpr hnext)

/-- At the end of a monotone iteration, an input is the least fact above the outputs that arrive. -/
theorem Reaches.isLUB_inputAt (ha : a.Accumulates T)
    (hleast : ∀ f t u, f ≤ u → t ≤ u → a.meetInto f t ≤ u) (ho : o.WellFormed)
    (hmono : ∀ n f f', f ≤ f' → T n f ≤ T n f') (h : a.Reaches o σ p)
    (hdone : p.worklist.pop? = none) {n : Node} (hne : n ≠ o.start) :
    IsLUB (a.outputAt p '' {m | m ∈ o.prev n}) (a.inputAt p n) := by
  have hp := h.consistent ha ho
  constructor
  · rintro f ⟨m, hm, rfl⟩
    exact hp.outputAt_le_inputAt hdone (ho.mem_prev_iff.mp hm)
  · intro u hu
    have hsolves := hp.solves_gatherAnew ha hleast ho hmono hdone
    calc a.inputAt p n ≤ a.gatherAnew o p n := (h.le_of_solves ha hleast ho hmono hsolves).1 n hne
      _ ≤ u := gatherAnew_le ha hleast fun m hm ↦ hu ⟨m, hm, rfl⟩

end Preorder

/-- A least solution is the only one. -/
theorem IsLeastSolution.unique [PartialOrder F] {o : Orientation} {I O I' O' : Node → F}
    (ho : o.WellFormed) (h : a.IsLeastSolution o T I O) (h' : a.IsLeastSolution o T I' O')
    {n : Node} (hn : n ∈ o.nodes) : I' n = I n ∧ O' n = O n := by
  by_cases hne : n = o.start
  · rw [hne, h.input_start, h.output_start, h'.input_start, h'.output_start]
    exact ⟨rfl, rfl⟩
  · obtain ⟨hin, hout⟩ := h.le_of_solves I' O' (h'.solves ho) n hn hne
    obtain ⟨hin', hout'⟩ := h'.le_of_solves I O (h.solves ho) n hn hne
    exact ⟨le_antisymm hin' hin, le_antisymm hout' hout⟩

/-! ## Monotone nodes -/

section Joins

variable [SemilatticeSup F]

/-- The initial fact is the least one, facts are met into their join, and a transfer replaces the
output by what the monotone `T` makes of the input and reports exactly whether that is a change. -/
structure Joins (a : Analysis F) (T : Node → F → F) : Prop where
  initial_le : ∀ f, a.initial ≤ f
  meetInto_eq : ∀ f t, a.meetInto f t = t ⊔ f
  transfer_snd : ∀ n i f, (a.transfer n i f).2 = T n i
  transfer_fst : ∀ n i f, (a.transfer n i f).1 = true ↔ T n i ≠ f
  monotone : ∀ n, Monotone (T n)

theorem joins_ofNodes {F : Type} [SemilatticeSup F] [OrderBot F] [DecidableEq F] (d : Direction)
    (boundary : F) {T : Node → F → F} (hT : ∀ n, Monotone (T n)) :
    (ofNodes d boundary T).Joins T where
  initial_le _ := bot_le
  meetInto_eq _ _ := rfl
  transfer_snd _ _ _ := rfl
  transfer_fst _ _ _ := decide_eq_true_iff
  monotone := hT

theorem Joins.tracks (ha : a.Joins T) : a.Tracks T where
  initial_le := ha.initial_le
  le_meetInto_left f t := ha.meetInto_eq f t ▸ le_sup_right
  le_meetInto_right f t := ha.meetInto_eq f t ▸ le_sup_left
  transfer_snd := ha.transfer_snd
  transfer_fst := ha.transfer_fst

theorem Joins.isLeastSolution (ha : a.Joins T) {o : Orientation} (ho : o.WellFormed)
    {σ : Strategy} {p : IterationState F} (h : a.Reaches o σ p)
    (hdone : p.worklist.pop? = none) :
    a.IsLeastSolution o T (a.inputAt p) (a.outputAt p) := by
  have hacc := ha.tracks.accumulates
  have hleast : ∀ f t u, f ≤ u → t ≤ u → a.meetInto f t ≤ u := by
    intro f t u hf ht
    rw [ha.meetInto_eq]
    exact sup_le ht hf
  have hmono : ∀ n f f', f ≤ f' → T n f ≤ T n f' := fun n _ _ hle ↦ ha.monotone n hle
  have hp := h.consistent hacc ho
  refine ⟨hp.inputAt_start, hp.outputAt_start, ?_, ?_, ?_⟩
  · intro n hn hne
    have hcomputed := hp.computed hdone hn hne
    exact le_antisymm hcomputed.1 hcomputed.2
  · intro n _ hne
    exact h.isLUB_inputAt hacc hleast ho hmono hdone hne
  · intro I' O' hsolves n hn hne
    obtain ⟨hin, hout⟩ := h.le_of_solves hacc hleast ho hmono hsolves
    exact ⟨hin n hne, hout n hn⟩

/-- A monotone analysis computes the least solution of its equations: the outputs are those that
belong to the inputs, each input is the join of the outputs that arrive, and no solution is lower
anywhere. Hence every strategy leads to the same facts. -/
theorem solution_isLeast (hg : g.Built) (ha : a.Joins T)
    (h : a.solve? g it = some s) :
    ∃ I O : Node → F,
      (∀ n ∈ g.nodes, s.inputNode g n = .ok (I n) ∧ s.outputNode g n = .ok (O n)) ∧
      a.IsLeastSolution (g.orient a.direction) T I O ∧
      ∀ it' s', a.solve? g it' = some s' → ∀ n ∈ g.nodes,
        s'.inputNode g n = s.inputNode g n ∧ s'.outputNode g n = s.outputNode g n := by
  obtain ⟨p, hreach, hdone, hfacts⟩ := exists_state_of_solve? h
  have ho := hg.mirrored.wellFormed_orient a.direction
  have hleast := ha.isLeastSolution ho hreach hdone
  refine ⟨a.inputAt p, a.outputAt p, hfacts, hleast, ?_⟩
  -- another strategy ends in a state of its own, but there is one least solution only
  intro it' s' h' n hn
  obtain ⟨p', hreach', hdone', hfacts'⟩ := exists_state_of_solve? h'
  have hunique := hleast.unique ho (ha.isLeastSolution ho hreach' hdone')
    ((g.nodes_orient a.direction).symm ▸ hn)
  rw [(hfacts n hn).1, (hfacts n hn).2, (hfacts' n hn).1, (hfacts' n hn).2, hunique.1, hunique.2]
  exact ⟨rfl, rfl⟩

end Joins

/-- Counting the nodes on the way to the exit, up to three, is monotone, and it comes to an end
although there is a loop. -/
theorem solution_isLeast_counting :
    ∃ s I O, (ofNodes .backward 0 fun _ i ↦ min (i + 1) 3).solve? .countingLoop ⟨.rpo, 100⟩ =
        some s ∧
      s.inputNode .countingLoop (.stmt 1) = .ok (I (.stmt 1)) ∧
      (ofNodes .backward 0 fun _ i ↦ min (i + 1) 3).IsLeastSolution
        (FlowGraph.countingLoop.orient .backward) (fun _ i ↦ min (i + 1) 3) I O := by
  have hrun : ((ofNodes .backward 0 fun _ i ↦ min (i + 1) 3).solve? .countingLoop
      ⟨.rpo, 100⟩).isSome = true := by decide +kernel
  have hmono : ∀ _ : Node, Monotone fun i ↦ min (i + 1) 3 :=
    fun _ i j hij ↦ min_le_min_right 3 (Nat.succ_le_succ hij)
  obtain ⟨s, hs⟩ := Option.isSome_iff_exists.mp hrun
  obtain ⟨I, O, hfacts, hleast, -⟩ :=
    solution_isLeast FlowGraph.built_countingLoop (joins_ofNodes .backward 0 hmono) hs
  exact ⟨s, I, O, hs, (hfacts (.stmt 1) (by decide +kernel)).1, hleast⟩

end Analysis

end ProgramAnalysis
