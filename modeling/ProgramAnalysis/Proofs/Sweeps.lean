import ProgramAnalysis.Proofs.Cycles

/-!
# One sweep over a graph without cycles

On a graph without cycles, an iteration in reverse postorder processes every node but the start
once, behind all nodes that lead to it, whatever the analysis does.

The worklist is then nothing but the part of one fixed list that has not been processed yet, and
that is the invariant: what has been processed and what is pending make up this list together. A
step can put in only the nodes behind the processed one, and these come later in the list, so they
are pending already. It makes no difference whether the analysis reports a change.

So a node is processed when all nodes before it have been, and none of these is processed again. Its
facts are therefore what the final facts of the nodes before it make of the initial fact, which says
what a solution is without a word about the steps that led to it.

That the worklist holds the nodes in the order of this list takes no induction on the iteration. It
is sorted by rank, ranks are positions in the list, and two sorted lists of the same nodes are
equal.
-/

namespace ProgramAnalysis

open Relation

variable {F : Type}

/-! ## Worklists sorted by rank -/

namespace Worklist

/-- The nodes are pending by rank. -/
structure Ranked (w : Worklist) : Prop where
  strategy_eq : w.strategy = .rpo
  rank_eq : ∀ e ∈ w.pending, e.1 = w.rank e.2
  pairwise : w.pending.Pairwise fun e e' ↦ e.1 ≤ e'.1

theorem pairwise_insertByRank {r : ℕ} {n : Node} {l : List (ℕ × Node)}
    (h : l.Pairwise fun e e' ↦ e.1 ≤ e'.1) :
    (insertByRank r n l).Pairwise fun e e' ↦ e.1 ≤ e'.1 := by
  induction l with
  | nil => exact List.pairwise_singleton _ _
  | cons e l ih =>
    obtain ⟨hle, hl⟩ := List.pairwise_cons.mp h
    rw [insertByRank]
    split
    · rename_i hlt
      refine List.pairwise_cons.mpr ⟨?_, h⟩
      rintro e' he'
      rcases List.mem_cons.mp he' with rfl | he'
      · exact hlt.le
      · exact hlt.le.trans (hle e' he')
    · rename_i hnot
      refine List.pairwise_cons.mpr ⟨fun e' he' ↦ ?_, ih hl⟩
      rcases mem_insertByRank.mp he' with rfl | he'
      · exact not_lt.mp hnot
      · exact hle e' he'

theorem rank_push (w : Worklist) (n : Node) : (w.push n).rank = w.rank := by
  rw [push]
  split <;> rfl

theorem rank_pushAll (w : Worklist) (l : List Node) : (w.pushAll l).rank = w.rank :=
  List.foldlRecOn (motive := fun w' ↦ w'.rank = w.rank) l push rfl
    fun w' hw' n _ ↦ (rank_push w' n).trans hw'

theorem Ranked.push {w : Worklist} (hw : w.Ranked) (n : Node) : (w.push n).Ranked := by
  by_cases h : n ∈ w
  · rwa [push_of_mem h]
  · have hnot : ¬w.contains n = true := h
    rw [Worklist.push, if_neg hnot, hw.strategy_eq]
    refine ⟨rfl, fun e he ↦ ?_, pairwise_insertByRank hw.pairwise⟩
    rcases mem_insertByRank.mp he with rfl | he
    · rfl
    · exact hw.rank_eq e he

theorem Ranked.pushAll {w : Worklist} (hw : w.Ranked) (l : List Node) : (w.pushAll l).Ranked :=
  List.foldlRecOn l Worklist.push hw fun _ hw n _ ↦ hw.push n

/-- The nodes that are pending by rank. -/
theorem Ranked.pairwise_rank {w : Worklist} (hw : w.Ranked) :
    (w.pending.map Prod.snd).Pairwise fun m n ↦ w.rank m ≤ w.rank n := by
  rw [List.pairwise_map]
  refine hw.pairwise.imp_of_mem fun he he' hle ↦ ?_
  rwa [← hw.rank_eq _ he, ← hw.rank_eq _ he']

end Worklist

/-! ## The order of a sweep -/

namespace Orientation

variable {o : Orientation} {n : Node}

/-- The nodes in the order in which they are searched, without the start. -/
def sweep (o : Orientation) : List Node := o.order.filter (· ≠ o.start)

theorem WellFormed.mem_sweep_iff (ho : o.WellFormed) :
    n ∈ o.sweep ↔ n ∈ o.nodes ∧ n ≠ o.start := by
  rw [sweep, List.mem_filter, ho.mem_order_iff, decide_eq_true_iff]

theorem WellFormed.topological_sweep (ho : o.WellFormed) :
    DepthFirst.Topological o.next o.sweep := by
  refine ho.topological_order.filter fun m b hb ↦ decide_eq_true ?_
  rintro rfl
  exact ho.start_notMem_next m hb

/-- The nodes behind a node come later in the sweep. -/
theorem WellFormed.mem_of_sweep_eq (ho : o.WellFormed) (hacyclic : o.Acyclic)
    {front back : List Node} (h : front ++ n :: back = o.sweep) : ∀ b ∈ o.next n, b ∈ back := by
  intro b hb
  have hlater := DepthFirst.Topological.mem_of_append (h ▸ ho.topological_sweep) b hb
  exact hlater.resolve_right fun hback ↦ hacyclic n (.head' hb hback)

end Orientation

/-- In a list without repetitions, positions tell the order. -/
theorem pairwise_idxOf_lt {l : List Node} (h : l.Nodup) :
    l.Pairwise fun m n ↦ l.idxOf m < l.idxOf n := by
  rw [List.pairwise_iff_getElem]
  intro i j hi hj hij
  rwa [h.idxOf_getElem i hi, h.idxOf_getElem j hj]

namespace Analysis

variable {a : Analysis F} {o : Orientation} {σ : Strategy} {p : IterationState F} {n : Node}

theorem rank_initialWorklist (o : Orientation) :
    (initialWorklist o .rpo).rank = fun n ↦ o.order.idxOf n :=
  Worklist.rank_pushAll _ _

/-- At first the nodes are pending in the order of the sweep. -/
theorem pending_initialWorklist (ho : o.WellFormed) :
    (initialWorklist o .rpo).pending.map Prod.snd = o.sweep := by
  have hranked : (initialWorklist o .rpo).Ranked :=
    Worklist.Ranked.pushAll ⟨rfl, fun _ he ↦ absurd he List.not_mem_nil, .nil⟩ _
  have hsorted := hranked.pairwise_rank
  rw [rank_initialWorklist] at hsorted
  have hperm : ((initialWorklist o .rpo).pending.map Prod.snd).Perm o.sweep := by
    rw [List.perm_ext_iff_of_nodup (nodup_initialWorklist o .rpo) ho.topological_sweep.nodup]
    intro n
    rw [ho.mem_sweep_iff, List.mem_map, ← Worklist.mem_iff, mem_initialWorklist]
  refine hperm.eq_of_pairwise (fun m n hm hn hle hge ↦ ?_) hsorted
    (((pairwise_idxOf_lt ho.topological_order.nodup).imp Nat.le_of_lt).filter _)
  have hmem : n ∈ o.order := List.mem_of_mem_filter hn
  exact ((List.idxOf_inj hmem).mp (hle.antisymm hge).symm).symm

/-- What has been processed and what is pending make up the sweep. -/
theorem Reaches.processed_append_pending (ho : o.WellFormed) (hacyclic : o.Acyclic)
    (h : a.Reaches o .rpo p) :
    p.processed.reverse ++ p.worklist.pending.map Prod.snd = o.sweep := by
  induction h using Reaches.induct with
  | start => exact pending_initialWorklist ho
  | step p n rest hp hpop ih =>
    obtain ⟨r, hr⟩ := Worklist.exists_pending_of_pop? hpop
    rw [hr, List.map_cons] at ih
    -- the nodes behind `n` come later in the sweep, so they are pending already
    have hnext : ∀ b ∈ o.next n, b ∈ rest := by
      intro b hb
      rw [Worklist.mem_iff, ← List.mem_map]
      exact ho.mem_of_sweep_eq hacyclic ih b hb
    have hrest : (a.step o { p with worklist := rest } n).worklist = rest := by
      change (if _ then rest.pushAll (o.next n) else rest) = rest
      rw [Worklist.pushAll_of_forall_mem hnext, ite_self]
    rw [hrest, processed_step, List.reverse_cons, List.append_assoc]
    exact ih

/-- Every step takes a node out and puts none in. -/
theorem lowers_length_pending (ho : o.WellFormed) (hacyclic : o.Acyclic) :
    a.Lowers o .rpo fun p ↦ p.worklist.pending.length := by
  intro p n rest hp hpop
  set q := a.step o { p with worklist := rest } n
  have hq : a.Reaches o .rpo q := hp.tail ⟨n, rest, hpop, rfl⟩
  have hprocessed : q.processed.length = p.processed.length + 1 := rfl
  have hbefore := congrArg List.length (hp.processed_append_pending ho hacyclic)
  have hafter := congrArg List.length (hq.processed_append_pending ho hacyclic)
  rw [List.length_append, List.length_reverse, List.length_map] at hbefore hafter
  change q.worklist.pending.length < p.worklist.pending.length
  omega

/-! ## What has been processed determines the facts -/

/-- The nodes of a list are processed in turn, whatever is pending. -/
def passOver (a : Analysis F) (o : Orientation) (l : List Node) : IterationState F :=
  l.foldl (a.step o) (a.start o .rpo)

theorem step_congr {p q : IterationState F} (hin : p.input = q.input)
    (hout : p.output = q.output) (n : Node) :
    (a.step o p n).input = (a.step o q n).input ∧
      (a.step o p n).output = (a.step o q n).output := by
  have hgather : a.gather o p n = a.gather o q n := by
    rw [gather, gather, hin, hout]
  simp only [step, hgather, hin, hout, and_self]

/-- The facts of an iteration come from one application of the transfer to each processed node, in
the order in which they were processed. -/
theorem Reaches.facts_eq_passOver (h : a.Reaches o σ p) :
    p.input = (a.passOver o p.processed.reverse).input ∧
      p.output = (a.passOver o p.processed.reverse).output := by
  induction h using Reaches.induct with
  | start => exact ⟨rfl, rfl⟩
  | step p n rest _ _ ih =>
    rw [processed_step, List.reverse_cons, passOver, List.foldl_append]
    exact step_congr (p := { p with worklist := rest }) ih.1 ih.2 n

/-! ## What one application of the transfer leaves -/

/-- The facts of a node after one application of the transfer: the outputs of the nodes before it
have been met into the initial fact, and its output has been computed from that. -/
structure AppliedOnce (a : Analysis F) (o : Orientation) (p : IterationState F) (n : Node) :
    Prop where
  inputAt_eq : a.inputAt p n =
    (o.prev n).foldl (fun f m ↦ a.meetInto (a.outputAt p m) f) a.initial
  outputAt_eq : a.outputAt p n = (a.transfer n (a.inputAt p n) a.initial).2

/-- A step at a node that is not before another one changes nothing of what arrives there. -/
theorem foldl_outputAt_step {k : Node} (hprev : n ∉ o.prev k) (f : F) :
    (o.prev k).foldl (fun f m ↦ a.meetInto (a.outputAt (a.step o p n) m) f) f =
      (o.prev k).foldl (fun f m ↦ a.meetInto (a.outputAt p m) f) f := by
  refine List.foldl_ext _ _ _ fun f m hm ↦ ?_
  rw [outputAt_step, if_neg (ne_of_mem_of_not_mem hm hprev).symm]

/-- The first step at a node without a loop. -/
theorem appliedOnce_step_self (hin : a.inputAt p n = a.initial) (hout : a.outputAt p n = a.initial)
    (hloop : n ∉ o.prev n) : a.AppliedOnce o (a.step o p n) n := by
  have hgather : a.gather o p n =
      (o.prev n).foldl (fun f m ↦ a.meetInto (a.outputAt p m) f) (a.inputAt p n) := rfl
  constructor
  · rw [inputAt_step_self, foldl_outputAt_step hloop, hgather, hin]
  · rw [inputAt_step_self, outputAt_step, if_pos rfl, hout]

/-- A step at a node that is not before another one leaves the facts of that one as they are. -/
theorem AppliedOnce.step {k : Node} (h : a.AppliedOnce o p k) (hne : n ≠ k)
    (hprev : n ∉ o.prev k) : a.AppliedOnce o (a.step o p n) k := by
  constructor
  · rw [inputAt_step, if_neg hne, foldl_outputAt_step hprev, h.inputAt_eq]
  · rw [inputAt_step, outputAt_step, if_neg hne, if_neg hne, h.outputAt_eq]

/-- The facts after a part of a sweep: the start and the nodes that are still to come have those
they had at first, and the transfer has been applied once to each of the others. -/
structure Swept (a : Analysis F) (o : Orientation) (p : IterationState F) : Prop where
  start : a.inputAt p o.start = a.boundary ∧ a.outputAt p o.start = a.boundary
  pending : ∀ n, n ≠ o.start → n ∉ p.processed →
    a.inputAt p n = a.initial ∧ a.outputAt p n = a.initial
  applied : ∀ n ∈ p.processed, a.AppliedOnce o p n

theorem swept_start (ho : o.WellFormed) : a.Swept o (a.start o σ) := by
  refine ⟨?_, fun n hn _ ↦ ?_, fun n hn ↦ absurd hn List.not_mem_nil⟩
  · rw [inputAt_start _ ho.start_mem_nodes, outputAt_start _ ho.start_mem_nodes, if_pos rfl]
    exact ⟨rfl, rfl⟩
  · rw [inputAt_start _ ho.start_mem_nodes, outputAt_start _ ho.start_mem_nodes, if_neg hn]
    exact ⟨rfl, rfl⟩

/-- What is pending has no part in the facts. -/
theorem Swept.withWorklist (h : a.Swept o p) (w : Worklist) :
    a.Swept o { p with worklist := w } :=
  ⟨h.start, h.pending, fun n hn ↦ ⟨(h.applied n hn).inputAt_eq, (h.applied n hn).outputAt_eq⟩⟩

theorem Swept.step (h : a.Swept o p) (hstart : n ≠ o.start) (hfresh : n ∉ p.processed)
    (hprev : ∀ k, k = n ∨ k ∈ p.processed → n ∉ o.prev k) : a.Swept o (a.step o p n) := by
  refine ⟨?_, fun k hk hnot ↦ ?_, fun k hk ↦ ?_⟩
  · rw [inputAt_step, outputAt_step, if_neg hstart, if_neg hstart]
    exact h.start
  · obtain ⟨hne, hnot⟩ := not_or.mp (List.mem_cons.not.mp hnot)
    rw [inputAt_step, outputAt_step, if_neg (Ne.symm hne), if_neg (Ne.symm hne)]
    exact h.pending k hk hnot
  · rcases List.mem_cons.mp hk with rfl | hk
    · obtain ⟨hin, hout⟩ := h.pending k hstart hfresh
      exact appliedOnce_step_self hin hout (hprev k (.inl rfl))
    · have hne : n ≠ k := fun heq ↦ hfresh (heq ▸ hk)
      exact (h.applied k hk).step hne (hprev k (.inr hk))

/-- No node that has been processed lies behind the one that is processed next, so its facts stay
what one application of the transfer has made them. -/
theorem Reaches.swept (ho : o.WellFormed) (hacyclic : o.Acyclic) (h : a.Reaches o .rpo p) :
    a.Swept o p := by
  induction h using Reaches.induct with
  | start => exact swept_start ho
  | step p n rest hp hpop ih =>
    obtain ⟨r, hr⟩ := Worklist.exists_pending_of_pop? hpop
    have hsweep := hp.processed_append_pending ho hacyclic
    rw [hr, List.map_cons] at hsweep
    have hnodup : (p.processed.reverse ++ n :: rest.pending.map Prod.snd).Nodup :=
      hsweep ▸ ho.topological_sweep.nodup
    have hlater := ho.mem_of_sweep_eq hacyclic hsweep
    have hapart := List.disjoint_of_nodup_append hnodup
    have hmem : n ∈ p.worklist := (Worklist.mem_iff_of_pop? hpop).mpr (.inl rfl)
    have hstart : n ≠ o.start := (hp.mem_nodes_of_mem_worklist ho n hmem).2
    refine (ih.withWorklist rest).step hstart
      (fun hn ↦ hapart (List.mem_reverse.mpr hn) List.mem_cons_self) ?_
    rintro k (rfl | hk) hmem
    · exact hacyclic k (.single (ho.mem_prev_iff.mp hmem))
    · have hback := hlater k (ho.mem_prev_iff.mp hmem)
      exact hapart (List.mem_reverse.mpr hk) (List.mem_cons_of_mem _ hback)

end Analysis

/-! ## The sweep as a whole -/

/-- The solution comes from one sweep over the graph. -/
structure Solution.IsSweep (s : Solution F) (a : Analysis F) (o : Orientation) : Prop where
  /-- Every node but the start is processed, and none twice. -/
  nodup_trace : s.trace.Nodup
  mem_trace_iff : ∀ n, n ∈ s.trace ↔ n ∈ o.nodes ∧ n ≠ o.start
  steps_eq : s.steps = o.nodes.toFinset.card - 1
  /-- A node is processed after the nodes before it. -/
  pair_sublist : ∀ m n, m ∈ o.prev n → m ≠ o.start → [m, n].Sublist s.trace
  /-- The facts are what processing the nodes in this order leads to. -/
  facts_eq : s.inputs = (a.passOver o s.trace).input ∧ s.outputs = (a.passOver o s.trace).output
  /-- The start keeps the boundary fact. -/
  start_eq : s.inputs.findD o.start a.initial = a.boundary ∧
    s.outputs.findD o.start a.initial = a.boundary
  /-- The input of every other node is the meet of the outputs of the nodes before it into the
  initial fact. -/
  input_eq : ∀ n ∈ o.nodes, n ≠ o.start → s.inputs.findD n a.initial =
    (o.prev n).foldl (fun f m ↦ a.meetInto (s.outputs.findD m a.initial) f) a.initial
  /-- Its output comes from one application of the transfer to its input and the initial fact. -/
  output_eq : ∀ n ∈ o.nodes, n ≠ o.start → s.outputs.findD n a.initial =
    (a.transfer n (s.inputs.findD n a.initial) a.initial).2

theorem Analysis.isSweep_solution {a : Analysis F} {o : Orientation} {p : IterationState F}
    (ho : o.WellFormed) (hacyclic : o.Acyclic) (h : a.Reaches o .rpo p)
    (hdone : p.worklist.pop? = none) : (a.solution p).IsSweep a o := by
  have htrace : (a.solution p).trace = o.sweep := by
    rw [trace_solution, ← h.processed_append_pending ho hacyclic,
      Worklist.pending_eq_nil_of_pop?_eq_none hdone, List.map_nil, List.append_nil]
  have hlength : o.sweep.length = o.nodes.toFinset.card - 1 := by
    rw [← pending_initialWorklist ho, List.length_map, length_initialWorklist ho]
  have hswept := h.swept ho hacyclic
  have hprocessed : ∀ n ∈ o.nodes, n ≠ o.start → n ∈ p.processed := by
    intro n hn hstart
    rw [← List.mem_reverse, ← trace_solution, htrace]
    exact ho.mem_sweep_iff.mpr ⟨hn, hstart⟩
  refine ⟨?_, ?_, ?_, ?_, ?_, ?_, ?_, ?_⟩
  · rw [htrace]
    exact ho.topological_sweep.nodup
  · intro n
    rw [htrace]
    exact ho.mem_sweep_iff
  · rw [Solution.steps, htrace, hlength]
  · intro m n hm hstart
    rw [htrace]
    have hnext : n ∈ o.next m := ho.mem_prev_iff.mp hm
    refine ho.topological_sweep.pair_sublist ?_ hnext fun hback ↦ hacyclic m (.head' hnext hback)
    exact ho.mem_sweep_iff.mpr ⟨ho.mem_nodes_of_mem_prev hm, hstart⟩
  · rw [inputs_solution, outputs_solution, trace_solution]
    exact h.facts_eq_passOver
  · rw [inputs_solution, outputs_solution]
    exact hswept.start
  · rw [inputs_solution, outputs_solution]
    exact fun n hn hstart ↦ (hswept.applied n (hprocessed n hn hstart)).inputAt_eq
  · rw [inputs_solution, outputs_solution]
    exact fun n hn hstart ↦ (hswept.applied n (hprocessed n hn hstart)).outputAt_eq

/-- In reverse postorder, every analysis of a graph without cycles is finished after one sweep, and
a limit that lets each node but the start be processed once is high enough. -/
theorem FlowGraph.Built.solves_in_one_sweep {g : FlowGraph} (hg : g.Built) (hacyclic : g.Acyclic)
    (a : Analysis F) {it : Iteration} (hrpo : it.strategy = .rpo)
    (hlimit : (g.nodes.toFinset.card : ℤ) - 1 ≤ it.limit) :
    ∃ s, a.solve? g it = some s ∧ s.IsSweep a (g.orient a.direction) := by
  have ho := hg.mirrored.wellFormed_orient a.direction
  have hacyclic' := (hg.mirrored.acyclic_orient_iff a.direction).mpr hacyclic
  have hpending : (Analysis.initialWorklist (g.orient a.direction) .rpo).pending.length ≤
      it.limit.toNat := by
    rw [Analysis.length_initialWorklist ho, g.nodes_orient]
    omega
  obtain ⟨q, hq⟩ := (Analysis.lowers_length_pending (a := a) ho hacyclic').exists_iterate .refl
    hpending
  obtain ⟨hreach, hdone⟩ := Analysis.reflTransGen_of_iterate hq
  refine ⟨a.solution q, ?_, Analysis.isSweep_solution ho hacyclic' hreach hdone⟩
  rw [Analysis.solve?, hrpo, hq]
  rfl

/-- Four steps for the five nodes of `backwardJumps`, against the edges. -/
theorem FlowGraph.solves_in_one_sweep_backwardJumps :
    ∃ s, (Restless.analysis .backward backwardJumps).solve? backwardJumps ⟨.rpo, 4⟩ = some s ∧
      s.IsSweep (Restless.analysis .backward backwardJumps) (backwardJumps.orient .backward) := by
  have hnodes : backwardJumps.nodes.toFinset.card = 5 := by decide
  exact built_backwardJumps.solves_in_one_sweep acyclic_backwardJumps
    (Restless.analysis .backward backwardJumps) rfl (by rw [hnodes]; decide)

end ProgramAnalysis
