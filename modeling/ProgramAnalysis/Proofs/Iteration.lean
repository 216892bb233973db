import Mathlib.Logic.Relation
import Mathlib.Order.Basic
import ProgramAnalysis.Proofs.BuiltGraphs
import ProgramAnalysis.Proofs.Pending

/-!
# Iterations and what they leave behind

The facts of an iteration live in a preorder, because facts that differ only in their representation
lie below each other. Nothing is assumed about the function that a transfer computes; in particular
it need not be monotone.

## The invariant

Inputs accumulate: they are only ever met with further outputs. Outputs are overwritten and may go
down again. What carries the iteration is that a node which is not pending has an input above the
outputs of all its predecessors, and an output that its present input leads to. To process a node
establishes this for the node itself; for its successors it can fail only if the output has changed,
and then they are pending.

## Bounds

Inputs stay below any family of facts that every arriving output stays below. For a transfer that is
monotone this bounds an iteration by every solution, whatever the order of the nodes.
-/

namespace ProgramAnalysis

variable {F : Type}

namespace Analysis

/-! ## Reading a state -/

/-- The input of a node. -/
def inputAt (a : Analysis F) (p : IterationState F) (n : Node) : F := p.input.findD n a.initial

/-- The output of a node. -/
def outputAt (a : Analysis F) (p : IterationState F) (n : Node) : F := p.output.findD n a.initial

variable {a : Analysis F} {o : Orientation} {σ : Strategy} {p q : IterationState F} {n : Node}

theorem inputAt_step (k : Node) :
    a.inputAt (a.step o p n) k = if n = k then a.gather o p n else a.inputAt p k :=
  OrderedMap.findD_insert _ _ _ _ _

theorem outputAt_step (k : Node) :
    a.outputAt (a.step o p n) k =
      if n = k then (a.transfer n (a.gather o p n) (a.outputAt p n)).2 else a.outputAt p k :=
  OrderedMap.findD_insert _ _ _ _ _

theorem inputAt_step_self : a.inputAt (a.step o p n) n = a.gather o p n := by
  rw [inputAt_step, if_pos rfl]

theorem processed_step : (a.step o p n).processed = n :: p.processed := rfl

theorem mem_worklist_step {k : Node} :
    k ∈ (a.step o p n).worklist ↔
      ((a.transfer n (a.gather o p n) (a.outputAt p n)).1 = true ∧ k ∈ o.next n) ∨
        k ∈ p.worklist := by
  change k ∈ (if (a.transfer n (a.gather o p n) (a.outputAt p n)).1 = true
    then p.worklist.pushAll (o.next n) else p.worklist) ↔ _
  split
  · rename_i h
    rw [Worklist.mem_pushAll]
    simp [h]
  · rename_i h
    simp [h]

theorem inputAt_start (k : Node) (hstart : o.start ∈ o.nodes) :
    a.inputAt (a.start o σ) k = if k = o.start then a.boundary else a.initial := by
  change (a.initialFacts o).findD k a.initial = _
  rw [OrderedMap.findD, initialFacts, OrderedMap.find?_ofList_map]
  by_cases hk : k = o.start
  · rw [hk, if_pos hstart, Option.getD_some]
  · rw [if_neg hk]
    split <;> rfl

theorem outputAt_start (k : Node) (hstart : o.start ∈ o.nodes) :
    a.outputAt (a.start o σ) k = if k = o.start then a.boundary else a.initial :=
  inputAt_start (σ := σ) k hstart

/-! ## Runs of an iteration -/

/-- One step of an iteration: a pending node is taken out and processed. -/
def Advances (a : Analysis F) (o : Orientation) (p q : IterationState F) : Prop :=
  ∃ n rest, p.worklist.pop? = some (n, rest) ∧ q = a.step o { p with worklist := rest } n

/-- The state arises in the iteration under a strategy. -/
def Reaches (a : Analysis F) (o : Orientation) (σ : Strategy) : IterationState F → Prop :=
  Relation.ReflTransGen (a.Advances o) (a.start o σ)

theorem reflTransGen_of_iterate {limit : Nat} (h : a.iterate o limit p = some q) :
    Relation.ReflTransGen (a.Advances o) p q ∧ q.worklist.pop? = none := by
  induction limit generalizing p with
  | zero =>
    rw [iterate] at h
    split at h
    · rename_i hp
      obtain rfl := Option.some.inj h
      exact ⟨.refl, Option.isNone_iff_eq_none.mp hp⟩
    · simp at h
  | succ limit ih =>
    rw [iterate] at h
    split at h
    · rename_i hp
      obtain rfl := Option.some.inj h
      exact ⟨.refl, hp⟩
    · rename_i n rest hp
      obtain ⟨hreach, hdone⟩ := ih h
      exact ⟨.head ⟨n, rest, hp, rfl⟩ hreach, hdone⟩

/-- What holds at first and survives every step holds in every state of an iteration. -/
@[elab_as_elim]
theorem Reaches.induct {P : ∀ p, a.Reaches o σ p → Prop} (start : P _ .refl)
    (step : ∀ p n rest (hp : a.Reaches o σ p) (hpop : p.worklist.pop? = some (n, rest)),
      P p hp → P (a.step o { p with worklist := rest } n) (hp.tail ⟨n, rest, hpop, rfl⟩))
    (h : a.Reaches o σ p) : P p h := by
  induction h with
  | refl => exact start
  | tail hp hadv ih =>
    obtain ⟨n, rest, hpop, rfl⟩ := hadv
    exact step _ n rest hp hpop ih

/-- Only nodes of the graph are processed, and never the start. -/
theorem Reaches.mem_nodes_of_mem_worklist (ho : o.WellFormed) (h : a.Reaches o σ p) :
    ∀ n ∈ p.worklist, n ∈ o.nodes ∧ n ≠ o.start := by
  induction h using Reaches.induct with
  | start => exact fun n hn ↦ mem_initialWorklist.mp hn
  | step p n rest _ hpop ih =>
    intro k hk
    rcases mem_worklist_step.mp hk with ⟨-, hnext⟩ | hrest
    · refine ⟨ho.mem_nodes_of_mem_next hnext, ?_⟩
      rintro rfl
      exact ho.start_notMem_next n hnext
    · exact ih k ((Worklist.mem_iff_of_pop? hpop).mpr (Or.inr hrest))

/-- What the operations of the analysis keep, of the inputs and of the outputs of each node, holds
of every fact of an iteration. -/
theorem Reaches.forall_at {P Q : Node → F → Prop} (ho : o.WellFormed)
    (hboundary : P o.start a.boundary ∧ Q o.start a.boundary)
    (hinitial : ∀ n, n ≠ o.start → P n a.initial ∧ Q n a.initial)
    (hmeet : ∀ m n f t, n ∈ o.next m → Q m f → P n t → P n (a.meetInto f t))
    (htransfer : ∀ n i f, n ∈ o.nodes → n ≠ o.start → P n i → Q n f → Q n (a.transfer n i f).2)
    (h : a.Reaches o σ p) : ∀ n, P n (a.inputAt p n) ∧ Q n (a.outputAt p n) := by
  induction h using Reaches.induct with
  | start =>
    intro n
    rw [inputAt_start n ho.start_mem_nodes, outputAt_start n ho.start_mem_nodes]
    split
    · rename_i hn
      exact hn ▸ hboundary
    · rename_i hn
      exact hinitial n hn
  | step p n rest hp hpop ih =>
    obtain ⟨hnodes, hne⟩ := hp.mem_nodes_of_mem_worklist ho n
      ((Worklist.mem_iff_of_pop? hpop).mpr (Or.inl rfl))
    have hgather : P n (a.gather o p n) :=
      List.foldlRecOn (motive := P n) (o.prev n) _ (ih n).1
        fun f hf m hm ↦ hmeet m n _ f (ho.mem_prev_iff.mp hm) (ih m).2 hf
    intro k
    rw [inputAt_step, outputAt_step]
    split
    · rename_i hnk
      subst hnk
      exact ⟨hgather, htransfer n _ _ hnodes hne hgather (ih n).2⟩
    · exact ih k

/-- Every fact of an iteration has a property that the operations of the analysis keep. -/
theorem Reaches.forall_facts {P : F → Prop} (ho : o.WellFormed) (hboundary : P a.boundary)
    (hinitial : P a.initial) (hmeet : ∀ f t, P f → P t → P (a.meetInto f t))
    (htransfer : ∀ n i f, P i → P f → P (a.transfer n i f).2) (h : a.Reaches o σ p) :
    ∀ n, P (a.inputAt p n) ∧ P (a.outputAt p n) :=
  h.forall_at (P := fun _ ↦ P) (Q := fun _ ↦ P) ho ⟨hboundary, hboundary⟩
    (fun _ _ ↦ ⟨hinitial, hinitial⟩) (fun _ _ _ _ _ ↦ hmeet _ _)
    fun n i f _ _ ↦ htransfer n i f

/-- The tables of an iteration have an entry for every node. -/
theorem Reaches.find?_ne_none (hn : n ∈ o.nodes) (h : a.Reaches o σ p) :
    p.input.find? n ≠ none ∧ p.output.find? n ≠ none := by
  induction h using Reaches.induct with
  | start =>
    have hne : (a.initialFacts o).find? n ≠ none := by
      rw [initialFacts, OrderedMap.find?_ofList_map, if_pos hn]
      simp
    exact ⟨hne, hne⟩
  | step p m rest _ _ ih =>
    simp only [Analysis.step, OrderedMap.find?_insert]
    split
    · simp
    · exact ih

/-! ## Accumulating inputs -/

variable [Preorder F]

/-- Meeting yields an upper bound, a transfer replaces the output by what `T` computes from the
input, and a transfer that reports no change has not raised the output. -/
structure Accumulates (a : Analysis F) (T : Node → F → F) : Prop where
  initial_le : ∀ f, a.initial ≤ f
  le_meetInto_left : ∀ f t, f ≤ a.meetInto f t
  le_meetInto_right : ∀ f t, t ≤ a.meetInto f t
  transfer_le : ∀ n i f, (a.transfer n i f).2 ≤ T n i
  le_transfer : ∀ n i f, T n i ≤ (a.transfer n i f).2
  le_of_unchanged : ∀ n i f, (a.transfer n i f).1 = false → (a.transfer n i f).2 ≤ f

variable {T : Node → F → F}

theorem Accumulates.inputAt_le_gather (ha : a.Accumulates T) (o : Orientation)
    (p : IterationState F) (n : Node) : a.inputAt p n ≤ a.gather o p n :=
  List.foldlRecOn (motive := fun f ↦ a.inputAt p n ≤ f) (o.prev n) _ le_rfl
    fun _ hf _ _ ↦ hf.trans (ha.le_meetInto_right _ _)

theorem Accumulates.outputAt_le_gather (ha : a.Accumulates T) {o : Orientation} {m : Node}
    (h : m ∈ o.prev n) : a.outputAt p m ≤ a.gather o p n := by
  have key : ∀ (l : List Node) (f : F), m ∈ l →
      a.outputAt p m ≤ l.foldl (fun f m ↦ a.meetInto (a.outputAt p m) f) f := by
    intro l
    induction l with
    | nil => simp
    | cons k l ih =>
      intro f hm
      rcases List.mem_cons.mp hm with rfl | hm
      · refine List.foldlRecOn (motive := fun f ↦ a.outputAt p m ≤ f) l _ ?_ ?_
        · exact ha.le_meetInto_left _ _
        · exact fun _ hf _ _ ↦ hf.trans (ha.le_meetInto_right _ _)
      · exact ih _ hm
  exact key _ _ h

/-- The output of a node is what its present input leads to. -/
def Computed (a : Analysis F) (T : Node → F → F) (p : IterationState F) (n : Node) : Prop :=
  a.outputAt p n ≤ T n (a.inputAt p n) ∧ T n (a.inputAt p n) ≤ a.outputAt p n

/-- The invariant of an iteration. -/
structure Consistent (a : Analysis F) (o : Orientation) (T : Node → F → F)
    (p : IterationState F) : Prop where
  /-- The start is never pending. -/
  start_notMem : o.start ∉ p.worklist
  /-- The start keeps the boundary fact. -/
  inputAt_start : a.inputAt p o.start = a.boundary
  outputAt_start : a.outputAt p o.start = a.boundary
  /-- An output has been computed, unless the node has been pending from the beginning. -/
  computed_or : ∀ n, n ≠ o.start →
    a.Computed T p n ∨ (a.outputAt p n = a.initial ∧ (n ∈ o.nodes → n ∈ p.worklist))
  /-- No output is lost on its way to a node that is not pending. -/
  covered : ∀ m n, n ∈ o.next m → n ∉ p.worklist → a.outputAt p m ≤ a.inputAt p n

theorem consistent_start (ho : o.WellFormed) (σ : Strategy) :
    a.Consistent o T (a.start o σ) := by
  have hmem : ∀ n, n ∈ (a.start o σ).worklist ↔ n ∈ o.nodes ∧ n ≠ o.start :=
    fun n ↦ mem_initialWorklist
  refine ⟨fun h ↦ ((hmem _).mp h).2 rfl, ?_, ?_, fun n hn ↦ Or.inr ⟨?_, ?_⟩, ?_⟩
  · rw [inputAt_start _ ho.start_mem_nodes, if_pos rfl]
  · rw [outputAt_start _ ho.start_mem_nodes, if_pos rfl]
  · rw [outputAt_start _ ho.start_mem_nodes, if_neg hn]
  · exact fun hnodes ↦ (hmem n).mpr ⟨hnodes, hn⟩
  · intro m n hnext hnot
    refine absurd ((hmem n).mpr ⟨ho.mem_nodes_of_mem_next hnext, ?_⟩) hnot
    rintro rfl
    exact ho.start_notMem_next m hnext

theorem Consistent.step (ha : a.Accumulates T) (ho : o.WellFormed) (hp : a.Consistent o T p)
    {rest : Worklist} (hpop : p.worklist.pop? = some (n, rest)) :
    a.Consistent o T (a.step o { p with worklist := rest } n) := by
  have hmem {k : Node} : k ∈ p.worklist ↔ k = n ∨ k ∈ rest := Worklist.mem_iff_of_pop? hpop
  have hn : n ≠ o.start := fun h ↦ hp.start_notMem (h ▸ hmem.mpr (Or.inl rfl))
  have hin : ∀ k, a.inputAt (a.step o { p with worklist := rest } n) k =
      if n = k then a.gather o p n else a.inputAt p k := inputAt_step
  have hout : ∀ k, a.outputAt (a.step o { p with worklist := rest } n) k =
      if n = k then (a.transfer n (a.gather o p n) (a.outputAt p n)).2 else a.outputAt p k :=
    outputAt_step
  have hwork {k : Node} : k ∈ (a.step o { p with worklist := rest } n).worklist ↔
      ((a.transfer n (a.gather o p n) (a.outputAt p n)).1 = true ∧ k ∈ o.next n) ∨ k ∈ rest :=
    mem_worklist_step
  refine ⟨?_, ?_, ?_, ?_, ?_⟩
  · rw [hwork]
    rintro (⟨-, h⟩ | h)
    · exact ho.start_notMem_next n h
    · exact hp.start_notMem (hmem.mpr (Or.inr h))
  · rw [hin, if_neg hn, hp.inputAt_start]
  · rw [hout, if_neg hn, hp.outputAt_start]
  · intro k hk
    rw [Computed, hin, hout, hwork]
    by_cases hnk : n = k
    · subst hnk
      rw [if_pos rfl, if_pos rfl]
      exact Or.inl ⟨ha.transfer_le _ _ _, ha.le_transfer _ _ _⟩
    · rw [if_neg hnk, if_neg hnk]
      refine (hp.computed_or k hk).imp_right fun h ↦ ⟨h.1, fun hnodes ↦ Or.inr ?_⟩
      exact (hmem.mp (h.2 hnodes)).resolve_left (Ne.symm hnk)
  · intro m k hnext hnot
    rw [hwork, not_or] at hnot
    -- the output of `m` is no higher than it was before the step, or has been met into `k`
    have hle : a.outputAt (a.step o { p with worklist := rest } n) m ≤ a.outputAt p m := by
      rw [hout]
      split
      · rename_i hnm
        subst hnm
        refine ha.le_of_unchanged _ _ _ (Bool.eq_false_iff.mpr fun hchanged ↦ ?_)
        exact hnot.1 ⟨hchanged, hnext⟩
      · exact le_rfl
    refine hle.trans ?_
    rw [hin]
    split
    · rename_i hnk
      subst hnk
      exact ha.outputAt_le_gather (ho.mem_prev_iff.mpr hnext)
    · rename_i hnk
      exact hp.covered m k hnext fun h ↦ hnot.2 ((hmem.mp h).resolve_left (Ne.symm hnk))

theorem Reaches.consistent (ha : a.Accumulates T) (ho : o.WellFormed) (h : a.Reaches o σ p) :
    a.Consistent o T p :=
  h.induct (consistent_start ho σ) fun _ _ _ _ hpop hp ↦ hp.step ha ho hpop

/-- Inputs only climb. -/
theorem inputAt_le_of_reflTransGen (ha : a.Accumulates T)
    (h : Relation.ReflTransGen (a.Advances o) p q) (n : Node) : a.inputAt p n ≤ a.inputAt q n := by
  induction h with
  | refl => exact le_rfl
  | tail _ hadv ih =>
    obtain ⟨m, rest, hpop, rfl⟩ := hadv
    refine ih.trans ?_
    rw [inputAt_step]
    split
    · rename_i hmn
      subst hmn
      exact ha.inputAt_le_gather o _ m
    · exact le_rfl

/-! ## Bounded inputs -/

theorem gather_le (hleast : ∀ f t u, f ≤ u → t ≤ u → a.meetInto f t ≤ u) {u : F}
    (hin : a.inputAt p n ≤ u) (hout : ∀ m ∈ o.prev n, a.outputAt p m ≤ u) :
    a.gather o p n ≤ u :=
  List.foldlRecOn (motive := fun f ↦ f ≤ u) (o.prev n) _ hin
    fun _ hf m hm ↦ hleast _ _ _ (hout m hm) hf

/-- Inputs stay below `I'` if every output does that arrives while they are. -/
theorem Reaches.inputAt_le (ha : a.Accumulates T)
    (hleast : ∀ f t u, f ≤ u → t ≤ u → a.meetInto f t ≤ u) (ho : o.WellFormed)
    {I' : Node → F} (harrive : ∀ p n rest, a.Reaches o σ p → p.worklist.pop? = some (n, rest) →
      (∀ k, k ≠ o.start → a.inputAt p k ≤ I' k) → ∀ m ∈ o.prev n, a.outputAt p m ≤ I' n)
    (h : a.Reaches o σ p) : ∀ n, n ≠ o.start → a.inputAt p n ≤ I' n := by
  induction h using Reaches.induct with
  | start =>
    intro n hn
    rw [inputAt_start n ho.start_mem_nodes, if_neg hn]
    exact ha.initial_le _
  | step p n rest hp hpop ih =>
    intro k hk
    rw [inputAt_step]
    split
    · rename_i hnk
      subst hnk
      exact gather_le hleast (ih n hk) (harrive p n rest hp hpop ih)
    · exact ih k hk

/-- A family of facts at the nodes of a graph that the outputs of an iteration may not exceed. -/
structure Solves (a : Analysis F) (o : Orientation) (T : Node → F → F) (I O : Node → F) : Prop where
  boundary_le : a.boundary ≤ O o.start
  transfer_le : ∀ n ∈ o.nodes, n ≠ o.start → T n (I n) ≤ O n
  output_le_input : ∀ m n, n ∈ o.next m → O m ≤ I n

/-- A monotone analysis stays below every solution. -/
theorem Reaches.le_of_solves (ha : a.Accumulates T)
    (hleast : ∀ f t u, f ≤ u → t ≤ u → a.meetInto f t ≤ u) (ho : o.WellFormed)
    (hmono : ∀ n f f', f ≤ f' → T n f ≤ T n f') {I O : Node → F} (hsolves : a.Solves o T I O)
    (h : a.Reaches o σ p) :
    (∀ n, n ≠ o.start → a.inputAt p n ≤ I n) ∧ ∀ n ∈ o.nodes, a.outputAt p n ≤ O n := by
  have hbelow : ∀ n, (n ≠ o.start → a.inputAt p n ≤ I n) ∧
      (n ∈ o.nodes → a.outputAt p n ≤ O n) := by
    refine h.forall_at (P := fun n f ↦ n ≠ o.start → f ≤ I n)
      (Q := fun n f ↦ n ∈ o.nodes → f ≤ O n) ho ?_ ?_ ?_ ?_
    · exact ⟨fun hne ↦ absurd rfl hne, fun _ ↦ hsolves.boundary_le⟩
    · exact fun n _ ↦ ⟨fun _ ↦ ha.initial_le _, fun _ ↦ ha.initial_le _⟩
    · intro m n f t hnext hf ht hne
      have hm : m ∈ o.nodes := ho.mem_nodes_of_mem_prev (ho.mem_prev_iff.mpr hnext)
      exact hleast f t _ ((hf hm).trans (hsolves.output_le_input m n hnext)) (ht hne)
    · intro n i f hn hne hi _ _
      calc (a.transfer n i f).2 ≤ T n i := ha.transfer_le n i f
        _ ≤ T n (I n) := hmono n _ _ (hi hne)
        _ ≤ O n := hsolves.transfer_le n hn hne
  exact ⟨fun n ↦ (hbelow n).1, fun n ↦ (hbelow n).2⟩

/-! ## The end of an iteration -/

/-- When no node is pending any more, the facts solve the equations of the analysis. -/
theorem Consistent.computed (hp : a.Consistent o T p) (hdone : p.worklist.pop? = none)
    (hn : n ∈ o.nodes) (hne : n ≠ o.start) : a.Computed T p n :=
  (hp.computed_or n hne).resolve_right fun h ↦
    Worklist.notMem_of_pop?_eq_none hdone n (h.2 hn)

theorem Consistent.outputAt_le_inputAt (hp : a.Consistent o T p)
    (hdone : p.worklist.pop? = none) {m : Node} (h : n ∈ o.next m) :
    a.outputAt p m ≤ a.inputAt p n :=
  hp.covered m n h (Worklist.notMem_of_pop?_eq_none hdone n)

/-- An iteration goes through a state once it has reached it, so what it meets into an input there
stays below that input at the end. -/
theorem Reaches.outputAt_le_inputAt_of_pop (ha : a.Accumulates T)
    (hp : a.Reaches o σ p) {rest : Worklist} (hpop : p.worklist.pop? = some (n, rest)) {m : Node}
    (hm : m ∈ o.prev n) (hq : a.Reaches o σ q) (hdone : q.worklist.pop? = none) :
    a.outputAt p m ≤ a.inputAt q n := by
  have hunique : Relator.RightUnique (a.Advances o) := by
    rintro p q q' ⟨n, rest, hpop, rfl⟩ ⟨n', rest', hpop', rfl⟩
    obtain ⟨rfl, rfl⟩ := Prod.mk.inj (Option.some.inj (hpop.symm.trans hpop'))
    rfl
  have hstop : ∀ p', ¬a.Advances o q p' := by
    rintro p' ⟨_, _, hpop', -⟩
    simp [hdone] at hpop'
  have hle : a.outputAt p m ≤ a.inputAt (a.step o { p with worklist := rest } n) n := by
    rw [inputAt_step_self]
    exact ha.outputAt_le_gather (p := { p with worklist := rest }) hm
  refine hle.trans (inputAt_le_of_reflTransGen (o := o) ha ?_ n)
  -- of two states of one iteration, one leads to the other, and nothing follows on `q`
  rcases Relation.ReflTransGen.total_of_right_unique hunique hp hq with h | h
  · rcases h.cases_head with rfl | ⟨p', hadv, h⟩
    · simp [hdone] at hpop
    · rwa [hunique ⟨n, rest, hpop, rfl⟩ hadv]
  · rcases h.cases_head with rfl | ⟨p', hadv, -⟩
    · simp [hdone] at hpop
    · exact absurd hadv (hstop p')

end Analysis

/-! ## Solutions -/

/-- The inputs of a solution. -/
def Solution.inputs (s : Solution F) : OrderedMap Node F :=
  match s.direction with
  | .forward => s.before
  | .backward => s.after

/-- The outputs of a solution. -/
def Solution.outputs (s : Solution F) : OrderedMap Node F :=
  match s.direction with
  | .forward => s.after
  | .backward => s.before

theorem Facts.beforeNode_eq_ok {t : Facts F} {n : Node} (h : t.before.find? n ≠ none) (d : F)
    (g : FlowGraph) : t.beforeNode g n = .ok (t.before.findD n d) := by
  rw [beforeNode, OrderedMap.find?_eq_some_findD d h]

theorem Facts.afterNode_eq_ok {t : Facts F} {n : Node} (h : t.after.find? n ≠ none) (d : F)
    (g : FlowGraph) : t.afterNode g n = .ok (t.after.findD n d) := by
  rw [afterNode, OrderedMap.find?_eq_some_findD d h]

namespace Analysis

theorem inputs_solution (a : Analysis F) (p : IterationState F) :
    (a.solution p).inputs = p.input := by
  rw [solution, Solution.inputs]
  cases a.direction <;> rfl

theorem outputs_solution (a : Analysis F) (p : IterationState F) :
    (a.solution p).outputs = p.output := by
  rw [solution, Solution.outputs]
  cases a.direction <;> rfl

theorem trace_solution (a : Analysis F) (p : IterationState F) :
    (a.solution p).trace = p.processed.reverse := by
  rw [solution]
  cases a.direction <;> rfl

variable {a : Analysis F} {g : FlowGraph} {it : Iteration} {s : Solution F}

/-- A solution holds the facts of the last state of an iteration. -/
theorem exists_reaches_of_solve? (h : a.solve? g it = some s) :
    ∃ p, a.Reaches (g.orient a.direction) it.strategy p ∧ p.worklist.pop? = none ∧
      s.direction = a.direction ∧ s.inputs = p.input ∧ s.outputs = p.output := by
  obtain ⟨p, hp, rfl⟩ := Option.map_eq_some_iff.mp h
  obtain ⟨hreach, hdone⟩ := reflTransGen_of_iterate hp
  refine ⟨p, hreach, hdone, ?_, inputs_solution a p, outputs_solution a p⟩
  rw [solution]
  cases a.direction <;> rfl

theorem exists_solve?_of_run {c : Configuration} {strategy : Option Strategy}
    (h : a.run g c strategy = .ok s) : ∃ it, a.solve? g it = some s := by
  rw [run] at h
  split at h
  · simp at h
  · split at h
    · rename_i hs
      exact ⟨_, Except.ok.inj h ▸ hs⟩
    · simp at h

end Analysis

end ProgramAnalysis
