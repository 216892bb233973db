import Mathlib.Algebra.BigOperators.Ring.Finset
import ProgramAnalysis.Proofs.Iteration

/-!
# How many steps an iteration takes

Outputs may go down again, so they cannot measure the progress of an iteration. Inputs only climb.
If they climb through finitely many levels, a node can report only so many changes: one with the
first input that it is processed with, and after that one each time its input has reached a higher
level, since a node that is processed again with an input of the same level has nothing new to
report.

## The measure

Every step takes a node out of the worklist, and a change puts in at most the nodes behind it. What
an iteration has yet to do is therefore bounded by the pending nodes, plus for every node as many
more as there are nodes behind it, for each change that it can still report. This drops with every
step, whichever node the strategy picks, and its value at the beginning can be read off the graph:
one for every node except the start, and one more than there are levels for every edge.
-/

namespace ProgramAnalysis

variable {F : Type}

/-! ## Counting nodes and edges -/

namespace FlowGraph

end FlowGraph

/-! ## What the pending nodes weigh -/

namespace Worklist

/-- The sum of what `f` gives to the pending nodes. -/
def weight (w : Worklist) (f : Node → ℕ) : ℕ := (w.pending.map fun e ↦ f e.2).sum

theorem weight_push_le (w : Worklist) (f : Node → ℕ) (n : Node) :
    (w.push n).weight f ≤ w.weight f + f n := by
  by_cases h : n ∈ w
  · rw [push_of_mem h]
    omega
  · obtain ⟨r, hperm⟩ := exists_perm_push h
    have hsum : (w.push n).weight f = (((r, n) :: w.pending).map fun e ↦ f e.2).sum :=
      (hperm.map _).sum_nat
    rw [hsum, List.map_cons, List.sum_cons, Nat.add_comm]
    exact Nat.le_refl _

theorem weight_pushAll_le (w : Worklist) (f : Node → ℕ) (l : List Node) :
    (w.pushAll l).weight f ≤ w.weight f + (l.map f).sum := by
  induction l generalizing w with
  | nil => exact Nat.le_refl _
  | cons n l ih =>
    have hpush := weight_push_le w f n
    have hrest : ((w.push n).pushAll l).weight f ≤ (w.push n).weight f + (l.map f).sum := ih _
    change ((w.push n).pushAll l).weight f ≤ _
    rw [List.map_cons, List.sum_cons]
    omega

theorem weight_of_pop? {w rest : Worklist} {n : Node} (f : Node → ℕ)
    (h : w.pop? = some (n, rest)) : w.weight f = f n + rest.weight f := by
  obtain ⟨r, hr⟩ := exists_pending_of_pop? h
  rw [weight, hr, List.map_cons, List.sum_cons, weight]

/-- Where every node has the same weight, the nodes are counted. -/
theorem weight_one (w : Worklist) : w.weight (fun _ ↦ 1) = w.pending.length := by
  rw [weight, List.map_const', List.sum_replicate_nat, Nat.mul_one]

end Worklist

namespace Analysis

variable {a : Analysis F} {o : Orientation} {σ : Strategy} {p : IterationState F} {n : Node}

/-- At first every node but the start is pending, once. -/
theorem weight_initialWorklist (o : Orientation) (σ : Strategy) (f : Node → ℕ) :
    (initialWorklist o σ).weight f = ∑ n ∈ o.nodes.toFinset.erase o.start, f n := by
  have hpending : ((initialWorklist o σ).pending.map Prod.snd).toFinset =
      o.nodes.toFinset.erase o.start := by
    ext n
    rw [List.mem_toFinset, List.mem_map, ← Worklist.mem_iff, mem_initialWorklist,
      Finset.mem_erase, List.mem_toFinset, and_comm]
  rw [← hpending, List.sum_toFinset _ (nodup_initialWorklist o σ), List.map_map]
  rfl

theorem length_initialWorklist (ho : o.WellFormed) (σ : Strategy) :
    (initialWorklist o σ).pending.length = o.nodes.toFinset.card - 1 := by
  have hstart : o.start ∈ o.nodes.toFinset := List.mem_toFinset.mpr ho.start_mem_nodes
  rw [← Worklist.weight_one, weight_initialWorklist, ← Finset.card_eq_sum_ones,
    Finset.card_erase_of_mem hstart]

/-- A step puts in the nodes behind the processed one, if there is a change at all. -/
theorem weight_worklist_step_le (f : Node → ℕ) :
    (a.step o p n).worklist.weight f ≤ p.worklist.weight f +
      (if (a.transfer n (a.gather o p n) (a.outputAt p n)).1 then 1 else 0) *
        ((o.next n).map f).sum := by
  change (if (a.transfer n (a.gather o p n) (a.outputAt p n)).1 = true
    then p.worklist.pushAll (o.next n) else p.worklist).weight f ≤ _
  split
  · rw [Nat.one_mul]
    exact Worklist.weight_pushAll_le _ _ _
  · omega

/-! ## What an iteration costs -/

/-- Every step of an iteration lowers `μ`. -/
def Lowers (a : Analysis F) (o : Orientation) (σ : Strategy) (μ : IterationState F → ℕ) : Prop :=
  ∀ p n rest, a.Reaches o σ p → p.worklist.pop? = some (n, rest) →
    μ (a.step o { p with worklist := rest } n) < μ p

variable {μ : IterationState F → ℕ}

/-- Steps taken and steps left never add up to more than what was left at the beginning. -/
theorem Lowers.length_processed_add_le (hμ : a.Lowers o σ μ) (h : a.Reaches o σ p) :
    p.processed.length + μ p ≤ μ (a.start o σ) := by
  induction h using Reaches.induct with
  | start => exact (Nat.zero_add _).le
  | step p n rest hp hpop ih =>
    have hlt := hμ p n rest hp hpop
    change p.processed.length + 1 + _ ≤ _
    omega

/-- An iteration that may take as many steps as are left comes to its end. -/
theorem Lowers.exists_iterate (hμ : a.Lowers o σ μ) {limit : ℕ} (h : a.Reaches o σ p)
    (hlimit : μ p ≤ limit) : ∃ q, a.iterate o limit p = some q := by
  induction limit generalizing p with
  | zero =>
    rw [iterate]
    cases hpop : p.worklist.pop? with
    | none => exact ⟨p, rfl⟩
    | some r =>
      have hlt := hμ p r.1 r.2 h hpop
      omega
  | succ limit ih =>
    rw [iterate]
    cases hpop : p.worklist.pop? with
    | none => exact ⟨p, rfl⟩
    | some r =>
      obtain ⟨n, rest⟩ := r
      have hlt := hμ p n rest h hpop
      exact ih (h.tail ⟨n, rest, hpop, rfl⟩) (by omega)

theorem steps_solution (a : Analysis F) (p : IterationState F) :
    (a.solution p).steps = p.processed.length := by
  rw [Solution.steps, trace_solution, List.length_reverse]

/-- Whatever the strategy, no iteration takes more steps than the bound, and it comes to its end if
its limit is no lower than that. -/
structure ConvergesWithin (a : Analysis F) (g : FlowGraph) (bound : ℕ) : Prop where
  length_processed_le : ∀ σ p, a.Reaches (g.orient a.direction) σ p → p.processed.length ≤ bound
  steps_le : ∀ it s, a.solve? g it = some s → s.steps ≤ bound
  exists_solve? : ∀ it : Iteration, (bound : ℤ) ≤ it.limit → ∃ s, a.solve? g it = some s
  exists_run : ∀ (c : Configuration) (it : Iteration) (strategy : Option Strategy),
    c.iteration = .ok it → (bound : ℤ) ≤ it.limit → ∃ s, a.run g c strategy = .ok s

theorem convergesWithin_of_lowers {g : FlowGraph}
    (hμ : ∀ σ, a.Lowers (g.orient a.direction) σ μ) {bound : ℕ}
    (hbound : ∀ σ, μ (a.start (g.orient a.direction) σ) ≤ bound) : a.ConvergesWithin g bound := by
  have hreached : ∀ σ p, a.Reaches (g.orient a.direction) σ p → p.processed.length ≤ bound := by
    intro σ p hp
    have hadd := (hμ σ).length_processed_add_le hp
    have hle := hbound σ
    omega
  have hsolve : ∀ it : Iteration, (bound : ℤ) ≤ it.limit → ∃ s, a.solve? g it = some s := by
    intro it hit
    have hlimit : bound ≤ it.limit.toNat := by omega
    obtain ⟨q, hq⟩ := (hμ it.strategy).exists_iterate .refl ((hbound it.strategy).trans hlimit)
    refine ⟨a.solution q, ?_⟩
    rw [solve?, hq]
    rfl
  refine ⟨hreached, ?_, hsolve, ?_⟩
  · intro it s h
    obtain ⟨p, hp, rfl⟩ := Option.map_eq_some_iff.mp h
    rw [steps_solution]
    exact hreached it.strategy p (reflTransGen_of_iterate hp).1
  · intro c it strategy hit hle
    obtain ⟨s, hs⟩ := hsolve { it with strategy := strategy.getD it.strategy } hle
    refine ⟨s, ?_⟩
    rw [run, hit]
    simp only [hs]

/-! ## The measure -/

variable {level : F → ℕ} {height : ℕ}

variable [Preorder F]

variable {T : Node → F → F} {P : F → Prop}

end Analysis

end ProgramAnalysis
