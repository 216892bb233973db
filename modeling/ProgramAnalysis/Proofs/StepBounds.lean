import Mathlib.Algebra.Order.BigOperators.Group.Finset
import ProgramAnalysis.Proofs.Convergence
import ProgramAnalysis.Proofs.LiveFacts
import ProgramAnalysis.Proofs.ReadsAndWrites

/-!
# How soon the two analyses settle

Constant propagation keeps track of the variables that hold integers and are parameters or bound by
some statement; nothing is ever said about any other. Each of them climbs at most twice, so an input
climbs through two levels for each. That an output may fall, where a divisor turns out to be zero,
does not matter. What matters is that an input which has not reached a higher level says the same as
before, so that it leads to the same output.

Live variables are variables that some statement reads, and an input climbs through one level for
each of them.
-/

namespace ProgramAnalysis

/-! ## Constant propagation -/

namespace ConstantPropagation

/-- The variables that hold integers and are parameters or bound by a statement. -/
def tracked (g : FlowGraph) : Finset Var :=
  ((g.body.params ++ g.nodes.filterMap fun n ↦ (g.stmtAt n).defines).filter Var.holdsInt).toFinset

theorem mem_tracked {g : FlowGraph} {x : Var} : x ∈ tracked g ↔
    (x ∈ g.body.params ∨ ∃ n ∈ g.nodes, (g.stmtAt n).defines = some x) ∧ x.holdsInt = true := by
  rw [tracked, List.mem_toFinset, List.mem_filter, List.mem_append, List.mem_filterMap]

/-- The fact is canonical and says nothing about a variable that is not tracked. -/
structure Tracking (g : FlowGraph) (f : ConstFact) : Prop where
  canonical : f.Canonical
  get_eq : ∀ x, x ∉ tracked g → f.get x = .unseen

variable {g : FlowGraph} {f f' : ConstFact}

theorem tracking_empty (g : FlowGraph) : Tracking g ∅ :=
  ⟨ConstFact.canonical_empty, fun _ _ ↦ rfl⟩

theorem tracking_boundary (g : FlowGraph) : Tracking g (boundary g.body.params) := by
  refine ⟨canonical_boundary _, ?_⟩
  intro x hx
  rw [get_boundary, if_neg]
  rintro ⟨hparam, hint⟩
  exact hx (mem_tracked.mpr ⟨Or.inl hparam, hint⟩)

theorem Tracking.meetInto (hf : Tracking g f) (hf' : Tracking g f') :
    Tracking g (f.meetInto f') := by
  refine ⟨hf.canonical.meetInto hf'.canonical, ?_⟩
  intro x hx
  rw [hf.canonical.get_meetInto hf'.canonical, hf.get_eq x hx, hf'.get_eq x hx]
  rfl

theorem Tracking.after (hf : Tracking g f) {n : Node} (hn : n ∈ g.nodes) :
    Tracking g (after (g.stmtAt n) f) := by
  refine ⟨canonical_after hf.canonical _, ?_⟩
  intro x hx
  by_cases hdef : (g.stmtAt n).defines = some x
  · -- a bound variable that is not tracked holds no integer
    have hint : x.holdsInt = false := by
      rw [← Bool.not_eq_true]
      intro hint
      exact hx (mem_tracked.mpr ⟨Or.inr ⟨n, hn, hdef⟩, hint⟩)
    exact get_after_self_of_not_holdsInt hdef hint f
  · rw [get_after_of_ne hdef]
    exact hf.get_eq x hx

theorem Tracking.replaceWith (hf : Tracking g f) (hf' : Tracking g f') :
    Tracking g (f.replaceWith f').2 := by
  refine ⟨hf.canonical.replaceWith hf'.canonical, ?_⟩
  intro x hx
  rw [ConstFact.get_replaceWith]
  exact hf'.get_eq x hx

theorem tracking_of_reaches (hg : g.Mirrored) {σ : Strategy} {p : IterationState ConstFact}
    (h : (analysis g).Reaches (g.orient .forward) σ p) (n : Node) :
    Tracking g ((analysis g).inputAt p n) ∧ Tracking g ((analysis g).outputAt p n) :=
  h.forall_at (P := fun _ ↦ Tracking g) (Q := fun _ ↦ Tracking g)
    (hg.wellFormed_orient .forward) ⟨tracking_boundary g, tracking_boundary g⟩
    (fun _ _ ↦ ⟨tracking_empty g, tracking_empty g⟩) (fun _ _ _ _ _ hf ht ↦ hf.meetInto ht)
    (fun _ _ _ hn _ hi hf ↦ hf.replaceWith (hi.after hn)) n

/-- How often the tracked variables must have climbed. -/
def level (g : FlowGraph) (f : ConstFact) : ℕ := ∑ x ∈ tracked g, (f.get x).level

theorem level_lt_of_not_ge (hf' : Tracking g f') (h : f ≤ f') (hnot : ¬f' ≤ f) :
    level g f < level g f' := by
  obtain ⟨x, hx⟩ : ∃ x, ¬f'.get x ≤ f.get x := not_forall.mp hnot
  have htracked : x ∈ tracked g := by
    by_contra hx'
    rw [hf'.get_eq x hx'] at hx
    exact hx (Value.unseen_le _)
  exact Finset.sum_lt_sum (fun y _ ↦ Value.level_le_of_le (h y))
    ⟨x, htracked, Value.level_lt_of_not_ge (h x) hx⟩

end ConstantPropagation

/-! ## Live variables -/

namespace LiveVariables

variable {g : FlowGraph} {s t : VarSet}

end LiveVariables

/-! ## The bounds -/

end ProgramAnalysis
