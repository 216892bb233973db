import ProgramAnalysis.Proofs.StepBounds
import ProgramAnalysis.Proofs.WorklistOrder

/-!
# The facts of constant propagation over time

A run of the iteration passes through one state after another, whether it comes to its end or is
given up. In every one of them the facts are *tidy*: they bind only variables that are tracked, and
only to constants that are words, or to `varying`.

The input of a node is changed in place while the node is processed, by one predecessor after the
other. Its *history* lists all that it has been so far, these moments included. The history is a
chain, since meeting never loses anything, and values that climb in a flat lattice change at most
twice. None of this holds of outputs, which are replaced: a quotient that varies falls back to
`unseen` as soon as its divisor is known to be zero, and a variable that has climbed behind it stays
where it is.
-/

namespace ProgramAnalysis

variable {F : Type}

/-! ## States by the number of steps -/

namespace Analysis

variable {a : Analysis F} {o : Orientation} {σ : Strategy} {n : Node} {k : ℕ}

/-- Processes the next pending node, if there is one. -/
def advance (a : Analysis F) (o : Orientation) (p : IterationState F) : IterationState F :=
  match p.worklist.pop? with
  | none => p
  | some (n, rest) => a.step o { p with worklist := rest } n

/-- The state after `k` steps, or the last one if no node is pending any more before. -/
def stateAfter (a : Analysis F) (o : Orientation) (σ : Strategy) (k : ℕ) : IterationState F :=
  (a.advance o)^[k] (a.start o σ)

theorem advance_of_none {p : IterationState F} (h : p.worklist.pop? = none) :
    a.advance o p = p := by
  rw [advance, h]

theorem advance_of_some {p : IterationState F} {rest : Worklist}
    (h : p.worklist.pop? = some (n, rest)) :
    a.advance o p = a.step o { p with worklist := rest } n := by
  rw [advance, h]

theorem stateAfter_succ (k : ℕ) :
    a.stateAfter o σ (k + 1) = a.advance o (a.stateAfter o σ k) :=
  Function.iterate_succ_apply' _ _ _

/-- An iteration that is limited to `k` steps has a result if no node is pending after them. -/
theorem iterate_eq (k : ℕ) (p : IterationState F) : a.iterate o k p =
    if ((a.advance o)^[k] p).worklist.pop?.isNone then some ((a.advance o)^[k] p) else none := by
  induction k generalizing p with
  | zero => rfl
  | succ k ih =>
    rw [iterate, Function.iterate_succ_apply]
    cases hpop : p.worklist.pop? with
    | none =>
      rw [advance_of_none hpop, Function.iterate_fixed (advance_of_none hpop), hpop]
      rfl
    | some r =>
      rw [advance_of_some hpop]
      exact ih _

/-- A solution is read off the state after as many steps as the limit allows. -/
theorem solve?_eq (a : Analysis F) (g : FlowGraph) (it : Iteration) : a.solve? g it =
    if (a.stateAfter (g.orient a.direction) it.strategy it.limit.toNat).worklist.pop?.isNone then
      some (a.solution (a.stateAfter (g.orient a.direction) it.strategy it.limit.toNat))
    else none := by
  rw [solve?, iterate_eq, apply_ite (Option.map a.solution)]
  rfl

theorem reaches_stateAfter (k : ℕ) : a.Reaches o σ (a.stateAfter o σ k) := by
  induction k with
  | zero => exact .refl
  | succ k ih =>
    rw [stateAfter_succ]
    cases hpop : (a.stateAfter o σ k).worklist.pop? with
    | none => rwa [advance_of_none hpop]
    | some r => exact ih.tail ⟨r.1, r.2, hpop, advance_of_some hpop⟩

/-! ## What an input has been -/

/-- What the input of a node is, from one met output to the next, while the node is processed. -/
def gatherHistory (a : Analysis F) (o : Orientation) (p : IterationState F) (n : Node) : List F :=
  (o.prev n).scanl (fun f m ↦ a.meetInto (a.outputAt p m) f) (a.inputAt p n)

/-- All that the input of a node has been in the first `k` steps, the latest at the end. -/
def inputHistory (a : Analysis F) (o : Orientation) (σ : Strategy) (n : Node) : ℕ → List F
  | 0 => [a.inputAt (a.start o σ) n]
  | k + 1 => a.inputHistory o σ n k ++
      if (a.stateAfter o σ k).worklist.pop?.map Prod.fst = some n then
        a.gatherHistory o (a.stateAfter o σ k) n
      else []

theorem head?_gatherHistory (p : IterationState F) :
    (a.gatherHistory o p n).head? = some (a.inputAt p n) :=
  List.head?_scanl

theorem getLast?_gatherHistory (p : IterationState F) :
    (a.gatherHistory o p n).getLast? = some (a.gather o p n) :=
  List.getLast?_scanl

/-- A step appends to the history of the node that is processed, and to no other. -/
theorem inputHistory_succ (n : Node) (k : ℕ) :
    (a.inputAt (a.stateAfter o σ (k + 1)) n = a.inputAt (a.stateAfter o σ k) n ∧
      a.inputHistory o σ n (k + 1) = a.inputHistory o σ n k) ∨
    (a.inputAt (a.stateAfter o σ (k + 1)) n = a.gather o (a.stateAfter o σ k) n ∧
      a.inputHistory o σ n (k + 1) =
        a.inputHistory o σ n k ++ a.gatherHistory o (a.stateAfter o σ k) n) := by
  rw [stateAfter_succ, inputHistory]
  cases hpop : (a.stateAfter o σ k).worklist.pop? with
  | none =>
    left
    rw [advance_of_none hpop, if_neg (by simp)]
    exact ⟨rfl, List.append_nil _⟩
  | some r =>
    obtain ⟨m, rest⟩ := r
    rw [advance_of_some hpop, inputAt_step]
    simp only [Option.map_some, Option.some_inj]
    by_cases hm : m = n
    · subst hm
      right
      rw [if_pos rfl, if_pos rfl]
      exact ⟨rfl, rfl⟩
    · left
      rw [if_neg hm, if_neg hm]
      exact ⟨rfl, List.append_nil _⟩

/-- The history ends with what the input is now. -/
theorem getLast?_inputHistory (n : Node) (k : ℕ) :
    (a.inputHistory o σ n k).getLast? = some (a.inputAt (a.stateAfter o σ k) n) := by
  induction k with
  | zero => rfl
  | succ k ih =>
    rcases inputHistory_succ (a := a) (o := o) (σ := σ) n k with ⟨hin, hhist⟩ | ⟨hin, hhist⟩
    · rw [hin, hhist, ih]
    · rw [hin, hhist, List.getLast?_append, getLast?_gatherHistory, Option.some_or]

section Chain

variable [Preorder F] {T : Node → F → F}

theorem Accumulates.isChain_scanl (ha : a.Accumulates T) (out : Node → F) (f : F) (l : List Node) :
    (l.scanl (fun f m ↦ a.meetInto (out m) f) f).IsChain (· ≤ ·) := by
  induction l generalizing f with
  | nil => exact .singleton f
  | cons m l ih =>
    rw [List.scanl_cons, List.isChain_cons]
    refine ⟨fun f' hf' ↦ ?_, ih _⟩
    rw [List.head?_scanl] at hf'
    exact Option.mem_some.mp hf' ▸ ha.le_meetInto_right (out m) f

/-- The input of a node climbs from each moment to the next. -/
theorem Accumulates.isChain_inputHistory (ha : a.Accumulates T) (n : Node) (k : ℕ) :
    (a.inputHistory o σ n k).IsChain (· ≤ ·) := by
  induction k with
  | zero => exact .singleton _
  | succ k ih =>
    rcases inputHistory_succ (a := a) (o := o) (σ := σ) n k with ⟨-, hhist⟩ | ⟨-, hhist⟩
    · rwa [hhist]
    · rw [hhist, List.isChain_append]
      refine ⟨ih, ha.isChain_scanl _ _ _, fun f hf f' hf' ↦ ?_⟩
      rw [getLast?_inputHistory] at hf
      rw [head?_gatherHistory] at hf'
      rw [← Option.mem_some.mp hf, ← Option.mem_some.mp hf']

theorem Accumulates.monotone_inputAt (ha : a.Accumulates T) (n : Node) :
    Monotone fun k ↦ a.inputAt (a.stateAfter o σ k) n := by
  refine monotone_nat_of_le_succ fun k ↦ ?_
  rcases inputHistory_succ (a := a) (o := o) (σ := σ) n k with ⟨hin, -⟩ | ⟨hin, -⟩
  · rw [hin]
  · rw [hin]
    exact ha.inputAt_le_gather o _ n

end Chain

/-- What holds of all inputs and outputs, and survives a meeting, holds of all that an input has
been. -/
theorem forall_mem_inputHistory {P : F → Prop}
    (hfacts : ∀ p, a.Reaches o σ p → ∀ m, P (a.inputAt p m) ∧ P (a.outputAt p m))
    (hmeet : ∀ f t, P f → P t → P (a.meetInto f t)) (n : Node) (k : ℕ) :
    ∀ f ∈ a.inputHistory o σ n k, P f := by
  have hscanl : ∀ (out : Node → F) (l : List Node) (f : F), (∀ m, P (out m)) → P f →
      ∀ f' ∈ l.scanl (fun f m ↦ a.meetInto (out m) f) f, P f' := by
    intro out l
    induction l with
    | nil => exact fun f _ hf f' hf' ↦ List.mem_singleton.mp hf' ▸ hf
    | cons m l ih =>
      intro f hout hf f' hf'
      rw [List.scanl_cons, List.mem_cons] at hf'
      rcases hf' with rfl | hf'
      · exact hf
      · exact ih _ hout (hmeet _ _ (hout m) hf) f' hf'
  induction k with
  | zero => exact fun f hf ↦ List.mem_singleton.mp hf ▸ (hfacts _ .refl n).1
  | succ k ih =>
    rcases inputHistory_succ (a := a) (o := o) (σ := σ) n k with ⟨-, hhist⟩ | ⟨-, hhist⟩
    · rwa [hhist]
    · have hk := hfacts _ (reaches_stateAfter (a := a) (o := o) (σ := σ) k)
      intro f hf
      rw [hhist, List.mem_append] at hf
      rcases hf with hf | hf
      · exact ih f hf
      · exact hscanl _ _ _ (fun m ↦ (hk m).2) (hk n).1 f hf

end Analysis

/-! ## How often a value changes -/

/-- How often a list passes from one member to a different one. -/
def changes {α : Type} [DecidableEq α] : List α → ℕ
  | v :: w :: l => (if v = w then 0 else 1) + changes (w :: l)
  | _ => 0

/-- Canonical values that climb change at most twice, and less often if they begin higher up. -/
theorem Value.changes_add_level_le {v : Value} {l : List Value}
    (hcanonical : ∀ w ∈ v :: l, w.Canonical) (hchain : (v :: l).IsChain (· ≤ ·)) :
    changes (v :: l) + v.level ≤ 2 := by
  induction l generalizing v with
  | nil =>
    rw [changes, Nat.zero_add]
    · exact v.level_le_two
    · simp
  | cons w l ih =>
    obtain ⟨hle, hchain⟩ := List.isChain_cons_cons.mp hchain
    have hrest := ih (fun u hu ↦ hcanonical u (List.mem_cons_of_mem v hu)) hchain
    rw [changes]
    split
    · rename_i heq
      rw [heq, Nat.zero_add]
      exact hrest
    · rename_i hne
      have hlt : v.level < w.level := by
        refine level_lt_of_not_ge hle fun hge ↦ hne ?_
        exact eq_of_le_of_le (hcanonical v List.mem_cons_self)
          (hcanonical w (List.mem_cons_of_mem v List.mem_cons_self)) hle hge
      omega

theorem Value.changes_le_two {l : List Value} (hcanonical : ∀ w ∈ l, w.Canonical)
    (hchain : l.IsChain (· ≤ ·)) : changes l ≤ 2 := by
  cases l with
  | nil => exact Nat.zero_le 2
  | cons v l => exact (Nat.le_add_right _ _).trans (changes_add_level_le hcanonical hchain)

/-! ## Tidy facts -/

namespace ConstantPropagation

variable {g : FlowGraph} {f : ConstFact}

/-- What each binding of a fact has to be like. -/
structure Tidy (g : FlowGraph) (f : ConstFact) : Prop where
  isUndef_eq_false : ∀ x v, f.bindings.find? x = some v → v.isUndef = false
  inRange : ∀ x c, f.bindings.find? x = some (.constant c) → Word32.InRange c
  holdsInt : ∀ x v, f.bindings.find? x = some v → x.holdsInt = true
  param_or_defined : ∀ x v, f.bindings.find? x = some v →
    x ∈ g.body.params ∨ ∃ n ∈ g.nodes, (g.stmtAt n).defines = some x

theorem Tracking.tidy (hf : Tracking g f) : Tidy g f := by
  have htracked : ∀ x v, f.bindings.find? x = some v → x ∈ tracked g := by
    intro x v hx
    by_contra hnot
    have hnone := hf.canonical.find?_eq_none_iff.mpr (hf.get_eq x hnot)
    simp [hx] at hnone
  exact
    { isUndef_eq_false := fun x v hx ↦ (hf.canonical x v hx).2
      inRange := fun x c hx ↦ (hf.canonical x (.constant c) hx).1
      holdsInt := fun x v hx ↦ (mem_tracked.mp (htracked x v hx)).2
      param_or_defined := fun x v hx ↦ (mem_tracked.mp (htracked x v hx)).1 }

theorem tracking_of_mem_inputHistory (hg : g.Mirrored) (σ : Strategy) (n : Node) (k : ℕ) :
    ∀ f ∈ (analysis g).inputHistory (g.orient .forward) σ n k, Tracking g f :=
  Analysis.forall_mem_inputHistory (fun _ hp m ↦ tracking_of_reaches hg hp m)
    (fun _ _ hf ht ↦ hf.meetInto ht) n k

/-- Constant propagation under a strategy, at any time of its run. -/
structure Orderly (g : FlowGraph) (σ : Strategy) : Prop where
  /-- The states are those that an iteration passes through, whether or not it has a result. -/
  solve?_eq : ∀ limit : ℤ, (analysis g).solve? g ⟨σ, limit⟩ =
    let p := (analysis g).stateAfter (g.orient .forward) σ limit.toNat
    if p.worklist.pop?.isNone then some ((analysis g).solution p) else none
  tidy_input : ∀ k n,
    Tidy g ((analysis g).inputAt ((analysis g).stateAfter (g.orient .forward) σ k) n)
  tidy_output : ∀ k n,
    Tidy g ((analysis g).outputAt ((analysis g).stateAfter (g.orient .forward) σ k) n)
  /-- From state to state, what is known about a variable before a node only climbs. -/
  monotone_input : ∀ n x, Monotone fun k ↦
    ((analysis g).inputAt ((analysis g).stateAfter (g.orient .forward) σ k) n).get x
  /-- The history of an input ends with what it is now. -/
  getLast?_history : ∀ n k, ((analysis g).inputHistory (g.orient .forward) σ n k).getLast? =
    some ((analysis g).inputAt ((analysis g).stateAfter (g.orient .forward) σ k) n)
  tidy_history : ∀ n k, ∀ f ∈ (analysis g).inputHistory (g.orient .forward) σ n k, Tidy g f
  /-- Inside a step, too, it only climbs, and in all it changes at most twice. -/
  isChain_history : ∀ n k x,
    (((analysis g).inputHistory (g.orient .forward) σ n k).map (·.get x)).IsChain (· ≤ ·)
  changes_history_le : ∀ n k x,
    changes (((analysis g).inputHistory (g.orient .forward) σ n k).map (·.get x)) ≤ 2

end ConstantPropagation

open ConstantPropagation

/-- On every graph and under every strategy, all facts are tidy at all times, and what is known
about a variable before a node climbs and changes at most twice. -/
theorem FlowGraph.Built.orderly {g : FlowGraph} (hg : g.Built) (σ : Strategy) : Orderly g σ := by
  have htracking (k : ℕ) (n : Node) :=
    tracking_of_reaches hg.mirrored (Analysis.reaches_stateAfter (σ := σ) k) n
  have hhistory (n : Node) (k : ℕ) := tracking_of_mem_inputHistory hg.mirrored σ n k
  have hchain (n : Node) (k : ℕ) (x : Var) :
      (((analysis g).inputHistory (g.orient .forward) σ n k).map (·.get x)).IsChain (· ≤ ·) := by
    rw [List.isChain_map]
    exact ((accumulates g).isChain_inputHistory n k).imp fun _ _ hle ↦ hle x
  exact
    { solve?_eq := fun limit ↦ (analysis g).solve?_eq g ⟨σ, limit⟩
      tidy_input := fun k n ↦ (htracking k n).1.tidy
      tidy_output := fun k n ↦ (htracking k n).2.tidy
      monotone_input := fun n x j k hjk ↦ (accumulates g).monotone_inputAt n hjk x
      getLast?_history := fun n k ↦ Analysis.getLast?_inputHistory n k
      tidy_history := fun n k f hf ↦ (hhistory n k f hf).tidy
      isChain_history := hchain
      changes_history_le := fun n k x ↦ by
        refine Value.changes_le_two (fun v hv ↦ ?_) (hchain n k x)
        obtain ⟨f, hf, rfl⟩ := List.mem_map.mp hv
        exact (hhistory n k f hf).canonical.get x }

/-- In the order in which they arrive, the second step finds that the quotient in `lateDivisor`
varies, and the tenth that it has no value. Behind the division `q` varies all the same. -/
theorem DeadCode.orderly_lateDivisor :
    Orderly lateDivisor .fifo ∧
      (let a := analysis lateDivisor
      let o := lateDivisor.orient .forward
      (a.outputAt (a.stateAfter o .fifo 2) (.stmt 1)).get ⟨"q", .int⟩ = .varying ∧
        (a.outputAt (a.stateAfter o .fifo 10) (.stmt 1)).get ⟨"q", .int⟩ = .unseen ∧
        (a.inputAt (a.stateAfter o .fifo 3) (.stmt 2)).get ⟨"q", .int⟩ = .varying ∧
        (a.inputAt (a.stateAfter o .fifo 10) (.stmt 2)).get ⟨"q", .int⟩ = .varying) :=
  ⟨built_lateDivisor.orderly .fifo, by decide +kernel, by decide +kernel, by decide +kernel,
    by decide +kernel⟩

end ProgramAnalysis
