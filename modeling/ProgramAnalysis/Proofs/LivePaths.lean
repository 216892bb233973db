import ProgramAnalysis.Proofs.LiveFacts

/-!
# Live means read later

A variable is live after a node if and only if some path leads from there to a statement that reads
it, and no statement on the way binds it. The graph may have loops, code that is never reached, and
nodes from which the exit is out of reach.

That a variable is live only if there is a path is an invariant of the iteration: a node passes on a
variable that it reads itself or a path behind it leads to, and the node before it can put the edge
between them in front of that path. No path gets lost, because at the end the facts solve the
equations; the variable is followed backwards from the node that reads it.
-/

namespace ProgramAnalysis.LiveVariables

/-- A path of at least one edge leads from the node to one that reads the variable, and no node
strictly between the two binds it. -/
def ReadLater (g : FlowGraph) (x : Var) (n : Node) : Prop :=
  ∃ path m, (n :: (path ++ [m])).IsChain (fun k l ↦ l ∈ g.succs k) ∧
    (∀ k ∈ path, (g.stmtAt k).defines ≠ some x) ∧ x ∈ (g.stmtAt m).uses

variable {g : FlowGraph} {x : Var} {n m : Node}

/-- A path can be extended to the front. -/
theorem readLater_of_mem_succs (hsucc : m ∈ g.succs n)
    (hx : x ∈ (g.stmtAt m).uses ∨ (ReadLater g x m ∧ (g.stmtAt m).defines ≠ some x)) :
    ReadLater g x n := by
  rcases hx with huse | ⟨⟨path, k, hpath, hkept, huse⟩, hdef⟩
  · refine ⟨[], m, ?_, by simp, huse⟩
    exact List.isChain_cons_cons.mpr ⟨hsucc, List.IsChain.singleton m⟩
  · refine ⟨m :: path, k, List.isChain_cons_cons.mpr ⟨hsucc, hpath⟩, ?_, huse⟩
    exact List.forall_mem_cons.mpr ⟨hdef, hkept⟩

/-! ## No path is made up -/

/-- Throughout an iteration, whatever is live is read later. -/
theorem readLater_of_reaches (hg : g.Mirrored) {σ : Strategy} {p : IterationState VarSet}
    (h : (analysis g).Reaches (g.orient .backward) σ p) (n : Node) :
    ∀ x ∈ (analysis g).inputAt p n, ReadLater g x n := by
  have hempty {P : Var → Prop} : ∀ x ∈ (∅ : VarSet), P x := fun x hx ↦
    absurd hx (VarSet.not_mem_empty x)
  have hfacts := h.forall_at (P := fun n s ↦ ∀ x ∈ s, ReadLater g x n)
    (Q := fun n s ↦ ∀ x ∈ s, x ∈ (g.stmtAt n).uses ∨
      (ReadLater g x n ∧ (g.stmtAt n).defines ≠ some x)) (hg.wellFormed_orient .backward) ?_ ?_ ?_ ?_
  · exact (hfacts n).1
  · exact ⟨hempty, hempty⟩
  · exact fun _ _ ↦ ⟨hempty, hempty⟩
  · intro m n s t hnext hs ht x hx
    rcases mem_meetInto.mp hx with hx | hx
    · exact readLater_of_mem_succs (hg.mem_succs_iff_mem_preds.mpr hnext) (hs x hx)
    · exact ht x hx
  · intro n i s _ _ hi _ x hx
    rcases mem_before.mp (VarSet.mem_copyFrom.mp hx) with huse | ⟨hlive, hdef⟩
    · exact Or.inl huse
    · exact Or.inr ⟨hi x hlive, hdef⟩

/-! ## No path is lost -/

/-- What a successor reads or lets through is live after the node. -/
theorem Solved.mem_liveAfter_of_mem_succs (hg : g.Mirrored) {t : Facts VarSet} (ht : Solved g t)
    (hsucc : m ∈ g.succs n)
    (hx : x ∈ (g.stmtAt m).uses ∨ (x ∈ liveAfter t m ∧ (g.stmtAt m).defines ≠ some x)) :
    x ∈ liveAfter t n :=
  ht.flows n m hsucc x (ht.mem_liveBefore (hg.mem_nodes_of_mem_succs hsucc).2 hx)

theorem Solved.mem_liveAfter_of_readLater (hg : g.Mirrored) {t : Facts VarSet} (ht : Solved g t)
    (hx : ReadLater g x n) : x ∈ liveAfter t n := by
  obtain ⟨path, m, hpath, hkept, huse⟩ := hx
  -- along the path, whose first node may be any
  induction path generalizing n with
  | nil =>
    have hsucc : m ∈ g.succs n := (List.isChain_cons_cons.mp hpath).1
    exact ht.mem_liveAfter_of_mem_succs hg hsucc (Or.inl huse)
  | cons k path ih =>
    obtain ⟨hsucc, hrest⟩ := List.isChain_cons_cons.mp hpath
    obtain ⟨hdef, hkept⟩ := List.forall_mem_cons.mp hkept
    exact ht.mem_liveAfter_of_mem_succs hg hsucc (Or.inr ⟨ih hrest hkept, hdef⟩)

/-! ## Exactness -/

/-- The facts of a solution are exact. Live after a node is what a path from there reads before it
is bound again; live before the node is what it reads, and of the variables live after it those that
it does not bind. -/
theorem mem_live_iff (hg : g.Built) {it : Iteration} {s : Solution VarSet}
    (h : (analysis g).solve? g it = some s) (hn : n ∈ g.nodes) :
    ∃ before after, s.beforeNode g n = .ok before ∧ s.afterNode g n = .ok after ∧
      ∀ x, (x ∈ after ↔ ReadLater g x n) ∧
        (x ∈ before ↔
          x ∈ (g.stmtAt n).uses ∨ (x ∈ after ∧ (g.stmtAt n).defines ≠ some x)) := by
  have ht := solved_of_solve? hg.mirrored h
  obtain ⟨p, hreach, -, -, hafter⟩ := exists_state_of_solve? h
  refine ⟨liveBefore s.toFacts n, liveAfter s.toFacts n, ht.beforeNode_eq_ok hn,
    ht.afterNode_eq_ok hn, ?_⟩
  intro x
  constructor
  · constructor
    · intro hx
      rw [liveAfter, hafter] at hx
      exact readLater_of_reaches hg.mirrored hreach n x hx
    · exact ht.mem_liveAfter_of_readLater hg.mirrored
  · constructor
    · intro hx
      by_cases hexit : n = g.exit
      · -- the exit is never processed, and keeps the empty set
        rw [hexit, ht.before_exit] at hx
        exact absurd hx (VarSet.not_mem_empty x)
      · exact mem_before.mp (ht.before_le n hn hexit x hx)
    · exact ht.mem_liveBefore hn

/-- In the small loop, `i` is live after its own increment, since the condition reads it. It is not
live after the entry, so no path from there, however often it goes round, reads `i` before it is
bound. -/
theorem mem_live_iff_countingLoop :
    (∃ s after, (analysis .countingLoop).solve? .countingLoop ⟨.fifo, 100⟩ = some s ∧
      s.afterNode .countingLoop (.stmt 2) = .ok after ∧ ⟨"i", .int⟩ ∈ after) ∧
    ¬ReadLater .countingLoop ⟨"i", .int⟩ .entry := by
  have hrun : (((analysis .countingLoop).solve? .countingLoop ⟨.fifo, 100⟩).map fun s ↦
      (s.afterNode .countingLoop .entry).toOption.map VarSet.members) =
        some (some [⟨"p", .int⟩]) := by decide +kernel
  obtain ⟨s, hs, hentry⟩ := Option.map_eq_some_iff.mp hrun
  constructor
  · obtain ⟨before, after, -, hafter, hlive⟩ :=
      mem_live_iff (n := .stmt 2) FlowGraph.built_countingLoop hs (by decide +kernel)
    have hpath : ReadLater .countingLoop ⟨"i", .int⟩ (.stmt 2) :=
      ⟨[], .stmt 1, by decide +kernel, by decide +kernel, by decide +kernel⟩
    exact ⟨s, after, hs, hafter, (hlive _).1.mpr hpath⟩
  · obtain ⟨before, after, -, hafter, hlive⟩ :=
      mem_live_iff (n := .entry) FlowGraph.built_countingLoop hs (by decide +kernel)
    rw [hafter] at hentry
    have hmembers : after.members = [⟨"p", .int⟩] := Option.some.inj hentry
    intro hpath
    have hmem : ⟨"i", .int⟩ ∈ after.members := (hlive _).1.mpr hpath
    rw [hmembers] at hmem
    exact absurd hmem (by decide)

end ProgramAnalysis.LiveVariables
