import Mathlib.Order.Lattice.Nat
import ProgramAnalysis.Proofs.EdgeTables
import ProgramAnalysis.Proofs.Reachability

/-!
# Breadth-first search goes by distance

The *distance* of a member from the start of a search is the least number of steps in which it can
be reached. A breadth-first search lists what it discovers in the order of distances.

At any moment the discovered members are sorted by distance, and the distances in the queue differ
by one at most: they are two layers, of which the farther one has been discovered in part. What
keeps a step from breaking the order is that nothing is discovered late. A member that is no farther
away than the head of the queue has been discovered, since the last but one member on a shortest
path to it is nearer than the head and has therefore been expanded. So the fresh successors of the
head all belong to the layer behind it.
-/

namespace ProgramAnalysis

open Relation

/-! ## Steps and distances -/

section Distance

variable {α : Type} {r : α → α → Prop} {a b c : α} {k : ℕ}

/-- `Steps r a k b` says that `k` steps along `r` lead from `a` to `b`. -/
inductive Steps (r : α → α → Prop) (a : α) : ℕ → α → Prop
  | refl : Steps r a 0 a
  | tail {k : ℕ} {b c : α} (hab : Steps r a k b) (hbc : r b c) : Steps r a (k + 1) c

/-- The least number of steps that lead from `a` to `b`, if there is a way. -/
noncomputable def distance (r : α → α → Prop) (a b : α) : ℕ := sInf {k | Steps r a k b}

theorem exists_steps_iff : (∃ k, Steps r a k b) ↔ ReflTransGen r a b := by
  constructor
  · rintro ⟨k, h⟩
    induction h with
    | refl => exact .refl
    | tail _ hbc ih => exact ih.tail hbc
  · intro h
    induction h with
    | refl => exact ⟨0, .refl⟩
    | tail _ hbc ih =>
      obtain ⟨k, hk⟩ := ih
      exact ⟨k + 1, hk.tail hbc⟩

theorem steps_distance (h : ReflTransGen r a b) : Steps r a (distance r a b) b :=
  Nat.sInf_mem (exists_steps_iff.mpr h)

theorem Steps.distance_le (h : Steps r a k b) : distance r a b ≤ k := Nat.sInf_le h

theorem distance_le_succ (hab : ReflTransGen r a b) (hbc : r b c) :
    distance r a c ≤ distance r a b + 1 := ((steps_distance hab).tail hbc).distance_le

/-- A shortest path to another member comes through one that is nearer by one. -/
theorem exists_distance_eq_succ (h : ReflTransGen r a c) (hne : c ≠ a) :
    ∃ b, ReflTransGen r a b ∧ r b c ∧ distance r a c = distance r a b + 1 := by
  have hsteps := steps_distance h
  generalize hk : distance r a c = k at hsteps
  cases hsteps with
  | refl => exact absurd rfl hne
  | @tail k b _ hab hbc =>
    have hreach : ReflTransGen r a b := exists_steps_iff.mp ⟨k, hab⟩
    refine ⟨b, hreach, hbc, ?_⟩
    have hle := hab.distance_le
    have hsucc := distance_le_succ hreach hbc
    omega

end Distance

/-! ## The two layers of the queue -/

namespace BreadthFirst

variable {α : Type} {next : α → List α} {start : α} {expanded queue : List α}

/-- How far a member is from the start of a search. -/
noncomputable def depth (next : α → List α) (start a : α) : ℕ :=
  distance (fun a b ↦ b ∈ next a) start a

/-- The expanded members and the queue are what a search by distance makes of them. -/
structure Layered (next : α → List α) (start : α) (expanded queue : List α) : Prop where
  start_mem : start ∈ expanded ++ queue
  reached : ∀ a ∈ expanded ++ queue, ReflTransGen (fun a b ↦ b ∈ next a) start a
  covers : Covers id next expanded (expanded ++ queue)
  /-- Nothing stands behind what is farther away. -/
  sorted : (expanded ++ queue).Pairwise fun a b ↦ depth next start a ≤ depth next start b
  /-- No two members of the queue are more than a layer apart. -/
  twoLayers : queue.Pairwise fun a b ↦ depth next start b ≤ depth next start a + 1

theorem layered_start (next : α → List α) (start : α) : Layered next start [] [start] where
  start_mem := List.mem_singleton_self start
  reached _ ha := List.mem_singleton.mp ha ▸ .refl
  covers _ ha := absurd ha List.not_mem_nil
  sorted := List.pairwise_singleton _ start
  twoLayers := List.pairwise_singleton _ start

namespace Layered

variable {a b : α}

theorem depth_le_head (h : Layered next start expanded (a :: queue)) (hb : b ∈ expanded) :
    depth next start b ≤ depth next start a :=
  (List.pairwise_append.mp h.sorted).2.2 b hb a List.mem_cons_self

theorem depth_head_le (h : Layered next start expanded (a :: queue)) (hb : b ∈ a :: queue) :
    depth next start a ≤ depth next start b := by
  have hsorted := List.pairwise_cons.mp (List.pairwise_append.mp h.sorted).2.1
  rcases List.mem_cons.mp hb with rfl | hb
  · exact Nat.le_refl _
  · exact hsorted.1 b hb

/-- What is no farther away than the head of the queue has been discovered. -/
theorem mem_of_depth_le (h : Layered next start expanded (a :: queue))
    (hb : ReflTransGen (fun a b ↦ b ∈ next a) start b)
    (hle : depth next start b ≤ depth next start a) : b ∈ expanded ++ a :: queue := by
  generalize hk : depth next start b = k at hle
  induction k using Nat.strong_induction_on generalizing b with
  | _ k ih =>
    by_cases hne : b = start
    · exact hne ▸ h.start_mem
    obtain ⟨c, hc, hcb, hsucc⟩ := exists_distance_eq_succ hb hne
    have hdepth : depth next start b = depth next start c + 1 := hsucc
    -- the member before `b` is nearer than the head, so it has been discovered and expanded
    have hmem : c ∈ expanded ++ a :: queue := ih _ (by omega) hc rfl (by omega)
    have hexpanded : c ∈ expanded := by
      rcases List.mem_append.mp hmem with hc | hc
      · exact hc
      · have := h.depth_head_le hc
        omega
    have hkey := h.covers c hexpanded b hcb
    rwa [List.map_id] at hkey

variable [DecidableEq α]

/-- The fresh successors of the head are one layer behind it. -/
theorem depth_fresh (h : Layered next start expanded (a :: queue))
    (hb : b ∈ fresh id (expanded ++ a :: queue) (next a)) :
    depth next start b = depth next start a + 1 := by
  have ha : ReflTransGen (fun a b ↦ b ∈ next a) start a := h.reached a (by simp)
  have hnext : b ∈ next a := mem_of_mem_fresh hb
  have hnot : b ∉ expanded ++ a :: queue := by
    have hkey := key_notMem_of_mem_fresh hb
    rwa [List.map_id] at hkey
  have hle : depth next start b ≤ depth next start a + 1 := distance_le_succ ha hnext
  have hlt : ¬depth next start b ≤ depth next start a := fun hle ↦
    hnot (h.mem_of_depth_le (ha.tail hnext) hle)
  omega

theorem expand (h : Layered next start expanded (a :: queue)) :
    Layered next start (expanded ++ [a])
      (queue ++ fresh id (expanded ++ a :: queue) (next a)) := by
  have happ : (expanded ++ [a]) ++ (queue ++ fresh id (expanded ++ a :: queue) (next a)) =
      (expanded ++ a :: queue) ++ fresh id (expanded ++ a :: queue) (next a) := by simp
  have hqueue : (a :: queue).Pairwise fun a b ↦ depth next start b ≤ depth next start a + 1 :=
    h.twoLayers
  rw [List.pairwise_cons] at hqueue
  constructor
  · rw [happ]
    exact List.mem_append_left _ h.start_mem
  · rw [happ]
    intro b hb
    rcases List.mem_append.mp hb with hb | hb
    · exact h.reached b hb
    · exact (h.reached a (by simp)).tail (mem_of_mem_fresh hb)
  · rw [happ]
    exact h.covers.expand
  · rw [happ, List.pairwise_append]
    refine ⟨h.sorted, ?_, fun b hb c hc ↦ ?_⟩
    · refine List.pairwise_of_forall_mem_list fun b hb c hc ↦ ?_
      rw [h.depth_fresh hb, h.depth_fresh hc]
    · rw [h.depth_fresh hc]
      rcases List.mem_append.mp hb with hb | hb
      · exact Nat.le_succ_of_le (h.depth_le_head hb)
      · rcases List.mem_cons.mp hb with rfl | hb
        · exact Nat.le_succ _
        · exact hqueue.1 b hb
  · rw [List.pairwise_append]
    refine ⟨hqueue.2, ?_, fun b hb c hc ↦ ?_⟩
    · refine List.pairwise_of_forall_mem_list fun b hb c hc ↦ ?_
      rw [h.depth_fresh hb, h.depth_fresh hc]
      exact Nat.le_succ _
    · rw [h.depth_fresh hc]
      exact Nat.succ_le_succ (h.depth_head_le (List.mem_cons_of_mem a hb))

theorem pairwise_explore {fuel : ℕ} (h : Layered next start expanded queue) :
    (explore id next fuel expanded queue).Pairwise fun a b ↦
      depth next start a ≤ depth next start b := by
  induction fuel generalizing expanded queue with
  | zero => exact h.sorted
  | succ fuel ih =>
    cases queue with
    | nil => simpa [explore] using h.sorted
    | cons a queue => exact ih h.expand

end Layered

variable [DecidableEq α]

/-- A search lists what it discovers in the order of distances, also if it is broken off. -/
theorem pairwise_reach (next : α → List α) (fuel : ℕ) (start : α) :
    (reach id next fuel start).Pairwise fun a b ↦ depth next start a ≤ depth next start b :=
  (layered_start next start).pairwise_explore

end BreadthFirst

/-! ## Paths in a flow graph -/

namespace FlowGraph

variable {g : FlowGraph} {start : Node}

/-- Some edge leads from `m` to `n`. -/
def Adjacent (g : FlowGraph) (m n : Node) : Prop := ∃ e ∈ g.edges, e.source = m ∧ e.target = n

theorem Mirrored.adjacent_eq (hg : g.Mirrored) : g.Adjacent = fun m n ↦ n ∈ g.succs m := by
  funext m n
  rw [eq_iff_iff, Adjacent, ← hg.mem_succs_iff_exists_edge]

/-- The search from a node answers with the node first, lists nothing twice, lists what can be
reached along edges and nothing else, and lists the nearer nodes before the farther ones. -/
theorem Built.reachable_by_distance (hg : g.Built) (hstart : start ∈ g.nodes) :
    ∃ l, g.ask start FlowGraph.reachable = .ok l ∧ l.head? = some start ∧ l.Nodup ∧
      (∀ n, n ∈ l ↔ ReflTransGen g.Adjacent start n) ∧
      l.Pairwise fun m n ↦ distance g.Adjacent start m ≤ distance g.Adjacent start n := by
  have hm : g.Mirrored := hg.mirrored
  refine ⟨g.reachable start, ?_, BreadthFirst.head?_reach id g.succs _ start, ?_, ?_, ?_⟩
  · have hcheck : g.checkNode start = .ok () := checkNode_eq_ok_iff.mpr hstart
    rw [ask, hcheck]
    rfl
  · have hnodup := BreadthFirst.nodup_reach id g.succs g.nodes.length start
    rwa [List.map_id] at hnodup
  · intro n
    rw [hm.adjacent_eq]
    exact BreadthFirst.mem_reach_iff (fun _ _ _ h ↦ (hm.mem_nodes_of_mem_succs h).2) hstart
  · rw [hm.adjacent_eq]
    exact BreadthFirst.pairwise_reach g.succs _ start

/-- From inside the loop of the switch, the entry is out of reach and the exit comes last. -/
theorem reachable_by_distance_switchLoop :
    Node.stmt 1 ∈ switchLoop.nodes ∧
      switchLoop.ask (.stmt 1) FlowGraph.reachable =
        .ok [.stmt 1, .stmt 0, .stmt 2, .exit 3] ∧
      ReflTransGen switchLoop.Adjacent (.stmt 1) (.exit 3) ∧
      ¬ReflTransGen switchLoop.Adjacent (.stmt 1) .entry ∧
      distance switchLoop.Adjacent (.stmt 1) (.stmt 0) ≤
        distance switchLoop.Adjacent (.stmt 1) (.exit 3) := by
  have hstart : Node.stmt 1 ∈ switchLoop.nodes := by decide
  obtain ⟨l, hl, -, -, hmem, hsorted⟩ := built_switchLoop.reachable_by_distance hstart
  have hlist : switchLoop.ask (.stmt 1) FlowGraph.reachable =
      .ok [.stmt 1, .stmt 0, .stmt 2, .exit 3] := rfl
  obtain rfl := Except.ok.inj (hlist.symm.trans hl)
  refine ⟨hstart, hlist, (hmem _).mp (by decide), fun h ↦ ?_, ?_⟩
  · exact absurd ((hmem _).mpr h) (by decide)
  · rw [List.pairwise_cons, List.pairwise_cons] at hsorted
    exact hsorted.2.1 _ (by decide)

end FlowGraph

end ProgramAnalysis
