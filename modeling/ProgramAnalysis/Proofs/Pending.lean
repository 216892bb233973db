import ProgramAnalysis.Dataflow.Solver

/-!
# Pending nodes

Which nodes a worklist holds does not depend on its strategy: to put a node in adds that node and no
other, and to take one out removes that node and no other. The strategy decides only which node is
taken out.
-/

namespace ProgramAnalysis

namespace Worklist

instance : Membership Node Worklist := ⟨fun w n ↦ w.contains n = true⟩

theorem mem_iff {w : Worklist} {n : Node} : n ∈ w ↔ ∃ e ∈ w.pending, e.2 = n := by
  change w.contains n = true ↔ _
  rw [contains, List.any_eq_true]
  exact exists_congr fun e ↦ and_congr_right fun _ ↦ decide_eq_true_iff

theorem mem_insertByRank {r : Nat} {n : Node} {l : List (Nat × Node)} {e : Nat × Node} :
    e ∈ insertByRank r n l ↔ e = (r, n) ∨ e ∈ l := by
  induction l with
  | nil => simp [insertByRank]
  | cons e' l ih =>
    rw [insertByRank]
    split
    · exact List.mem_cons
    · rw [List.mem_cons, ih, List.mem_cons, or_left_comm]

theorem mem_push {w : Worklist} {m n : Node} : n ∈ w.push m ↔ n = m ∨ n ∈ w := by
  rw [push]
  split
  · rename_i h
    exact ⟨Or.inr, fun h' ↦ h'.elim (· ▸ h) id⟩
  · rw [mem_iff, mem_iff]
    cases w.strategy with
    | fifo => simp [or_comm, eq_comm, exists_or, or_and_right]
    | lifo => simp [eq_comm]
    | rpo => simp [mem_insertByRank, eq_comm, exists_or, or_and_right]

theorem mem_pushAll {w : Worklist} {l : List Node} {n : Node} :
    n ∈ w.pushAll l ↔ n ∈ l ∨ n ∈ w := by
  rw [pushAll]
  induction l generalizing w with
  | nil => simp
  | cons m l ih => rw [List.foldl_cons, ih, mem_push, List.mem_cons, or_left_comm, or_assoc]

/-- To take a node out takes off the front of the list. -/
theorem exists_pending_of_pop? {w rest : Worklist} {n : Node} (h : w.pop? = some (n, rest)) :
    ∃ r, w.pending = (r, n) :: rest.pending := by
  rw [pop?] at h
  split at h
  · simp at h
  · rename_i e l hl
    obtain ⟨rfl, rfl⟩ := Prod.mk.inj (Option.some.inj h)
    exact ⟨e.1, hl⟩

theorem mem_iff_of_pop? {w rest : Worklist} {m n : Node} (h : w.pop? = some (m, rest)) :
    n ∈ w ↔ n = m ∨ n ∈ rest := by
  obtain ⟨r, hr⟩ := exists_pending_of_pop? h
  rw [mem_iff, mem_iff, hr]
  simp [eq_comm]

theorem pending_eq_nil_of_pop?_eq_none {w : Worklist} (h : w.pop? = none) : w.pending = [] := by
  rw [pop?] at h
  split at h
  · assumption
  · simp at h

theorem notMem_of_pop?_eq_none {w : Worklist} (h : w.pop? = none) (n : Node) : n ∉ w := by
  rw [mem_iff, pending_eq_nil_of_pop?_eq_none h]
  simp

/-! ## Putting a node in -/

theorem perm_insertByRank (r : Nat) (n : Node) (l : List (Nat × Node)) :
    (insertByRank r n l).Perm ((r, n) :: l) := by
  induction l with
  | nil => exact .refl _
  | cons e l ih =>
    rw [insertByRank]
    split
    · exact .refl _
    · exact (ih.cons e).trans (.swap _ _ _)

/-- Wherever a node that is not pending is put, it joins the others with some rank. -/
theorem exists_perm_push {w : Worklist} {n : Node} (h : n ∉ w) :
    ∃ r, (w.push n).pending.Perm ((r, n) :: w.pending) := by
  have hnot : ¬w.contains n = true := h
  rw [push, if_neg hnot]
  cases w.strategy with
  | fifo => exact ⟨0, List.perm_append_singleton _ _⟩
  | lifo => exact ⟨0, .refl _⟩
  | rpo => exact ⟨w.rank n, perm_insertByRank _ _ _⟩

theorem push_of_mem {w : Worklist} {n : Node} (h : n ∈ w) : w.push n = w := if_pos h

theorem pushAll_of_forall_mem {w : Worklist} {l : List Node} (h : ∀ n ∈ l, n ∈ w) :
    w.pushAll l = w := by
  induction l with
  | nil => rfl
  | cons n l ih =>
    change (w.push n).pushAll l = w
    rw [push_of_mem (h n List.mem_cons_self), ih fun m hm ↦ h m (List.mem_cons_of_mem n hm)]

/-! ## Each node once -/

theorem nodup_pushAll {w : Worklist} (hw : (w.pending.map Prod.snd).Nodup) (l : List Node) :
    ((w.pushAll l).pending.map Prod.snd).Nodup := by
  refine List.foldlRecOn (motive := fun w ↦ (w.pending.map Prod.snd).Nodup) l push hw
    fun w hw n _ ↦ ?_
  by_cases h : n ∈ w
  · rwa [push_of_mem h]
  · obtain ⟨r, hperm⟩ := exists_perm_push h
    rw [(hperm.map Prod.snd).nodup_iff, List.map_cons, List.nodup_cons]
    refine ⟨fun hmem ↦ h ?_, hw⟩
    obtain ⟨e, he, hen⟩ := List.mem_map.mp hmem
    exact mem_iff.mpr ⟨e, he, hen⟩

end Worklist

/-- At first every node except the start is pending. -/
theorem Analysis.mem_initialWorklist {o : Orientation} {σ : Strategy} {n : Node} :
    n ∈ initialWorklist o σ ↔ n ∈ o.nodes ∧ n ≠ o.start := by
  rw [initialWorklist, Worklist.mem_pushAll, List.mem_filter, decide_eq_true_iff]
  refine ⟨fun h ↦ h.resolve_right ?_, Or.inl⟩
  rw [Worklist.mem_iff]
  simp

theorem Analysis.nodup_initialWorklist (o : Orientation) (σ : Strategy) :
    ((initialWorklist o σ).pending.map Prod.snd).Nodup :=
  Worklist.nodup_pushAll (by simp) _

end ProgramAnalysis
