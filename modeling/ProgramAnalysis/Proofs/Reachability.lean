import Mathlib.Data.List.Perm.Subperm
import Mathlib.Logic.Relation
import ProgramAnalysis.Search.BreadthFirst

/-!
# Breadth-first search finds what can be reached

A search is *closed* when the key of every successor of a discovered member is the key of a
discovered member. This holds of the expanded members throughout, since the successors of a member
are put in the queue when it is expanded, and so it holds of all members once the queue is empty.

If all keys come from a finite universe, the queue is empty as soon as there have been as many
expansions as the universe is large: the expanded members have different keys.
-/

namespace ProgramAnalysis.BreadthFirst

variable {α κ : Type} [DecidableEq κ] {key : α → κ} {next : α → List α}

/-! ## Fresh members -/

theorem mem_of_mem_fresh {seen l : List α} {a : α} (h : a ∈ fresh key seen l) : a ∈ l := by
  induction l generalizing seen with
  | nil => simp [fresh] at h
  | cons b l ih =>
    rw [fresh] at h
    split at h
    · exact List.mem_cons_of_mem b (ih h)
    · rcases List.mem_cons.mp h with rfl | h
      · exact List.mem_cons_self
      · exact List.mem_cons_of_mem b (ih h)

theorem key_mem_append_fresh {seen l : List α} {a : α} (h : a ∈ l) :
    key a ∈ (seen ++ fresh key seen l).map key := by
  have hgrow : ∀ (seen l : List α) (k : κ), k ∈ seen.map key →
      k ∈ (seen ++ fresh key seen l).map key := by
    intro seen l k hk
    rw [List.map_append]
    exact List.mem_append_left _ hk
  induction l generalizing seen with
  | nil => simp at h
  | cons b l ih =>
    rw [fresh]
    split
    · rename_i hb
      rcases List.mem_cons.mp h with rfl | h
      · exact hgrow seen l _ hb
      · exact ih h
    · -- `b` is fresh and counts as seen from here on
      have happ : seen ++ b :: fresh key (seen ++ [b]) l =
          (seen ++ [b]) ++ fresh key (seen ++ [b]) l := by simp
      rw [happ]
      rcases List.mem_cons.mp h with rfl | h
      · exact hgrow _ l _ (List.mem_map_of_mem (by simp))
      · exact ih h

theorem key_notMem_of_mem_fresh {seen l : List α} {a : α} (h : a ∈ fresh key seen l) :
    key a ∉ seen.map key := by
  induction l generalizing seen with
  | nil => simp [fresh] at h
  | cons b l ih =>
    rw [fresh] at h
    split at h
    · exact ih h
    · rename_i hb
      rcases List.mem_cons.mp h with rfl | h
      · exact hb
      · intro ha
        refine ih h ?_
        rw [List.map_append]
        exact List.mem_append_left _ ha

/-! ## Discovered members -/

/-- What has been discovered keeps its place. -/
theorem prefix_explore (key : α → κ) (next : α → List α) (fuel : Nat) (expanded queue : List α) :
    expanded ++ queue <+: explore key next fuel expanded queue := by
  induction fuel generalizing expanded queue with
  | zero => exact List.prefix_refl _
  | succ fuel ih =>
    cases queue with
    | nil => simp [explore]
    | cons a queue =>
      refine List.IsPrefix.trans ?_ (ih _ _)
      exact ⟨fresh key (expanded ++ a :: queue) (next a), by simp⟩

theorem mem_explore_of_mem {fuel : Nat} {expanded queue : List α} {a : α}
    (h : a ∈ expanded ++ queue) : a ∈ explore key next fuel expanded queue :=
  (prefix_explore key next fuel expanded queue).subset h

theorem head?_reach (key : α → κ) (next : α → List α) (fuel : Nat) (start : α) :
    (reach key next fuel start).head? = some start := by
  obtain ⟨l, hl⟩ := prefix_explore key next fuel [] [start]
  rw [reach, ← hl]
  rfl

theorem start_mem_reach (key : α → κ) (next : α → List α) (fuel : Nat) (start : α) :
    start ∈ reach key next fuel start := mem_explore_of_mem (by simp)

/-- What holds of the start and passes on to successors holds of every discovered member. -/
theorem forall_mem_explore {P : α → Prop} {fuel : Nat} {expanded queue : List α}
    (h : ∀ a ∈ expanded ++ queue, P a) (hnext : ∀ a, P a → ∀ b ∈ next a, P b) :
    ∀ a ∈ explore key next fuel expanded queue, P a := by
  induction fuel generalizing expanded queue with
  | zero => exact h
  | succ fuel ih =>
    cases queue with
    | nil => simpa [explore] using h
    | cons b queue =>
      apply ih
      rw [← List.append_assoc, List.append_assoc expanded]
      intro a ha
      rcases List.mem_append.mp ha with ha | ha
      · exact h a ha
      · exact hnext b (h b (by simp)) a (mem_of_mem_fresh ha)

/-- Every discovered member can be reached from the start. -/
theorem reflTransGen_of_mem_reach {fuel : Nat} {start a : α}
    (h : a ∈ reach key next fuel start) :
    Relation.ReflTransGen (fun a b ↦ b ∈ next a) start a := by
  refine forall_mem_explore ?_ (fun _ hb c hc ↦ hb.tail hc) a h
  rintro b hb
  obtain rfl := List.mem_singleton.mp hb
  exact .refl

/-! ## Closed searches -/

/-- The keys of the successors of the expanded members have all been discovered. -/
def Covers (key : α → κ) (next : α → List α) (expanded discovered : List α) : Prop :=
  ∀ a ∈ expanded, ∀ b ∈ next a, key b ∈ discovered.map key

theorem Covers.expand {expanded queue : List α} {a : α}
    (h : Covers key next expanded (expanded ++ a :: queue)) :
    Covers key next (expanded ++ [a])
      ((expanded ++ a :: queue) ++ fresh key (expanded ++ a :: queue) (next a)) := by
  intro b hb c hc
  rcases List.mem_append.mp hb with hb | hb
  · rw [List.map_append]
    exact List.mem_append_left _ (h b hb c hc)
  · obtain rfl := List.mem_singleton.mp hb
    exact key_mem_append_fresh hc

theorem covers_explore {univ : List κ}
    (huniv : ∀ a, key a ∈ univ → ∀ b ∈ next a, key b ∈ univ) {fuel : Nat}
    {expanded queue : List α} (hfuel : univ.length ≤ fuel + expanded.length)
    (hnodup : ((expanded ++ queue).map key).Nodup)
    (hmem : ∀ a ∈ expanded ++ queue, key a ∈ univ)
    (hcovers : Covers key next expanded (expanded ++ queue)) :
    Covers key next (explore key next fuel expanded queue)
      (explore key next fuel expanded queue) := by
  induction fuel generalizing expanded queue with
  | zero =>
    -- the expanded members already exhaust the universe
    have hlength : (expanded ++ queue).length ≤ univ.length := by
      rw [← List.length_map key]
      refine (hnodup.subperm fun k hk ↦ ?_).length_le
      obtain ⟨a, ha, rfl⟩ := List.mem_map.mp hk
      exact hmem a ha
    have hqueue : queue = [] := by
      rw [List.length_append] at hlength
      exact List.eq_nil_of_length_eq_zero (by omega)
    subst hqueue
    rw [List.append_nil] at hcovers
    rwa [explore, List.append_nil]
  | succ fuel ih =>
    cases queue with
    | nil =>
      rw [List.append_nil] at hcovers
      simpa [explore] using hcovers
    | cons a queue =>
      have happ : (expanded ++ [a]) ++ (queue ++ fresh key (expanded ++ a :: queue) (next a)) =
          (expanded ++ a :: queue) ++ fresh key (expanded ++ a :: queue) (next a) := by simp
      refine ih ?_ ?_ ?_ ?_
      · rw [List.length_append, List.length_singleton]
        omega
      · rw [happ]
        exact nodup_append_fresh key (next a) _ hnodup
      · rw [happ]
        intro b hb
        rcases List.mem_append.mp hb with hb | hb
        · exact hmem b hb
        · exact huniv a (hmem a (by simp)) b (mem_of_mem_fresh hb)
      · rw [happ]
        exact hcovers.expand

/-- Within a finite universe, a search discovers a key for each successor of what it discovers. -/
theorem covers_reach {univ : List κ}
    (huniv : ∀ a, key a ∈ univ → ∀ b ∈ next a, key b ∈ univ) {start : α}
    (hstart : key start ∈ univ) :
    Covers key next (reach key next univ.length start)
      (reach key next univ.length start) := by
  refine covers_explore huniv (by simp) (by simp) ?_ ?_
  · rintro a ha
    obtain rfl := List.mem_singleton.mp ha
    exact hstart
  · exact fun a ha ↦ absurd ha List.not_mem_nil

/-- When members are their own keys, a search lists exactly what can be reached. -/
theorem mem_reach_iff {next : κ → List κ} {univ : List κ}
    (huniv : ∀ a ∈ univ, ∀ b ∈ next a, b ∈ univ) {start a : κ}
    (hstart : start ∈ univ) :
    a ∈ reach id next univ.length start ↔
      Relation.ReflTransGen (fun a b ↦ b ∈ next a) start a := by
  refine ⟨reflTransGen_of_mem_reach, fun h ↦ ?_⟩
  induction h with
  | refl => exact start_mem_reach id next _ start
  | @tail b c _ hc ih =>
    have hcovers : id c ∈ (reach id next univ.length start).map id :=
      covers_reach huniv hstart b ih c hc
    rwa [List.map_id] at hcovers

/-! ## Visits

The members that come up and have not been visited are, each at its first occurrence, the ones that
a search would have let into its queue. -/

theorem fresh_append (seen l l' : List α) :
    fresh key seen (l ++ l') = fresh key seen l ++ fresh key (seen ++ fresh key seen l) l' := by
  induction l generalizing seen with
  | nil => rw [List.nil_append, fresh, List.nil_append, List.append_nil]
  | cons a l ih =>
    rw [List.cons_append, fresh, fresh]
    split
    · exact ih seen
    · rw [ih, List.append_assoc, List.singleton_append, List.cons_append]

theorem fresh_eq_nil_of_dropWhile {seen l : List α}
    (h : l.dropWhile (fun a ↦ key a ∈ seen.map key) = []) : fresh key seen l = [] := by
  induction l with
  | nil => rfl
  | cons b l ih =>
    rw [List.dropWhile_cons] at h
    rw [fresh]
    split <;> simp_all

theorem fresh_eq_cons_of_dropWhile {seen l queue : List α} {a : α}
    (h : l.dropWhile (fun a ↦ key a ∈ seen.map key) = a :: queue) :
    fresh key seen l = a :: fresh key (seen ++ [a]) queue := by
  induction l with
  | nil => simp at h
  | cons b l ih =>
    rw [List.dropWhile_cons] at h
    rw [fresh]
    split <;> simp_all

theorem visit_eq_explore (fuel : Nat) (visited queue : List α) :
    visit key next fuel visited queue =
      explore key next fuel visited (fresh key visited queue) := by
  induction fuel generalizing visited queue with
  | zero => rfl
  | succ fuel ih =>
    rw [visit]
    split
    · rename_i h
      rw [fresh_eq_nil_of_dropWhile h, explore]
    · rename_i a rest h
      rw [fresh_eq_cons_of_dropWhile h, explore, ih, fresh_append]
      simp

/-- It makes no difference whether members are recognised when they enter the queue or when they
leave it. -/
theorem visits_eq_reach (key : α → κ) (next : α → List α) (fuel : Nat) (start : α) :
    visits key next fuel start = reach key next fuel start :=
  visit_eq_explore fuel [] [start]

end ProgramAnalysis.BreadthFirst
