import Mathlib.Data.List.Perm.Subperm
import Mathlib.Logic.Relation
import ProgramAnalysis.Search.DepthFirst

/-!
# In which order a depth-first search finishes

A member is *open* while it is being visited: it has been visited and is not finished. When a visit
begins, the open members lead to the member that is visited, and when the visit ends, the same
members are open as before. So a member is finished at a time when each of its neighbours has either
been finished or is open, and an open one leads back to the member. In reverse postorder a member
therefore stands in front of its neighbours, but for those that it can be reached from.

That the graph may have cycles and that a search has several roots makes no difference to this. The
bound on the recursion is never reached: a visit that it would cut short is the visit of a member
that has been visited before, since by then all have.
-/

namespace ProgramAnalysis.DepthFirst

open Relation

variable {α : Type} {next : α → List α} {a b : α} {l : List α}

/-! ## Orders along the edges -/

/-- No member is listed twice, and each one is listed in front of its neighbours, but for those from
which it can be reached. -/
def Topological (next : α → List α) : List α → Prop
  | [] => True
  | a :: l => a ∉ l ∧ (∀ b ∈ next a, b ∈ l ∨ ReflTransGen (fun a b ↦ b ∈ next a) b a) ∧
      Topological next l

theorem Topological.nodup (h : Topological next l) : l.Nodup := by
  induction l with
  | nil => exact List.nodup_nil
  | cons a l ih =>
    obtain ⟨hfresh, -, hrest⟩ := h
    exact List.nodup_cons.mpr ⟨hfresh, ih hrest⟩

/-- On an edge that lies on no cycle, the source is listed in front of the target. -/
theorem Topological.pair_sublist (h : Topological next l) (ha : a ∈ l) (hb : b ∈ next a)
    (hback : ¬ReflTransGen (fun a b ↦ b ∈ next a) b a) : [a, b].Sublist l := by
  induction l with
  | nil => simp at ha
  | cons c l ih =>
    obtain ⟨-, hnext, hrest⟩ := h
    rcases List.mem_cons.mp ha with rfl | ha
    · have hbl : b ∈ l := (hnext b hb).resolve_right hback
      exact (List.singleton_sublist.mpr hbl).cons_cons a
    · exact (ih hrest ha).cons c

/-- The neighbours of a listed member are listed behind it, but for those that lead back to it. -/
theorem Topological.mem_of_append {front : List α} (h : Topological next (front ++ a :: l)) :
    ∀ b ∈ next a, b ∈ l ∨ ReflTransGen (fun a b ↦ b ∈ next a) b a := by
  induction front with
  | nil => exact h.2.1
  | cons c front ih => exact ih h.2.2

/-- Leaving out members that are nobody's neighbours does no harm. -/
theorem Topological.filter {keep : α → Bool} (hkeep : ∀ a, ∀ b ∈ next a, keep b = true)
    (h : Topological next l) : Topological next (l.filter keep) := by
  induction l with
  | nil => trivial
  | cons a l ih =>
    obtain ⟨hfresh, hnext, hrest⟩ := h
    rw [List.filter_cons]
    split
    · refine ⟨fun ha ↦ hfresh (List.mem_of_mem_filter ha), fun b hb ↦ ?_, ih hrest⟩
      exact (hnext b hb).imp_left fun hbl ↦ List.mem_filter.mpr ⟨hbl, hkeep a b hb⟩
    · exact ih hrest

/-! ## The progress of a search -/

/-- A member is being visited. -/
def Progress.Open (p : Progress α) (a : α) : Prop := a ∈ p.visited ∧ a ∉ p.finished

/-- The invariant of a search among the members of `univ`. -/
structure Progress.Valid (next : α → List α) (univ : List α) (p : Progress α) : Prop where
  nodup_visited : p.visited.Nodup
  visited_subset : p.visited ⊆ univ
  finished_subset : p.finished ⊆ p.visited
  topological : Topological next p.finished

/-- From `p` to `q`, a search has opened members, and finished all that it has opened. -/
structure Progress.Settles (p q : Progress α) : Prop where
  visited_subset : p.visited ⊆ q.visited
  open_iff : ∀ a, q.Open a ↔ p.Open a
  length_le : p.visited.length ≤ q.visited.length

variable {univ : List α} {p q r : Progress α} {fuel : ℕ}

theorem Progress.Settles.refl (p : Progress α) : p.Settles p :=
  ⟨List.Subset.refl _, fun _ ↦ Iff.rfl, Nat.le_refl _⟩

theorem Progress.Settles.trans (h : p.Settles q) (h' : q.Settles r) : p.Settles r where
  visited_subset := List.Subset.trans h.visited_subset h'.visited_subset
  open_iff a := (h'.open_iff a).trans (h.open_iff a)
  length_le := Nat.le_trans h.length_le h'.length_le

/-- Once everything has been visited, there is nothing left to visit. -/
theorem Progress.Valid.mem_visited_of_length_le (hp : p.Valid next univ)
    (h : univ.length ≤ p.visited.length) (ha : a ∈ univ) : a ∈ p.visited := by
  have hperm : p.visited.Perm univ :=
    (hp.nodup_visited.subperm hp.visited_subset).perm_of_length_le h
  exact hperm.mem_iff.mpr ha

/-- What the search arrives at when it has visited `a`. -/
structure Visited (next : α → List α) (univ : List α) (a : α) (p q : Progress α) : Prop where
  valid : q.Valid next univ
  settles : p.Settles q
  mem_visited : a ∈ q.visited

section

variable [DecidableEq α]

/-- Visits one after the other settle one after the other, if the open members lead to each of the
members that are visited. -/
theorem foldl_visit (fuel : ℕ) (l : List α)
    (hvisit : ∀ p, p.Valid next univ → univ.length ≤ fuel + p.visited.length →
      ∀ b ∈ l, (∀ w, p.Open w → ReflTransGen (fun a b ↦ b ∈ next a) w b) →
        Visited next univ b p (visit next fuel p b))
    (hp : p.Valid next univ) (hfuel : univ.length ≤ fuel + p.visited.length)
    (hopen : ∀ b ∈ l, ∀ w, p.Open w → ReflTransGen (fun a b ↦ b ∈ next a) w b) :
    (l.foldl (visit next fuel) p).Valid next univ ∧ p.Settles (l.foldl (visit next fuel) p) ∧
      ∀ b ∈ l, b ∈ (l.foldl (visit next fuel) p).visited := by
  induction l generalizing p with
  | nil => exact ⟨hp, .refl p, by simp⟩
  | cons b l ih =>
    have hb := hvisit p hp hfuel b List.mem_cons_self (hopen b List.mem_cons_self)
    obtain ⟨hvalid, hsettles, hall⟩ := ih
      (fun p hp hfuel c hc ↦ hvisit p hp hfuel c (List.mem_cons_of_mem b hc)) hb.valid
      (Nat.le_trans hfuel (Nat.add_le_add_left hb.settles.length_le fuel))
      fun c hc w hw ↦ hopen c (List.mem_cons_of_mem b hc) w ((hb.settles.open_iff w).mp hw)
    refine ⟨hvalid, hb.settles.trans hsettles, ?_⟩
    rintro c hc
    rcases List.mem_cons.mp hc with rfl | hc
    · exact hsettles.visited_subset hb.mem_visited
    · exact hall c hc

/-- A visit keeps the invariant, leaves the open members as they are, and has visited its member. -/
theorem visited_visit (hclosed : ∀ a ∈ univ, ∀ b ∈ next a, b ∈ univ) (hp : p.Valid next univ)
    (hfuel : univ.length ≤ fuel + p.visited.length) (ha : a ∈ univ)
    (hopen : ∀ w, p.Open w → ReflTransGen (fun a b ↦ b ∈ next a) w a) :
    Visited next univ a p (visit next fuel p a) := by
  induction fuel generalizing p a with
  | zero =>
    rw [Nat.zero_add] at hfuel
    exact ⟨hp, .refl p, hp.mem_visited_of_length_le hfuel ha⟩
  | succ fuel ih =>
    rw [visit]
    split
    · rename_i hseen
      exact ⟨hp, .refl p, hseen⟩
    rename_i hfresh
    have hunfinished : a ∉ p.finished := fun h ↦ hfresh (hp.finished_subset h)
    set opened : Progress α := { p with visited := a :: p.visited } with hopened
    have hopens : ∀ w, opened.Open w ↔ w = a ∨ p.Open w := by
      intro w
      simp only [Progress.Open, hopened, List.mem_cons, or_and_right]
      refine or_congr_left (and_iff_left_of_imp ?_)
      rintro rfl
      exact hunfinished
    have hvalid : opened.Valid next univ :=
      ⟨List.nodup_cons.mpr ⟨hfresh, hp.nodup_visited⟩, List.cons_subset.mpr ⟨ha, hp.visited_subset⟩,
        fun _ h ↦ List.mem_cons_of_mem a (hp.finished_subset h), hp.topological⟩
    have hroom : univ.length ≤ fuel + opened.visited.length := by
      rw [hopened, List.length_cons]
      omega
    -- from an open member the way leads to `a`, and on to each neighbour of `a`
    have hleads : ∀ b ∈ next a, ∀ w, opened.Open w →
        ReflTransGen (fun a b ↦ b ∈ next a) w b := by
      intro b hb w hw
      rcases (hopens w).mp hw with rfl | hw
      · exact .single hb
      · exact (hopen w hw).tail hb
    obtain ⟨hbelow, hsettles, hneighbours⟩ := foldl_visit fuel (next a)
      (fun p hp hfuel b hb ↦ ih hp hfuel (hclosed a ha b hb)) hvalid hroom hleads
    set below := (next a).foldl (visit next fuel) opened
    have hmem : a ∈ below.visited := hsettles.visited_subset List.mem_cons_self
    have haopen : below.Open a := (hsettles.open_iff a).mpr ((hopens a).mpr (Or.inl rfl))
    refine ⟨⟨hbelow.nodup_visited, hbelow.visited_subset,
      List.cons_subset.mpr ⟨hmem, hbelow.finished_subset⟩, haopen.2, ?_, hbelow.topological⟩,
      ⟨?_, ?_, ?_⟩, hmem⟩
    · -- a neighbour that is not finished is open, so it leads to `a`
      intro b hb
      by_cases hfinished : b ∈ below.finished
      · exact Or.inl hfinished
      · refine Or.inr ?_
        have hbopen : opened.Open b := (hsettles.open_iff b).mp ⟨hneighbours b hb, hfinished⟩
        rcases (hopens b).mp hbopen with rfl | hbopen
        · exact .refl
        · exact hopen b hbopen
    · exact fun _ h ↦ hsettles.visited_subset (List.mem_cons_of_mem a h)
    · intro w
      have hiff : below.Open w ↔ w = a ∨ p.Open w := (hsettles.open_iff w).trans (hopens w)
      simp only [Progress.Open, List.mem_cons, not_or] at hiff ⊢
      constructor
      · rintro ⟨hw, hne, hnot⟩
        exact (hiff.mp ⟨hw, hnot⟩).resolve_left hne
      · rintro ⟨hw, hnot⟩
        obtain ⟨hvisited, hfinished⟩ := hiff.mpr (Or.inr ⟨hw, hnot⟩)
        refine ⟨hvisited, ?_, hfinished⟩
        rintro rfl
        exact hfresh hw
    · have hlength := hsettles.length_le
      rw [hopened, List.length_cons] at hlength
      change p.visited.length ≤ below.visited.length
      omega

/-! ## The finished search -/

/-- A search from all members finishes each of them. -/
theorem mem_reversePostorder_and_topological (hclosed : ∀ a ∈ univ, ∀ b ∈ next a, b ∈ univ) :
    (∀ a, a ∈ reversePostorder next univ ↔ a ∈ univ) ∧
      Topological next (reversePostorder next univ) := by
  have hempty : ({} : Progress α).Valid next univ :=
    ⟨List.nodup_nil, List.nil_subset _, List.nil_subset _, trivial⟩
  have hnone : ∀ w, ¬({} : Progress α).Open w := fun w hw ↦ List.not_mem_nil hw.1
  obtain ⟨hvalid, hsettles, hall⟩ := foldl_visit univ.length univ
    (fun p hp hfuel b hb ↦ visited_visit hclosed hp hfuel hb) hempty (Nat.le_refl _)
    fun _ _ w hw ↦ absurd hw (hnone w)
  refine ⟨fun a ↦ ⟨fun ha ↦ hvalid.visited_subset (hvalid.finished_subset ha), fun ha ↦ ?_⟩,
    hvalid.topological⟩
  -- nothing is open when the search is over
  by_contra hfinished
  exact hnone a ((hsettles.open_iff a).mp ⟨hall a ha, hfinished⟩)

theorem mem_reversePostorder_iff (hclosed : ∀ a ∈ univ, ∀ b ∈ next a, b ∈ univ) :
    a ∈ reversePostorder next univ ↔ a ∈ univ :=
  (mem_reversePostorder_and_topological hclosed).1 a

theorem topological_reversePostorder (hclosed : ∀ a ∈ univ, ∀ b ∈ next a, b ∈ univ) :
    Topological next (reversePostorder next univ) :=
  (mem_reversePostorder_and_topological hclosed).2

end

end ProgramAnalysis.DepthFirst
