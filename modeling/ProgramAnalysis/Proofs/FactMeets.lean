import Mathlib.Logic.Function.Basic
import Mathlib.Order.Bounds.Basic
import ProgramAnalysis.Proofs.FactOrder

/-!
# Meeting many facts into one

Where several paths join, the facts at their ends are met into one fact, one after the other and in
place. What is left there is above a fact exactly if the old fact and all those that were met into
it are, so that it is their least upper bound. Upper bounds know nothing of the order in which the
facts have come, nor of how often one of them has.

The fact that changes may be one of those that are met into it. Hence the facts are members of a
family, and each step leaves a new family.
-/

namespace ProgramAnalysis.ConstFact

/-! ## One meet -/

theorem meetInto_le_iff {f t u : ConstFact} : f.meetInto t ≤ u ↔ f ≤ u ∧ t ≤ u :=
  ⟨fun h ↦ ⟨(le_meetInto_left f t).trans h, (le_meetInto_right f t).trans h⟩,
    fun h ↦ meetInto_le h.1 h.2⟩

theorem update_snd_eq_self {f : ConstFact} {x : Var} {v : Value}
    (h : f.bindings.find? x = some v) (hv : v.isUndef = false) : (f.update x v).2 = f := by
  rw [update, if_neg (by simp [hv]), OrderedMap.insert_of_find?_eq_some h]

/-- A canonical fact that is met into itself stays what it is, down to the order of its bindings. -/
theorem Canonical.meetInto_self {f : ConstFact} (hf : f.Canonical) : f.meetInto f = f := by
  have hstep : ∀ e ∈ f.bindings.entries, updateBy Value.meet f e = f := by
    intro e he
    have hfind : f.bindings.find? e.1 = some e.2 := OrderedMap.mem_entries_iff.mp he
    obtain ⟨hcanonical, hdefined⟩ := hf.of_mem_entries he
    rw [updateBy, get_eq_of_find?_eq_some hfind, Value.meet_self hcanonical]
    exact update_snd_eq_self hfind hdefined
  have key : ∀ l ⊆ f.bindings.entries, l.foldl (updateBy Value.meet) f = f := by
    intro l
    induction l with
    | nil => exact fun _ ↦ rfl
    | cons e l ih =>
      intro hl
      rw [List.cons_subset] at hl
      rw [List.foldl_cons, hstep e hl.1]
      exact ih hl.2
  exact key _ (List.Subset.refl _)

/-! ## Meets within a family -/

variable {ι : Type} [DecidableEq ι] {p : ι → ConstFact} {i j k : ι} {l l' : List ι}

/-- The family after its fact `i` has been met into its fact `j`. -/
def meetAt (p : ι → ConstFact) (i j : ι) : ι → ConstFact :=
  Function.update p j ((p i).meetInto (p j))

/-- The family after the facts of a list have been met into the fact `j`, one after the other. -/
def meetAllAt (p : ι → ConstFact) (l : List ι) (j : ι) : ι → ConstFact :=
  l.foldl (fun p i ↦ meetAt p i j) p

theorem meetAt_target (p : ι → ConstFact) (i j : ι) :
    meetAt p i j j = (p i).meetInto (p j) :=
  Function.update_self j _ p

theorem meetAt_of_ne (h : k ≠ j) : meetAt p i j k = p k := Function.update_of_ne h _ p

theorem meetAt_source (hp : (p i).Canonical) : meetAt p i j i = p i := by
  by_cases hij : i = j
  · subst hij
    rw [meetAt_target, hp.meetInto_self]
  · exact meetAt_of_ne hij

theorem canonical_meetAt (hp : ∀ k, (p k).Canonical) (i j k : ι) :
    (meetAt p i j k).Canonical := by
  by_cases hk : k = j
  · subst hk
    rw [meetAt_target]
    exact (hp i).meetInto (hp k)
  · rw [meetAt_of_ne hk]
    exact hp k

theorem canonical_meetAllAt (hp : ∀ k, (p k).Canonical) (l : List ι) (j k : ι) :
    (meetAllAt p l j k).Canonical := by
  induction l generalizing p with
  | nil => exact hp k
  | cons i l ih => exact ih (canonical_meetAt hp i j)

/-- The induction is on the list, and the family changes with it: what is met later is compared with
the target as it has become. -/
theorem meetAllAt_le_iff {u : ConstFact} :
    meetAllAt p l j j ≤ u ↔ p j ≤ u ∧ ∀ i ∈ l, p i ≤ u := by
  induction l generalizing p with
  | nil => simp [meetAllAt]
  | cons i l ih =>
    have hrest : meetAllAt p (i :: l) j j ≤ u ↔
        meetAt p i j j ≤ u ∧ ∀ k ∈ l, meetAt p i j k ≤ u := ih
    rw [hrest, meetAt_target, meetInto_le_iff, List.forall_mem_cons, and_left_comm, and_assoc]
    refine and_congr_right fun hi ↦ and_congr_right fun hj ↦ forall₂_congr fun k _ ↦ ?_
    by_cases hk : k = j
    · -- the target itself, which has grown and is still below
      subst hk
      rw [meetAt_target, meetInto_le_iff]
      exact ⟨fun h ↦ h.2, fun h ↦ ⟨hi, h⟩⟩
    · rw [meetAt_of_ne hk]

theorem isLUB_meetAllAt (p : ι → ConstFact) (l : List ι) (j : ι) :
    IsLUB (insert (p j) (p '' {i | i ∈ l})) (meetAllAt p l j j) := by
  refine isLUB_iff_le_iff.mpr fun u ↦ ?_
  rw [meetAllAt_le_iff, upperBounds_insert, Set.mem_inter_iff, Set.mem_Ici, mem_upperBounds,
    Set.forall_mem_image]
  rfl

/-- Only the members of the list matter. -/
theorem meetAllAt_le_of_subset (h : l ⊆ l') : meetAllAt p l j j ≤ meetAllAt p l' j j := by
  obtain ⟨htarget, hmembers⟩ := meetAllAt_le_iff.mp (le_refl (meetAllAt p l' j j))
  exact meetAllAt_le_iff.mpr ⟨htarget, fun i hi ↦ hmembers i (h hi)⟩

/-- To meet a canonical fact into another one leaves the first as it is and makes of the second the
least fact above both, variable by variable; and to meet several facts into one makes of it their
least upper bound, which is the same fact for every list of the same members. -/
theorem meets_isLUB (hp : ∀ i, (p i).Canonical) (j : ι) :
    (∀ i, meetAt p i j i = p i ∧ (∀ k, k ≠ j → meetAt p i j k = p k) ∧
      (meetAt p i j j).Canonical ∧ IsLUB {p i, p j} (meetAt p i j j) ∧
      ∀ x, (meetAt p i j j).get x = ((p i).get x).meet ((p j).get x)) ∧
    ∀ l : List ι, IsLUB (insert (p j) (p '' {i | i ∈ l})) (meetAllAt p l j j) ∧
      ∀ l' : List ι, (∀ i, i ∈ l ↔ i ∈ l') →
        (meetAllAt p l j j).same (meetAllAt p l' j j) = true := by
  refine ⟨fun i ↦ ⟨meetAt_source (hp i), fun k hk ↦ meetAt_of_ne hk, canonical_meetAt hp i j j,
    ?_, fun x ↦ ?_⟩, fun l ↦ ⟨isLUB_meetAllAt p l j, fun l' hl ↦ ?_⟩⟩
  · have hpair : ({p i, p j} : Set ConstFact) = insert (p j) (p '' {k | k ∈ [i]}) := by
      simp [Set.pair_comm]
    rw [hpair]
    exact isLUB_meetAllAt p [i] j
  · rw [meetAt_target]
    exact (hp i).get_meetInto (hp j) x
  · refine ((canonical_meetAllAt hp l j j).same_iff_le (canonical_meetAllAt hp l' j j)).mpr ?_
    exact ⟨meetAllAt_le_of_subset fun i ↦ (hl i).mp, meetAllAt_le_of_subset fun i ↦ (hl i).mpr⟩

/-- Two facts that disagree about `x`, of which one alone speaks of `y`, and a third one that they
are met into in different orders, once together with itself. -/
theorem meets_isLUB_disagreement :
    let x : Var := ⟨"x", .int⟩
    let y : Var := ⟨"y", .int⟩
    let f : ConstFact := (((∅ : ConstFact).update x (.constant 1)).2.update y (.constant 2)).2
    let g : ConstFact := ((∅ : ConstFact).update x (.constant 3)).2
    let p : ℕ → ConstFact := fun i ↦ if i = 0 then f else if i = 1 then g else ∅
    (∀ i, (p i).Canonical) ∧ IsLUB {f, g} (meetAt p 0 1 1) ∧
      (meetAt p 0 1 1).get x = .varying ∧ (meetAt p 0 1 1).get y = .constant 2 ∧
      (meetAllAt p [0, 2, 1] 2 2).same (meetAllAt p [1, 0, 0, 2, 1] 2 2) = true := by
  intro x y f g p
  have hf : f.Canonical := (canonical_empty.update x (by decide)).update y (by decide)
  have hg : g.Canonical := canonical_empty.update x (by decide)
  have hp : ∀ i, (p i).Canonical := by
    intro i
    change (if i = 0 then f else if i = 1 then g else ∅).Canonical
    split_ifs
    · exact hf
    · exact hg
    · exact canonical_empty
  obtain ⟨-, -, -, hlub, hget⟩ := (meets_isLUB hp 1).1 0
  obtain ⟨-, hsame⟩ := (meets_isLUB hp 2).2 [0, 2, 1]
  have hmembers : ∀ i : ℕ, i ∈ [0, 2, 1] ↔ i ∈ [1, 0, 0, 2, 1] := by
    intro i
    simp only [List.mem_cons, List.not_mem_nil, or_false]
    omega
  exact ⟨hp, hlub, hget x, hget y, hsame _ hmembers⟩

end ProgramAnalysis.ConstFact
