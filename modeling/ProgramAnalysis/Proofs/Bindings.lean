import Mathlib.Data.List.Perm.Subperm
import ProgramAnalysis.Collections.Rebinding

/-!
# What maps bind

A map is determined by `find?` up to the order of its bindings: `sameBindings` holds exactly if
`find?` agrees on all keys. Since the keys of a map are pairwise distinct, a binding stands in the
list of bindings exactly if `find?` answers with it.
-/

namespace ProgramAnalysis.OrderedMap

variable {κ α : Type}

theorem length_keys (m : OrderedMap κ α) : m.keys.length = m.size := List.length_map _

variable [DecidableEq κ]

/-! ## Bindings and answers -/

theorem findIn_eq_some_of_mem {k : κ} {v : α} {l : List (κ × α)} (hl : (l.map Prod.fst).Nodup)
    (h : (k, v) ∈ l) : findIn k l = some v := by
  induction l with
  | nil => simp at h
  | cons e l ih =>
    rw [List.map_cons, List.nodup_cons] at hl
    rcases List.mem_cons.mp h with rfl | h
    · rw [findIn, if_pos rfl]
    · have hne : e.1 ≠ k := fun he ↦ hl.1 (he ▸ List.mem_map_of_mem (f := Prod.fst) h)
      rw [findIn, if_neg hne]
      exact ih hl.2 h

theorem mem_of_findIn_eq_some {k : κ} {v : α} {l : List (κ × α)} (h : findIn k l = some v) :
    (k, v) ∈ l := by
  induction l with
  | nil => simp [findIn] at h
  | cons e l ih =>
    rw [findIn] at h
    split at h
    · rename_i he
      rw [← he, ← Option.some.inj h]
      exact List.mem_cons_self
    · exact List.mem_cons_of_mem _ (ih h)

theorem mem_entries_iff {m : OrderedMap κ α} {k : κ} {v : α} :
    (k, v) ∈ m.entries ↔ m.find? k = some v :=
  ⟨findIn_eq_some_of_mem m.nodup_keys, mem_of_findIn_eq_some⟩

theorem mem_keys_iff {m : OrderedMap κ α} {k : κ} : k ∈ m.keys ↔ ∃ v, m.find? k = some v := by
  rw [← not_iff_not, ← find?_eq_none_iff, Option.eq_none_iff_forall_not_mem]
  simp

theorem insertIn_of_notMem {k : κ} (v : α) {l : List (κ × α)} (h : k ∉ l.map Prod.fst) :
    insertIn k v l = l ++ [(k, v)] := by
  induction l with
  | nil => rfl
  | cons e l ih =>
    rw [List.map_cons, List.mem_cons, not_or] at h
    rw [insertIn, if_neg (Ne.symm h.1), ih h.2, List.cons_append]

/-- A fresh key is bound at the end. -/
theorem entries_insert_of_find?_eq_none {m : OrderedMap κ α} {k : κ} (v : α)
    (h : m.find? k = none) : (m.insert k v).entries = m.entries ++ [(k, v)] :=
  insertIn_of_notMem v (find?_eq_none_iff.mp h)

theorem insertIn_of_findIn_eq_some {k : κ} {v : α} {l : List (κ × α)}
    (h : findIn k l = some v) : insertIn k v l = l := by
  induction l with
  | nil => simp [findIn] at h
  | cons e l ih =>
    rw [findIn] at h
    rw [insertIn]
    split at h
    · rename_i he
      rw [if_pos he, ← he, ← Option.some.inj h]
    · rename_i he
      rw [if_neg he, ih h]

/-- To bind a key to the value that it has already is to do nothing. -/
theorem insert_of_find?_eq_some {m : OrderedMap κ α} {k : κ} {v : α} (h : m.find? k = some v) :
    m.insert k v = m := by
  rw [insert]
  congr 1
  exact insertIn_of_findIn_eq_some h

/-! ## Answers with a default -/

theorem findD_insert (m : OrderedMap κ α) (k j : κ) (v d : α) :
    (m.insert k v).findD j d = if k = j then v else m.findD j d := by
  rw [findD, find?_insert]
  split <;> rfl

theorem find?_eq_some_findD {m : OrderedMap κ α} {k : κ} (d : α) (h : m.find? k ≠ none) :
    m.find? k = some (m.findD k d) := by
  obtain ⟨v, hv⟩ := Option.ne_none_iff_exists'.mp h
  rw [findD, hv, Option.getD_some]

/-- The values are the answers for the keys. -/
theorem values_eq_map_findD (m : OrderedMap κ α) (d : α) :
    m.values = m.keys.map fun k ↦ m.findD k d := by
  rw [values, keys, List.map_map]
  refine List.map_congr_left fun e he ↦ ?_
  have hfind : m.find? e.1 = some e.2 := mem_entries_iff.mp he
  rw [Function.comp_apply, findD, hfind, Option.getD_some]

theorem keys_append (m : OrderedMap κ (List α)) (k : κ) (v : α) :
    (m.append k v).keys = if k ∈ m.keys then m.keys else m.keys ++ [k] :=
  keys_insert m k _

/-- Appending to the list of a key adds one member, there and nowhere else. -/
theorem findD_append (m : OrderedMap κ (List α)) (k j : κ) (v : α) :
    (m.append k v).findD j [] = if k = j then m.findD j [] ++ [v] else m.findD j [] := by
  rw [append, findD_insert]
  split
  · rename_i h
    rw [h]
  · rfl

/-- A list that is extended only by new members is a set kept in the order of arrival. -/
theorem findD_append_of_notMem [DecidableEq α] {m : OrderedMap κ (List α)} {k : κ} {v : α}
    (h : v ∉ m.findD k []) (j : κ) : (m.append k v).findD j [] =
      if j = k ∧ v ∉ m.findD j [] then m.findD j [] ++ [v] else m.findD j [] := by
  rw [findD_append]
  by_cases hj : k = j
  · subst hj
    rw [if_pos rfl, if_pos ⟨rfl, h⟩]
  · rw [if_neg hj, if_neg fun hk ↦ hj hk.1.symm]

/-! ## Maps from lists -/

theorem find?_foldl_insert (f : κ → α) (k : κ) (l : List κ) (m : OrderedMap κ α) :
    ((l.map fun j ↦ (j, f j)).foldl (fun m e ↦ m.insert e.1 e.2) m).find? k =
      if k ∈ l then some (f k) else m.find? k := by
  induction l generalizing m with
  | nil => simp
  | cons j l ih =>
    rw [List.map_cons, List.foldl_cons, ih, find?_insert]
    by_cases hk : k ∈ l
    · simp [hk]
    · by_cases hj : j = k
      · subst hj
        simp [hk]
      · simp [hk, hj, Ne.symm hj]

/-- A table of a function over a list of keys. -/
theorem find?_ofList_map (f : κ → α) (k : κ) (l : List κ) :
    (ofList (l.map fun j ↦ (j, f j))).find? k = if k ∈ l then some (f k) else none :=
  find?_foldl_insert f k l empty

/-! ## Maps with the same bindings -/

variable [DecidableEq α]

/-- Two maps have the same bindings exactly if they give the same answers. -/
theorem sameBindings_iff {m n : OrderedMap κ α} :
    m.sameBindings n = true ↔ ∀ k, m.find? k = n.find? k := by
  rw [sameBindings, Bool.and_eq_true, beq_iff_eq, List.all_eq_true]
  constructor
  · rintro ⟨hsize, hall⟩ k
    have hsome : ∀ k v, m.find? k = some v → n.find? k = some v := fun k v hv ↦ by
      simpa using hall (k, v) (mem_entries_iff.mpr hv)
    cases hk : m.find? k with
    | some v => exact (hsome k v hk).symm
    | none =>
      -- `m` has as many keys as `n`, and all of them are keys of `n`
      have hsub : m.keys ⊆ n.keys := fun j hj ↦ by
        obtain ⟨v, hv⟩ := mem_keys_iff.mp hj
        exact mem_keys_iff.mpr ⟨v, hsome j v hv⟩
      have hnodup : m.keys.Nodup := m.nodup_keys
      have hperm : m.keys.Perm n.keys := by
        refine (hnodup.subperm hsub).perm_of_length_le ?_
        rw [length_keys, length_keys]
        exact Nat.le_of_eq hsize.symm
      rw [find?_eq_none_iff, hperm.mem_iff] at hk
      exact (find?_eq_none_iff.mpr hk).symm
  · intro h
    refine ⟨?_, fun e he ↦ by simpa [← h] using mem_entries_iff.mp he⟩
    have hkeys : ∀ k, k ∈ m.keys ↔ k ∈ n.keys := fun k ↦ by
      rw [mem_keys_iff, mem_keys_iff, h]
    have hperm : m.keys.Perm n.keys :=
      (List.perm_ext_iff_of_nodup m.nodup_keys n.nodup_keys).mpr hkeys
    rw [← length_keys, ← length_keys, hperm.length_eq]

end ProgramAnalysis.OrderedMap
