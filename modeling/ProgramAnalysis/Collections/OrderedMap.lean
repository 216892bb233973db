/-!
# Maps that remember the order of arrival

An `OrderedMap` is a list of bindings with pairwise distinct keys. Binding a fresh key puts it at
the end, binding a known key replaces its value where it stands, and erasing a key closes the gap,
so that a key which leaves and comes back stands last.

The order is visible wherever a map is printed or traversed; two maps are nevertheless *the same
map* when they bind the same keys to the same values (`sameBindings`). Every operation is
characterised by what it does to `find?`.
-/

namespace ProgramAnalysis

variable {κ α : Type}

/-- A finite map whose bindings stand in the order in which their keys arrived. -/
structure OrderedMap (κ α : Type) where
  entries : List (κ × α)
  nodup_keys : (entries.map Prod.fst).Nodup

namespace OrderedMap

/-! ## Bindings as lists

The operations act on the list of bindings; the two lemmas on `Prod.fst` carry the invariant. -/

section Entries

variable [DecidableEq κ]

/-- The value bound to `k` in a list of bindings. -/
def findIn (k : κ) : List (κ × α) → Option α
  | [] => none
  | (j, v) :: l => if j = k then some v else findIn k l

/-- Rebinds `k` in place, or binds it at the end. -/
def insertIn (k : κ) (v : α) : List (κ × α) → List (κ × α)
  | [] => [(k, v)]
  | (j, w) :: l => if j = k then (k, v) :: l else (j, w) :: insertIn k v l

/-- Drops the binding of `k`. -/
def eraseIn (k : κ) : List (κ × α) → List (κ × α)
  | [] => []
  | (j, w) :: l => if j = k then l else (j, w) :: eraseIn k l

theorem map_fst_insertIn (k : κ) (v : α) (l : List (κ × α)) :
    (insertIn k v l).map Prod.fst =
      if k ∈ l.map Prod.fst then l.map Prod.fst else l.map Prod.fst ++ [k] := by
  induction l with
  | nil => simp [insertIn]
  | cons e l ih =>
    obtain ⟨j, w⟩ := e
    by_cases h : j = k
    · simp [insertIn, h]
    · have h' : ¬k = j := fun e ↦ h e.symm
      simp only [insertIn, h, if_false, List.map_cons, ih, List.mem_cons, h', false_or]
      split <;> simp

theorem map_fst_eraseIn (k : κ) (l : List (κ × α)) :
    (eraseIn k l).map Prod.fst = (l.map Prod.fst).erase k := by
  induction l with
  | nil => simp [eraseIn]
  | cons e l ih =>
    obtain ⟨j, w⟩ := e
    by_cases h : j = k
    · simp [eraseIn, h]
    · simp [eraseIn, h, ih]

end Entries

/-! ## The operations -/

/-- The map without bindings. -/
def empty : OrderedMap κ α := ⟨[], by simp⟩

instance : EmptyCollection (OrderedMap κ α) := ⟨empty⟩

instance : Inhabited (OrderedMap κ α) := ⟨empty⟩

/-- The keys, in their order. -/
def keys (m : OrderedMap κ α) : List κ := m.entries.map Prod.fst

/-- The bound values, in the order of their keys. -/
def values (m : OrderedMap κ α) : List α := m.entries.map Prod.snd

/-- The number of bindings. -/
def size (m : OrderedMap κ α) : Nat := m.entries.length

variable [DecidableEq κ]

/-- The value bound to `k`, if any. -/
def find? (m : OrderedMap κ α) (k : κ) : Option α := findIn k m.entries

/-- The value bound to `k`, or `d` if there is none. -/
def findD (m : OrderedMap κ α) (k : κ) (d : α) : α := (m.find? k).getD d

/-- Whether `k` is bound. -/
def contains (m : OrderedMap κ α) (k : κ) : Bool := (m.find? k).isSome

/-- Binds `k` to `v`: in place if `k` is bound already, at the end otherwise. -/
def insert (m : OrderedMap κ α) (k : κ) (v : α) : OrderedMap κ α where
  entries := insertIn k v m.entries
  nodup_keys := by
    rw [map_fst_insertIn]
    split
    · exact m.nodup_keys
    · rename_i h
      rw [List.nodup_append]
      refine ⟨m.nodup_keys, by simp, ?_⟩
      rintro a ha b hb rfl
      exact h (List.mem_singleton.mp hb ▸ ha)

/-- Removes the binding of `k`, if any. -/
def erase (m : OrderedMap κ α) (k : κ) : OrderedMap κ α where
  entries := eraseIn k m.entries
  nodup_keys := by rw [map_fst_eraseIn]; exact m.nodup_keys.erase k

/-- Binds the pairs of a list one after the other; a later pair overrides an earlier one. -/
def ofList (l : List (κ × α)) : OrderedMap κ α := l.foldl (fun m e ↦ m.insert e.1 e.2) empty

/-- Appends `v` to the list bound to `k`, an unbound key counting as the empty list. -/
def append (m : OrderedMap κ (List α)) (k : κ) (v : α) : OrderedMap κ (List α) :=
  m.insert k (m.findD k [] ++ [v])

/-- Whether two maps bind the same keys to the same values, in whatever order. -/
def sameBindings [DecidableEq α] (m n : OrderedMap κ α) : Bool :=
  m.size == n.size && m.entries.all fun e ↦ n.find? e.1 == some e.2

/-! ## What the operations do to `find?` -/

private theorem findIn_insertIn (k j : κ) (v : α) (l : List (κ × α)) :
    findIn j (insertIn k v l) = if k = j then some v else findIn j l := by
  induction l with
  | nil => simp [insertIn, findIn]
  | cons e l ih =>
    obtain ⟨i, w⟩ := e
    by_cases h : i = k
    · subst h
      by_cases hj : i = j
      · simp [insertIn, findIn, hj]
      · simp [insertIn, findIn, hj]
    · simp only [insertIn, h, if_false, findIn, ih]
      by_cases hj : i = j
      · subst hj
        have h' : ¬k = i := fun e ↦ h e.symm
        simp [h']
      · simp [hj]

private theorem findIn_eq_none_iff {k : κ} {l : List (κ × α)} :
    findIn k l = none ↔ k ∉ l.map Prod.fst := by
  induction l with
  | nil => simp [findIn]
  | cons e l ih =>
    obtain ⟨j, w⟩ := e
    by_cases h : j = k
    · simp [findIn, h]
    · have h' : ¬k = j := fun e ↦ h e.symm
      simp [findIn, h, h', ih]

private theorem findIn_eraseIn (k j : κ) (l : List (κ × α)) (hl : (l.map Prod.fst).Nodup) :
    findIn j (eraseIn k l) = if k = j then none else findIn j l := by
  induction l with
  | nil => simp [eraseIn, findIn]
  | cons e l ih =>
    obtain ⟨i, w⟩ := e
    rw [List.map_cons, List.nodup_cons] at hl
    by_cases h : i = k
    · subst h
      by_cases hj : i = j
      · subst hj
        simpa [eraseIn] using findIn_eq_none_iff.mpr hl.1
      · simp [eraseIn, findIn, hj]
    · simp only [eraseIn, h, if_false, findIn, ih hl.2]
      by_cases hj : i = j
      · subst hj
        have h' : ¬k = i := fun e ↦ h e.symm
        simp [h']
      · simp [hj]

@[simp] theorem find?_empty (k : κ) : (∅ : OrderedMap κ α).find? k = none := rfl

theorem find?_insert (m : OrderedMap κ α) (k j : κ) (v : α) :
    (m.insert k v).find? j = if k = j then some v else m.find? j :=
  findIn_insertIn k j v m.entries

theorem find?_erase (m : OrderedMap κ α) (k j : κ) :
    (m.erase k).find? j = if k = j then none else m.find? j :=
  findIn_eraseIn k j m.entries m.nodup_keys

theorem find?_eq_none_iff {m : OrderedMap κ α} {k : κ} : m.find? k = none ↔ k ∉ m.keys :=
  findIn_eq_none_iff

theorem keys_insert (m : OrderedMap κ α) (k : κ) (v : α) :
    (m.insert k v).keys = if k ∈ m.keys then m.keys else m.keys ++ [k] :=
  map_fst_insertIn k v m.entries

theorem keys_erase (m : OrderedMap κ α) (k : κ) : (m.erase k).keys = m.keys.erase k :=
  map_fst_eraseIn k m.entries

end OrderedMap

end ProgramAnalysis
