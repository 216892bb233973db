/-!
# Computations that succeed

A computation that may fail is taken apart from its end: if all of it has succeeded, so has each
step, and the result of a step is what the rest went on with. If it has failed, one step did.
-/

namespace ProgramAnalysis

variable {ε α β : Type}

theorem exists_of_bind_eq_ok {r : Except ε α} {f : α → Except ε β} {b : β}
    (h : r >>= f = .ok b) : ∃ a, r = .ok a ∧ f a = .ok b := by
  cases r with
  | error _ => simp [bind, Except.bind] at h
  | ok a => exact ⟨a, rfl, h⟩

theorem exists_of_map_eq_ok {r : Except ε α} {f : α → β} {b : β}
    (h : r.map f = .ok b) : ∃ a, r = .ok a ∧ f a = b := by
  cases r with
  | error _ => simp [Except.map] at h
  | ok a => exact ⟨a, rfl, Except.ok.inj h⟩

theorem eq_ok_of_mapError_eq_ok {ε' : Type} {r : Except ε α} {f : ε → ε'} {a : α}
    (h : r.mapError f = .ok a) : r = .ok a := by
  cases r with
  | error e =>
    change Except.error (f e) = .ok a at h
    simp at h
  | ok a' => exact congrArg Except.ok (Except.ok.inj h)

/-- To run a computation shows that it succeeds. -/
theorem exists_of_any_toOption {r : Except ε α} {p : α → Bool}
    (h : r.toOption.any p = true) : ∃ a, r = .ok a ∧ p a = true := by
  cases r with
  | error e => simp [Except.toOption] at h
  | ok a => exact ⟨a, rfl, h⟩

/-- A traversal that succeeds lists the results for the members, one by one. -/
theorem mem_of_mapM_eq_ok {f : α → Except ε β} {l : List α} {l' : List β}
    (h : l.mapM f = .ok l') :
    (∀ a ∈ l, ∃ b, f a = .ok b) ∧ ∀ b, b ∈ l' ↔ ∃ a ∈ l, f a = .ok b := by
  induction l generalizing l' with
  | nil =>
    obtain rfl := Except.ok.inj h
    simp
  | cons a l ih =>
    rw [List.mapM_cons] at h
    obtain ⟨b, ha, h⟩ := exists_of_bind_eq_ok h
    obtain ⟨r, hl, h⟩ := exists_of_bind_eq_ok h
    obtain rfl := Except.ok.inj h
    obtain ⟨hall, hmem⟩ := ih hl
    refine ⟨fun c hc ↦ ?_, fun c ↦ ?_⟩
    · rcases List.mem_cons.mp hc with rfl | hc
      · exact ⟨b, ha⟩
      · exact hall c hc
    · simp only [List.mem_cons, hmem, exists_eq_or_imp, ha, Except.ok.injEq]
      rw [eq_comm]

/-- A traversal succeeds if it succeeds for each member. -/
theorem exists_mapM_eq_ok {f : α → Except ε β} {l : List α} (h : ∀ a ∈ l, ∃ b, f a = .ok b) :
    ∃ l', l.mapM f = .ok l' := by
  induction l with
  | nil => exact ⟨[], rfl⟩
  | cons a l ih =>
    obtain ⟨b, hb⟩ := h a List.mem_cons_self
    obtain ⟨l', hl'⟩ := ih fun c hc ↦ h c (List.mem_cons_of_mem a hc)
    refine ⟨b :: l', ?_⟩
    rw [List.mapM_cons, hb, hl']
    rfl

/-- A fold succeeds if each of its steps does, whatever has been computed before. -/
theorem exists_foldlM_eq_ok {f : β → α → Except ε β} {l : List α}
    (h : ∀ a ∈ l, ∀ b, ∃ b', f b a = .ok b') (b : β) : ∃ b', l.foldlM f b = .ok b' := by
  induction l generalizing b with
  | nil => exact ⟨b, rfl⟩
  | cons a l ih =>
    obtain ⟨b₁, hb₁⟩ := h a List.mem_cons_self b
    obtain ⟨b', hb'⟩ := ih (fun c hc ↦ h c (List.mem_cons_of_mem a hc)) b₁
    refine ⟨b', ?_⟩
    rw [List.foldlM_cons, hb₁]
    exact hb'

end ProgramAnalysis
