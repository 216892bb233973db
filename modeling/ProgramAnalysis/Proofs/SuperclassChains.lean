import ProgramAnalysis.Proofs.Ancestors

/-!
# The nearest method on a chain of superclasses

The chain of superclasses above a class ends at a class without a superclass, or it is circular: a
class comes up on it a second time, and then all that follows has been passed before. In a finite
table one of the two is the case, and never both.

A search for a method looks at the classes of the chain one after the other. It answers with the
nearest concrete method whatever the chain is like behind it, and whatever has been declared
abstract in front of it. If there is none, the answer depends on the chain: nothing if it ends, an
error if it is circular. The error is thus never raised for a cycle that the search does not enter.
-/

namespace ProgramAnalysis.ClassTable

variable {t : ClassTable} {c d e : ClassId} {s : Signature} {i j k n : ℕ}

/-! ## Chains -/

/-- The class that stands `n` steps up the chain of superclasses, if the chain gets there. -/
def ancestor? (t : ClassTable) (c : ClassId) : ℕ → Option ClassId
  | 0 => some c
  | n + 1 => (t.ancestor? c n).bind fun d ↦ (t.decl d).superclass

/-- The chain above a class comes to an end. -/
def ChainEnds (t : ClassTable) (c : ClassId) : Prop := ∃ n, t.ancestor? c n = none

/-- The chain above a class meets some class twice. -/
def ChainRepeats (t : ClassTable) (c : ClassId) : Prop :=
  ∃ i j d, i < j ∧ t.ancestor? c i = some d ∧ t.ancestor? c j = some d

theorem ancestor?_succ_eq_some_iff :
    t.ancestor? c (n + 1) = some e ↔ ∃ d, t.ancestor? c n = some d ∧ (t.decl d).superclass = some e :=
  Option.bind_eq_some_iff

/-- A chain that has ended does not go on. -/
theorem ancestor?_eq_none_of_le (h : t.ancestor? c i = none) (hij : i ≤ j) :
    t.ancestor? c j = none := by
  induction hij with
  | refl => exact h
  | step _ ih => rw [ancestor?, ih, Option.bind_none]

/-- From two places where the same class stands, the chain goes on in the same way. -/
theorem ancestor?_add_congr (h : t.ancestor? c i = t.ancestor? c j) (k : ℕ) :
    t.ancestor? c (i + k) = t.ancestor? c (j + k) := by
  induction k with
  | zero => exact h
  | succ k ih => rw [← Nat.add_assoc, ← Nat.add_assoc, ancestor?, ancestor?, ih]

/-- Once a class has come up again, no new class comes up. -/
theorem exists_lt_ancestor? (hij : i < j) (h : t.ancestor? c i = t.ancestor? c j) (n : ℕ) :
    ∃ k < j, t.ancestor? c k = t.ancestor? c n := by
  induction n using Nat.strong_induction_on with
  | _ n ih =>
    rcases Nat.lt_or_ge n j with hn | hn
    · exact ⟨n, hn, rfl⟩
    · -- the same class stands one round earlier
      obtain ⟨k, hk, heq⟩ := ih (i + (n - j)) (by omega)
      refine ⟨k, hk, heq.trans ?_⟩
      rw [ancestor?_add_congr h, Nat.add_sub_cancel' hn]

theorem ChainRepeats.not_chainEnds (h : t.ChainRepeats c) : ¬t.ChainEnds c := by
  obtain ⟨i, j, d, hij, hi, hj⟩ := h
  rintro ⟨n, hn⟩
  obtain ⟨k, hk, heq⟩ := exists_lt_ancestor? hij (hi.trans hj.symm) n
  have hnone : t.ancestor? c j = none :=
    ancestor?_eq_none_of_le (heq.trans hn) (Nat.le_of_lt hk)
  rw [hj] at hnone
  simp at hnone

/-! ## The nearest method -/

/-- The first class of the chain that implements the signature. -/
def IsNearest (t : ClassTable) (c : ClassId) (s : Signature) (d : ClassId) : Prop :=
  ∃ n, t.ancestor? c n = some d ∧ t.Implements d s ∧
    ∀ k < n, ∀ e, t.ancestor? c k = some e → ¬t.Implements e s

/-- No class of the chain implements the signature. -/
def Lacks (t : ClassTable) (c : ClassId) (s : Signature) : Prop :=
  ∀ n d, t.ancestor? c n = some d → ¬t.Implements d s

theorem IsNearest.unique (hd : t.IsNearest c s d) (he : t.IsNearest c s e) : d = e := by
  obtain ⟨i, hi, hdi, hbefore⟩ := hd
  obtain ⟨j, hj, hej, hbefore'⟩ := he
  rcases Nat.lt_trichotomy i j with hij | rfl | hij
  · exact absurd hdi (hbefore' i hij d hi)
  · exact Option.some.inj (hi.symm.trans hj)
  · exact absurd hej (hbefore j hij e hj)

theorem IsNearest.not_lacks (hd : t.IsNearest c s d) : ¬t.Lacks c s := by
  obtain ⟨n, hn, himp, -⟩ := hd
  exact fun h ↦ h n d hn himp

/-- The answers that a search from `c` can give, each with the reason for it. -/
inductive Answers (t : ClassTable) (c : ClassId) (s : Signature) :
    Except HierarchyError (Option MethodRef) → Prop
  | nearest {d : ClassId} (hd : t.IsNearest c s d) : Answers t c s (.ok (some ⟨d, s⟩))
  | nothing (hlacks : t.Lacks c s) (hends : t.ChainEnds c) : Answers t c s (.ok none)
  | circular (hlacks : t.Lacks c s) (hrepeats : t.ChainRepeats c) :
    Answers t c s (.error (.cyclic c))

/-- No two reasons go together. -/
theorem Answers.unique {r r' : Except HierarchyError (Option MethodRef)} (h : t.Answers c s r)
    (h' : t.Answers c s r') : r = r' := by
  cases h with
  | nearest hd =>
    cases h' with
    | nearest hd' => rw [hd.unique hd']
    | nothing hlacks => exact absurd hlacks hd.not_lacks
    | circular hlacks => exact absurd hlacks hd.not_lacks
  | nothing hlacks hends =>
    cases h' with
    | nearest hd => exact absurd hlacks hd.not_lacks
    | nothing => rfl
    | circular _ hrepeats => exact absurd hends hrepeats.not_chainEnds
  | circular hlacks hrepeats =>
    cases h' with
    | nearest hd => exact absurd hlacks hd.not_lacks
    | nothing _ hends => exact absurd hends hrepeats.not_chainEnds
    | circular => rfl

/-- A search that has passed the first classes of a chain, none of which implements the signature,
answers for the whole chain. -/
theorem Search.answers {start : ClassId} {seen : List ClassId}
    {r : Except HierarchyError (Option MethodRef)} (h : t.Search s start seen c r)
    (hc : t.ancestor? start n = some c)
    (hseen : ∀ x ∈ seen, ∃ k < n, t.ancestor? start k = some x)
    (hpassed : ∀ k < n, ∀ x, t.ancestor? start k = some x → ¬t.Implements x s) :
    t.Answers start s r := by
  induction h generalizing n with
  | @meetsAgain _ c hmem =>
    obtain ⟨i, hi, heq⟩ := hseen c hmem
    refine .circular (fun k x hx ↦ ?_) ⟨i, n, c, hi, heq, hc⟩
    obtain ⟨j, hj, hjk⟩ := exists_lt_ancestor? hi (heq.trans hc.symm) k
    exact hpassed j hj x (hjk.trans hx)
  | @finds _ c _ _ hconcrete =>
    obtain ⟨himp, rfl⟩ := concrete?_eq_some_iff.mp hconcrete
    exact .nearest ⟨n, hc, himp, hpassed⟩
  | @runsOut _ c _ hconcrete hsuper =>
    have hend : t.ancestor? start (n + 1) = none := by
      rw [ancestor?, hc, Option.bind_some, hsuper]
    refine .nothing (fun k x hx ↦ ?_) ⟨n + 1, hend⟩
    rcases Nat.lt_trichotomy k n with hk | rfl | hk
    · exact hpassed k hk x hx
    · obtain rfl := Option.some.inj (hc.symm.trans hx)
      exact concrete?_eq_none_iff.mp hconcrete
    · have hnone : t.ancestor? start k = none := ancestor?_eq_none_of_le hend hk
      rw [hx] at hnone
      simp at hnone
  | @handsOn _ c d _ _ hstep _ ih =>
    refine ih (n := n + 1) (ancestor?_succ_eq_some_iff.mpr ⟨c, hc, hstep.2⟩) (fun x hx ↦ ?_) ?_
    · rcases List.mem_cons.mp hx with rfl | hx
      · exact ⟨n, Nat.lt_succ_self n, hc⟩
      · obtain ⟨k, hk, heq⟩ := hseen x hx
        exact ⟨k, Nat.lt_succ_of_lt hk, heq⟩
    · intro k hk x hx
      rcases Nat.lt_succ_iff_lt_or_eq.mp hk with hk | rfl
      · exact hpassed k hk x hx
      · obtain rfl := Option.some.inj (hc.symm.trans hx)
        exact concrete?_eq_none_iff.mp hstep.1

theorem answers_dispatch (t : ClassTable) (c : ClassId) (s : Signature) :
    t.Answers c s (t.dispatch c s) :=
  (search_dispatch t c s).answers (n := 0) rfl (by simp) (by simp)

theorem exists_isNearest (h : t.ancestor? c n = some d) (himp : t.Implements d s) :
    ∃ e, t.IsNearest c s e := by
  induction n using Nat.strong_induction_on generalizing d with
  | _ n ih =>
    by_cases hbefore : ∃ k < n, ∃ e, t.ancestor? c k = some e ∧ t.Implements e s
    · obtain ⟨k, hk, e, he, himp'⟩ := hbefore
      exact ih k hk he himp'
    · exact ⟨d, n, h, himp, fun k hk e he himp' ↦ hbefore ⟨k, hk, e, he, himp'⟩⟩

/-- The search for a method comes to an end by itself. It finds the nearest concrete method if the
chain has one; otherwise it finds nothing if the chain ends and fails if the chain is circular. -/
theorem dispatch_nearest (t : ClassTable) (c : ClassId) (s : Signature) :
    t.Search s c [] c (t.dispatch c s) ∧
      ((∃ n d, t.ancestor? c n = some d ∧ t.Implements d s) → ∃ d, t.IsNearest c s d) ∧
      (∀ m, t.dispatch c s = .ok (some m) ↔ ∃ d, t.IsNearest c s d ∧ m = ⟨d, s⟩) ∧
      (t.dispatch c s = .ok none ↔ t.Lacks c s ∧ t.ChainEnds c) ∧
      (∀ e, t.dispatch c s = .error e ↔ t.Lacks c s ∧ t.ChainRepeats c ∧ e = .cyclic c) := by
  have hanswers : t.Answers c s (t.dispatch c s) := answers_dispatch t c s
  refine ⟨search_dispatch t c s, fun ⟨n, d, hd, himp⟩ ↦ exists_isNearest hd himp,
    fun m ↦ ⟨fun h ↦ ?_, ?_⟩, ⟨fun h ↦ ?_, ?_⟩, fun e ↦ ⟨fun h ↦ ?_, ?_⟩⟩
  · rw [h] at hanswers
    cases hanswers with
    | @nearest d hd => exact ⟨d, hd, rfl⟩
  · rintro ⟨d, hd, rfl⟩
    exact hanswers.unique (.nearest hd)
  · rw [h] at hanswers
    cases hanswers with
    | nothing hlacks hends => exact ⟨hlacks, hends⟩
  · rintro ⟨hlacks, hends⟩
    exact hanswers.unique (.nothing hlacks hends)
  · rw [h] at hanswers
    cases hanswers with
    | circular hlacks hrepeats => exact ⟨hlacks, hrepeats, rfl⟩
  · rintro ⟨hlacks, hrepeats, rfl⟩
    exact hanswers.unique (.circular hlacks hrepeats)

/-- Three classes with a signature `void turn()`. `Wheel` extends `Part` and inherits the method;
`Part` redeclares it as abstract; `Part` and `Machine` extend each other, and `Machine` has it. -/
def entangled : ClassTable where
  classes := .ofList
    [(⟨"Wheel", 0⟩, { superclass := some ⟨"Part", 1⟩ }),
      (⟨"Part", 1⟩,
        { superclass := some ⟨"Machine", 2⟩
          methods := .ofList [(⟨"turn", [], none⟩, ⟨true, false, 0, none⟩)] }),
      (⟨"Machine", 2⟩,
        { superclass := some ⟨"Part", 1⟩
          methods := .ofList [(⟨"turn", [], none⟩, ⟨false, false, 0, none⟩)] })]

/-- The method is found although the chain is circular behind it. A signature that is declared
nowhere is searched for until `Part` comes up again. -/
theorem dispatch_nearest_entangled :
    entangled.dispatch ⟨"Wheel", 0⟩ ⟨"turn", [], none⟩ =
        .ok (some ⟨⟨"Machine", 2⟩, ⟨"turn", [], none⟩⟩) ∧
      entangled.IsNearest ⟨"Wheel", 0⟩ ⟨"turn", [], none⟩ ⟨"Machine", 2⟩ ∧
      entangled.dispatch ⟨"Wheel", 0⟩ ⟨"stop", [], none⟩ = .error (.cyclic ⟨"Wheel", 0⟩) ∧
      entangled.Lacks ⟨"Wheel", 0⟩ ⟨"stop", [], none⟩ ∧
      entangled.ChainRepeats ⟨"Wheel", 0⟩ := by
  obtain ⟨-, -, hfound, -, -⟩ := dispatch_nearest entangled ⟨"Wheel", 0⟩ ⟨"turn", [], none⟩
  obtain ⟨-, -, -, -, hfails⟩ := dispatch_nearest entangled ⟨"Wheel", 0⟩ ⟨"stop", [], none⟩
  have hturn : entangled.dispatch ⟨"Wheel", 0⟩ ⟨"turn", [], none⟩ =
      .ok (some ⟨⟨"Machine", 2⟩, ⟨"turn", [], none⟩⟩) := by decide
  have hstop : entangled.dispatch ⟨"Wheel", 0⟩ ⟨"stop", [], none⟩ =
      .error (.cyclic ⟨"Wheel", 0⟩) := by decide
  obtain ⟨d, hd, hm⟩ := (hfound _).mp hturn
  obtain ⟨rfl, -⟩ := MethodRef.mk.inj hm
  obtain ⟨hlacks, hrepeats, -⟩ := (hfails _).mp hstop
  exact ⟨hturn, hd, hstop, hlacks, hrepeats⟩

end ProgramAnalysis.ClassTable
