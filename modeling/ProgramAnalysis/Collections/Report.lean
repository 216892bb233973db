/-!
# Reporting changes

Whoever iterates a state to a fixed point has to know whether an operation changed it. An operation
that reports answers with a flag beside the new state, which is `true` if there was a change.
-/

namespace ProgramAnalysis

variable {σ ε : Type}

/-- Performs an operation for each member of a list, and reports whether any of them changed the
state. -/
def reportAll (step : σ → ε → Bool × σ) (s : σ) (l : List ε) : Bool × σ :=
  l.foldl (fun r e ↦ let r' := step r.2 e; (r.1 || r'.1, r'.2)) (false, s)

variable (step : σ → ε → Bool × σ)

/-- A report that stands already is kept. -/
private theorem foldl_eq_reportAll (r : Bool × σ) (l : List ε) :
    l.foldl (fun r e ↦ let r' := step r.2 e; (r.1 || r'.1, r'.2)) r =
      (r.1 || (reportAll step r.2 l).1, (reportAll step r.2 l).2) := by
  induction l generalizing r with
  | nil => simp [reportAll]
  | cons e l ih =>
    rw [reportAll, List.foldl_cons, List.foldl_cons, ih, ih]
    simp [Bool.or_assoc]

theorem reportAll_cons (s : σ) (e : ε) (l : List ε) : reportAll step s (e :: l) =
    ((step s e).1 || (reportAll step (step s e).2 l).1, (reportAll step (step s e).2 l).2) := by
  rw [reportAll, List.foldl_cons, foldl_eq_reportAll]
  simp only [Bool.false_or]

/-- The state after a sequence of reporting operations does not depend on the reports. -/
theorem reportAll_snd (s : σ) (l : List ε) :
    (reportAll step s l).2 = l.foldl (fun s e ↦ (step s e).2) s := by
  induction l generalizing s with
  | nil => rfl
  | cons e l ih => rw [reportAll_cons, List.foldl_cons, ih]

end ProgramAnalysis
