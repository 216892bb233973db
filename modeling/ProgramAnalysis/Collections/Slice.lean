/-!
# Positions and slices counted from either end

A negative position counts from the end of a list: `-1` is the last member. A slice walks from
`start` towards `stop`, which it excludes, in strides of `step`; a negative stride walks backwards.
Bounds outside the list are moved to its nearest end, so a slice never fails, except that a stride
of zero walks nowhere and is refused.
-/

namespace ProgramAnalysis

variable {α : Type}

/-- The member at position `i`, a negative `i` counting from the end. -/
def memberAt? (l : List α) (i : Int) : Option α :=
  let j := if i < 0 then i + l.length else i
  if j < 0 then none else l[j.toNat]?

/-- A request for part of a list; an omitted bound stands for the end where the walk begins or
stops. -/
structure Slice where
  start : Option Int := none
  stop : Option Int := none
  step : Option Int := none

namespace Slice

/-- Moves a bound into the range from `low` to `high`, a negative bound counting from the end. -/
private def clamp (length low high i : Int) : Int :=
  if i < 0 then max low (i + length) else min high i

/-- The part of the list that a slice selects, or `none` if the stride is zero. -/
def select? (s : Slice) (l : List α) : Option (List α) :=
  let step := s.step.getD 1
  if step = 0 then none
  else
    let n : Int := l.length
    let forward := 0 < step
    let low : Int := if forward then 0 else -1
    let high : Int := if forward then n else n - 1
    let start := (s.start.map (clamp n low high)).getD (if forward then low else high)
    let stop := (s.stop.map (clamp n low high)).getD (if forward then high else low)
    let gap := if forward then stop - start else start - stop
    let count := ((gap + step.natAbs - 1) / step.natAbs).toNat
    some ((List.range count).filterMap fun (i : Nat) ↦ l[(start + i * step).toNat]?)

end Slice

end ProgramAnalysis
