import ProgramAnalysis.Number.Binary64

/-!
# The shortest decimal of a floating-point number

The reals that are nearer to a given double-precision number than to any other form an interval
around it. Among the decimals in that interval, the one with the fewest digits is chosen, and among
those with the fewest digits the one nearest to the number; of two that are equally near, the one
with the even last digit.

The search goes through the multiples of `10 ^ e` for decreasing `e`. If a multiple of `10 ^ e` lies
in the interval at all, one of the two neighbours of the number does, so only these are tested. All
comparisons are between natural numbers.
-/

namespace ProgramAnalysis.Shortest

/-- The decimal `digits * 10 ^ exponent`. -/
structure Decimal where
  digits : Nat
  exponent : Int

/-- A number and the ends of the interval of reals that round to it, as multiples of one unit
`2 ^ unit`; the ends belong to it or not. -/
structure Interval where
  low : Nat
  value : Nat
  high : Nat
  unit : Int
  closed : Bool

/-- The interval around `m * 2 ^ e`. Below a power of two the neighbouring number is only half as
far away as above it, unless it has the least exponent. -/
def Interval.around (m : Nat) (e : Int) : Interval where
  low := if m = Binary64.hiddenBit ∧ e ≠ -1074 then 4 * m - 1 else 4 * m - 2
  value := 4 * m
  high := 4 * m + 2
  unit := e - 2
  closed := m % 2 == 0

/-- The multiple of `10 ^ e` that represents the number in the interval, if one does: the nearest of
the number's two neighbours, provided that it lies in the interval. -/
def multiple? (i : Interval) (e : Int) : Option Nat :=
  let up := Nat.pow 10 (-e).toNat <<< i.unit.toNat
  let down := Nat.pow 10 e.toNat <<< (-i.unit).toNat
  let inside (d : Nat) : Bool :=
    if i.closed then i.low * up ≤ d * down && d * down ≤ i.high * up
    else i.low * up < d * down && d * down < i.high * up
  let d := i.value * up / down
  let rest := i.value * up % down
  let upper := if 2 * rest = down then d % 2 == 1 else 2 * rest > down
  let nearest := if upper then d + 1 else d
  let other := if upper then d else d + 1
  if inside nearest then some nearest else if inside other then some other else none

/-- The first of the exponents `e`, `e - 1`, … at which the grid meets the interval. -/
def search (i : Interval) : (fuel : Nat) → (e : Int) → Decimal
  | 0, e => ⟨0, e⟩
  | fuel + 1, e =>
    match multiple? i e with
    | some d => ⟨d, e⟩
    | none => search i fuel (e - 1)

/-- The shortest decimal of the positive number `m * 2 ^ e`. The search starts above the number's
leading digit, less than three places too high, and 17 digits always suffice. -/
def decimal (m : Nat) (e : Int) : Decimal :=
  search (.around m e) 21 ((m.log2 + 1 + e) * 30103 / 100000 + 1)

/-! ## Layout -/

/-- How a decimal is laid out: the exponents of the leading digit that are written positionally, and
the least number of digits of an exponent that is written out. -/
structure Layout where
  least : Int
  greatest : Int
  exponentDigits : Nat

/-- The decimal digits of a number, with zeros in front if there are fewer than `width`. -/
private def paddedDigits (width n : Nat) : List Char :=
  let ds := Nat.toDigits 10 n
  List.replicate (width - ds.length) '0' ++ ds

/-- A positive decimal as text. A positional decimal has at least one digit behind the point. -/
def Layout.write (style : Layout) (d : Decimal) : List Char :=
  let ds := Nat.toDigits 10 d.digits
  let lead := d.exponent + ds.length - 1
  if style.least ≤ lead ∧ lead ≤ style.greatest then
    if lead < 0 then
      '0' :: '.' :: List.replicate (-lead - 1).toNat '0' ++ ds
    else
      let whole := (lead + 1).toNat
      let behind := ds.drop whole
      ds.take whole ++ List.replicate (whole - ds.length) '0' ++ '.' ::
        (if behind.isEmpty then ['0'] else behind)
  else
    let behind := ds.drop 1
    ds.take 1 ++ (if behind.isEmpty then [] else '.' :: behind) ++
      'e' :: (if lead < 0 then '-' else '+') :: paddedDigits style.exponentDigits lead.natAbs

/-- A floating-point number as text. -/
def Layout.text (style : Layout) : Binary64 → String
  | .nan => "nan"
  | .infinite negative => if negative then "-inf" else "inf"
  | .finite negative m e =>
    let body := if m = 0 then ['0', '.', '0'] else style.write (decimal m e)
    String.ofList (if negative then '-' :: body else body)

end ProgramAnalysis.Shortest
