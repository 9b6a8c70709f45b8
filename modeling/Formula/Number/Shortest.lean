import Formula.Number.Binary

/-!
# The shortest decimal that reads back

A double is written with the fewest digits that round to it, and among these with the digits
nearest to its exact value; of two equally near, the larger. The text is positional whatever the
size of the number: no exponent, no trailing `.0`.

All comparisons are made in exact natural arithmetic. The value, and the two ends of the interval of
reals that round to it, are taken as numerators over one denominator; a decimal grid
`10 ^ k` is then searched from coarse to fine.
-/

set_option autoImplicit false

namespace Formula.Number

/-- The reals that round to a positive double: all those between `low` and `high`, over the
denominator `unit`, with both ends included when `closed`. -/
structure Interval where
  low : Nat
  value : Nat
  high : Nat
  unit : Nat
  closed : Bool
  deriving DecidableEq, Repr

/-- The interval of `mantissa * 2 ^ exponent`. Below a power of two the spacing of doubles halves,
so the lower end is nearer there; the ends round to even mantissas. -/
def Interval.of (p : Parts) : Interval :=
  let below := if p.mantissa = twoTo 52 ∧ -1074 < p.exponent then 1 else 2
  let scale := twoTo (p.exponent - 2).toNat
  { low := (4 * p.mantissa - below) * scale
    value := 4 * p.mantissa * scale
    high := (4 * p.mantissa + 2) * scale
    unit := twoTo (2 - p.exponent).toNat
    closed := p.mantissa % 2 = 0 }

/-- Whether the real `a / unit` lies in the interval. -/
def Interval.holds (i : Interval) (a : Nat) : Bool :=
  if i.closed then i.low ≤ a ∧ a ≤ i.high else i.low < a ∧ a < i.high

/-- The interval with every number multiplied by `factor`, over the same unit. -/
def Interval.times (i : Interval) (factor : Nat) : Interval :=
  { i with low := i.low * factor, value := i.value * factor, high := i.high * factor }

/-- The point of the grid of width `step` that lies in the interval and is nearest to the value,
counted in steps. Only the value's two neighbours on the grid can be. -/
def Interval.nearest? (i : Interval) (step : Nat) : Option Nat :=
  let n := i.value / step
  let down := i.holds (n * step)
  let up := i.holds ((n + 1) * step)
  if down && up then some (if 2 * (i.value % step) < step then n else n + 1)
  else if down then some n
  else if up then some (n + 1)
  else none

/-- The digits and the power of ten of the coarsest grid with a point in the interval, among the
`tries` grids from `10 ^ k` down. -/
def Interval.search (i : Interval) : Nat → Int → Nat × Int
  | 0, k => (0, k)
  | tries + 1, k =>
    match (i.times (tenTo (-k).toNat)).nearest? (i.unit * tenTo k.toNat) with
    | some digits => (digits, k)
    | none => i.search tries (k - 1)

/-- A power of ten above the value of the parts. -/
def Parts.decimalBound (p : Parts) : Int :=
  ((Nat.log2 p.mantissa : Int) + p.exponent + 1) * 30103 / 100000 + 1

/-- The shortest digits `d` and the power `k` for which `d * 10 ^ k` reads back as the value. -/
def Parts.shortest (p : Parts) : Nat × Int :=
  (Interval.of p).search 24 p.decimalBound

/-- The positional text of `digits * 10 ^ k`. -/
def positional (digits : Nat) (k : Int) : List Char :=
  let ds := Nat.toDigits 10 digits
  if 0 ≤ k then ds ++ List.replicate k.toNat '0'
  else
    let places := (-k).toNat
    if places < ds.length then
      ds.take (ds.length - places) ++ '.' :: ds.drop (ds.length - places)
    else '0' :: '.' :: (List.replicate (places - ds.length) '0' ++ ds)

/-- The text of the absolute value. -/
def Parts.magnitudeText (p : Parts) : List Char :=
  if p.mantissa = 0 then ['0']
  else
    let (digits, k) := p.shortest
    positional digits k

/-- The text of a number: a sign for negative numbers and negative zero, `∞` for infinity. -/
def text (x : Float) : List Char :=
  let magnitude :=
    match parts? x with
    | some p => p.magnitudeText
    | none => if x.isNaN then ['N', 'a', 'N'] else ['∞']
  if isNegative x && !x.isNaN then '-' :: magnitude else magnitude

end Formula.Number
