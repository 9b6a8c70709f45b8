/-!
# Reading numbers

A number is written as decimal digits with at most one point and an optional exponent, or as
`inf`, `infinity` or `nan` in any case; a sign may stand in front. The digits are ASCII digits. The
result is the double nearest to the written value.
-/

set_option autoImplicit false

namespace Formula.Number

/-- The value of a run of digits, continuing from `n`. -/
def digitsValue (n : Nat) (digits : List Char) : Nat :=
  digits.foldl (fun n d => 10 * n + (d.toNat - '0'.toNat)) n

/-- The exponent after the digits: nothing, or `e`, an optional sign and digits. -/
def readExponent? : List Char → Option Int
  | [] => some 0
  | e :: rest =>
    if e = 'e' ∨ e = 'E' then
      let (negative, digits) :=
        match rest with
        | '-' :: ds => (true, ds)
        | '+' :: ds => (false, ds)
        | ds => (false, ds)
      if digits.isEmpty || !digits.all Char.isDigit then none
      else
        let n : Int := digitsValue 0 digits
        some (if negative then -n else n)
    else none

/-- The double nearest to `mantissa * 10 ^ exponent`. Exponents so far out that the result is zero or
infinity are recognised before any power is formed. -/
def ofDecimal (mantissa : Nat) (exponent : Int) : Float :=
  let size : Int := (Nat.toDigits 10 mantissa).length
  if mantissa = 0 then 0
  else if 310 < size + exponent then 1 / 0
  else if size + exponent < -330 then 0
  else if 0 ≤ exponent then Float.ofScientific mantissa false exponent.toNat
  else Float.ofScientific mantissa true (-exponent).toNat

/-- Reads digits, an optional point with more digits, and an optional exponent. At least one digit
stands before or after the point. -/
def readDecimal? (cs : List Char) : Option Float :=
  let whole := cs.takeWhile Char.isDigit
  let rest := cs.dropWhile Char.isDigit
  let (fraction, tail) :=
    match rest with
    | '.' :: more => (more.takeWhile Char.isDigit, more.dropWhile Char.isDigit)
    | more => ([], more)
  if whole.isEmpty && fraction.isEmpty then none
  else
    (readExponent? tail).map fun exponent =>
      ofDecimal (digitsValue (digitsValue 0 whole) fraction) (exponent - fraction.length)

/-- Reads a number without a sign. -/
def readMagnitude? (cs : List Char) : Option Float :=
  let lower := cs.map Char.toLower
  if lower = "inf".toList ∨ lower = "infinity".toList then some (1 / 0)
  else if lower = "nan".toList then some (0 / 0)
  else readDecimal? cs

/-- Reads a number with an optional sign. -/
def read? : List Char → Option Float
  | '-' :: cs => (readMagnitude? cs).map (- ·)
  | '+' :: cs => readMagnitude? cs
  | cs => readMagnitude? cs

end Formula.Number
