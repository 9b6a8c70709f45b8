import Formula.Number.Binary

/-!
# Whole numbers among the doubles

Conversions between integers and doubles that lose nothing. Only integers of absolute value up to
`2 ^ 53 - 1` take part: beyond, neighbouring integers share a double.
-/

set_option autoImplicit false

namespace Formula.Number

/-- The largest integer that is converted. -/
def maxExact : Nat := twoTo 53 - 1

/-- The absolute value of a whole number; numbers with a fraction have none. -/
def Parts.whole? (p : Parts) : Option Nat :=
  if 0 ≤ p.exponent then some (p.mantissa * twoTo p.exponent.toNat)
  else
    let scale := twoTo (-p.exponent).toNat
    if p.mantissa % scale = 0 then some (p.mantissa / scale) else none

/-- Whether a number is finite and has no fraction. -/
def isWhole (x : Float) : Bool :=
  ((parts? x).bind Parts.whole?).isSome

/-- The integer that a whole number is, if it is small enough to be exact. -/
def toInt? (x : Float) : Option Int :=
  match parts? x with
  | none => none
  | some p =>
    match p.whole? with
    | none => none
    | some n => if n ≤ maxExact then some (if p.negative then -n else n) else none

/-- The natural number that a whole number is, if it is not negative and small enough. -/
def toNat? (x : Float) : Option Nat :=
  match toInt? x with
  | some (.ofNat n) => some n
  | _ => none

/-- The double that an integer is, if it is small enough to be exact. -/
def ofInt? (n : Int) : Option Float :=
  if n.natAbs ≤ maxExact then some (Float.ofInt n) else none

/-- The double that a natural number is, if it is small enough to be exact. -/
def ofNat? (n : Nat) : Option Float :=
  if n ≤ maxExact then some (Float.ofNat n) else none

/-- A truth value as a number: one or zero. -/
def ofBool (b : Bool) : Float :=
  if b then 1 else 0

/-- Zero is false, every other number is true. -/
def truthy (x : Float) : Bool :=
  !(x == 0)

end Formula.Number
