/-!
# Doubles taken apart

A finite double is a sign and `mantissa * 2 ^ exponent`, with the mantissa below `2 ^ 53` and the
exponent at least `-1074`. Everything that has to be exact (decimal text, remainders, whole
numbers) works on these parts.
-/

set_option autoImplicit false

namespace Formula.Number

/-- The power `2 ^ k`. -/
def twoTo (k : Nat) : Nat :=
  Nat.pow 2 k

/-- The power `10 ^ k`. -/
def tenTo (k : Nat) : Nat :=
  Nat.pow 10 k

/-- A sign and `mantissa * 2 ^ exponent`. -/
structure Parts where
  negative : Bool
  mantissa : Nat
  exponent : Int
  deriving DecidableEq, Repr

/-- Whether the sign bit is set, as in `-0` and in negative infinity. -/
def isNegative (x : Float) : Bool :=
  twoTo 63 ≤ x.toBits.toNat

/-- The parts of a finite double; an infinity or NaN has none. -/
def parts? (x : Float) : Option Parts :=
  let bits : Nat := x.toBits.toNat
  let biased : Nat := bits / twoTo 52 % twoTo 11
  let fraction := bits % twoTo 52
  if biased = 2047 then none
  else if biased = 0 then some ⟨isNegative x, fraction, -1074⟩
  else some ⟨isNegative x, twoTo 52 + fraction, (biased : Int) - 1075⟩

/-- The double with the given parts, for a mantissa below `2 ^ 53` and a value that is a double:
the mantissa is shifted up until it is normal or the exponent is the least one. -/
def Parts.toFloat (p : Parts) : Float :=
  let room := if p.mantissa = 0 then 0 else 52 - Nat.log2 p.mantissa
  let shift := min room (p.exponent + 1074).toNat
  let mantissa := p.mantissa * twoTo shift
  let magnitude :=
    if mantissa < twoTo 52 then mantissa
    else (p.exponent - shift + 1075).toNat * twoTo 52 + (mantissa - twoTo 52)
  Float.ofBits (UInt64.ofNat (magnitude + if p.negative then twoTo 63 else 0))

end Formula.Number
