import Formula.Number.Binary

/-!
# The exact remainder

The remainder of a division that rounds toward zero. It has the sign of the dividend and is exact:
both operands are multiples of one power of two, so it is a remainder of natural numbers.
-/

set_option autoImplicit false

namespace Formula.Number

/-- The remainder of finite parts by a divisor that is not zero. -/
def Parts.remainder (a b : Parts) : Parts :=
  let exponent := min a.exponent b.exponent
  let dividend := a.mantissa * twoTo (a.exponent - exponent).toNat
  let divisor := b.mantissa * twoTo (b.exponent - exponent).toNat
  ⟨a.negative, dividend % divisor, exponent⟩

/-- The remainder of `a` by `b`, with the sign of `a`: NaN for an infinite dividend or a zero
divisor, and `a` itself for an infinite divisor. -/
def remainder (a b : Float) : Float :=
  match parts? a, parts? b with
  | some p, some q => if q.mantissa = 0 then 0 / 0 else (p.remainder q).toFloat
  | some _, none => if b.isNaN then b else a
  | none, _ => 0 / 0

end Formula.Number
