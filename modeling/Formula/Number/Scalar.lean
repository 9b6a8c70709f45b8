import Formula.Expr.Operator
import Formula.Number.Product
import Formula.Number.Remainder

/-!
# Operators on numbers

Each family of binary operators has its own function; NaN answers an operator of another family.
`BinaryOperator.apply` sends every operator to its family.
-/

set_option autoImplicit false

namespace Formula

/-- Arithmetic. `%` keeps the sign of the dividend, `%%` takes that of the divisor, and `//` rounds
the quotient down. -/
def BinaryOperator.arithmetic (op : BinaryOperator) (a b : Float) : Float :=
  match op with
  | .add => a + b
  | .sub => a - b
  | .mul => a * b
  | .div => a / b
  | .rem => Number.remainder a b
  | .mod => Number.remainder (Number.remainder a b + b) b
  | .floorDiv => (a / b).floor
  | .pow => Float.pow a b
  | _ => Number.nan

/-- The truth value of an equality operator, given whether its operands are equal. -/
def BinaryOperator.ofEquality? (op : BinaryOperator) (equal : Bool) : Option Bool :=
  match op with
  | .equal => some equal
  | .notEqual => some (!equal)
  | _ => none

/-- Comparisons, answering one or zero. -/
def BinaryOperator.comparison (op : BinaryOperator) (a b : Float) : Float :=
  match op with
  | .less => Number.ofBool (a < b)
  | .greater => Number.ofBool (a > b)
  | .lessEqual => Number.ofBool (a ≤ b)
  | .greaterEqual => Number.ofBool (a ≥ b)
  | _ =>
    match op.ofEquality? (a == b) with
    | some result => Number.ofBool result
    | none => Number.nan

/-- Connectives on truth values, answering one or zero. -/
def BinaryOperator.logic (op : BinaryOperator) (a b : Float) : Float :=
  match op with
  | .and => Number.ofBool (Number.truthy a && Number.truthy b)
  | .xor => Number.ofBool (Number.truthy a ^^ Number.truthy b)
  | .or => Number.ofBool (Number.truthy a || Number.truthy b)
  | _ => Number.nan

/-- Applies a binary operator to two numbers. -/
def BinaryOperator.apply (op : BinaryOperator) (a b : Float) : Float :=
  match op with
  | .or | .xor | .and => op.logic a b
  | .equal | .notEqual | .less | .greater | .lessEqual | .greaterEqual => op.comparison a b
  | _ => op.arithmetic a b

/-- The bitwise complement of a whole number, `-x - 1`; NaN for every other number. -/
def Number.complement (x : Float) : Float :=
  ((Number.toInt? x).bind fun n => Number.ofInt? (-n - 1)).getD Number.nan

/-- Applies a unary operator to a number. -/
def UnaryOperator.apply (op : UnaryOperator) (x : Float) : Float :=
  match op with
  | .positive => x
  | .negate => -x
  | .not => Number.ofBool (!Number.truthy x)
  | .complement => Number.complement x
  | .increment => x + 1
  | .decrement => x - 1
  | .factorial => Number.factorial x
  | .doubleFactorial => Number.doubleFactorial x
  | .percent => x / 100
  | .primorial => Number.primorial x

end Formula
