import Formula.Expr.Operator
import Formula.Number.Product

/-!
# Expressions

The trees that reading produces and that simplification and evaluation rewrite.
-/

set_option autoImplicit false

namespace Formula

/-- The brackets a collection is written with. -/
inductive CollectionKind where
  | vector
  | tuple
  deriving DecidableEq, Repr

/-- Expression trees. Written parentheses are kept as nodes until they are redundant. -/
inductive Expr where
  | number (value : Float)
  | constant (kind : Constant)
  | variable (name : String)
  | parens (inner : Expr)
  | unary (side : Side) (op : UnaryOperator) (operand : Expr)
  | binary (left : Expr) (op : BinaryOperator) (right : Expr)
  | assign (target : String) (value : Expr)
  | call (name : String) (args : List Expr)
  | collection (kind : CollectionKind) (elements : List Expr)
  deriving Inhabited, Repr

/-- The value of a constant; the undefined constant has none. -/
def Constant.value? : Constant → Option Float
  | .infinity => some Number.infinity
  | .pi => some Number.pi
  | .tau => some Number.tau
  | .e => some Number.e
  | .true => some 1
  | .false => some 0
  | .undefined => none

namespace Expr

/-- The undefined constant as a tree. -/
abbrev undefined : Expr := .constant .undefined

/-- The tree of a number. NaN is undefined, so that no tree holds it. -/
def ofFloat (x : Float) : Expr :=
  if x.isNaN then undefined else .number x

/-- The number that a tree is. -/
def asNumber? : Expr → Option Float
  | .number x => some x
  | _ => none

/-- The elements of a collection. -/
def asCollection? : Expr → Option (List Expr)
  | .collection _ elements => some elements
  | _ => none

/-- Whether a tree is the undefined constant. -/
def isUndefined : Expr → Bool
  | .constant .undefined => true
  | _ => false

/-- Whether a tree is shown as one unit, so that parentheses around it add nothing. -/
def isAtomic : Expr → Bool
  | .number x => !Number.isNegative x
  | .unary .. | .binary .. | .assign .. => false
  | _ => true

/-- Equality of numbers in trees: of floating-point values, with NaN equal to itself. -/
def sameNumber (x y : Float) : Bool :=
  x == y || (x.isNaN && y.isNaN)

mutual

/-- Equality of trees. Numbers are compared by value, so positive and negative zero are the
same. -/
def same : Expr → Expr → Bool
  | .number x, .number y => sameNumber x y
  | .constant j, .constant k => j = k
  | .variable x, .variable y => x = y
  | .parens s, .parens t => same s t
  | .unary side op s, .unary side' op' t => side = side' && op = op' && same s t
  | .binary s op t, .binary s' op' t' => op = op' && same s s' && same t t'
  | .assign x s, .assign y t => x = y && same s t
  | .call x ss, .call y ts => x = y && sameAll ss ts
  | .collection k ss, .collection k' ts => k = k' && sameAll ss ts
  | _, _ => false

/-- Equality of lists of trees, element by element. -/
def sameAll : List Expr → List Expr → Bool
  | [], [] => true
  | s :: ss, t :: ts => same s t && sameAll ss ts
  | _, _ => false

end

end Expr

end Formula
