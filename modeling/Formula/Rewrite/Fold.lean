import Formula.Expr.Basic
import Formula.Number.Scalar

/-!
# Folding operators

What an operator makes of operands that are fully reduced. Numbers fold to a number; collections are
combined element by element into collections of operator nodes, which later rewrites fold in turn;
undefined operands make the result undefined.
-/

set_option autoImplicit false

namespace Formula.Expr

/-- Pairs two collections element by element, keeping the kind of the left one. Collections of
different lengths have no such result. -/
def zip (kind : CollectionKind) (left : List Expr) (op : BinaryOperator) (right : List Expr) :
    Expr :=
  if left.length = right.length then
    .collection kind (List.zipWith (fun l r => .binary l op r) left right)
  else undefined

/-- Pairs every element of a collection with a scalar, which stays on its side. -/
def broadcast (kind : CollectionKind) (elements : List Expr) (op : BinaryOperator) (scalar : Expr)
    (scalarSide : Side) : Expr :=
  .collection kind <| elements.map fun e =>
    match scalarSide with
    | .before => .binary scalar op e
    | .after => .binary e op scalar

mutual

/-- Whether two elements are equal numbers or equal collections; elements that are neither number nor
collection leave it open. -/
def equalElements? : Expr → Expr → Option Bool
  | .number x, .number y => some (x == y)
  | .collection _ ss, .collection _ ts => equalLists? ss ts
  | .number _, .collection _ _ => some false
  | .collection _ _, .number _ => some false
  | _, _ => none

/-- Whether two lists of elements are equal: of the same length, with equal elements. The kinds of
brackets do not matter. Lists of different lengths are unequal whatever they hold. -/
def equalLists? : List Expr → List Expr → Option Bool
  | ss, ts => if ss.length = ts.length then equalPairs? ss ts else some false

/-- Whether all elements of two lists of one length are equal. An open pair leaves all open, even
after an unequal one. -/
def equalPairs? : List Expr → List Expr → Option Bool
  | s :: ss, t :: ts =>
    match equalElements? s t with
    | none => none
    | some equal => (equalPairs? ss ts).map (equal && ·)
  | _, _ => some true

end

/-- Compares two collections as wholes. -/
def equality? (left : List Expr) (op : BinaryOperator) (right : List Expr) : Option Expr :=
  ((equalLists? left right).bind op.ofEquality?).map fun b => ofFloat (Number.ofBool b)

/-- Whether a tree is a number or a constant. -/
def isScalar : Expr → Bool
  | .number _ | .constant _ => true
  | _ => false

/-- Folds a binary operator. A comparison of collections that is open stays open, unless nothing is
left to be evaluated (`final`), when it is undefined. A scalar is never equal to a collection. -/
def foldBinary? (final : Bool) (left : Expr) (op : BinaryOperator) (right : Expr) : Option Expr :=
  if left.isUndefined || right.isUndefined then some undefined
  else
    let testsEquality := op = .equal ∨ op = .notEqual
    match left, right with
    | .number x, .number y => some (ofFloat (op.apply x y))
    | .collection kind ss, .collection _ ts =>
      if testsEquality then
        match equality? ss op ts with
        | some e => some e
        | none => if final then some undefined else none
      else some (zip kind ss op ts)
    | .collection kind ss, scalar =>
      if !scalar.isScalar then none
      else if testsEquality then some (ofFloat (Number.ofBool (op = .notEqual)))
      else some (broadcast kind ss op scalar .after)
    | scalar, .collection kind ts =>
      if !scalar.isScalar then none
      else if testsEquality then some (ofFloat (Number.ofBool (op = .notEqual)))
      else some (broadcast kind ts op scalar .before)
    | _, _ => none

/-- Folds a unary operator. -/
def foldUnary? (side : Side) (op : UnaryOperator) (operand : Expr) : Option Expr :=
  match operand with
  | .constant .undefined => some undefined
  | .number x => some (ofFloat (op.apply x))
  | .collection kind es => some (.collection kind (es.map (.unary side op)))
  | _ => none

end Formula.Expr
