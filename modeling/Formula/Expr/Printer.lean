import Formula.Expr.Basic
import Formula.Number.Shortest

/-!
# The text of an expression

An operand is put in parentheses only where reading would otherwise group it differently: to the
left of a binary operator when it binds more loosely, to the right when it does not bind more
tightly (all binary operators group to the left), and beside a unary operator when it does not bind
more tightly than that.
-/

set_option autoImplicit false

namespace Formula.Expr

/-- How tightly an operator in front of its operand binds. A negative number binds like this too,
as it is shown with a sign. -/
def beforeBinding : Nat := 9

/-- How tightly an operator behind its operand binds. -/
def afterBinding : Nat := 10

/-- How tightly everything binds that needs no parentheses. -/
def atomBinding : Nat := 11

/-- How tightly a tree binds when it is shown beside an operator. -/
def binding : Expr → Nat
  | .assign .. => 0
  | .binary _ op _ => op.precedence
  | .unary .before .. => beforeBinding
  | .unary .after .. => afterBinding
  | .number x => if Number.isNegative x then beforeBinding else atomBinding
  | _ => atomBinding

/-- Text in parentheses, when they are needed. -/
def wrapIf (needed : Bool) (text : List Char) : List Char :=
  if needed then '(' :: (text ++ [')']) else text

mutual

/-- The text of a tree. -/
def chars : Expr → List Char
  | .number x => Number.text x
  | .constant kind => kind.symbol.toList
  | .variable name => name.toList
  | .parens inner => '(' :: (chars inner ++ [')'])
  | .unary .before op operand =>
    op.symbol.toList ++ wrapIf (operand.binding ≤ beforeBinding) (chars operand)
  | .unary .after op operand =>
    wrapIf (operand.binding ≤ afterBinding) (chars operand) ++ op.symbol.toList
  | .binary left op right =>
    wrapIf (left.binding < op.precedence) (chars left) ++
      ' ' :: (op.symbol.toList ++ ' ' :: wrapIf (right.binding ≤ op.precedence) (chars right))
  | .assign target value => target.toList ++ ' ' :: '=' :: ' ' :: chars value
  | .call name args => name.toList ++ '(' :: (listChars args ++ [')'])
  | .collection .vector elements => '[' :: (listChars elements ++ [']'])
  | .collection .tuple elements => '(' :: (listChars elements ++ [')'])

/-- The texts of trees, separated by a comma and a space. -/
def listChars : List Expr → List Char
  | [] => []
  | [e] => chars e
  | e :: es => chars e ++ ',' :: ' ' :: listChars es

end

/-- The text of a tree, as a string. -/
def text (e : Expr) : String :=
  String.ofList e.chars

end Formula.Expr
