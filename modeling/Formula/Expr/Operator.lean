/-!
# Operators and constants

The closed sets of operators and named constants, with their spellings. Every operator is shown with
its `symbol`; the `variants` are the further spellings that are read.
-/

set_option autoImplicit false

namespace Formula

/-- Binary operators, loosest binding first. -/
inductive BinaryOperator where
  | or | xor | and
  | equal | notEqual
  | less | greater | lessEqual | greaterEqual
  | add | sub
  | mul | div | rem | mod | floorDiv
  | pow
  deriving DecidableEq, Repr

/-- Where a unary operator stands beside its operand. -/
inductive Side where
  | before
  | after
  deriving DecidableEq, Repr

/-- Unary operators. Incrementing and decrementing exist on both sides; the spelling `!` negates in
front and is a factorial behind. -/
inductive UnaryOperator where
  | positive | negate | not | complement
  | increment | decrement
  | factorial | doubleFactorial | percent | primorial
  deriving DecidableEq, Repr

/-- Named constants. `undefined` stands for every result that does not exist. -/
inductive Constant where
  | infinity | pi | tau | e | true | false | undefined
  deriving DecidableEq, Repr

namespace BinaryOperator

/-- All operators. -/
def all : List BinaryOperator :=
  [.or, .xor, .and, .equal, .notEqual, .less, .greater, .lessEqual, .greaterEqual, .add, .sub,
   .mul, .div, .rem, .mod, .floorDiv, .pow]

/-- The spelling an operator is shown with. -/
def symbol : BinaryOperator → String
  | .or => "||"
  | .xor => "⊕"
  | .and => "&&"
  | .equal => "=="
  | .notEqual => "!="
  | .less => "<"
  | .greater => ">"
  | .lessEqual => "<="
  | .greaterEqual => ">="
  | .add => "+"
  | .sub => "-"
  | .mul => "*"
  | .div => "/"
  | .rem => "%"
  | .mod => "%%"
  | .floorDiv => "//"
  | .pow => "^"

/-- The further spellings of an operator. -/
def variants : BinaryOperator → List String
  | .or => ["∨"]
  | .and => ["∧"]
  | .notEqual => ["<>", "≠"]
  | .lessEqual => ["≤"]
  | .greaterEqual => ["≥"]
  | .mul => ["×"]
  | .div => ["÷"]
  | _ => []

/-- The operator with a spelling. -/
def ofSymbol? (symbol : List Char) : Option BinaryOperator :=
  all.find? fun op => (op.symbol :: op.variants).any fun s => s.toList = symbol

/-- How tightly an operator binds: operators of a higher level bind first. -/
def precedence : BinaryOperator → Nat
  | .or => 1
  | .xor => 2
  | .and => 3
  | .equal | .notEqual => 4
  | .less | .greater | .lessEqual | .greaterEqual => 5
  | .add | .sub => 6
  | .mul | .div | .rem | .mod | .floorDiv => 7
  | .pow => 8

end BinaryOperator

namespace UnaryOperator

/-- All operators. -/
def all : List UnaryOperator :=
  [.positive, .negate, .not, .complement, .increment, .decrement, .factorial, .doubleFactorial,
   .percent, .primorial]

/-- The spelling an operator is shown with. -/
def symbol : UnaryOperator → String
  | .positive => "+"
  | .negate => "-"
  | .not => "!"
  | .complement => "~"
  | .increment => "++"
  | .decrement => "--"
  | .factorial => "!"
  | .doubleFactorial => "!!"
  | .percent => "%"
  | .primorial => "#"

/-- The further spellings of an operator. -/
def variants : UnaryOperator → List String
  | .not => ["¬"]
  | _ => []

/-- Whether an operator is written on a side of its operand. -/
def standsOn (op : UnaryOperator) (side : Side) : Bool :=
  match side, op with
  | _, .increment | _, .decrement => true
  | .before, .positive | .before, .negate | .before, .not | .before, .complement => true
  | .after, .factorial | .after, .doubleFactorial | .after, .percent | .after, .primorial => true
  | _, _ => false

/-- The operator with a spelling on a side. -/
def ofSymbol? (side : Side) (symbol : List Char) : Option UnaryOperator :=
  all.find? fun op =>
    op.standsOn side && (op.symbol :: op.variants).any fun s => s.toList = symbol

end UnaryOperator

namespace Constant

/-- All constants. -/
def all : List Constant :=
  [.infinity, .pi, .tau, .e, .true, .false, .undefined]

/-- The spelling a constant is shown with. -/
def symbol : Constant → String
  | .infinity => "∞"
  | .pi => "π"
  | .tau => "τ"
  | .e => "e"
  | .true => "true"
  | .false => "false"
  | .undefined => "undefined"

/-- The further spellings of a constant. -/
def variants : Constant → List String
  | .infinity => ["inf", "infinity"]
  | .pi => ["pi"]
  | .tau => ["tau"]
  | _ => []

/-- The constant with a spelling. -/
def ofSymbol? (symbol : List Char) : Option Constant :=
  all.find? fun c => (c.symbol :: c.variants).any fun s => s.toList = symbol

end Constant

end Formula
