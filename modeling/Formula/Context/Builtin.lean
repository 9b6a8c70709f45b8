import Formula.Expr.Basic

/-!
# Built-in functions

Built-in functions take numbers. Given one collection, most apply to every element, and `min` and
`max` take the elements as their arguments.
-/

set_option autoImplicit false

namespace Formula

/-- The accepted numbers of arguments. -/
inductive Arity where
  | exact (count : Nat)
  | oneOf (counts : List Nat)
  | atLeast (count : Nat)
  deriving DecidableEq, Repr

namespace Arity

/-- Whether a number of arguments is accepted. -/
def accepts : Arity → Nat → Bool
  | .exact count, n => n = count
  | .oneOf counts, n => n ∈ counts
  | .atLeast count, n => count ≤ n

/-- A description. -/
def describe : Arity → String
  | .exact count => "Exact(" ++ toString count ++ ")"
  | .oneOf counts => "OneOf([" ++ String.intercalate ", " (counts.map toString) ++ "])"
  | .atLeast count => "AtLeast(" ++ toString count ++ ")"

end Arity

/-- What a function does with a single collection as its argument. -/
inductive Spread where
  /-- It applies to every element. -/
  | elementwise
  /-- The elements are its arguments. -/
  | arguments
  deriving DecidableEq, Repr

/-- The built-in functions. -/
inductive Builtin where
  | sin | cos | tan | asin | acos | atan | sinh | cosh | tanh
  | exp | ln | log | sqrt | abs | floor | ceil | round | sign
  | min | max
  deriving DecidableEq, Repr

namespace Builtin

/-- All built-in functions. -/
def all : List Builtin :=
  [.sin, .cos, .tan, .asin, .acos, .atan, .sinh, .cosh, .tanh, .exp, .ln, .log, .sqrt, .abs, .floor,
   .ceil, .round, .sign, .min, .max]

/-- The name a function is called by. -/
def name : Builtin → String
  | .sin => "sin"
  | .cos => "cos"
  | .tan => "tan"
  | .asin => "asin"
  | .acos => "acos"
  | .atan => "atan"
  | .sinh => "sinh"
  | .cosh => "cosh"
  | .tanh => "tanh"
  | .exp => "exp"
  | .ln => "ln"
  | .log => "log"
  | .sqrt => "sqrt"
  | .abs => "abs"
  | .floor => "floor"
  | .ceil => "ceil"
  | .round => "round"
  | .sign => "sign"
  | .min => "min"
  | .max => "max"

/-- The accepted numbers of arguments. -/
def arity : Builtin → Arity
  | .log => .oneOf [1, 2]
  | .min | .max => .atLeast 1
  | _ => .exact 1

/-- What the function does with a single collection. -/
def spread : Builtin → Spread
  | .min | .max => .arguments
  | _ => .elementwise

/-- The sign of a number as a number; zero has sign zero. -/
def signOf (x : Float) : Float :=
  if x == 0 then 0 else if Number.isNegative x then -1 else 1

/-- A function of one number. -/
def unary (b : Builtin) (x : Float) : Float :=
  match b with
  | .sin => x.sin
  | .cos => x.cos
  | .tan => x.tan
  | .asin => x.asin
  | .acos => x.acos
  | .atan => x.atan
  | .sinh => x.sinh
  | .cosh => x.cosh
  | .tanh => x.tanh
  | .exp => x.exp
  | .ln => x.log
  | .log => x.log10
  | .sqrt => x.sqrt
  | .abs => x.abs
  | .floor => x.floor
  | .ceil => x.ceil
  | .round => x.round
  | .sign => signOf x
  | .min | .max => x

/-- The value at numbers. The logarithm to a given base is a quotient of natural ones; the least and
greatest number are found from the left. -/
def value (b : Builtin) (xs : List Float) : Float :=
  match b, xs with
  | .min, xs => xs.foldl (fun a x => if x < a then x else a) Number.infinity
  | .max, xs => xs.foldl (fun a x => if a < x then x else a) (-Number.infinity)
  | .log, [x, base] => x.log / base.log
  | b, x :: _ => b.unary x
  | _, [] => Number.nan

/-- The value at arguments that are all numbers; any other argument makes it undefined. -/
def onNumbers (b : Builtin) (args : List Expr) : Expr :=
  match args.mapM Expr.asNumber? with
  | some xs => .ofFloat (b.value xs)
  | none => .undefined

mutual

/-- Applies the function to one argument. -/
def applyOne (b : Builtin) : Expr → Expr
  | .collection kind es =>
    match b.spread with
    | .elementwise => .collection kind (applyEach b es)
    | .arguments => applyElements b es
  | e => b.onNumbers [e]

/-- Applies the function to every element. -/
def applyEach (b : Builtin) : List Expr → List Expr
  | [] => []
  | e :: es => applyOne b e :: applyEach b es

/-- Applies the function to the elements as its arguments; one element that is a collection is
spread in turn, and without elements there is no value. -/
def applyElements (b : Builtin) : List Expr → Expr
  | [] => .undefined
  | [e] => applyOne b e
  | es => b.onNumbers es

end

/-- Applies the function to its arguments. -/
def apply (b : Builtin) (args : List Expr) : Expr :=
  match args with
  | [e] => b.applyOne e
  | args => b.onNumbers args

end Builtin

end Formula
