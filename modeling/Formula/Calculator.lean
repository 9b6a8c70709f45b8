import Formula.Context.Evaluate
import Formula.Reader.Basic

/-!
# Reading and evaluating in one go
-/

set_option autoImplicit false

namespace Formula

/-- Why an expression has no value: it could not be read, or its evaluation did not settle. -/
inductive CalculationError where
  | unreadable (e : ReadError)
  | unsettled (u : Unsettled Expr)

/-- The message for the error. -/
def CalculationError.message : CalculationError → String
  | .unreadable e => e.message
  | .unsettled u => u.message

/-- Reads and evaluates a text with the default grammar and the built-in functions. Nothing is kept
from one text to the next. -/
def calculate (input : List Char) : Except CalculationError Expr :=
  match (Reader.default.read input).1 with
  | .error e => .error (.unreadable e)
  | .ok tree =>
    match (tree.evaluate Context.withBuiltins).1 with
    | .error u => .error (.unsettled u)
    | .ok value => .ok value

end Formula
