import Formula.Context.Builtin
import Formula.Expr.Printer

/-!
# Functions

A function is built in, provided by the host program, or an expression over named parameters.
-/

set_option autoImplicit false

namespace Formula

/-- What a host function asks for: it ends with a value, or it binds a variable or calls a function
of the context first. A native function that is given the context may do anything with it; these requests
are a language of this library for what such functions are written for. -/
inductive HostRequest where
  | value (e : Expr)
  | bind (name : String) (value : Expr) (next : HostRequest)
  | call (name : String) (args : List Expr) (next : Expr → HostRequest)

/-- A function that a context can bind. -/
inductive Function where
  | builtin (b : Builtin)
  | host (arity : Arity) (run : List Expr → HostRequest)
  | expression (parameters : List String) (body : Expr)

namespace Function

/-- The accepted numbers of arguments. -/
def arity : Function → Arity
  | .builtin b => b.arity
  | .host arity _ => arity
  | .expression parameters _ => .exact parameters.length

/-- A description: parameters and body, or only the arity of a function that is no expression. -/
def describe : Function → String
  | .expression parameters body =>
    "Function((" ++ String.intercalate ", " parameters ++ ") => " ++ body.text ++ ")"
  | f => "Function(native, " ++ f.arity.describe ++ ")"

end Function

end Formula
