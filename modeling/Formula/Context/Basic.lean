import Formula.Context.Function
import Formula.Rewrite.Simplify
import Formula.Table

/-!
# Contexts

A context binds names to values and, apart from these, names to functions. Evaluation reads it and
assignments write it.
-/

set_option autoImplicit false

namespace Formula

/-- How deeply functions that are expressions may call one another. -/
def maxCallDepth : Nat := 64

/-- The bindings that an expression is evaluated against. -/
structure Context where
  /-- The values of the variables. -/
  values : Table String Expr := {}
  functions : Table String Function := {}
  /-- How many calls of expression functions are under way. -/
  callDepth : Nat := 0
  /-- How many rewrites an evaluation may make. -/
  maxIterations : Nat := defaultMaxIterations

namespace Context

/-- The context without bindings. -/
def empty : Context := {}

/-- Binds a name to a value. -/
def bindVariable (c : Context) (name : String) (value : Expr) : Context :=
  { c with values := c.values.insert name value }

/-- Binds a name to a function. -/
def bindFunction (c : Context) (name : String) (f : Function) : Context :=
  { c with functions := c.functions.insert name f }

/-- Binds the built-in functions to their names. -/
def withBuiltins : Context :=
  Builtin.all.foldl (fun c b => c.bindFunction b.name (.builtin b)) empty

/-- Whether a name is bound to a function. -/
def hasFunction (c : Context) (name : String) : Bool :=
  c.functions.contains name

/-- Whether a name is bound at all. -/
def isBound (c : Context) (name : String) : Bool :=
  c.values.contains name || c.hasFunction name

/-- What a name stands for: its value; or itself, if it is bound to a function only; or the undefined
constant. -/
def lookup (c : Context) (name : String) : Expr :=
  match c.values.get? name with
  | some value => value
  | none => if c.hasFunction name then .variable name else .undefined

/-- Unbinds a function. -/
def eraseFunction (c : Context) (name : String) : Context :=
  { c with functions := c.functions.erase name }

/-- Unbinds the variable with a name, or if there is none the function. -/
def eraseVariable (c : Context) (name : String) : Context :=
  if c.values.contains name then { c with values := c.values.erase name }
  else c.eraseFunction name

/-- The context in which a function's body is evaluated: a copy with the parameters bound, one call
deeper. -/
def callScope (c : Context) (parameters : List String) (args : List Expr) : Context :=
  (parameters.zip args).foldl (fun c (p, a) => c.bindVariable p a)
    { c with callDepth := c.callDepth + 1 }

end Context

end Formula
