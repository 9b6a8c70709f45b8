import Formula.Context.Basic

/-!
# Evaluation

Evaluation rewrites like simplification, and besides replaces constants and variables by their values,
drops parentheses, calls functions, and carries out assignments whose value is fully reduced.

Expression functions are evaluated in a copy of the context, so what they assign is lost, and they may
call one another to a limited depth. The recursion follows that depth: `evaluateStep?` is one rewrite
given how functions are called, `invokeWith` is a call given how bodies are evaluated, and `runBody`
ties both together, one level of calls at a time.
-/

set_option autoImplicit false

namespace Formula

/-- How a function is called by name: the result, and the context after the call. -/
abbrev Invoke := String → List Expr → Context → Expr × Context

namespace Expr

mutual

/-- One evaluation rewrite, if any is possible, with the context after it. -/
def evaluateStep? (invoke : Invoke) : Expr → Context → Option (Expr × Context)
  | .number _, _ => none
  | .constant kind, c => kind.value?.map fun x => (ofFloat x, c)
  | .variable name, c =>
    let value := c.lookup name
    if value.same (.variable name) then none else some (value, c)
  | .parens inner, c =>
    match evaluateStep? invoke inner c with
    | some (inner, c) => some (.parens inner, c)
    | none => some (inner, c)
  | .unary side op operand, c =>
    match evaluateStep? invoke operand c with
    | some (operand, c) => some (.unary side op operand, c)
    | none => (foldUnary? side op operand).map (·, c)
  | .binary left op right, c =>
    match evaluateStep? invoke left c with
    | some (left, c) => some (.binary left op right, c)
    | none =>
      match evaluateStep? invoke right c with
      | some (right, c) => some (.binary left op right, c)
      | none => (foldBinary? true left op right).map (·, c)
  | .assign target value, c =>
    match evaluateStep? invoke value c with
    | some (value, c) => some (.assign target value, c)
    | none => some (value, c.bindVariable target value)
  | .call name args, c =>
    match evaluateFirst? invoke args c with
    | some (args, c) => some (.call name args, c)
    | none => some (invoke name args c)
  | .collection kind elements, c =>
    (evaluateFirst? invoke elements c).map fun (es, c) => (.collection kind es, c)

/-- One rewrite in the first element of a list that admits one. -/
def evaluateFirst? (invoke : Invoke) : List Expr → Context → Option (List Expr × Context)
  | [], _ => none
  | e :: es, c =>
    match evaluateStep? invoke e c with
    | some (e, c) => some (e :: es, c)
    | none => (evaluateFirst? invoke es c).map fun (es, c) => (e :: es, c)

end

/-- Evaluates against a context with a given way to call functions. -/
def evaluateWith (invoke : Invoke) (e : Expr) (c : Context) :
    Except (Unsettled Expr) Expr × Context :=
  settle same (evaluateStep? invoke) c.maxIterations c.maxIterations e c

end Expr

namespace Function

/-- Carries out what a host function asks for. -/
def serve (invoke : Invoke) : HostRequest → Context → Expr × Context
  | .value e, c => (e, c)
  | .bind name value next, c => serve invoke next (c.bindVariable name value)
  | .call name args next, c =>
    let (result, c) := invoke name args c
    serve invoke (next result) c

/-- Calls a function. A wrong number of arguments makes the result undefined. -/
def invoke (call : Invoke) (runBody : Expr → Context → Expr) (f : Function) (args : List Expr)
    (c : Context) : Expr × Context :=
  if f.arity.accepts args.length then
    match f with
    | .builtin b => (b.apply args, c)
    | .host _ run => serve call (run args) c
    | .expression parameters body => (runBody body (c.callScope parameters args), c)
  else (.undefined, c)

end Function

/-- How deeply host functions may call functions without an expression function in between. This bound is one
of this library: native functions that call themselves without end would not return at all. -/
def maxHostDepth : Nat := 256

namespace Context

/-- Calls a function by name, with a way to evaluate the bodies of expression functions. A name that
is not bound makes the result undefined. `hostDepth` bounds the calls that host functions make. -/
def invokeWith (runBody : Expr → Context → Expr) : (hostDepth : Nat) → Invoke
  | 0, _, _, c => (.undefined, c)
  | hostDepth + 1, name, args, c =>
    match c.functions.get? name with
    | none => (.undefined, c)
    | some f => f.invoke (invokeWith runBody hostDepth) runBody args c

/-- Evaluates a function's body, when calls may nest `levels` deep. A body that does not settle is
undefined. -/
def runBody : (levels : Nat) → Expr → Context → Expr
  | 0, _, _ => .undefined
  | levels + 1, body, scope =>
    match (body.evaluateWith (invokeWith (runBody levels) maxHostDepth) scope).1 with
    | .ok e => e
    | .error _ => .undefined

/-- Calls a function by name. -/
def invoke (name : String) (args : List Expr) (c : Context) : Expr × Context :=
  invokeWith (runBody (maxCallDepth - c.callDepth)) maxHostDepth name args c

end Context

namespace Expr

/-- Evaluates against a context until nothing changes. -/
def evaluate (e : Expr) (c : Context) : Except (Unsettled Expr) Expr × Context :=
  e.evaluateWith Context.invoke c

/-- One evaluation rewrite; a tree without one is left as it is. -/
def evaluateStep (e : Expr) (c : Context) : Expr × Context :=
  (e.evaluateStep? Context.invoke c).getD (e, c)

end Expr

end Formula
