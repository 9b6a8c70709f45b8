import Formula.Calculator

/-!
# The command line

The arguments are expressions, which are evaluated (or simplified) in order with one reader and one
context, so that assignments carry over. Flags may stand anywhere before `--`.
-/

set_option autoImplicit false

namespace Formula.CommandLine

/-- What the arguments ask for. -/
structure Settings where
  /-- Print simplified trees instead of values. -/
  simplify : Bool := false
  /-- Print every rewrite before the result. -/
  steps : Bool := false
  /-- How much is logged, by name. -/
  logLevel : Option String := none
  /-- The expressions, last one first. -/
  expressions : List String := []
  deriving DecidableEq, Repr

/-- Whether a text names a log level: by its name in any case, or by a number. -/
def isLogLevel (level : String) : Bool :=
  level.map Char.toLower ∈ ["error", "warn", "info", "debug", "trace"] ||
    level ∈ ["1", "2", "3", "4", "5"]

/-- Switches simplification on, once. -/
def Settings.setSimplify (s : Settings) : Option Settings :=
  if s.simplify then none else some { s with simplify := true }

/-- Switches the printing of rewrites on, once. -/
def Settings.setSteps (s : Settings) : Option Settings :=
  if s.steps then none else some { s with steps := true }

/-- Sets the log level, once. -/
def Settings.setLogLevel (s : Settings) (level : String) : Option Settings :=
  if s.logLevel.isSome || !isLogLevel level then none else some { s with logLevel := some level }

/-- Applies a row of one-letter flags. -/
def Settings.setLetters : List Char → Settings → Option Settings
  | [], s => some s
  | 's' :: letters, s => s.setSimplify.bind (setLetters letters)
  | 't' :: letters, s => s.setSteps.bind (setLetters letters)
  | _, _ => none

/-- Adds an expression. -/
def Settings.addExpression (s : Settings) (e : String) : Settings :=
  { s with expressions := e :: s.expressions }

/-- The rest of a text after a given start. -/
def after? (start text : List Char) : Option (List Char) :=
  if start.isPrefixOf text then some (text.drop start.length) else none

/-- Reads the arguments. An unknown flag, a flag given twice and an unknown log level are
mistakes. -/
def readArguments : List String → Settings → Option Settings
  | [], s => some s
  | "--" :: rest, s => some (rest.foldl Settings.addExpression s)
  | "--simplify" :: rest, s => s.setSimplify.bind (readArguments rest)
  | "--steps" :: rest, s => s.setSteps.bind (readArguments rest)
  | ["--log-level"], _ => none
  | "--log-level" :: level :: rest, s => (s.setLogLevel level).bind (readArguments rest)
  | argument :: rest, s =>
    match argument.toList with
    | '-' :: '-' :: _ =>
      match after? "--log-level=".toList argument.toList with
      | some level => (s.setLogLevel (String.ofList level)).bind (readArguments rest)
      | none => none
    | '-' :: letter :: letters =>
      (Settings.setLetters (letter :: letters) s).bind (readArguments rest)
    | _ => readArguments rest (s.addExpression argument)

/-- The settings of a list of arguments, which must hold an expression. -/
def settings? (arguments : List String) : Option Settings :=
  match readArguments arguments {} with
  | some s => if s.expressions.isEmpty then none else some s
  | none => none

/-- What a run leaves behind: lines written as output and as errors, latest first, and the reader and
context for the next expression. -/
structure Session where
  reader : Reader := .default
  context : Context := .withBuiltins
  output : List String := []
  errors : List String := []

/-- Writes a line of output. -/
def Session.print (s : Session) (line : String) : Session :=
  { s with output := line :: s.output }

/-- Writes an error. -/
def Session.fail (s : Session) (line : String) : Session :=
  { s with errors := line :: s.errors }

/-- The trees that an expression is rewritten to, one rewrite at a time. Evaluation writes to a copy
of the context, which is dropped. -/
def rewrites (simplify : Bool) (e : Expr) (c : Context) : List Expr :=
  if simplify then
    (trace Expr.same (fun e (c : Context) => (e.simplifyStep, c)) c.maxIterations e c).1
  else (trace Expr.same Expr.evaluateStep c.maxIterations e c).1

/-- Writes an expression and all its rewrites. -/
def Session.printRewrites (s : Session) (simplify : Bool) (e : Expr) : Session :=
  (rewrites simplify e s.context).foldl (fun s e => s.print ("= " ++ e.text))
    (s.print ("  " ++ e.text))

/-- Runs one expression. -/
def Session.run (settings : Settings) (s : Session) (source : String) : Session :=
  let (result, reader) := s.reader.read source.toList
  let s := { s with reader }
  match result with
  | .error e => s.fail e.message
  | .ok tree =>
    let s := if settings.steps then s.printRewrites settings.simplify tree else s
    let (result, context) :=
      if settings.simplify then (tree.simplify, s.context) else tree.evaluate s.context
    let s := { s with context }
    match result with
    | .ok value => s.print value.text
    | .error u => s.fail u.message

/-- What the program writes, and its exit code. -/
structure Outcome where
  code : UInt32
  output : String := ""
  errors : String := ""
  deriving DecidableEq, Repr

/-- Lines, given latest first, as text. -/
def lines (ls : List String) : String :=
  String.join (ls.reverse.map (· ++ "\n"))

/-- Runs the program. Mistakes in the arguments have exit code two, expressions without a result exit
code one. -/
def run (arguments : List String) : Outcome :=
  match settings? arguments with
  | none => { code := 2, errors := "usage: [-s] [-t] [--log-level LEVEL] [--] EXPRESSION...\n" }
  | some settings =>
    let s := settings.expressions.reverse.foldl (Session.run settings) {}
    { code := if s.errors.isEmpty then 0 else 1, output := lines s.output, errors := lines s.errors }

end Formula.CommandLine
