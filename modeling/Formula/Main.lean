import Formula.CommandLine

/-!
# The program
-/

/-- Runs the command line and writes what it leaves behind. -/
def main (arguments : List String) : IO UInt32 := do
  let outcome := Formula.CommandLine.run arguments
  IO.print outcome.output
  IO.eprint outcome.errors
  return outcome.code
