import Formula.Reader.Basic

/-!
# Readers at work

A reader that is at work on a text has nested to some depth (`Working`). It goes one level deeper for the
pieces of a text and comes back whether they can be read or not (`oneDeeper`).

A rule may be built by a function of the host program. It is given the text, the occurrence, and the reader,
so that it can read other texts with it; how it is written is up to the host program (`HostBuilders`). What
it is meant for is to read and to put together what it has read: such a function is a `HostProgram`.
-/

set_option autoImplicit false

namespace Formula

/-- A reader, and how deeply it has nested so far. -/
structure Working where
  reader : Reader
  depth : Nat := 0

/-- Computations of a reader at work. An error leaves what was changed before it. -/
abbrev WorkM := ExceptT ReadError (StateM Working)

/-- What the host program builds with its own functions, by number, from an occurrence in a text. They are
given a way to read other texts, and may look at the reader at work and change it. -/
abbrev HostBuilders := Nat → (read : List Char → WorkM Expr) → List Char → Token → WorkM Expr

/-- What a builder makes of an occurrence. -/
def buildWorking (hosts : HostBuilders) (read : List Char → WorkM Expr) (builder : Builder)
    (input : List Char) (token : Token) : WorkM Expr :=
  match builder with
  | .host id => hosts id read input token
  | builder => buildPlain read builder input token

/-- One level deeper; the level is left whatever the result is. -/
def oneDeeper {α : Type} (x : WorkM α) : WorkM α := ExceptT.mk do
  modify fun w => { w with depth := w.depth + 1 }
  let result ← x.run
  modify fun w => { w with depth := w.depth - 1 }
  pure result

/-- Reads a text: a remembered result is used at any depth, and otherwise the limit must not be reached.
`steps` bounds how much deeper the reader goes; it does not run out before the limit is reached if it is
not less than what is left to it. -/
def readWorking (hosts : HostBuilders) : (steps : Nat) → List Char → WorkM Expr
  | steps, input => do
    let w ← get
    match w.reader.cache.get? (cacheKey input) with
    | some e => pure e
    | none =>
      if w.reader.maxDepth ≤ w.depth then throw (.tooDeep w.depth input)
      else match steps with
        | 0 => throw (.tooDeep w.depth input)
        | steps + 1 =>
          let build := buildWorking hosts (readWorking hosts steps)
          let e ← oneDeeper (readStepWith w.reader.grammar build input)
          modify fun w => { w with reader := w.reader.remember input e }
          pure e

/-- The result of a computation, and the reader then. -/
abbrev WorkM.result {α : Type} (x : WorkM α) (w : Working) : Except ReadError α × Working :=
  x.run.run w

/-- Reads a text. -/
def Working.read (w : Working) (hosts : HostBuilders) (input : List Char) :
    Except ReadError Expr × Working :=
  (readWorking hosts (w.reader.maxDepth - w.depth) input).result w

/-! ## Functions of the host program that read -/

/-- A function that reads texts, whether or not they can be read, and looks at the reader, until it has a
result. -/
inductive HostProgram where
  | done (result : Except ReadError Expr)
  | look (next : Working → HostProgram)
  | read (text : List Char) (next : Except ReadError Expr → HostProgram)

/-- Runs the function with a way to read. -/
def HostProgram.run (read : List Char → WorkM Expr) : HostProgram → WorkM Expr
  | .done result => ExceptT.mk (pure result)
  | .look next => do (next (← get)).run read
  | .read text next => ExceptT.mk do ((next (← (read text).run)).run read).run

/-- The functions of the host program that a grammar builds with only read with the reader. -/
def Grammar.Reenters (g : Grammar) (hosts : HostBuilders) : Prop :=
  ∀ rule ∈ g.rules, ∀ id, rule.builder? = some (.host id) → ∀ input token,
    ∃ program : HostProgram, ∀ read, hosts id read input token = program.run read

/-- No rule of a grammar is built by the host program. -/
def Grammar.IsSelfContained (g : Grammar) : Prop :=
  ∀ rule ∈ g.rules, ∀ id, rule.builder? ≠ some (.host id)

end Formula
