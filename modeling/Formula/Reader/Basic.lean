import Formula.Reader.Build
import Formula.Reader.Key
import Formula.Table

/-!
# Reading texts

A reader has a grammar, remembers results, and limits how deeply reading may nest. Results are
remembered under the key of the text read, also those of the pieces of a text; when reading fails, the
results of the pieces that were read before stay.

`Grammar.readFresh` reads without remembering anything.
-/

set_option autoImplicit false

namespace Formula

/-- Results by key. -/
abbrev Cache := Table String Expr

/-- Reading that remembers results. An error leaves what was remembered before it. -/
abbrev ReadM := ExceptT ReadError (StateM Cache)

namespace Grammar

/-- Reads a text, remembering results. `levels` is how deeply reading may still nest out of
`limit`. A remembered result is used at any depth. Functions of the host program are not run here; a
reader at work runs them (`Working.read`). -/
def readWithin (g : Grammar) (limit : Nat) : (levels : Nat) → List Char → ReadM Expr
  | 0, input => do
    match (← get).get? (cacheKey input) with
    | some e => pure e
    | none => throw (.tooDeep limit input)
  | levels + 1, input => do
    match (← get).get? (cacheKey input) with
    | some e => pure e
    | none =>
      let e ← readStep g (g.readWithin limit levels) input
      modify fun cache => cache.insert (cacheKey input) e
      pure e

/-- Reads a text afresh. -/
def readFresh (g : Grammar) (limit : Nat) : (levels : Nat) → List Char → Except ReadError Expr
  | 0, input => throw (.tooDeep limit input)
  | levels + 1, input => readStep g (g.readFresh limit levels) input

end Grammar

/-- How deeply reading may nest unless a reader says otherwise. Every group and every operand that is
split off an operator costs one level. -/
def defaultMaxDepth : Nat := 256

/-- A grammar with remembered results and a limit on depth. -/
structure Reader where
  grammar : Grammar
  cache : Cache := {}
  maxDepth : Nat := defaultMaxDepth

namespace Reader

/-- A new reader of ordinary formulas. -/
def default : Reader :=
  { grammar := .default }

/-- Reads a text. -/
def read (r : Reader) (input : List Char) : Except ReadError Expr × Reader :=
  let (result, cache) := (r.grammar.readWithin r.maxDepth r.maxDepth input).run r.cache
  (result, { r with cache })

/-! ## Remembered results -/

/-- Whether a result for a text is remembered. -/
def remembers (r : Reader) (input : List Char) : Bool :=
  r.cache.contains (cacheKey input)

/-- Remembers a result for a text, in place of an earlier one. -/
def remember (r : Reader) (input : List Char) (e : Expr) : Reader :=
  { r with cache := r.cache.insert (cacheKey input) e }

/-- Forgets the result for a text. -/
def forget (r : Reader) (input : List Char) : Reader :=
  { r with cache := r.cache.erase (cacheKey input) }

/-- Forgets all results. -/
def forgetAll (r : Reader) : Reader :=
  { r with cache := {} }

/-! ## Editing the grammar

An edit tells whether it was made. One that was forgets all results; one that was refused changes
nothing. -/

/-- The reader with a new grammar, if there is one. -/
def regrammar (r : Reader) : Option Grammar → Bool × Reader
  | some grammar => (true, { r.forgetAll with grammar })
  | none => (false, r)

/-- Inserts a rule; negative indexes count from the end, `-1` being just behind the last rule. A rule
whose name is taken is refused. -/
def insertRule (r : Reader) (rule : Rule) (index : Int) : Bool × Reader :=
  r.regrammar (r.grammar.insert? index rule)

/-- Removes the rule with a name. -/
def eraseRule (r : Reader) (name : String) : Bool × Reader :=
  r.regrammar (r.grammar.erase? name)

/-- Removes the rule at a position. -/
def eraseRuleAt (r : Reader) (position : Nat) : Bool × Reader :=
  r.regrammar (r.grammar.eraseAt? position)

end Reader

end Formula
