/-!
# Reading errors
-/

set_option autoImplicit false

namespace Formula

/-- Why a text could not be read. Every error names the piece of text it is about. -/
inductive ReadError where
  /-- Brackets do not nest properly. -/
  | unbalanced (input : List Char)
  /-- No rule applies, or the rule that applies cannot build a tree. -/
  | malformed (input : List Char)
  /-- Reading would nest deeper than `limit`. -/
  | tooDeep (limit : Nat) (input : List Char)
  /-- A rule was given an occurrence that does not lie in the text, or one that leads back to
  itself. -/
  | misplaced (input : List Char)
  deriving DecidableEq, Repr

namespace ReadError

/-- The piece of text that the error is about. -/
def input : ReadError → List Char
  | .unbalanced input | .malformed input | .tooDeep _ input | .misplaced input => input

/-- The message for the error. -/
def message (e : ReadError) : String :=
  let input := String.ofList e.input
  match e with
  | .unbalanced _ => "Unbalanced parentheses in '" ++ input ++ "'."
  | .malformed _ => "The input was not in the correct format: '" ++ input ++ "'."
  | .tooDeep limit _ =>
    "Expression nests deeper than " ++ toString limit ++ " levels near '" ++ input ++ "'."
  | .misplaced _ => "A rule does not fit the text '" ++ input ++ "'."

end ReadError

end Formula
