import Formula.Text.CharClass

/-!
# Keys of the result cache

Texts that differ only in blanks that cannot matter share a key. Blanks are dropped, except that a run
of them is kept as one space between two word characters and between two symbols: there, dropping it
would join what it keeps apart. Brackets and commas stand alone in any case.
-/

set_option autoImplicit false

namespace Formula

/-- How a character joins with its neighbours. -/
inductive JoinClass where
  | word
  | symbol
  | delimiter
  deriving DecidableEq, Repr

/-- The class of a character. -/
def JoinClass.of (c : Char) : JoinClass :=
  if Text.isAlphanumeric c || c = '_' || c = '.' then .word
  else if c = '(' || c = ')' || c = '[' || c = ']' || c = ',' then .delimiter
  else .symbol

/-- Whether blanks between two characters are kept as a space. -/
def keepsApart (c d : Char) : Bool :=
  JoinClass.of c = JoinClass.of d && JoinClass.of d ≠ .delimiter

/-- The key of the rest of a text. `last` is the last character that is not blank, and `gap` says
whether blanks came after it. -/
def keyFrom : (last : Option Char) → (gap : Bool) → List Char → List Char
  | _, _, [] => []
  | last, gap, c :: cs =>
    if Text.isBlank c then keyFrom last true cs
    else
      let rest := c :: keyFrom (some c) false cs
      if gap && last.any (keepsApart · c) then ' ' :: rest else rest

/-- The key of a text. -/
def cacheKey (text : List Char) : String :=
  String.ofList (keyFrom none false text)

end Formula
