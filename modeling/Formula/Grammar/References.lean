import Formula.Grammar.Rule

/-!
# References between rules

A pattern refers to another rule's pattern as `{Name}`. Expansion puts that pattern, as a group of its
own, in the place of the reference, and expands it in turn.
-/

set_option autoImplicit false

namespace Formula

namespace Rule

/-- The first rule with a name. -/
def named? (rules : List Rule) (name : String) : Option Rule :=
  rules.find? fun r => r.name = name

/-- The position of the first rule with a name. -/
def position? (rules : List Rule) (name : String) : Option Nat :=
  rules.findIdx? fun r => r.name = name

end Rule

/-- A pattern cut into plain characters and references. -/
inductive PatternPiece where
  | char (c : Char)
  | reference (name : List Char)
  deriving DecidableEq, Repr

namespace PatternPiece

/-- The name of a reference, after its opening brace: an ASCII letter or underscore, more word
characters, and a closing brace. -/
def referenceName? (cs : List Char) : Option (List Char) :=
  match cs.takeWhile Text.isWordChar, cs.dropWhile Text.isWordChar with
  | c :: name, '\x7d' :: _ => if c.isAlpha || c = '_' then some (c :: name) else none
  | _, _ => none

/-- The pieces of a pattern after its first `skip` characters. -/
def ofChars : (skip : Nat) → List Char → List PatternPiece
  | _, [] => []
  | skip + 1, _ :: cs => ofChars skip cs
  | 0, c :: cs =>
    if c = '\x7b' then
      match referenceName? cs with
      | some name => .reference name :: ofChars (name.length + 1) cs
      | none => .char c :: ofChars 0 cs
    else .char c :: ofChars 0 cs

end PatternPiece

/-- How many references may be nested in one another. -/
def maxReferenceDepth : Nat := 32

/-- Expands a pattern in which references may be nested fewer than `levels` deep. A reference to a
rule that is missing or has no pattern has no expansion. -/
def expandWithin (rules : List Rule) : (levels : Nat) → List Char → Option (List Char)
  | 0, _ => none
  | levels + 1, pattern =>
    let parts := (PatternPiece.ofChars 0 pattern).mapM fun piece =>
      match piece with
      | .char c => some [c]
      | .reference name =>
        match (Rule.named? rules (String.ofList name)).bind Rule.pattern with
        | none => none
        | some p =>
          (expandWithin rules levels p.toList).map fun e => "(?:".toList ++ e ++ [')']
    parts.map List.flatten

/-- Expands all references in a pattern. -/
def expand? (rules : List Rule) (pattern : List Char) : Option (List Char) :=
  expandWithin rules (maxReferenceDepth + 1) pattern

end Formula
