import Formula.Text.CharClass

/-!
# Patterns

Regular patterns over characters: sets of characters, assertions about a position, marks that record
a position, sequences, preferred alternatives and repetitions.

Repetition is built from `plus`, one or more rounds. A round after the first one has to consume
something, so a pattern that can match nothing may be repeated safely.
-/

set_option autoImplicit false

namespace Formula

/-- Sets of characters. -/
inductive CharSet where
  | range (low high : Char)
  | digit
  | word
  | blank
  | compl (s : CharSet)
  | union (s t : CharSet)
  | inter (s t : CharSet)
  | diff (s t : CharSet)
  | symmDiff (s t : CharSet)
  deriving DecidableEq, Repr

namespace CharSet

/-- The set of one character. -/
def single (c : Char) : CharSet := .range c c

/-- Every character but the line feed. -/
def dot : CharSet := .compl (.single '\n')

/-- Membership. -/
def contains : CharSet → Char → Bool
  | .range low high, c => low ≤ c && c ≤ high
  | .digit, c => Text.isDecimalDigit c
  | .word, c => Text.isWordChar c
  | .blank, c => Text.isBlank c
  | .compl s, c => !s.contains c
  | .union s t, c => s.contains c || t.contains c
  | .inter s t, c => s.contains c && t.contains c
  | .diff s t, c => s.contains c && !t.contains c
  | .symmDiff s t, c => s.contains c ^^ t.contains c

end CharSet

/-- Assertions about a position. -/
inductive Assertion where
  | textStart
  | textEnd
  | wordBoundary
  | noWordBoundary
  | wordStart
  | wordEnd
  deriving DecidableEq, Repr

namespace Assertion

/-- Whether the assertion holds between two neighbouring characters; at an end of the text there is
none. -/
def holds (before after : Option Char) : Assertion → Bool
  | .textStart => before.isNone
  | .textEnd => after.isNone
  | .wordBoundary => before.any Text.isWordChar != after.any Text.isWordChar
  | .noWordBoundary => before.any Text.isWordChar == after.any Text.isWordChar
  | .wordStart => !before.any Text.isWordChar && after.any Text.isWordChar
  | .wordEnd => before.any Text.isWordChar && !after.any Text.isWordChar

/-- The assertion for a text read backwards. -/
def reverse : Assertion → Assertion
  | .textStart => .textEnd
  | .textEnd => .textStart
  | .wordStart => .wordEnd
  | .wordEnd => .wordStart
  | a => a

end Assertion

/-- The start or the end of a named group. -/
structure Mark where
  name : List Char
  opening : Bool
  deriving DecidableEq, Repr

/-- Patterns. Of two alternatives the first is preferred; a greedy repetition prefers another
round. -/
inductive Pattern where
  | empty
  | set (s : CharSet)
  | assert (a : Assertion)
  | mark (m : Mark)
  | seq (p q : Pattern)
  | alt (p q : Pattern)
  | plus (greedy : Bool) (p : Pattern)
  deriving DecidableEq, Repr, Inhabited

namespace Pattern

/-- No character or one match. -/
def opt (greedy : Bool) (p : Pattern) : Pattern :=
  if greedy then .alt p .empty else .alt .empty p

/-- Any number of rounds. -/
def star (greedy : Bool) (p : Pattern) : Pattern :=
  opt greedy (.plus greedy p)

/-- Exactly `n` copies followed by `rest`. -/
def copies (p : Pattern) (rest : Pattern) : Nat → Pattern
  | 0 => rest
  | n + 1 => .seq p (copies p rest n)

/-- At most `n` copies, each one only after the one before. -/
def upTo (greedy : Bool) (p : Pattern) : Nat → Pattern
  | 0 => .empty
  | 1 => opt greedy p
  | n + 2 => opt greedy (.seq p (upTo greedy p (n + 1)))

/-- At least `n` rounds. -/
def atLeast (greedy : Bool) (p : Pattern) : Nat → Pattern
  | 0 => star greedy p
  | n + 1 => copies p (.plus greedy p) n

/-- A named group. -/
def group (name : List Char) (p : Pattern) : Pattern :=
  .seq (.mark ⟨name, true⟩) (.seq p (.mark ⟨name, false⟩))

/-- The pattern of the reversed texts. -/
def reverse : Pattern → Pattern
  | .empty => .empty
  | .set s => .set s
  | .assert a => .assert a.reverse
  | .mark m => .mark m
  | .seq p q => .seq q.reverse p.reverse
  | .alt p q => .alt p.reverse q.reverse
  | .plus greedy p => .plus greedy p.reverse

/-- The number of nodes. -/
def size : Pattern → Nat
  | .seq p q => p.size + q.size + 1
  | .alt p q => p.size + q.size + 1
  | .plus _ p => p.size + 1
  | _ => 1

end Pattern

end Formula
