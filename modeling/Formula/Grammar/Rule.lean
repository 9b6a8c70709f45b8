import Formula.Expr.Operator
import Formula.Text.CharClass

/-!
# Grammar rules

A rule is a named production. Its pattern may refer to other rules as `{Name}`; its kind says how it
is searched for in a text and which tree is built from what is found.
-/

set_option autoImplicit false

namespace Formula

/-- How a pattern is searched for. -/
structure SearchOptions where
  /-- Prefer the rightmost occurrence, which makes a binary operator group to the left. -/
  rightToLeft : Bool := false
  /-- The whole text, apart from blanks around it, must match. -/
  only : Bool := false
  /-- The match must start the text, apart from blanks. -/
  anchorLeft : Bool := false
  /-- The match must end the text, apart from blanks. -/
  anchorRight : Bool := false
  /-- The operands beside an operator must not continue into a word or number. -/
  padReferences : Bool := false
  /-- An operator directly after this character does not count. -/
  notPrecededBy : Option Char := none
  deriving DecidableEq, Repr

/-- The tree that is built from an occurrence. -/
inductive Builder where
  /-- A binary operator between the texts on both sides. -/
  | binary
  /-- The given binary operator between the texts on both sides, whatever the symbol. -/
  | binaryAs (op : BinaryOperator)
  /-- An assignment of the text on the right to the variable on the left. -/
  | assignment
  /-- A unary operator in front of the text after it. -/
  | before
  /-- A unary operator behind the text before it. -/
  | after
  | constant
  | variable
  | number
  /-- A call of the function that was found with the arguments in the group after it. -/
  | call
  /-- A collection of the parts between the commas of a group. -/
  | tuple
  | vector
  /-- The tree of a group's inside, in parentheses. -/
  | parentheses
  /-- Whatever the first other rule builds that applies once all groups are hidden. -/
  | aroundGroups
  /-- Whatever the host program builds with the function that it knows under a number. -/
  | host (id : Nat)
  deriving DecidableEq, Repr

/-- Searches that no pattern describes. -/
inductive Matcher where
  /-- A function's name with one group after it and nothing else. -/
  | call
  /-- One group with commas, or nothing, in it. -/
  | tuple
  /-- One group in parentheses. -/
  | parentheses
  /-- One group in square brackets. -/
  | vector
  /-- The operator at the end of the text; exclamation marks are read in pairs. -/
  | after
  /-- What the host program finds with the function that it knows under a number. -/
  | host (id : Nat)
  deriving DecidableEq, Repr

/-- How a rule is searched for and what it builds. -/
inductive RuleKind where
  /-- Only for reference by other patterns. -/
  | reference
  /-- A pattern. -/
  | pattern (options : SearchOptions) (builder : Builder)
  /-- A pattern with an operand on either side. -/
  | operator (options : SearchOptions) (builder : Builder)
  /-- A search that no pattern describes. A pattern serves for reference only. -/
  | custom (search : Matcher) (builder : Builder)
  deriving DecidableEq, Repr

/-- A named production. -/
structure Rule where
  name : String
  pattern : Option String
  kind : RuleKind
  deriving DecidableEq, Repr

namespace Rule

/-- Whether the rule is for reference only. -/
def isReference (r : Rule) : Bool :=
  r.kind = .reference

/-- What the rule builds. A rule for reference builds nothing and is never tried. -/
def builder? (r : Rule) : Option Builder :=
  match r.kind with
  | .reference => none
  | .pattern _ b | .operator _ b | .custom _ b => some b

end Rule

/-! ## Descriptions -/

/-- A code point in hexadecimal, as an escape in a quoted string. -/
def codePointEscape (c : Char) : List Char :=
  '\\' :: 'u' :: '\x7b' :: (Nat.toDigits 16 c.toNat ++ ['\x7d'])

/-- Whether a character is shown in a quoted string by its code point: controls, blanks other than
the space, combining marks and invisible format characters. -/
def isHiddenInQuotes (c : Char) : Bool :=
  c.toNat < 32 || (127 ≤ c.toNat && c.toNat < 160) || (c ≠ ' ' && Text.isBlank c) ||
    c.toNat = 0xad || c.toNat = 0xfeff ||
    (0x200b ≤ c.toNat && c.toNat ≤ 0x200f) || (0x202a ≤ c.toNat && c.toNat ≤ 0x202e) ||
    (0x2060 ≤ c.toNat && c.toNat ≤ 0x206f) ||
    (127 < c.toNat && Text.inRanges Text.markRanges c.toNat)

/-- A character inside quotes. -/
def quoteChar (c : Char) : List Char :=
  match c with
  | '"' => ['\\', '"']
  | '\\' => ['\\', '\\']
  | '\t' => ['\\', 't']
  | '\r' => ['\\', 'r']
  | '\n' => ['\\', 'n']
  | '\x00' => ['\\', '0']
  | c => if isHiddenInQuotes c then codePointEscape c else [c]

/-- A string in quotes. -/
def quoted (s : String) : String :=
  String.ofList ('"' :: (s.toList.flatMap quoteChar ++ ['"']))

/-- The word for a kind of rule. -/
def RuleKind.word : RuleKind → String
  | .reference => "Reference"
  | .pattern .. => "Regex"
  | .operator .. => "Operator"
  | .custom .. => "Custom"

/-- A description of a rule: its name, its pattern and its kind. -/
def Rule.describe (r : Rule) : String :=
  let pattern :=
    match r.pattern with
    | some p => "Some(" ++ quoted p ++ ")"
    | none => "None"
  "Rule \x7b name: " ++ quoted r.name ++ ", pattern: " ++ pattern ++ ", kind: " ++
    quoted r.kind.word ++ " \x7d"

end Formula
