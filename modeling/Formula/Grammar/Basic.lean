import Formula.Grammar.Finder

/-!
# Grammars

A grammar is an ordered list of rules. Earlier rules bind more loosely: they are tried first, so what
they build ends up closer to the root of a tree. The prepared searches are kept beside the rules;
every change of the list prepares them anew.
-/

set_option autoImplicit false

namespace Formula

/-- An ordered list of rules with their prepared searches. A host program may have searches of its
own; without them, rules that ask for one find nothing. -/
structure Grammar where
  rules : List Rule
  searches : HostSearches := fun _ _ _ => none
  finders : List Finder := rules.map (Finder.prepare searches rules)
  finders_eq : finders = rules.map (Finder.prepare searches rules) := by rfl

namespace Grammar

/-- The grammar of a list of rules. -/
def ofRules (rules : List Rule) : Grammar :=
  { rules }

/-- The grammar with other rules. -/
def withRules (g : Grammar) (rules : List Rule) : Grammar :=
  { rules, searches := g.searches }

/-- The grammar without rules. -/
def empty : Grammar :=
  ofRules []

/-- The rule with a name. -/
def named? (g : Grammar) (name : String) : Option Rule :=
  Rule.named? g.rules name

/-- The position of the rule with a name. -/
def position? (g : Grammar) (name : String) : Option Nat :=
  Rule.position? g.rules name

/-- Whether a rule has a name. -/
def contains (g : Grammar) (name : String) : Bool :=
  (g.position? name).isSome

/-- Expands the references in a pattern. -/
def expand? (g : Grammar) (pattern : List Char) : Option (List Char) :=
  Formula.expand? g.rules pattern

/-- What the rule with a name finds in a text. -/
def find? (g : Grammar) (rule : Rule) (text : List Char) : Option Token :=
  (Finder.prepare g.searches g.rules rule).find? text

/-- The position that a signed index means in a list of `size` rules: from the front, or for negative
indexes from the end, where `-1` is just behind the last rule. Indexes beyond an end mean that end. -/
def insertionPoint (size : Nat) (index : Int) : Nat :=
  if index < 0 then size - (index.natAbs - 1) else min index.natAbs size

/-- The list with a rule put before the one at a position. -/
def insertAt (rules : List Rule) (position : Nat) (rule : Rule) : List Rule :=
  rules.take position ++ rule :: rules.drop position

/-- Inserts a rule, unless its name is taken. -/
def insert? (g : Grammar) (index : Int) (rule : Rule) : Option Grammar :=
  if g.contains rule.name then none
  else some (g.withRules (insertAt g.rules (insertionPoint g.rules.length index) rule))

/-- Removes the rule at a position, if there is one. -/
def eraseAt? (g : Grammar) (position : Nat) : Option Grammar :=
  if position < g.rules.length then some (g.withRules (g.rules.eraseIdx position)) else none

/-- Removes the rule with a name, if there is one. -/
def erase? (g : Grammar) (name : String) : Option Grammar :=
  (g.position? name).bind g.eraseAt?

/-- The first rule to build from, with what it finds in a text, among the rules that `tried`
admits. -/
def select? (g : Grammar) (tried : Rule → Bool) (text : List Char) : Option (Builder × Token) :=
  (g.rules.zip g.finders).findSome? fun (rule, finder) =>
    if tried rule then
      match rule.builder? with
      | none => none
      | some builder => (finder.find? text).map (builder, ·)
    else none

end Grammar

end Formula
