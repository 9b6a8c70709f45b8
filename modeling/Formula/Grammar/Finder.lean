import Formula.Grammar.References
import Formula.Hidden
import Formula.Pattern.Reader
import Formula.Pattern.Search

/-!
# Finding rules in a text

A rule is prepared once for a list of rules: references are expanded and patterns are read. The
result, a `Finder`, then searches texts. A rule whose pattern cannot be expanded or read finds nothing.
-/

set_option autoImplicit false

namespace Formula

/-- The notations of the four patterns that an operator rule searches with. -/
structure OperatorNotations where
  /-- The operator at the end of a text. -/
  atEnd : List Char
  /-- The operator as the whole of a text. -/
  exact : List Char
  /-- An operand at the end of a text. -/
  left : List Char
  /-- An operand at the start of a text. -/
  right : List Char

/-- The notations for an operator. With padding, an operand starts and ends where no word character or
point continues it. -/
def OperatorNotations.of? (rules : List Rule) (pattern : String) (options : SearchOptions) :
    Option OperatorNotations := do
  let symbol ← expand? rules pattern.toList
  let operand ← expand? rules "{Operand}".toList
  let (front, back) := ("(?:^|[^\\w.])\\s*(?:".toList, ")\\s*(?:$|[^\\w.])".toList)
  return {
    atEnd := "(?:".toList ++ symbol ++ ")$".toList
    exact := "^(?:".toList ++ symbol ++ ")$".toList
    left := (if options.padReferences then front else "(?:".toList) ++ operand ++ ")\\s*$".toList
    right := "^\\s*(?:".toList ++ operand ++ (if options.padReferences then back else [')']) }

/-- What an operator rule searches with. -/
structure OperatorSearch where
  /-- The operator at the end of a text, for texts read backwards. -/
  atEnd : Machine
  /-- The operator as the whole of a text. -/
  exact : Machine
  /-- An operand at the end of a text. -/
  left : Machine
  /-- An operand at the start of a text, for texts read backwards. -/
  right : Machine
  rightToLeft : Bool
  notPrecededBy : Option Char

namespace OperatorSearch

/-- Prepares the search for an operator. -/
def prepare? (rules : List Rule) (pattern : String) (options : SearchOptions) :
    Option OperatorSearch := do
  let notations ← OperatorNotations.of? rules pattern options
  return {
    atEnd := .of (← Pattern.read? notations.atEnd).reverse
    exact := .of (← Pattern.read? notations.exact)
    left := .of (← Pattern.read? notations.left)
    right := .of (← Pattern.read? notations.right).reverse
    rightToLeft := options.rightToLeft
    notPrecededBy := options.notPrecededBy }

/-- Whether an operator may follow the text before it, given latest character first. -/
def admits (s : OperatorSearch) (before : List Char) : Bool :=
  match s.notPrecededBy, before with
  | some c, d :: _ => c ≠ d
  | _, _ => true

/-- The lengths of the operator occurrences that end where the text before, given latest character
first, ends; the longest first. -/
def lengthsBefore (s : OperatorSearch) (before : List Char) : List Nat :=
  match s.atEnd.reach? before with
  | none => []
  | some n =>
    ((List.range n).reverse.map (· + 1)).filter fun k => s.exact.occursIn (before.take k).reverse

/-- For every end of an occurrence, from the right: the lengths of the occurrences there. -/
def allLengths (s : OperatorSearch) : (before : List Char) → List (List Nat)
  | [] => []
  | c :: before => s.lengthsBefore (c :: before) :: s.allLengths before

/-- Goes from the right over the ends of occurrences, and at each end over the occurrences from the
longest, to the first one with operands on both sides. `lefts` and `rights` tell for every cut from
here to the left whether an operand ends there, and whether one starts there. -/
def pickBackward (s : OperatorSearch) :
    (before : List Char) → (lengths : List (List Nat)) → (lefts rights : List Bool) → Option Token
  | c :: before, ks :: lengths, lefts, rights =>
    let here := c :: before
    let fits := fun k => s.admits (here.drop k) && (lefts.drop k).headD false
    match if rights.headD false then ks.find? fits else none with
    | some k => some ⟨(here.take k).reverse, Text.byteSize (here.drop k)⟩
    | none => s.pickBackward before lengths lefts.tail rights.tail
  | _, _, _, _ => none

/-- For every start of an occurrence, from the left: the length of the longest occurrence there. -/
def allPrefixes (s : OperatorSearch) : (text : List Char) → List (Option Nat)
  | [] => []
  | c :: cs => s.exact.lastHit? (c :: cs) :: s.allPrefixes cs

/-- Goes from the left over the starts of occurrences to the first one with operands on both sides.
`lefts` and `rights` are told for every cut from here to the right. -/
def pickForward (s : OperatorSearch) :
    (before text : List Char) → (lengths : List (Option Nat)) → (lefts rights : List Bool) →
      Option Token
  | before, c :: cs, k :: lengths, lefts, rights =>
    let fits := fun k => s.admits before && lefts.headD false && (rights.drop k).headD false
    match k.filter fits with
    | some k => some ⟨(c :: cs).take k, Text.byteSize before⟩
    | none => s.pickForward (c :: before) cs lengths lefts.tail rights.tail
  | _, _, _, _, _ => none

/-- For every cut of a text, from the left: whether the text before it ends with an operand. -/
def operandsLeft (s : OperatorSearch) (text : List Char) : List Bool :=
  s.left.hits text

/-- For every cut of a text, from the right: whether the text after it starts with an operand. -/
def operandsRight (s : OperatorSearch) (text : List Char) : List Bool :=
  s.right.hits text.reverse

/-- The operator occurrence that has an operand on either side: the rightmost and there the longest,
or the leftmost and there the longest. -/
def find? (s : OperatorSearch) (text : List Char) : Option Token :=
  if s.rightToLeft then
    let before := text.reverse
    let lengths := s.allLengths before
    if lengths.all List.isEmpty then none
    else s.pickBackward before lengths (s.operandsLeft text).reverse (s.operandsRight text)
  else
    let lengths := s.allPrefixes text
    if lengths.all Option.isNone then none
    else s.pickForward [] text lengths (s.operandsLeft text) (s.operandsRight text).reverse

end OperatorSearch

/-! ## Groups and operators behind -/

/-- The name and position of the function that a text calls: `callee` finds the name and an opening
parenthesis, and the group that starts there must end the text. -/
def findCall? (callee : Machine) (text : List Char) : Option Token :=
  match (callee.find? text).bind fun m => m.span? "name".toList with
  | none => none
  | some (start, stop) =>
    match Text.splitAt? stop text with
    | none => none
    | some (front, rest) =>
      match enclosedGroup? '(' rest, Text.from? start front with
      | some _, some name => some ⟨name, start⟩
      | _, _ => none

/-- The group in parentheses that is a tuple: it holds a comma of its own, or nothing. -/
def findTuple? (text : List Char) : Option Token :=
  match enclosedGroup? '(' text with
  | none => none
  | some group =>
    match Text.interior? group.text with
    | none => none
    | some list =>
      if Text.isAllBlank list then some group
      else
        match hide? .brackets list with
        | some h => if ',' ∈ h.text then some group else none
        | none => none

/-- The symbol of the operator that ends a text without blanks at its end: of a run of exclamation
marks the last two when their number is even, the last one when it is odd. -/
def symbolBehind? (text : List Char) : Option (List Char) :=
  let back := text.reverse
  let bangs := (back.takeWhile (· = '!')).length
  if bangs = 0 then
    match back with
    | '+' :: '+' :: _ => some ['+', '+']
    | '-' :: '-' :: _ => some ['-', '-']
    | '%' :: _ => some ['%']
    | '#' :: _ => some ['#']
    | _ => none
  else if bangs % 2 = 0 then some ['!', '!']
  else some ['!']

/-- The operator at the end of a text, with something in front of it. -/
def findBehind? (text : List Char) : Option Token :=
  let trimmed := Text.trimEnd text
  match symbolBehind? trimmed with
  | none => none
  | some symbol =>
    let index := Text.byteSize trimmed - Text.byteSize symbol
    match Text.before? index trimmed with
    | none => none
    | some operand => if Text.isAllBlank operand then none else some ⟨symbol, index⟩

/-! ## Prepared rules -/

/-- A prepared search. -/
inductive Finder where
  | nothing
  | pattern (m : Machine) (last : Bool)
  | operator (s : OperatorSearch)
  | call (callee : Machine)
  | tuple
  | parentheses
  | vector
  | after
  | host (find : List Char → Option Token)

/-- What a host program finds with its own searches, by number: in a grammar with these rules, in a
text. -/
abbrev HostSearches := Nat → List Rule → List Char → Option Token

namespace Finder

/-- The notation of a pattern with its options: what is found is the group `matched`. -/
def anchored (options : SearchOptions) (expanded : List Char) : List Char :=
  let matched := "(?P<matched>".toList ++ expanded ++ [')']
  let front := "^\\s*".toList
  let back := "\\s*$".toList
  if options.only || (options.anchorLeft && options.anchorRight) then front ++ matched ++ back
  else if options.anchorLeft then front ++ matched
  else if options.anchorRight then matched ++ back
  else matched

/-- Prepares a rule. -/
def prepare (searches : HostSearches) (rules : List Rule) (rule : Rule) : Finder :=
  match rule.kind, rule.pattern with
  | .reference, _ => .nothing
  | .pattern options _, some source =>
    match (expand? rules source.toList).bind fun e => Pattern.read? (anchored options e) with
    | some p => .pattern (.of p) options.rightToLeft
    | none => .nothing
  | .operator options _, some source =>
    match OperatorSearch.prepare? rules source options with
    | some s => .operator s
    | none => .nothing
  | .custom .call _, _ =>
    match (expand? rules "{Variable}".toList).bind fun e =>
        Pattern.read? ("^\\s*(?P<name>".toList ++ e ++ ")\\s*\\(".toList) with
    | some p => .call (.of p)
    | none => .nothing
  | .custom .tuple _, _ => .tuple
  | .custom .parentheses _, _ => .parentheses
  | .custom .vector _, _ => .vector
  | .custom .after _, _ => .after
  | .custom (.host id) _, _ => .host (searches id rules)
  | _, none => .nothing

/-- The text between two bytes, with its position. -/
def tokenAt? (text : List Char) (span : Nat × Nat) : Option Token :=
  (Text.slice? span.1 span.2 text).map (⟨·, span.1⟩)

/-- What the search finds in a text. -/
def find? (f : Finder) (text : List Char) : Option Token :=
  match f with
  | .nothing => none
  | .pattern m last =>
    let found := if last then m.findLast? text else m.find? text
    (found.bind fun m => m.span? "matched".toList).bind (tokenAt? text)
  | .operator s => s.find? text
  | .call callee => findCall? callee text
  | .tuple => findTuple? text
  | .parentheses => enclosedGroup? '(' text
  | .vector => enclosedGroup? '[' text
  | .after => findBehind? text
  | .host find => find text

end Finder

end Formula
