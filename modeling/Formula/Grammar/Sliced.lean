import Formula.Grammar.Finder

/-!
# Searching slice by slice

The searches of `Finder` answer for all cuts of a text at once. Here the same searches go from cut to
cut, and whatever they look at is a slice of the text between two bytes. The slice may not exist, and
then the search fails: it has no result (`none`), which is something else than to find nothing
(`some none`).

What an operator is searched with are four tests of slices (`OperatorTests`). The tests are those of a
prepared search, or those that an engine makes of the notations of the operator and its operands; the
engine is a parameter, for a host program may bring one of its own.
-/

set_option autoImplicit false

namespace Formula

/-! ## Operators -/

/-- The tests of slices that an operator is searched with. -/
@[ext]
structure OperatorTests where
  /-- The byte at which the first match begins that ends a text with the operator. -/
  firstAtEnd : List Char → Option Nat
  /-- Whether a text is the operator. -/
  exact : List Char → Bool
  /-- Whether a text ends with an operand. -/
  left : List Char → Bool
  /-- Whether a text starts with an operand. -/
  right : List Char → Bool
  rightToLeft : Bool
  notPrecededBy : Option Char

namespace OperatorTests

/-- Whether the operator between two bytes has an operand on each side. -/
def accepts? (s : OperatorTests) (text : List Char) (start stop : Nat) : Option Bool := do
  let front ← Text.before? start text
  if s.notPrecededBy.any fun c => front.getLast? = some c then return false
  let back ← Text.from? stop text
  return s.left front && s.right back

/-- The byte at which the longest operator stops that begins at a byte. -/
def longestFrom? (s : OperatorTests) (text : List Char) (start : Nat) : Option (Option Nat) := do
  let rest ← Text.from? start text
  let ends ← (Text.cuts 1 (Text.byteSize rest + 1) rest).filterM fun stop => do
    return s.exact (← Text.before? stop rest)
  return ends.getLast?.map (start + ·)

/-- The bytes at which the operators begin that stop at a byte, ascending. -/
def startsOf? (s : OperatorTests) (text : List Char) (stop : Nat) : Option (List Nat) := do
  let front ← Text.before? stop text
  (Text.cuts ((s.firstAtEnd front).getD stop) stop text).filterM fun start => do
    return s.exact (← Text.slice? start stop text)

/-- The operator that stops at a byte and has operands on both sides, the longest if there are several. -/
def findBefore? (s : OperatorTests) (text : List Char) (stop : Nat) : Option (Option Token) := do
  match ← (← s.startsOf? text stop).findM? fun start => s.accepts? text start stop with
  | none => return none
  | some start => return some (← Finder.tokenAt? text (start, stop))

/-- The longest operator that begins at a byte, if it has operands on both sides. -/
def findFrom? (s : OperatorTests) (text : List Char) (start : Nat) : Option (Option Token) := do
  match ← s.longestFrom? text start with
  | none => return none
  | some stop =>
    if ← s.accepts? text start stop then return some (← Finder.tokenAt? text (start, stop))
    return none

/-- The first operator with operands on both sides: from the right over the bytes at which one may stop,
or from the left over the bytes at which one may begin. -/
def find? (s : OperatorTests) (text : List Char) : Option (Option Token) :=
  if s.rightToLeft then
    (Text.cuts 1 (Text.byteSize text + 1) text).reverse.findSomeM? (s.findBefore? text)
  else (Text.cuts 0 (Text.byteSize text) text).findSomeM? (s.findFrom? text)

end OperatorTests

/-- The tests of a prepared search. Two of its machines read backwards. -/
def OperatorSearch.tests (s : OperatorSearch) : OperatorTests where
  firstAtEnd text := (s.atEnd.reach? text.reverse).map fun n =>
    Text.byteSize (text.take (text.length - n))
  exact := s.exact.occursIn
  left := s.left.occursIn
  right text := s.right.occursIn text.reverse
  rightToLeft := s.rightToLeft
  notPrecededBy := s.notPrecededBy

/-! ## Engines -/

/-- An engine for regular patterns: what it makes of a notation, if it can read it, whether a text has a
match, and the bytes between which the first match lies. -/
structure Engine where
  Regex : Type
  read? : List Char → Option Regex
  isMatch : Regex → List Char → Bool
  find? : Regex → List Char → Option (Nat × Nat)

/-- The engine of this library. -/
abbrev Engine.own : Engine where
  Regex := Pattern
  read? := Pattern.read?
  isMatch p := (Machine.of p).occursIn
  find? p text := ((Machine.of p).find? text).map fun m => (m.start, m.stop)

/-- The tests that an engine makes of the notations for an operator. -/
def Engine.tests? (engine : Engine) (rules : List Rule) (pattern : String) (options : SearchOptions) :
    Option OperatorTests := do
  let notations ← OperatorNotations.of? rules pattern options
  let atEnd ← engine.read? notations.atEnd
  let exact ← engine.read? notations.exact
  let left ← engine.read? notations.left
  let right ← engine.read? notations.right
  return {
    firstAtEnd := fun text => (engine.find? atEnd text).map (·.1)
    exact := engine.isMatch exact
    left := engine.isMatch left
    right := engine.isMatch right
    rightToLeft := options.rightToLeft
    notPrecededBy := options.notPrecededBy }

/-! ## Groups, calls and operators behind -/

/-- The bytes between which the one group lies that makes up all of a text but blanks around it. In a
blank text the blanks in front end after those behind begin, and nothing is sliced. -/
def enclosedSpan? (opener : Char) (text : List Char) : Option (Option (Nat × Nat)) := do
  let start := Text.byteSize text - Text.byteSize (Text.trimStart text)
  let stop := Text.byteSize (Text.trimEnd text)
  if stop ≤ start then return none
  let group ← Text.slice? start stop text
  if group.head? = some opener ∧ (hide? .brackets group).map Hidden.text = some (placeholder 0) then
    return some (start, stop)
  return none

namespace Finder

/-- The text between two bytes, if bytes were found. -/
def tokenSliced? (text : List Char) : Option (Nat × Nat) → Option (Option Token)
  | none => some none
  | some span => (tokenAt? text span).map some

/-- `enclosedGroup?` by slices. -/
def groupSliced? (opener : Char) (text : List Char) : Option (Option Token) :=
  (enclosedSpan? opener text).bind (tokenSliced? text)

/-- `findTuple?` by slices. -/
def tupleSliced? (text : List Char) : Option (Option Token) := do
  match ← groupSliced? '(' text with
  | none => return none
  | some group =>
    let list ← Text.interior? group.text
    let holdsComma := (hide? .brackets list).any fun h => ',' ∈ h.text
    return if Text.isAllBlank list || holdsComma then some group else none

/-- `findCall?` by slices. -/
def callSliced? (callee : Machine) (text : List Char) : Option (Option Token) := do
  match (callee.find? text).bind fun m => m.span? "name".toList with
  | none => return none
  | some span =>
    match ← enclosedSpan? '(' (← Text.from? span.2 text) with
    | none => return none
    | some _ => return some (← tokenAt? text span)

/-- `findBehind?` by slices. The symbol must not be longer than the text that it ends. -/
def behindSliced? (text : List Char) : Option (Option Token) := do
  let trimmed := Text.trimEnd text
  match symbolBehind? trimmed with
  | none => return none
  | some symbol =>
    if Text.byteSize trimmed < Text.byteSize symbol then none
    let index := Text.byteSize trimmed - Text.byteSize symbol
    let operand ← Text.before? index trimmed
    return if Text.isAllBlank operand then none else some ⟨symbol, index⟩

/-- What the search finds in a text, slice by slice. A host program searches on its own. -/
def findSliced? (f : Finder) (text : List Char) : Option (Option Token) :=
  match f with
  | .nothing => some none
  | .pattern m last =>
    let found := if last then m.findLast? text else m.find? text
    tokenSliced? text (found.bind fun m => m.span? "matched".toList)
  | .operator s => s.tests.find? text
  | .call callee => callSliced? callee text
  | .tuple => tupleSliced? text
  | .parentheses => groupSliced? '(' text
  | .vector => groupSliced? '[' text
  | .after => behindSliced? text
  | .host find => some (find text)

end Finder

end Formula
