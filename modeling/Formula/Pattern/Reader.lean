import Formula.Pattern.SetReader

/-!
# Reading patterns

The notation of patterns: plain characters, escapes, sets, `.`, `^` and `$`, groups in parentheses
(plain, unnumbered `(?:` and named `(?P<` or `(?<`), alternatives, and the repetitions `?`, `*`, `+`
and `{n}`, `{n,}`, `{n,m}`, each of them lazy when a further `?` follows. Text that is not of this
form has no pattern. Larger notations have more: flags such as `(?i)`, classes by property such as `\p{Sm}`
and characters by number such as `\x2B` are not read here.
-/

set_option autoImplicit false

namespace Formula.Pattern

/-- A group that is being read: its name if it has one, its finished alternatives and the items of
the one being read, both latest first. -/
structure OpenGroup where
  name : Option (List Char) := none
  branches : List Pattern := []
  items : List Pattern := []

namespace OpenGroup

/-- The sequence of the items of the current alternative. -/
def branch (o : OpenGroup) : Pattern :=
  match o.items with
  | [] => .empty
  | p :: ps => ps.foldl (fun rest p => .seq p rest) p

/-- The alternatives. -/
def alternatives (o : OpenGroup) : Pattern :=
  o.branches.foldl (fun rest p => .alt p rest) o.branch

/-- The finished group. -/
def close (o : OpenGroup) : Pattern :=
  match o.name with
  | none => o.alternatives
  | some name => .group name o.alternatives

/-- Adds an item. -/
def push (o : OpenGroup) (p : Pattern) : OpenGroup :=
  { o with items := p :: o.items }

/-- Ends the current alternative. -/
def nextBranch (o : OpenGroup) : OpenGroup :=
  { o with branches := o.branch :: o.branches, items := [] }

/-- Repeats the last item. -/
def repeatLast? (o : OpenGroup) (f : Pattern → Pattern) : Option OpenGroup :=
  match o.items with
  | [] => none
  | p :: ps => some { o with items := f p :: ps }

end OpenGroup

/-- Whether a character may stand in a group's name, in front or later. -/
def isNameChar (first : Bool) (c : Char) : Bool :=
  if first then c = '_' || Text.isAlphabetic c
  else c = '_' || c = '.' || c = '[' || c = ']' || Text.isAlphanumeric c

/-- Reads the name of a group up to its closing angle bracket. -/
def readName? (cs : List Char) : Option (List Char × List Char) :=
  match cs.takeWhile (· ≠ '>'), cs.dropWhile (· ≠ '>') with
  | c :: name, _ :: rest =>
    if isNameChar true c && name.all (isNameChar false) then some (c :: name, rest) else none
  | _, _ => none

/-- What an opening parenthesis opens: a group, with or without a name. -/
def openGroup? : List Char → Option (OpenGroup × List Char)
  | '?' :: ':' :: cs => some (⟨none, [], []⟩, cs)
  | '?' :: '<' :: cs => (readName? cs).map fun (name, rest) => (⟨some name, [], []⟩, rest)
  | '?' :: 'P' :: '<' :: cs => (readName? cs).map fun (name, rest) => (⟨some name, [], []⟩, rest)
  | '?' :: _ => none
  | cs => some (⟨none, [], []⟩, cs)

/-- Reads a number with blanks around it. -/
def readCount? (cs : List Char) : Option (Nat × List Char) :=
  let cs := cs.dropWhile Text.isBlank
  let digits := cs.takeWhile Char.isDigit
  let rest := (cs.dropWhile Char.isDigit).dropWhile Text.isBlank
  if digits.isEmpty then none
  else
    let n := digits.foldl (fun n d => 10 * n + (d.toNat - '0'.toNat)) 0
    if n < 4294967296 then some (n, rest) else none

/-- The bounds of a counted repetition, after its opening brace. -/
def readBounds? (cs : List Char) : Option (Nat × Option Nat × List Char) :=
  match readCount? cs with
  | none => none
  | some (low, '\x7d' :: rest) => some (low, some low, rest)
  | some (low, ',' :: '\x7d' :: rest) => some (low, none, rest)
  | some (low, ',' :: rest) =>
    match readCount? rest with
    | some (high, '\x7d' :: rest) => if low ≤ high then some (low, some high, rest) else none
    | _ => none
  | some _ => none

/-- Whether a repetition is greedy: it is not when a question mark follows. -/
def readGreedy : List Char → Bool × List Char
  | '?' :: cs => (false, cs)
  | cs => (true, cs)

/-- How large a repeated pattern may become when its copies are written out. -/
def maxSize : Nat := 200000

/-- A pattern repeated between `low` and `high` times, unless writing out its copies makes it too
large. -/
def repeated? (greedy : Bool) (low : Nat) (high : Option Nat) (p : Pattern) : Option Pattern :=
  if maxSize < p.size * (high.getD low + 1) then none
  else
    match high with
    | none => some (p.atLeast greedy low)
    | some high =>
      if low = high then some (match low with | 0 => .empty | n + 1 => p.copies p n)
      else some (p.copies (p.upTo greedy (high - low)) low)

/-- Reads the rest of a pattern. `outer` holds the groups around the one being read, innermost first,
and `names` the names of the groups so far; `fuel` bounds the steps, each of which consumes a
character. -/
def readFrom :
    (fuel : Nat) → (outer : List OpenGroup) → OpenGroup → (names : List (List Char)) →
      List Char → Option Pattern
  | 0, _, _, _, _ => none
  | fuel + 1, outer, o, names, cs =>
    match cs with
    | [] => if outer.isEmpty then some o.close else none
    | '(' :: rest =>
      match openGroup? rest with
      | none => none
      | some (inner, rest) =>
        match inner.name with
        | none => readFrom fuel (o :: outer) inner names rest
        | some name =>
          if name ∈ names then none else readFrom fuel (o :: outer) inner (name :: names) rest
    | ')' :: rest =>
      match outer with
      | [] => none
      | parent :: outer => readFrom fuel outer (parent.push o.close) names rest
    | '|' :: rest => readFrom fuel outer o.nextBranch names rest
    | '[' :: rest =>
      match readSet? rest with
      | none => none
      | some (s, rest) => readFrom fuel outer (o.push (.set s)) names rest
    | '?' :: rest =>
      let (greedy, rest) := readGreedy rest
      match o.repeatLast? (opt greedy) with
      | none => none
      | some o => readFrom fuel outer o names rest
    | '*' :: rest =>
      let (greedy, rest) := readGreedy rest
      match o.repeatLast? (star greedy) with
      | none => none
      | some o => readFrom fuel outer o names rest
    | '+' :: rest =>
      let (greedy, rest) := readGreedy rest
      match o.repeatLast? (.plus greedy) with
      | none => none
      | some o => readFrom fuel outer o names rest
    | '\x7b' :: rest =>
      match o.items, readBounds? rest with
      | p :: items, some (low, high, rest) =>
        let (greedy, rest) := readGreedy rest
        match repeated? greedy low high p with
        | none => none
        | some q => readFrom fuel outer { o with items := q :: items } names rest
      | _, _ => none
    | '\\' :: rest =>
      match rest with
      | [] => none
      | c :: rest =>
        match readEscape? c with
        | none => none
        | some (.literal c) => readFrom fuel outer (o.push (.set (.single c))) names rest
        | some (.set s) => readFrom fuel outer (o.push (.set s)) names rest
        | some (.assert a) => readFrom fuel outer (o.push (.assert a)) names rest
    | '.' :: rest => readFrom fuel outer (o.push (.set .dot)) names rest
    | '^' :: rest => readFrom fuel outer (o.push (.assert .textStart)) names rest
    | '$' :: rest => readFrom fuel outer (o.push (.assert .textEnd)) names rest
    | c :: rest => readFrom fuel outer (o.push (.set (.single c))) names rest

/-- The pattern with a notation, if it is one of those in the module doc. -/
def read? (cs : List Char) : Option Pattern :=
  readFrom (cs.length + 1) [] {} [] cs

end Formula.Pattern
