import Formula.Pattern.Basic

/-!
# Reading escapes and bracketed character sets

A bracketed set lists characters, ranges, escapes and further sets; `&&`, `--` and `~~` combine what
stands before them with what follows, from left to right, and bind more loosely than listing. A
hyphen stands for itself at the front, before the closing bracket and wherever no range is formed; a
closing bracket stands for itself at the front.
-/

set_option autoImplicit false

namespace Formula.Pattern

/-- What a backslash and the character after it stand for. -/
inductive Escape where
  | literal (c : Char)
  | set (s : CharSet)
  | assert (a : Assertion)
  deriving DecidableEq, Repr

/-- Reads the character after a backslash. A punctuation character stands for itself; a letter or
digit has a meaning from the list, or none. -/
def readEscape? (c : Char) : Option Escape :=
  match c with
  | 'd' => some (.set .digit)
  | 'D' => some (.set (.compl .digit))
  | 's' => some (.set .blank)
  | 'S' => some (.set (.compl .blank))
  | 'w' => some (.set .word)
  | 'W' => some (.set (.compl .word))
  | 'a' => some (.literal '\x07')
  | 'f' => some (.literal '\x0c')
  | 't' => some (.literal '\t')
  | 'n' => some (.literal '\n')
  | 'r' => some (.literal '\r')
  | 'v' => some (.literal '\x0b')
  | 'A' => some (.assert .textStart)
  | 'z' => some (.assert .textEnd)
  | 'b' => some (.assert .wordBoundary)
  | 'B' => some (.assert .noWordBoundary)
  | '<' => some (.assert .wordStart)
  | '>' => some (.assert .wordEnd)
  | c => if c.toNat < 128 && !c.isAlphanum then some (.literal c) else none

/-- The sets that are named between `[:` and `:]`. They hold ASCII characters only. -/
def namedSet? (name : String) : Option CharSet :=
  let letters : CharSet := .union (.range 'a' 'z') (.range 'A' 'Z')
  let digits : CharSet := .range '0' '9'
  match name with
  | "alnum" => some (.union digits letters)
  | "alpha" => some letters
  | "ascii" => some (.range '\x00' '\x7f')
  | "blank" => some (.union (.single '\t') (.single ' '))
  | "cntrl" => some (.union (.range '\x00' '\x1f') (.single '\x7f'))
  | "digit" => some digits
  | "graph" => some (.range '!' '~')
  | "lower" => some (.range 'a' 'z')
  | "print" => some (.range ' ' '~')
  | "punct" =>
    some (.union (.union (.range '!' '/') (.range ':' '@'))
      (.union (.range '[' '\x60') (.range '\x7b' '~')))
  | "space" => some (.union (.range '\t' '\r') (.single ' '))
  | "upper" => some (.range 'A' 'Z')
  | "word" => some (.union (.union digits letters) (.single '_'))
  | "xdigit" => some (.union digits (.union (.range 'a' 'f') (.range 'A' 'F')))
  | _ => none

/-- Reads a named set after its opening bracket: a colon, perhaps a caret for the complement, the
name, a colon and a closing bracket. -/
def readNamedSet? : List Char → Option (CharSet × List Char)
  | ':' :: cs =>
    let (negated, cs) :=
      match cs with
      | '^' :: cs => (true, cs)
      | cs => (false, cs)
    let name := cs.takeWhile (· ≠ ':')
    match cs.dropWhile (· ≠ ':') with
    | ':' :: ']' :: rest =>
      (namedSet? (String.ofList name)).map fun s => (if negated then .compl s else s, rest)
    | _ => none
  | _ => none

/-- One entry of a bracketed set: an escape or a plain character. -/
def readSetItem? : List Char → Option (Escape × List Char)
  | [] => none
  | '\\' :: [] => none
  | '\\' :: c :: cs => (readEscape? c).map (·, cs)
  | c :: cs => some (.literal c, cs)

/-- An entry as a set; an assertion is none. -/
def Escape.toSet? : Escape → Option CharSet
  | .literal c => some (.single c)
  | .set s => some s
  | .assert _ => none

/-- Reads an entry, or a range of two entries. -/
def readSetRange? (cs : List Char) : Option (CharSet × List Char) :=
  match readSetItem? cs with
  | none => none
  | some (first, rest) =>
    match rest with
    | [] => none
    | '-' :: ']' :: _ | '-' :: '-' :: _ => first.toSet?.map (·, rest)
    | '-' :: more =>
      match first, readSetItem? more with
      | .literal low, some (.literal high, rest) =>
        if low ≤ high then some (.range low high, rest) else none
      | _, _ => none
    | _ => first.toSet?.map (·, rest)

/-- The ways to combine two sets. -/
inductive SetOperator where
  | inter
  | diff
  | symmDiff
  deriving DecidableEq, Repr

/-- The combined set. -/
def SetOperator.apply : SetOperator → CharSet → CharSet → CharSet
  | .inter, s, t => .inter s t
  | .diff, s, t => .diff s t
  | .symmDiff, s, t => .symmDiff s t

/-- A bracketed set that is being read: whether it is complemented, what an operator has to combine
with the entries since, and these entries. -/
structure OpenSet where
  negated : Bool
  pending : Option (CharSet × SetOperator) := none
  entries : Option CharSet := none

namespace OpenSet

/-- The set without a member. -/
def noChar : CharSet := .diff .digit .digit

/-- Adds an entry. -/
def add (o : OpenSet) (s : CharSet) : OpenSet :=
  { o with entries := some (match o.entries with | none => s | some t => .union t s) }

/-- The set read so far, before it is complemented. -/
def current (o : OpenSet) : CharSet :=
  let entries := o.entries.getD noChar
  match o.pending with
  | none => entries
  | some (s, op) => op.apply s entries

/-- Goes on after an operator. -/
def combine (o : OpenSet) (op : SetOperator) : OpenSet :=
  { o with pending := some (o.current, op), entries := none }

/-- The finished set. -/
def close (o : OpenSet) : CharSet :=
  if o.negated then .compl o.current else o.current

/-- Starts a set after its opening bracket: a caret complements it; hyphens, or else one closing
bracket, at the front stand for themselves. -/
def start (cs : List Char) : OpenSet × List Char :=
  let (negated, cs) :=
    match cs with
    | '^' :: cs => (true, cs)
    | cs => (false, cs)
  let o : OpenSet := { negated }
  match cs with
  | '-' :: _ => (o.add (.single '-'), cs.dropWhile (· = '-'))
  | ']' :: cs => (o.add (.single ']'), cs)
  | cs => (o, cs)

end OpenSet

/-- Reads the rest of a bracketed set. `outer` holds the sets around the one being read, innermost
first; `fuel` bounds the steps, each of which consumes a character. -/
def readSetFrom :
    (fuel : Nat) → (outer : List OpenSet) → OpenSet → List Char → Option (CharSet × List Char)
  | 0, _, _, _ => none
  | fuel + 1, outer, o, cs =>
    match cs with
    | [] => none
    | '[' :: rest =>
      match readNamedSet? rest with
      | some (s, rest) => readSetFrom fuel outer (o.add s) rest
      | none =>
        let (inner, rest) := OpenSet.start rest
        readSetFrom fuel (o :: outer) inner rest
    | ']' :: rest =>
      match outer with
      | [] => some (o.close, rest)
      | parent :: outer => readSetFrom fuel outer (parent.add o.close) rest
    | '&' :: '&' :: rest => readSetFrom fuel outer (o.combine .inter) rest
    | '-' :: '-' :: rest => readSetFrom fuel outer (o.combine .diff) rest
    | '~' :: '~' :: rest => readSetFrom fuel outer (o.combine .symmDiff) rest
    | _ =>
      match readSetRange? cs with
      | some (s, rest) => readSetFrom fuel outer (o.add s) rest
      | none => none

/-- Reads a bracketed set after its opening bracket. -/
def readSet? (cs : List Char) : Option (CharSet × List Char) :=
  let (o, rest) := OpenSet.start cs
  readSetFrom (cs.length + 1) [] o rest

end Formula.Pattern
