import Formula.Text.Bytes
import Formula.Text.CharClass

/-!
# Hidden groups

Operators between groups are found without looking inside the groups. For this the top-level groups
of a text are hidden: the `n`-th group is replaced by the placeholder `[n]`, and every bracket or
backslash that stays in the text is escaped by a backslash, so that it cannot be taken for a
placeholder. `Hidden.restore` undoes this for any piece of the hidden text that cuts no placeholder
and no escape apart, and `Hidden.offset?` maps the offsets of such cuts back.
-/

set_option autoImplicit false

namespace Formula

/-- A piece of a text and the byte at which it starts there. -/
structure Token where
  text : List Char
  index : Nat
  deriving DecidableEq, Repr

/-- The byte just after the token. -/
def Token.stop (t : Token) : Nat :=
  t.index + Text.byteSize t.text

/-- Which groups are hidden: those in parentheses only, or those in square brackets too. -/
inductive Grouping where
  | parentheses
  | brackets
  deriving DecidableEq, Repr

/-- The closing bracket that a tracked opening bracket calls for. -/
def Grouping.closer? : Grouping → Char → Option Char
  | _, '(' => some ')'
  | .brackets, '[' => some ']'
  | _, _ => none

/-- Whether a character closes a tracked group. -/
def Grouping.isCloser : Grouping → Char → Bool
  | _, ')' => true
  | .brackets, ']' => true
  | _, _ => false

/-- Characters that are escaped where they stay in the hidden text. -/
def isEscaped (c : Char) : Bool :=
  c = '[' || c = ']' || c = '\\'

/-- The placeholder of the `n`-th group. -/
def placeholder (n : Nat) : List Char :=
  '[' :: (Nat.toDigits 10 n ++ [']'])

/-- A text with its top-level groups hidden, and the groups in order. -/
structure Hidden where
  text : List Char
  groups : List Token
  deriving DecidableEq, Repr

namespace Hidden

/-- Puts text in front. -/
def prepend (front : List Char) (h : Hidden) : Hidden :=
  { h with text := front ++ h.text }

/-- Puts a closed group with its placeholder in front. -/
def prependGroup (n : Nat) (group : Token) (h : Hidden) : Hidden :=
  ⟨placeholder n ++ h.text, group :: h.groups⟩

/-- Hides the groups of the rest of a text. `offset` is the byte at which the rest starts and `count`
the number of groups before it; `closers` are the brackets still to be closed, innermost first, and
`start` and `group` the byte and the characters (latest first) of the group they belong to. Brackets
that do not nest properly have no result. -/
def hideFrom (grouping : Grouping) :
    (offset count : Nat) → (closers : List Char) → (start : Nat) → (group : List Char) →
      List Char → Option Hidden
  | _, _, [], _, _, [] => some ⟨[], []⟩
  | _, _, _ :: _, _, _, [] => none
  | offset, count, closers, start, group, c :: cs =>
    let next := offset + c.utf8Size
    match grouping.closer? c with
    | some closer =>
      match closers with
      | [] => hideFrom grouping next count [closer] offset [c] cs
      | _ => hideFrom grouping next count (closer :: closers) start (c :: group) cs
    | none =>
      if grouping.isCloser c then
        match closers with
        | [] => none
        | closer :: outer =>
          if closer ≠ c then none
          else
            match outer with
            | [] =>
              (hideFrom grouping next (count + 1) [] next [] cs).map
                (prependGroup count ⟨(c :: group).reverse, start⟩)
            | _ => hideFrom grouping next count outer start (c :: group) cs
      else
        match closers with
        | [] =>
          (hideFrom grouping next count [] start group cs).map
            (prepend (if isEscaped c then ['\\', c] else [c]))
        | _ => hideFrom grouping next count closers start (c :: group) cs

end Hidden

/-- Hides the top-level groups of a text, if its tracked brackets nest properly. -/
def hide? (grouping : Grouping) (text : List Char) : Option Hidden :=
  Hidden.hideFrom grouping 0 0 [] 0 [] text

/-- Reads the number of a placeholder, up to its closing bracket: digits, with an optional plus sign
in front. Gives the number and the count of characters read, bracket included. -/
def placeholderNumber? (cs : List Char) : Option (Nat × Nat) :=
  let inside := cs.takeWhile (· ≠ ']')
  let digits :=
    match inside with
    | '+' :: ds => ds
    | ds => ds
  if inside.length < cs.length && !digits.isEmpty && digits.all Char.isDigit then
    some (digits.foldl (fun n d => 10 * n + (d.toNat - '0'.toNat)) 0, inside.length + 1)
  else none

namespace Hidden

/-- The group that the placeholder just after an opening bracket stands for, and the count of
characters up to the placeholder's end. -/
def groupAt? (h : Hidden) (afterBracket : List Char) : Option (Token × Nat) :=
  match placeholderNumber? afterBracket with
  | some (n, width) => (h.groups[n]?).map (·, width)
  | none => none

/-- Restores a fragment after its first `skip` characters: placeholders become the groups they stand
for and escapes lose their backslash. -/
def restoreFrom (h : Hidden) : (skip : Nat) → List Char → List Char
  | _, [] => []
  | skip + 1, _ :: cs => restoreFrom h skip cs
  | 0, '\\' :: c :: cs => c :: restoreFrom h 0 cs
  | 0, c :: cs =>
    if c = '[' then
      match h.groupAt? cs with
      | some (group, width) => group.text ++ restoreFrom h width cs
      | none => c :: restoreFrom h 0 cs
    else c :: restoreFrom h 0 cs

/-- Replaces the placeholders of a fragment by the groups they stand for and drops escapes. -/
def restore (h : Hidden) (fragment : List Char) : List Char :=
  h.restoreFrom 0 fragment

/-- Walks the hidden text up to byte `index`. `result` starts as `index`; it loses one for every
escape and changes by the difference in length for every placeholder. A cut inside a placeholder may
have no counterpart. -/
def offsetFrom (h : Hidden) (index : Nat) :
    (skip position result : Nat) → List Char → Option Nat
  | _, _, result, [] => some result
  | skip + 1, position, result, c :: cs =>
    offsetFrom h index skip (position + c.utf8Size) result cs
  | 0, position, result, c :: cs =>
    if index ≤ position then some result
    else if c = '\\' then
      if result = 0 then none else offsetFrom h index 1 (position + 1) (result - 1) cs
    else if c = '[' then
      match h.groupAt? cs with
      | some (group, width) =>
        if result < width + 1 then none
        else
          offsetFrom h index width (position + 1)
            (result - (width + 1) + Text.byteSize group.text) cs
      | none => offsetFrom h index 0 (position + 1) result cs
    else offsetFrom h index 0 (position + c.utf8Size) result cs

/-- The byte of the text before hiding that byte `index` of the hidden text corresponds to. -/
def offset? (h : Hidden) (index : Nat) : Option Nat :=
  h.offsetFrom index 0 0 index h.text

end Hidden

/-- The parts of a text between its commas: one more than there are commas. -/
def splitAtCommas : List Char → List (List Char)
  | [] => [[]]
  | c :: cs =>
    if c = ',' then [] :: splitAtCommas cs
    else
      match splitAtCommas cs with
      | [] => [[c]]
      | part :: parts => (c :: part) :: parts

/-- The one group that makes up all of a text but blanks around it, opened by `opener`. -/
def enclosedGroup? (opener : Char) (text : List Char) : Option Token :=
  let group := Text.trim text
  match group with
  | [] => none
  | c :: _ =>
    if c ≠ opener then none
    else
      match hide? .brackets group with
      | none => none
      | some h =>
        if h.text = placeholder 0 then
          some ⟨group, Text.byteSize (text.takeWhile Text.isBlank)⟩
        else none

end Formula
