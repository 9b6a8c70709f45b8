/-!
# Text and its offsets in bytes

Text is a list of characters. Offsets and lengths are counted in the bytes of its UTF-8 form; a cut
at an offset that falls inside a character, or beyond the end, does not exist.
-/

set_option autoImplicit false

namespace Formula.Text

/-- The length of the UTF-8 form. -/
def byteSize : List Char → Nat
  | [] => 0
  | c :: cs => c.utf8Size + byteSize cs

/-- The two parts of the text before and after byte `n`. -/
def splitAt? : Nat → List Char → Option (List Char × List Char)
  | 0, cs => some ([], cs)
  | _ + 1, [] => none
  | n + 1, c :: cs =>
    if c.utf8Size ≤ n + 1 then
      (splitAt? (n + 1 - c.utf8Size) cs).map fun (front, back) => (c :: front, back)
    else none

/-- The text before byte `n`. -/
def before? (n : Nat) (cs : List Char) : Option (List Char) :=
  (splitAt? n cs).map (·.1)

/-- The text from byte `n` on. -/
def from? (n : Nat) (cs : List Char) : Option (List Char) :=
  (splitAt? n cs).map (·.2)

/-- The text between two bytes. -/
def slice? (start stop : Nat) (cs : List Char) : Option (List Char) :=
  (before? stop cs).bind (from? start)

/-- Whether the text can be cut at byte `n`. -/
def isCut (cs : List Char) (n : Nat) : Bool :=
  (splitAt? n cs).isSome

/-- The bytes at which a text can be cut, from byte `low` on and before byte `high`, ascending. -/
def cuts (low high : Nat) (cs : List Char) : List Nat :=
  (List.range' low (high - low)).filter (isCut cs)

/-- The text with its first and last byte removed, when these are characters of their own and
distinct. -/
def interior? (cs : List Char) : Option (List Char) :=
  match cs with
  | [] => none
  | c :: rest =>
    match rest.getLast? with
    | none => none
    | some d => if c.utf8Size = 1 ∧ d.utf8Size = 1 then some rest.dropLast else none

end Formula.Text
