import Formula.Text.Alphabetic
import Formula.Text.DecimalDigit
import Formula.Text.Mark
import Formula.Text.Numeric

/-!
# Character classes

The four classes that reading depends on: blanks, decimal digits, letters and digits, and word
characters. Each is decided by plain ASCII tests first; only a character beyond ASCII is looked up
in the tables.
-/

set_option autoImplicit false

namespace Formula.Text

/-- The code points of the Unicode property White_Space. -/
def blankRanges : List (Nat × Nat) :=
  [(0x9, 0xd), (0x20, 0x20), (0x85, 0x85), (0xa0, 0xa0), (0x1680, 0x1680), (0x2000, 0x200a),
   (0x2028, 0x2029), (0x202f, 0x202f), (0x205f, 0x205f), (0x3000, 0x3000)]

/-- Blank characters: the Unicode property White_Space. -/
def isBlank (c : Char) : Bool :=
  inRanges blankRanges c.toNat

/-- Decimal digits of any script. -/
def isDecimalDigit (c : Char) : Bool :=
  c.isDigit || (127 < c.toNat && inRanges decimalDigitRanges c.toNat)

/-- Alphabetic characters of any script. -/
def isAlphabetic (c : Char) : Bool :=
  c.isAlpha || (127 < c.toNat && inRanges alphabeticRanges c.toNat)

/-- Letters and numbers of any script: the properties Alphabetic and Numeric together. -/
def isAlphanumeric (c : Char) : Bool :=
  c.isAlphanum ||
    (127 < c.toNat && (inRanges alphabeticRanges c.toNat || inRanges numericRanges c.toNat))

/-- Connector punctuation beyond ASCII, and the two joiners. -/
def connectorRanges : List (Nat × Nat) :=
  [(0x200c, 0x200d), (0x203f, 0x2040), (0x2054, 0x2054), (0xfe33, 0xfe34), (0xfe4d, 0xfe4f),
   (0xff3f, 0xff3f)]

/-- Word characters: alphabetic characters, marks, decimal digits, connector punctuation (the
underscore among it) and joiners. -/
def isWordChar (c : Char) : Bool :=
  c.isAlphanum || c = '_' ||
    (127 < c.toNat &&
      (inRanges alphabeticRanges c.toNat || inRanges markRanges c.toNat ||
        inRanges decimalDigitRanges c.toNat || inRanges connectorRanges c.toNat))

/-- Drops the blanks at the front. -/
def trimStart (cs : List Char) : List Char :=
  cs.dropWhile isBlank

/-- Drops the blanks at the end. -/
def trimEnd : List Char → List Char
  | [] => []
  | c :: cs =>
    match trimEnd cs with
    | [] => if isBlank c then [] else [c]
    | d :: ds => c :: d :: ds

/-- Drops the blanks at both ends. -/
def trim (cs : List Char) : List Char :=
  trimEnd (trimStart cs)

/-- Whether every character is blank. -/
def isAllBlank (cs : List Char) : Bool :=
  cs.all isBlank

end Formula.Text
