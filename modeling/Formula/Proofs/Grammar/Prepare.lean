import Formula.Proofs.Grammar.OperatorSearch
import Formula.Proofs.Pattern.Notation

/-!
# What an operator search is prepared from

An operator search is prepared from the notation of the operator, put into a group with the end of the text
behind, and with its start in front, and from the notations of the operands beside it. When the notation
of the operator is read as a pattern, the search is that of the pattern and the two operands
(`prepare?_eq_some`).
-/

set_option autoImplicit false

namespace Formula

namespace SearchOptions

/-- The pattern of an operand at the end of a text. With padding, it starts where no word character or
point goes on in it. -/
def leftOperand? (options : SearchOptions) (rules : List Rule) : Option Pattern :=
  (expand? rules "{Operand}".toList).bind fun operand => Pattern.read?
    ((if options.padReferences then "(?:^|[^\\w.])\\s*(?:".toList else "(?:".toList) ++ operand ++
      ")\\s*$".toList)

/-- The pattern of an operand at the start of a text. With padding, it ends where it does not go on in a
word character or point. -/
def rightOperand? (options : SearchOptions) (rules : List Rule) : Option Pattern :=
  (expand? rules "{Operand}".toList).bind fun operand => Pattern.read?
    ("^\\s*(?:".toList ++ operand ++
      (if options.padReferences then ")\\s*(?:$|[^\\w.])".toList else [')']))

end SearchOptions

namespace OperatorSearch

variable {rules : List Rule} {pattern : String} {options : SearchOptions} {symbol : Pattern}
  {s : OperatorSearch}

/-- An operator that is read as a pattern can be searched for when its operands can be read. -/
theorem prepare?_eq_some (hsymbol : (expand? rules pattern.toList).bind Pattern.read? = some symbol) :
    prepare? rules pattern options = some s ↔ ∃ left right,
      options.leftOperand? rules = some left ∧ options.rightOperand? rules = some right ∧
        s = OperatorPatterns.search
          ⟨symbol, left, right, options.rightToLeft, options.notPrecededBy⟩ := by
  obtain ⟨e, he, hread⟩ := Option.bind_eq_some_iff.1 hsymbol
  rw [prepare?, OperatorNotations.of?, he, SearchOptions.leftOperand?, SearchOptions.rightOperand?]
  simp only [Option.bind_eq_bind, Option.bind_some]
  cases expand? rules "{Operand}".toList with
  | none =>
    constructor
    · rintro ⟨⟩
    · rintro ⟨_, _, ⟨⟩, _⟩
  | some operand =>
    simp only [Option.bind_some, Option.pure_def]
    rw [Pattern.read?_final hread, Pattern.read?_whole hread, Option.bind_some, Option.bind_some]
    constructor
    · intro h
      obtain ⟨left, hleft, h⟩ := Option.bind_eq_some_iff.1 h
      obtain ⟨right, hright, h⟩ := Option.bind_eq_some_iff.1 h
      cases h
      exact ⟨left, right, hleft, hright, rfl⟩
    · rintro ⟨left, right, hleft, hright, rfl⟩
      rw [hleft, Option.bind_some, hright]
      rfl

end OperatorSearch

end Formula
