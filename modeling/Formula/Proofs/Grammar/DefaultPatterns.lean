import Formula.Grammar.Default
import Formula.Proofs.Grammar.Prepare

/-!
# The patterns of the default grammar

The patterns that the rules of ordinary formulas stand for, and the searches they are prepared to
(`finders_default`). `select?_default` lists what is tried on a text, in order.
-/

set_option autoImplicit false

namespace Formula

namespace Lexeme

/-- One character. -/
def char (c : Char) : Pattern :=
  .set (.single c)

/-- A fixed text. -/
def literal : List Char → Pattern
  | [] => .empty
  | [c] => char c
  | c :: d :: cs => .seq (char c) (literal (d :: cs))

/-- The first of some patterns that matches. -/
def firstOf : List Pattern → Pattern
  | [] => .empty
  | [p] => p
  | p :: q :: ps => .alt p (firstOf (q :: ps))

/-- A set of listed characters. -/
def anyOf (c : Char) (cs : List Char) : Pattern :=
  .set (cs.foldl (fun s d => .union s (.single d)) (.single c))

/-- Latin and Greek letters. -/
def letter : CharSet :=
  .union (.union (.union (.range 'A' 'Z') (.range 'a' 'z')) (.range 'Α' 'Ω')) (.range 'α' 'ω')

/-- Letters and digits, which may follow an underscore in a name. -/
def letterOrDigit : CharSet :=
  .union letter (.range '0' '9')

/-- Blanks, or nothing. -/
def blanks : Pattern :=
  .star true (.set .blank)

/-- Letters, and any number of parts after an underscore. -/
def name : Pattern :=
  .seq (.plus true (.set letter)) (.star true (.seq (char '_') (.plus true (.set letterOrDigit))))

/-- The placeholder of a hidden group. -/
def token : Pattern :=
  .seq (char '[') (.seq (.plus true (.set .digit)) (char ']'))

/-- The spellings of the named constants. -/
def constant : Pattern :=
  firstOf <| [['∞'], "infinity".toList, "inf".toList, ['π'], "pi".toList, ['τ'], "tau".toList, ['e'],
    "true".toList, "false".toList, "undefined".toList].map literal

/-- The digits of a number, with at most one point. -/
def mantissa : Pattern :=
  let digits := .plus true (.set .digit)
  .alt (.seq digits (.seq (.opt true (char '.')) (.opt true digits))) (.seq (char '.') digits)

/-- The exponent of a number. -/
def exponent : Pattern :=
  .seq (anyOf 'e' ['E']) (.seq (.opt true (anyOf '+' ['-'])) (.plus true (.set .digit)))

/-- A number. -/
def number : Pattern :=
  .seq mantissa (.opt true exponent)

/-- An operator in front of its operand. -/
def frontOperator : Pattern :=
  firstOf [literal "++".toList, literal "--".toList, anyOf '+' ['-', '!', '~', '¬']]

/-- An operator behind its operand. -/
def backOperator : Pattern :=
  firstOf [literal "++".toList, literal "--".toList, literal "!!".toList, anyOf '!' ['%', '#']]

/-- What an operand is without the unary operators around it: a hidden group, perhaps with a name in
front, or a name, constant or number. -/
def core : Pattern :=
  firstOf [.seq (.opt true name) token, name, constant, number]

/-- An operand. -/
def operand : Pattern :=
  .seq (.star true (.seq frontOperator blanks)) (.seq core (.star true backOperator))

/-- Where an operand may begin or end: a character that continues no name or number. -/
def edge : Pattern :=
  .set (.compl (.union .word (.single '.')))

/-- An operand at the end of a text. -/
def operandAtEnd : Pattern :=
  .seq (.alt (.assert .textStart) edge) (.seq blanks (.seq operand (.seq blanks (.assert .textEnd))))

/-- An operand at the start of a text. -/
def operandAtStart : Pattern :=
  .seq (.assert .textStart) (.seq blanks (.seq operand (.seq blanks (.alt (.assert .textEnd) edge))))

/-- The group that the search for a pattern returns. -/
def matched : Pattern → Pattern :=
  .group "matched".toList

/-- A pattern as the whole text but blanks around it. -/
def only (p : Pattern) : Pattern :=
  .seq (.assert .textStart) (.seq blanks (.seq (matched p) (.seq blanks (.assert .textEnd))))

/-- A pattern at the start of a text, after blanks. -/
def leading (p : Pattern) : Pattern :=
  .seq (.assert .textStart) (.seq blanks (matched p))

/-- A function's name and the parenthesis after it. -/
def callee : Pattern :=
  .seq (.assert .textStart) (.seq blanks (.seq (.group "name".toList name)
    (.seq blanks (char '('))))

end Lexeme

open Lexeme

/-- What an operator with the given pattern is searched with. -/
def operatorPatterns (symbol : Pattern) : OperatorPatterns :=
  ⟨symbol, operandAtEnd, operandAtStart, true, none⟩

/-- What an assignment is searched with. -/
def assignmentPatterns : OperatorPatterns :=
  ⟨char '=', operandAtEnd, operandAtStart, false, some '!'⟩

/-- The patterns of the binary operators, those of one precedence together, the loosest first. -/
def levelPatterns : List Pattern :=
  [firstOf [literal "||".toList, char '∨'], char '⊕', firstOf [literal "&&".toList, char '∧'],
   firstOf [literal "==".toList, literal "!=".toList, literal "<>".toList, char '≠'],
   firstOf [.seq (anyOf '<' ['>']) (char '='), anyOf '<' ['>', '≤', '≥']], anyOf '+' ['-'],
   firstOf [literal "%%".toList, literal "//".toList, anyOf '*' ['×', '/', '÷', '%']], char '^']

variable {searches : HostSearches}

theorem prepare_pattern {rules : List Rule} {options : SearchOptions} {builder : Builder}
    {source title : String} {p : Pattern}
    (h : (expand? rules source.toList).bind
      (fun e => Pattern.read? (Finder.anchored options e)) = some p) :
    Finder.prepare searches rules ⟨title, some source, .pattern options builder⟩ =
      .pattern (.of p) options.rightToLeft := by
  simp only [Finder.prepare, h]

theorem leftOperand?_default {options : SearchOptions} (hpad : options.padReferences = true) :
    options.leftOperand? defaultRules = some operandAtEnd := by
  rw [SearchOptions.leftOperand?, if_pos hpad]
  decide +kernel

theorem rightOperand?_default {options : SearchOptions} (hpad : options.padReferences = true) :
    options.rightOperand? defaultRules = some operandAtStart := by
  rw [SearchOptions.rightOperand?, if_pos hpad]
  decide +kernel

theorem prepare?_default {options : SearchOptions} {source : String} {p : Pattern}
    (hpad : options.padReferences = true)
    (h : (expand? defaultRules source.toList).bind Pattern.read? = some p) :
    OperatorSearch.prepare? defaultRules source options = some (OperatorPatterns.search
      ⟨p, operandAtEnd, operandAtStart, options.rightToLeft, options.notPrecededBy⟩) :=
  (OperatorSearch.prepare?_eq_some h).2
    ⟨_, _, leftOperand?_default hpad, rightOperand?_default hpad, rfl⟩

theorem prepare_operator {options : SearchOptions} {builder : Builder} {source title : String}
    {p : Pattern} (hpad : options.padReferences = true)
    (h : (expand? defaultRules source.toList).bind Pattern.read? = some p) :
    Finder.prepare searches defaultRules ⟨title, some source, .operator options builder⟩ =
      .operator (OperatorPatterns.search
        ⟨p, operandAtEnd, operandAtStart, options.rightToLeft, options.notPrecededBy⟩) := by
  simp only [Finder.prepare, prepare?_default hpad h]

theorem prepare_call {title : String} {pattern : Option String} {builder : Builder} :
    Finder.prepare searches defaultRules ⟨title, pattern, .custom .call builder⟩ = .call (.of callee) := by
  have h : (expand? defaultRules "{Variable}".toList).bind (fun e =>
      Pattern.read? ("^\\s*(?P<name>".toList ++ e ++ ")\\s*\\(".toList)) = some callee := by
    decide +kernel
  simp only [Finder.prepare, h]

/-- The searches of the default grammar. -/
theorem finders_default : Grammar.default.finders =
    [.nothing, .nothing, .call (.of callee), .tuple, .parentheses, .vector,
      .pattern (.of (matched (anyOf '(' [')', '[', ']']))) false,
      .operator assignmentPatterns.search] ++
    (levelPatterns.map fun p => .operator (operatorPatterns p).search) ++
    [.pattern (.of (leading frontOperator)) false, .after, .pattern (.of (only constant)) false,
      .pattern (.of (only name)) false, .pattern (.of (only number)) false] := by
  suffices h : ∀ rules, rules = defaultRules →
      defaultRules.map (Finder.prepare Grammar.default.searches rules) = _ from h _ rfl
  intro rules hrules
  rw [defaultRules]
  subst hrules
  simp only [List.map_cons, List.map_nil, levelPatterns, List.cons_append, List.nil_append,
    List.cons.injEq, and_true]
  refine ⟨rfl, rfl, prepare_call, rfl, rfl, rfl, prepare_pattern ?_, prepare_operator rfl ?_,
    prepare_operator rfl ?_, prepare_operator rfl ?_, prepare_operator rfl ?_,
    prepare_operator rfl ?_, prepare_operator rfl ?_, prepare_operator rfl ?_,
    prepare_operator rfl ?_, prepare_operator rfl ?_, prepare_pattern ?_, rfl, prepare_pattern ?_,
    prepare_pattern ?_, prepare_pattern ?_⟩ <;> decide +kernel

end Formula
