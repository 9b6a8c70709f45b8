import Formula.Grammar.Basic

/-!
# The default grammar

The rules of ordinary formulas, loosest binding first: operands and hidden groups for reference, calls
and groups that make up a whole text, texts around groups, assignments, binary operators by
precedence, unary operators, and finally constants, variables and numbers.
-/

set_option autoImplicit false

namespace Formula

/-- The name of the rule for texts around groups; that rule passes itself over. -/
def aroundGroupsName : String := "WithParentheses"

/-- The rules of ordinary formulas. -/
def defaultRules : List Rule :=
  let binary : SearchOptions := { rightToLeft := true, padReferences := true }
  let operator := fun name pattern => Rule.mk name (some pattern) (.operator binary .binary)
  [{ name := "Operand"
     pattern := some
      "(?:{Prefix}\\s*)*(?:{Variable}?{Token}|{Variable}|{Constant}|{Number}){Postfix}*"
     kind := .reference },
   { name := "Token", pattern := some "\\[\\d+\\]", kind := .reference },
   { name := "FunctionCall", pattern := none, kind := .custom .call .call },
   { name := "Tuple", pattern := none, kind := .custom .tuple .tuple },
   { name := "Parentheses", pattern := none, kind := .custom .parentheses .parentheses },
   { name := "Vector", pattern := none, kind := .custom .vector .vector },
   { name := aroundGroupsName, pattern := some "[()\\[\\]]", kind := .pattern {} .aroundGroups },
   { name := "AssignBinOp", pattern := some "="
     kind := .operator { padReferences := true, notPrecededBy := some '!' } .assignment },
   operator "OrBinOp" "\\|\\||∨",
   operator "XorBinOp" "⊕",
   operator "AndBinOp" "&&|∧",
   operator "EqBinOp" "==|!=|<>|≠",
   operator "IneqBinOp" "[<>]=|[<>≤≥]",
   operator "AddBinOp" "[+\\-]",
   operator "MultBinOp" "%%|//|[*×/÷%]",
   operator "ExpBinOp" "\\^",
   { name := "Prefix", pattern := some "\\+\\+|--|[+\\-!~¬]"
     kind := .pattern { anchorLeft := true } .before },
   { name := "Postfix", pattern := some "\\+\\+|--|!!|[!%#]", kind := .custom .after .after },
   { name := "Constant", pattern := some "∞|infinity|inf|π|pi|τ|tau|e|true|false|undefined"
     kind := .pattern { only := true } .constant },
   { name := "Variable", pattern := some "[A-Za-zΑ-Ωα-ω]+(?:_[A-Za-zΑ-Ωα-ω0-9]+)*"
     kind := .pattern { only := true } .variable },
   { name := "Number", pattern := some "(?:\\d+\\.?\\d*|\\.\\d+)(?:[eE][+\\-]?\\d+)?"
     kind := .pattern { only := true } .number }]

/-- The grammar of ordinary formulas. -/
def Grammar.default : Grammar :=
  .ofRules defaultRules

end Formula
