import Formula.Expr.Printer
import Formula.Proofs.Reader.Spellings

/-!
# Parentheses in the text of a tree

The text of a tree has parentheses that the tree need not have. `Expr.wrapped` has them too: it has the
same text (`Expr.chars_wrapped`), and without its parentheses it is the same tree
(`Expr.bare_wrapped`).
-/

set_option autoImplicit false

namespace Formula.Expr

mutual

/-- The numbers of a tree. -/
def numbers : Expr → List Float
  | .number x => [x]
  | .constant _ | .variable _ => []
  | .parens inner => inner.numbers
  | .unary _ _ operand => operand.numbers
  | .binary left _ right => left.numbers ++ right.numbers
  | .assign _ value => value.numbers
  | .call _ args => allNumbers args
  | .collection _ elements => allNumbers elements

/-- The numbers of several trees. -/
def allNumbers : List Expr → List Float
  | [] => []
  | e :: es => e.numbers ++ allNumbers es

end

mutual

/-- The tree without its parentheses. -/
def bare : Expr → Expr
  | .parens inner => inner.bare
  | .unary side op operand => .unary side op operand.bare
  | .binary left op right => .binary left.bare op right.bare
  | .assign target value => .assign target value.bare
  | .call name args => .call name (allBare args)
  | .collection kind elements => .collection kind (allBare elements)
  | .number x => .number x
  | .constant kind => .constant kind
  | .variable name => .variable name

/-- Several trees without their parentheses. -/
def allBare : List Expr → List Expr
  | [] => []
  | e :: es => e.bare :: allBare es

end

/-- A tree in parentheses, when they are needed. -/
def parensIf (needed : Bool) (e : Expr) : Expr :=
  if needed then .parens e else e

mutual

/-- The tree with parentheses around the operands that are shown in them. -/
def wrapped : Expr → Expr
  | .parens inner => .parens inner.wrapped
  | .unary .before op operand =>
    .unary .before op (parensIf (operand.binding ≤ beforeBinding) operand.wrapped)
  | .unary .after op operand =>
    .unary .after op (parensIf (operand.binding ≤ afterBinding) operand.wrapped)
  | .binary left op right =>
    .binary (parensIf (left.binding < op.precedence) left.wrapped) op
      (parensIf (right.binding ≤ op.precedence) right.wrapped)
  | .assign target value => .assign target value.wrapped
  | .call name args => .call name (allWrapped args)
  | .collection kind elements => .collection kind (allWrapped elements)
  | .number x => .number x
  | .constant kind => .constant kind
  | .variable name => .variable name

/-- Several trees with parentheses around the operands that are shown in them. -/
def allWrapped : List Expr → List Expr
  | [] => []
  | e :: es => e.wrapped :: allWrapped es

end

theorem mem_allNumbers {x : Float} {es : List Expr} :
    x ∈ allNumbers es ↔ ∃ e ∈ es, x ∈ e.numbers := by
  induction es with
  | nil => simp [allNumbers]
  | cons e es ih => simp [allNumbers, ih]

theorem length_allWrapped (es : List Expr) : (allWrapped es).length = es.length := by
  induction es with
  | nil => rfl
  | cons e es ih => rw [allWrapped, List.length_cons, List.length_cons, ih]

/-! ## The tree is the same but for parentheses -/

@[simp] theorem bare_parensIf (needed : Bool) (e : Expr) : (parensIf needed e).bare = e.bare := by
  cases needed <;> rfl

mutual

theorem bare_wrapped : (e : Expr) → e.wrapped.bare = e.bare
  | .number _ | .constant _ | .variable _ => rfl
  | .parens inner => by rw [wrapped, bare, bare, bare_wrapped inner]
  | .unary .before op operand | .unary .after op operand => by
    rw [wrapped, bare, bare, bare_parensIf, bare_wrapped operand]
  | .binary left op right => by
    rw [wrapped, bare, bare, bare_parensIf, bare_parensIf, bare_wrapped left, bare_wrapped right]
  | .assign target value => by rw [wrapped, bare, bare, bare_wrapped value]
  | .call name args => by rw [wrapped, bare, bare, allBare_allWrapped args]
  | .collection kind elements => by rw [wrapped, bare, bare, allBare_allWrapped elements]

theorem allBare_allWrapped : (es : List Expr) → allBare (allWrapped es) = allBare es
  | [] => rfl
  | e :: es => by rw [allWrapped, allBare, allBare, bare_wrapped e, allBare_allWrapped es]

end

/-! ## The text is the same -/

theorem binding_wrapped (e : Expr) : e.wrapped.binding = e.binding := by
  cases e with
  | unary side op operand => cases side <;> rfl
  | _ => rfl

theorem chars_parensIf (needed : Bool) (e : Expr) :
    (parensIf needed e).chars = wrapIf needed e.chars := by
  cases needed with
  | false => rfl
  | true => rw [parensIf, if_pos rfl, chars, wrapIf, if_pos rfl]

/-- An operand that has the parentheses it is shown in is shown without further ones. -/
theorem wrapIf_parensIf (loose : Nat → Bool) (hatom : loose atomBinding = false) {e : Expr}
    (hchars : e.wrapped.chars = e.chars) :
    wrapIf (loose (parensIf (loose e.binding) e.wrapped).binding)
      (parensIf (loose e.binding) e.wrapped).chars = wrapIf (loose e.binding) e.chars := by
  have hneeded : loose (parensIf (loose e.binding) e.wrapped).binding = false := by
    cases hloose : loose e.binding with
    | false =>
      rw [← binding_wrapped] at hloose
      exact hloose
    | true => exact hatom
  rw [hneeded, chars_parensIf, hchars]
  rfl

theorem listChars_cons_cons (e d : Expr) (es : List Expr) :
    listChars (e :: d :: es) = e.chars ++ ',' :: ' ' :: listChars (d :: es) := by
  rw [listChars]
  simp

mutual

theorem chars_wrapped : (e : Expr) → e.wrapped.chars = e.chars
  | .number _ | .constant _ | .variable _ => rfl
  | .parens inner => by rw [wrapped, chars, chars, chars_wrapped inner]
  | .unary .before op operand => by
    rw [wrapped, chars, chars, wrapIf_parensIf (fun b => b ≤ beforeBinding) rfl (chars_wrapped operand)]
  | .unary .after op operand => by
    rw [wrapped, chars, chars, wrapIf_parensIf (fun b => b ≤ afterBinding) rfl (chars_wrapped operand)]
  | .binary left op right => by
    have hle : op.precedence < atomBinding := Nat.lt_of_le_of_lt op.precedence_le (by decide)
    rw [wrapped, chars, chars,
      wrapIf_parensIf (fun b => b < op.precedence) (decide_eq_false (Nat.lt_asymm hle))
        (chars_wrapped left),
      wrapIf_parensIf (fun b => b ≤ op.precedence) (decide_eq_false (Nat.not_le_of_lt hle))
        (chars_wrapped right)]
  | .assign target value => by rw [wrapped, chars, chars, chars_wrapped value]
  | .call name args => by rw [wrapped, chars, chars, listChars_allWrapped args]
  | .collection .vector elements | .collection .tuple elements => by
    rw [wrapped, chars, chars, listChars_allWrapped elements]

theorem listChars_allWrapped : (es : List Expr) → listChars (allWrapped es) = listChars es
  | [] => rfl
  | [e] => by rw [allWrapped, allWrapped, listChars, listChars, chars_wrapped e]
  | e :: d :: es => by
    have hrest := listChars_allWrapped (d :: es)
    rw [allWrapped, allWrapped, listChars_cons_cons, listChars_cons_cons, chars_wrapped e, ← allWrapped,
      hrest]

end

end Formula.Expr
