import Formula.Proofs.Reader.ChainSearch

/-!
# Spellings

A spelling stands for one operator or constant, and it is written where the grammar looks for it: those
of binary operators separate operands and have the level of their operator, those of unary operators
stand in front of or behind an operand, and those of constants are no names.
-/

set_option autoImplicit false

namespace Formula

open Lexeme

/-- The texts that a binary operator is read from. -/
def BinaryOperator.spellings (op : BinaryOperator) : List (List Char) :=
  (op.symbol :: op.variants).map String.toList

/-- The texts that a constant is read from. -/
def Constant.spellings (kind : Constant) : List (List Char) :=
  (kind.symbol :: kind.variants).map String.toList

namespace BinaryOperator

theorem mem_all (op : BinaryOperator) : op ∈ all := by
  cases op <;> decide

theorem ofSymbol?_of_mem {op : BinaryOperator} {s : List Char} (h : s ∈ op.spellings) :
    ofSymbol? s = some op := by
  have hall : ∀ op ∈ all, ∀ s ∈ op.spellings, ofSymbol? s = some op := by decide
  exact hall op op.mem_all s h

theorem mem_separators {op : BinaryOperator} {s : List Char} (h : s ∈ op.spellings) :
    s ∈ separators := by
  have hall : ∀ op ∈ all, ∀ s ∈ op.spellings, s ∈ separators := by decide
  exact hall op op.mem_all s h

theorem level_of_mem {op : BinaryOperator} {s : List Char} (h : s ∈ op.spellings) :
    level s = op.precedence := by
  rw [level, ofSymbol?_of_mem h]
  rfl

theorem symbol_mem (op : BinaryOperator) : op.symbol.toList ∈ op.spellings :=
  List.mem_cons_self

theorem precedence_pos (op : BinaryOperator) : 0 < op.precedence := by
  cases op <;> decide

theorem precedence_le (op : BinaryOperator) : op.precedence ≤ 8 := by
  cases op <;> decide

end BinaryOperator

theorem Constant.mem_all (kind : Constant) : kind ∈ all := by
  cases kind <;> decide

theorem Constant.ofSymbol?_of_mem {kind : Constant} {s : List Char} (h : s ∈ kind.spellings) :
    ofSymbol? s = some kind := by
  have hall : ∀ kind ∈ all, ∀ s ∈ kind.spellings, ofSymbol? s = some kind := by decide
  exact hall kind kind.mem_all s h

theorem Constant.mem_lang_of_mem {kind : Constant} {s : List Char} (h : s ∈ kind.spellings) :
    s ∈ Lexeme.constant.lang := by
  have hall : ∀ kind ∈ all, ∀ s ∈ kind.spellings, s ∈ constantWords := by decide
  exact mem_constant.2 (hall kind kind.mem_all s h)

/-- A text that is no spelling of a constant is none of the grammar's constants. -/
theorem Constant.not_mem_lang {s : List Char} (h : ofSymbol? s = none) : s ∉ Lexeme.constant.lang := by
  have hall : ∀ s ∈ constantWords, ofSymbol? s ≠ none := by decide
  exact fun hs => hall s (mem_constant.1 hs) h

theorem Constant.symbol_mem (kind : Constant) : kind.symbol.toList ∈ kind.spellings :=
  List.mem_cons_self

theorem letter_mem_name {c : Char} (h : letter.contains c = true) : [c] ∈ name.lang :=
  ⟨[c], mem_plus_set.2 ⟨by simp, by simpa using h⟩, [], mem_lang_star.2 (Language.nil_mem_kstar _), rfl⟩

namespace UnaryOperator

variable {op : UnaryOperator} {side : Side}

/-- An operator that stands on a side of its operand is read from its symbol there. -/
theorem ofSymbol?_symbol (h : op.standsOn side = true) :
    ofSymbol? side op.symbol.toList = some op := by
  revert h
  cases side <;> cases op <;> decide

theorem standsOn_of_ofSymbol? {s : List Char} (h : ofSymbol? side s = some op) :
    op.standsOn side = true := by
  have hfound := List.find?_some h
  rw [Bool.and_eq_true] at hfound
  exact hfound.1

theorem symbol_mem_fronts (h : op.standsOn .before = true) :
    op.symbol.toList ∈ [] :: frontWords := by
  revert h
  cases op <;> decide

theorem symbol_mem_backs (h : op.standsOn .after = true) :
    op.symbol.toList ∈ [] :: backWords := by
  revert h
  cases op <;> decide

theorem symbol_ne_nil (op : UnaryOperator) : op.symbol.toList ≠ [] := by
  cases op <;> decide

end UnaryOperator

end Formula
