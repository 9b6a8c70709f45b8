import Formula.Expr.Basic
import Formula.Proofs.Reader.Spellings

/-!
# Trees by precedence

`Expr.group` puts operands and operators together from left to right: each operator is attached to the
right edge of the tree so far, above all that binds at least as tightly. The tree is the one in which
operators are grouped by precedence, and to the left among those of the same precedence
(`Expr.eq_group_iff`). Its root is the last of the loosest operators (`Expr.group_append`).
-/

set_option autoImplicit false

namespace Formula

/-- Attaches an operator and its right operand to the right edge of a tree, below the operators that
bind more loosely. -/
def Expr.attach : Expr → BinaryOperator → Expr → Expr
  | .binary l o r, op, right =>
    if o.precedence < op.precedence then .binary l o (r.attach op right)
    else .binary (.binary l o r) op right
  | e, op, right => .binary e op right

/-- The tree of operands and operators, from left to right. -/
def Expr.group (first : Expr) (rest : List (BinaryOperator × Expr)) : Expr :=
  rest.foldl (fun e link => e.attach link.1 link.2) first

namespace Expr

/-- How tightly the operator at the root binds; a leaf binds tightest of all. -/
def rootPrecedence : Expr → Nat
  | .binary _ op _ => op.precedence
  | _ => 9

theorem attach_of_le {op : BinaryOperator} {right e : Expr} (h : op.precedence ≤ e.rootPrecedence) :
    e.attach op right = .binary e op right := by
  cases e with
  | binary l o r => exact if_neg (Nat.not_lt.2 h)
  | _ => rfl

theorem attach_of_lt {l r right : Expr} {o op : BinaryOperator} (h : o.precedence < op.precedence) :
    (Expr.binary l o r).attach op right = .binary l o (r.attach op right) :=
  if_pos h

theorem le_rootPrecedence_attach {op : BinaryOperator} {right e : Expr} {n : Nat}
    (h : n ≤ e.rootPrecedence) (hop : n ≤ op.precedence) : n ≤ (e.attach op right).rootPrecedence := by
  cases e with
  | binary l o r =>
    rw [attach]
    split
    · exact h
    · exact hop
  | _ => exact hop

theorem le_rootPrecedence_group {first : Expr} {rest : List (BinaryOperator × Expr)} {n : Nat}
    (h : n ≤ first.rootPrecedence) (hrest : ∀ link ∈ rest, n ≤ link.1.precedence) :
    n ≤ (group first rest).rootPrecedence := by
  induction rest generalizing first with
  | nil => exact h
  | cons link rest ih =>
    exact ih (le_rootPrecedence_attach h (hrest link List.mem_cons_self))
      fun link hlink => hrest link (List.mem_cons_of_mem _ hlink)

theorem group_binary {l r : Expr} {op : BinaryOperator} {rest : List (BinaryOperator × Expr)}
    (h : ∀ link ∈ rest, op.precedence < link.1.precedence) :
    group (.binary l op r) rest = .binary l op (group r rest) := by
  induction rest generalizing r with
  | nil => rfl
  | cons link rest ih =>
    rw [group, List.foldl_cons, attach_of_lt (h link List.mem_cons_self)]
    exact ih fun link hlink => h link (List.mem_cons_of_mem _ hlink)

/-- The last of the loosest operators is at the root, with what stands before it on its left and what
stands behind it on its right. -/
theorem group_append {first e : Expr} {before after : List (BinaryOperator × Expr)}
    {op : BinaryOperator} (hfirst : op.precedence ≤ first.rootPrecedence)
    (hbefore : ∀ link ∈ before, op.precedence ≤ link.1.precedence)
    (hafter : ∀ link ∈ after, op.precedence < link.1.precedence) :
    group first (before ++ (op, e) :: after) = .binary (group first before) op (group e after) := by
  have happend : group first (before ++ (op, e) :: after) =
      group ((group first before).attach op e) after := List.foldl_append
  rw [happend, attach_of_le (le_rootPrecedence_group hfirst hbefore), group_binary hafter]

/-! ### The tree by its shape -/

/-- The operands of a tree of binary operators, from left to right, with the operators between them. -/
def operands : Expr → Expr × List (BinaryOperator × Expr)
  | .binary l op r => (l.operands.1, l.operands.2 ++ (op, r.operands.1) :: r.operands.2)
  | e => (e, [])

/-- On the left of an operator nothing binds more loosely, on its right nothing as loosely. -/
def Grouped : Expr → Prop
  | .binary l op r => l.Grouped ∧ r.Grouped ∧ op.precedence ≤ l.rootPrecedence ∧
      op.precedence < r.rootPrecedence
  | _ => True

theorem rootPrecedence_operands : (e : Expr) → e.operands.1.rootPrecedence = 9
  | .binary l _ _ => rootPrecedence_operands l
  | .number _ | .constant _ | .variable _ | .parens _ | .unary .. | .assign .. | .call ..
  | .collection .. => rfl

theorem Grouped.le_precedence : {e : Expr} → e.Grouped →
    ∀ link ∈ e.operands.2, e.rootPrecedence ≤ link.1.precedence
  | .binary l op r, ⟨hl, hr, hle, hlt⟩, link, hlink => by
    rw [operands, List.mem_append, List.mem_cons] at hlink
    rcases hlink with hlink | rfl | hlink
    · exact Nat.le_trans hle (hl.le_precedence link hlink)
    · exact Nat.le_refl _
    · exact Nat.le_trans (Nat.le_of_lt hlt) (hr.le_precedence link hlink)

/-- A tree whose operators are grouped by precedence is the tree of its operands. -/
theorem Grouped.eq_group : {e : Expr} → e.Grouped → e = group e.operands.1 e.operands.2
  | .binary l op r, ⟨hl, hr, hle, hlt⟩ => by
    have hfirst : op.precedence ≤ l.operands.1.rootPrecedence := by
      rw [rootPrecedence_operands]
      exact Nat.le_succ_of_le op.precedence_le
    rw [operands, group_append hfirst (fun link hlink => Nat.le_trans hle (hl.le_precedence link hlink))
      (fun link hlink => Nat.lt_of_lt_of_le hlt (hr.le_precedence link hlink)), ← hl.eq_group,
      ← hr.eq_group]
  | .number _, _ | .constant _, _ | .variable _, _ | .parens _, _ | .unary .., _ | .assign .., _
  | .call .., _ | .collection .., _ => rfl

theorem grouped_of_leaf {e : Expr} (h : e.rootPrecedence = 9) : e.Grouped ∧ e.operands = (e, []) := by
  cases e with
  | binary l op r => exact absurd h (Nat.ne_of_lt (Nat.lt_succ_of_le op.precedence_le))
  | _ => exact ⟨trivial, rfl⟩

/-- Attaching an operator keeps a tree grouped, and puts its operand behind the others. -/
theorem Grouped.attach {op : BinaryOperator} {right : Expr} (hright : right.rootPrecedence = 9) :
    (e : Expr) → e.Grouped → (e.attach op right).Grouped ∧
      (e.attach op right).operands = (e.operands.1, e.operands.2 ++ [(op, right)])
  | e, h => by
    obtain ⟨hgrouped, hoperands⟩ := grouped_of_leaf hright
    by_cases hle : op.precedence ≤ e.rootPrecedence
    · rw [attach_of_le hle, operands, hoperands]
      refine ⟨⟨h, hgrouped, hle, ?_⟩, rfl⟩
      rw [hright]
      exact Nat.lt_succ_of_le op.precedence_le
    · cases e with
      | binary l o r =>
        obtain ⟨hl, hr, hlel, hlt⟩ := h
        have hop : o.precedence < op.precedence := Nat.lt_of_not_le hle
        obtain ⟨hattach, hrest⟩ := Grouped.attach hright r hr
        rw [attach_of_lt hop, operands, hrest, operands]
        exact ⟨⟨hl, hattach, hlel, le_rootPrecedence_attach hlt hop⟩, by simp⟩
      | _ => exact absurd (Nat.le_succ_of_le op.precedence_le) hle

theorem grouped_group {first : Expr} {rest : List (BinaryOperator × Expr)} (hfirst : first.Grouped)
    (hrest : ∀ link ∈ rest, link.2.rootPrecedence = 9) : (group first rest).Grouped ∧
      (group first rest).operands = (first.operands.1, first.operands.2 ++ rest) := by
  induction rest generalizing first with
  | nil => exact ⟨hfirst, by simp [group]⟩
  | cons link rest ih =>
    obtain ⟨hattach, hoperands⟩ := Grouped.attach (hrest link List.mem_cons_self) first hfirst
    obtain ⟨hgroup, hall⟩ := ih hattach fun link hlink => hrest link (List.mem_cons_of_mem _ hlink)
    refine ⟨hgroup, hall.trans ?_⟩
    rw [hoperands]
    simp

/-- The tree of operands and operators is the one tree of them that is grouped by precedence, and to the
left among operators of the same precedence. -/
theorem eq_group_iff {e first : Expr} {rest : List (BinaryOperator × Expr)}
    (hfirst : first.rootPrecedence = 9) (hrest : ∀ link ∈ rest, link.2.rootPrecedence = 9) :
    e = group first rest ↔ e.Grouped ∧ e.operands = (first, rest) := by
  obtain ⟨hleaf, hoperands⟩ := grouped_of_leaf hfirst
  constructor
  · rintro rfl
    have hgroup := grouped_group hleaf hrest
    rw [hoperands] at hgroup
    exact hgroup
  · rintro ⟨hgrouped, he⟩
    rw [hgrouped.eq_group, he]

example : group (.variable "a") [(.sub, .variable "b"), (.pow, .variable "c"), (.sub, .variable "d")] =
    .binary (.binary (.variable "a") .sub (.binary (.variable "b") .pow (.variable "c"))) .sub
      (.variable "d") := rfl

end Expr

end Formula
