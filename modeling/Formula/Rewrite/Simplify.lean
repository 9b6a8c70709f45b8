import Formula.Expr.Printer
import Formula.Rewrite.Fold
import Formula.Rewrite.Run

/-!
# Simplification

Symbolic rewriting: operators on numbers and collections fold, and parentheses around what needs none
disappear. Variables, constants and calls stay. A rewrite reduces the leftmost innermost place.
-/

set_option autoImplicit false

namespace Formula

namespace Expr

mutual

/-- One symbolic rewrite, if any is possible. -/
def simplifyStep? : Expr → Option Expr
  | .number _ | .constant _ | .variable _ => none
  | .parens inner =>
    match simplifyStep? inner with
    | some inner => some (.parens inner)
    | none => if inner.isAtomic || inner.asNumber?.isSome then some inner else none
  | .unary side op operand =>
    match simplifyStep? operand with
    | some operand => some (.unary side op operand)
    | none => foldUnary? side op operand
  | .binary left op right =>
    match simplifyStep? left with
    | some left => some (.binary left op right)
    | none =>
      match simplifyStep? right with
      | some right => some (.binary left op right)
      | none => foldBinary? false left op right
  | .assign target value => (simplifyStep? value).map (.assign target)
  | .call name args => (simplifyFirst? args).map (.call name)
  | .collection kind elements => (simplifyFirst? elements).map (.collection kind)

/-- One rewrite in the first element of a list that admits one. -/
def simplifyFirst? : List Expr → Option (List Expr)
  | [] => none
  | e :: es =>
    match simplifyStep? e with
    | some e => some (e :: es)
    | none => (simplifyFirst? es).map (e :: ·)

end

/-- One symbolic rewrite; a tree without one is left as it is. -/
def simplifyStep (e : Expr) : Expr :=
  e.simplifyStep?.getD e

end Expr

/-- How many rewrites a run may make unless a context says otherwise. -/
def defaultMaxIterations : Nat := 10000

/-- The message for a run that did not settle. -/
def Unsettled.message (u : Unsettled Expr) : String :=
  "Reduction did not settle after " ++ toString u.limit ++ " steps, last expression: " ++
    u.last.text ++ "."

/-- Rewrites symbolically until nothing changes. -/
def Expr.simplify (e : Expr) : Except (Unsettled Expr) Expr :=
  (settle Expr.same (fun e (_ : Unit) => e.simplifyStep?.map (·, ())) defaultMaxIterations
    defaultMaxIterations e ()).1

end Formula
