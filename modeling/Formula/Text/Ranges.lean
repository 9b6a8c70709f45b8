/-!
# Sets of code points given by ascending ranges
-/

set_option autoImplicit false

namespace Formula.Text

/-- Whether `n` lies in one of the ascending ranges (both ends included). The search stops at the
first range that begins above `n`. -/
def inRanges : List (Nat × Nat) → Nat → Bool
  | [], _ => false
  | (lo, hi) :: rest, n =>
    if n < lo then false else if n ≤ hi then true else inRanges rest n

end Formula.Text
