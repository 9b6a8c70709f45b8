/-!
# Running rewrites

A rewrite is a step that may change a state: it gives a new value, or nothing when the value is fully
reduced. A run repeats it up to a number of times.
-/

set_option autoImplicit false

namespace Formula

/-- A run that did not settle: how many rewrites it was allowed, and the value it reached. -/
structure Unsettled (α : Type) where
  limit : Nat
  last : α
  deriving DecidableEq, Repr

/-- Repeats a rewrite until it gives nothing or an equal value, at most `left` more times. When none is
left, one more rewrite is looked at to see whether the value has settled; its effect on the state
stays. -/
def settle {σ α : Type} (same : α → α → Bool) (step : α → σ → Option (α × σ)) (limit : Nat) :
    (left : Nat) → α → σ → Except (Unsettled α) α × σ
  | left, current, state =>
    match step current state with
    | none => (.ok current, state)
    | some (next, state) =>
      if same next current then (.ok current, state)
      else
        match left with
        | 0 => (.error ⟨limit, current⟩, state)
        | left + 1 => settle same step limit left next state

/-- The values of a run one by one, up to a number of rewrites, the first one left out; and whether
it settled. -/
def trace {σ α : Type} (same : α → α → Bool) (step : α → σ → α × σ) :
    (limit : Nat) → α → σ → List α × Bool × σ
  | 0, _, state => ([], false, state)
  | limit + 1, current, state =>
    let (next, state) := step current state
    if same next current then ([], true, state)
    else
      let (values, settled, state) := trace same step limit next state
      (next :: values, settled, state)

end Formula
