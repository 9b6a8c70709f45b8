import Formula.Pattern.Basic

/-!
# The machine of a pattern

The character sets of a pattern are numbered from the left. A match under way is described by the
number of the set that consumed the last character, for this determines what can come next: `follows`
lists, for every set, the moves after it, and `moves` lists those at the start. All lists are ordered
by preference.

A round of a repetition can be followed by another one, of which only the moves that consume a
character count, or by the end of the repetition.
-/

set_option autoImplicit false

namespace Formula

/-- What a match can do next: provided that the guards hold here, record the marks here, and then
either end (no target) or consume a character of a numbered set. -/
structure Move where
  guards : List Assertion
  marks : List Mark
  target : Option (Nat × CharSet)
  deriving DecidableEq, Repr

namespace Move

/-- The move that ends the match. -/
def stop : Move := ⟨[], [], none⟩

/-- Whether the move ends the match. -/
def isEnd (m : Move) : Bool :=
  m.target.isNone

/-- Whether the guards hold between two neighbouring characters. -/
def enabled (before after : Option Char) (m : Move) : Bool :=
  m.guards.all (Assertion.holds before after)

/-- The set that consumes `c`, if the move consumes it. -/
def consume? (m : Move) (c : Char) : Option Nat :=
  match m.target with
  | some (n, s) => if s.contains c then some n else none
  | none => none

/-- The move after another one that ends. -/
def after (first : Move) (m : Move) : Move :=
  { m with guards := first.guards ++ m.guards, marks := first.marks ++ m.marks }

/-- The moves with others in the place of those that end. -/
def through (next : List Move) (ms : List Move) : List Move :=
  ms.flatMap fun m => if m.isEnd then next.map m.after else [m]

/-- The moves after a round of a repetition that starts with the moves `first`. -/
def again (greedy : Bool) (first : List Move) : List Move :=
  let round := first.filter fun m => !m.isEnd
  if greedy then round ++ [stop] else stop :: round

end Move

namespace Pattern

/-- How many character sets a pattern has. -/
def sets : Pattern → Nat
  | .set _ => 1
  | .seq p q => p.sets + q.sets
  | .alt p q => p.sets + q.sets
  | .plus _ p => p.sets
  | _ => 0

/-- The moves at the start of a pattern, whose sets are numbered from `base`. -/
def moves (base : Nat) : Pattern → List Move
  | .empty => [.stop]
  | .set s => [⟨[], [], some (base, s)⟩]
  | .assert a => [⟨[a], [], none⟩]
  | .mark m => [⟨[], [m], none⟩]
  | .seq p q => Move.through (q.moves (base + p.sets)) (p.moves base)
  | .alt p q => p.moves base ++ q.moves (base + p.sets)
  | .plus _ p => p.moves base

/-- For every set of a pattern, numbered from `base`: the moves after it. -/
def follows (base : Nat) : Pattern → List (List Move)
  | .set _ => [[.stop]]
  | .seq p q =>
    (p.follows base).map (Move.through (q.moves (base + p.sets))) ++ q.follows (base + p.sets)
  | .alt p q => p.follows base ++ q.follows (base + p.sets)
  | .plus greedy p => (p.follows base).map (Move.through (Move.again greedy (p.moves base)))
  | _ => []

end Pattern

/-- A pattern prepared for searching. -/
structure Machine where
  /-- The moves of a match that begins at the start of a text. -/
  start : List Move
  /-- The moves of a match that begins later: those without a guard that holds at the start only. -/
  later : List Move
  /-- The moves after each set. -/
  next : Array (List Move)

namespace Machine

/-- The machine of a pattern. -/
def of (p : Pattern) : Machine :=
  let start := p.moves 0
  { start
    later := start.filter fun m => Assertion.textStart ∉ m.guards
    next := (p.follows 0).toArray }

/-- The moves after a set. -/
def movesAfter (m : Machine) (n : Nat) : List Move :=
  m.next.getD n []

/-- The moves of a match that begins after the character `before`, or at the start of a text. -/
def beginning (m : Machine) (before : Option Char) : List Move :=
  if before.isNone then m.start else m.later

end Machine

end Formula
