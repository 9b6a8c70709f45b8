import Formula.Pattern.Machine

/-!
# Searching with patterns

A search follows all ways to match at once, one character at a time. `hits` only asks whether there
is a match; `find?` finds the leftmost match and, among those that start there, the preferred one,
with the positions of its marks.
-/

set_option autoImplicit false

namespace Formula.Machine

/-- The moves available after `before`: those of the matches under way, and those of a match that
begins here. -/
def movesAt (m : Machine) (before : Option Char) (underWay : List Nat) : List Move :=
  underWay.foldr (fun n moves => m.movesAfter n ++ moves) (m.beginning before)

/-- Whether some move ends a match between two neighbouring characters. -/
def ends (before after : Option Char) (moves : List Move) : Bool :=
  moves.any fun v => v.isEnd && v.enabled before after

/-- The matches under way after consuming `c`. -/
def advance (before : Option Char) (c : Char) (moves : List Move) : List Nat :=
  (moves.filterMap fun v => if v.enabled before (some c) then v.consume? c else none).eraseDups

/-- For every cut of the rest of a text, from the left: whether there is a match in the text before
the cut, taken as a text of its own. `seen` says that there was one ending earlier, with the
characters after it in view. -/
def hitsFrom (m : Machine) :
    (before : Option Char) → (underWay : List Nat) → (seen : Bool) → List Char → List Bool
  | before, underWay, seen, [] =>
    [seen || ends before none (m.movesAt before underWay)]
  | before, underWay, seen, c :: cs =>
    let moves := m.movesAt before underWay
    (seen || ends before none moves) ::
      m.hitsFrom (some c) (advance before c moves) (seen || ends before (some c) moves) cs

/-- For every cut of a text, from the left: whether the text before the cut, taken as a text of its
own, contains a match. -/
def hits (m : Machine) (text : List Char) : List Bool :=
  m.hitsFrom none [] false text

/-- Whether a text contains a match. -/
def occursIn (m : Machine) (text : List Char) : Bool :=
  (m.hits text).getLastD false

/-- The greatest length after which a match ends, among the matches in the rest of a text. -/
def reachFrom (m : Machine) :
    (before : Option Char) → (underWay : List Nat) → (position : Nat) → (best : Option Nat) →
      List Char → Option Nat
  | before, underWay, position, best, [] =>
    if ends before none (m.movesAt before underWay) then some position else best
  | before, underWay, position, best, c :: cs =>
    match m.movesAt before underWay with
    | [] => if m.later.isEmpty then best else m.reachFrom (some c) [] (position + 1) best cs
    | moves =>
      let best := if ends before (some c) moves then some position else best
      m.reachFrom (some c) (advance before c moves) (position + 1) best cs

/-- The number of characters up to the last end of a match. -/
def reach? (m : Machine) (text : List Char) : Option Nat :=
  m.reachFrom none [] 0 none text

/-- The greatest length, from `position` on, of a text that contains a match: of the texts before the
cuts of the rest, each taken as a text of its own. Empty texts do not count. -/
def lastHitFrom (m : Machine) :
    (before : Option Char) → (underWay : List Nat) → (position : Nat) → (best : Option Nat) →
      List Char → Option Nat
  | before, underWay, position, best, text =>
    let moves := m.movesAt before underWay
    let best := if 0 < position && ends before none moves then some position else best
    match text with
    | [] => best
    | c :: cs =>
      if ends before (some c) moves then some (position + 1 + cs.length)
      else
        match advance before c moves with
        | [] =>
          if m.later.isEmpty then best else m.lastHitFrom (some c) [] (position + 1) best cs
        | underWay => m.lastHitFrom (some c) underWay (position + 1) best cs

/-- The length of the longest text at the start of a text, not the empty one, that as a text of its own
contains a match. -/
def lastHit? (m : Machine) (text : List Char) : Option Nat :=
  m.lastHitFrom none [] 0 none text

/-! ## Preferred matches -/

/-- A match under way: where it began, the marks passed, latest first, and the set that consumed the
last character. -/
structure Thread where
  start : Nat
  marks : List (Mark × Nat)
  set : Nat
  deriving DecidableEq, Repr

/-- A match: its first byte, the byte after it, and the marks passed, latest first. -/
structure Match where
  start : Nat
  stop : Nat
  marks : List (Mark × Nat)
  deriving DecidableEq, Repr

/-- The span of a named group, if the match passed through it. -/
def Match.span? (m : Match) (name : List Char) : Option (Nat × Nat) :=
  match m.marks.find? fun (k, _) => k = ⟨name, true⟩,
    m.marks.find? fun (k, _) => k = ⟨name, false⟩ with
  | some (_, start), some (_, stop) => some (start, stop)
  | _, _ => none

/-- A match that began at `start` and passed `marks`, about to make a move. -/
structure Choice where
  start : Nat
  marks : List (Mark × Nat)
  move : Move

/-- Adds a thread unless an earlier, hence preferred, one stands at the same set. -/
def addThread (ts : List Thread) (t : Thread) : List Thread :=
  if ts.any fun u => u.set = t.set then ts else ts ++ [t]

/-- The moves that the threads can make, and after them those of a match that begins at
`position`. -/
def choices (m : Machine) (threads : List Thread) (position : Nat) (begun : List Move) :
    List Choice :=
  (threads.flatMap fun t => (m.movesAfter t.set).map fun v => ⟨t.start, t.marks, v⟩) ++
    begun.map fun v => ⟨position, [], v⟩

/-- The marks after making the move at a position. -/
def Choice.record (o : Choice) (position : Nat) : List (Mark × Nat) :=
  (o.move.marks.map (·, position)).reverse ++ o.marks

/-- Follows the threads over the rest of a text. `best` is the preferred match so far: it beats all
threads that come after it, so no further match is begun once there is one. -/
def findFrom (m : Machine) :
    (before : Option Char) → (position : Nat) → List Thread → (best : Option Match) →
      List Char → Option Match
  | before, position, threads, best, text =>
    let begun := if best.isNone then m.beginning before else []
    let live := (m.choices threads position begun).filter fun o =>
      o.move.enabled before text.head?
    let best :=
      match live.find? fun o => o.move.isEnd with
      | some o => some ⟨o.start, position, o.record position⟩
      | none => best
    match text with
    | [] => best
    | c :: cs =>
      let next := (live.takeWhile fun o => !o.move.isEnd).filterMap fun o =>
        (o.move.consume? c).map fun n => (⟨o.start, o.record position, n⟩ : Thread)
      let threads := next.foldl addThread []
      if threads.isEmpty && (best.isSome || m.later.isEmpty) then best
      else m.findFrom (some c) (position + c.utf8Size) threads best cs

/-- The leftmost match of a text that continues one ending in `before`; the rest starts at byte
`position`. -/
def findAfter? (m : Machine) (before : Option Char) (position : Nat) (text : List Char) :
    Option Match :=
  m.findFrom before position [] none text

/-- The leftmost match of a text, and of those the preferred one. -/
def find? (m : Machine) (text : List Char) : Option Match :=
  m.findAfter? none 0 text

/-- Drops characters until byte `target`, keeping the last one dropped. -/
def dropTo (target : Nat) : Option Char → Nat → List Char → Option Char × List Char
  | before, _, [] => (before, [])
  | before, position, c :: cs =>
    if target ≤ position then (before, c :: cs)
    else dropTo target (some c) (position + c.utf8Size) cs

/-- The last of the matches that follow one another without overlapping. The search goes on where the
last match ended; an empty match just there is passed over by one character. `rounds` bounds the
number of searches. -/
def lastFrom (m : Machine) :
    (rounds : Nat) → (before : Option Char) → (position : Nat) → (last : Option Match) →
      List Char → Option Match
  | 0, _, _, last, _ => last
  | rounds + 1, before, position, last, text =>
    match m.findAfter? before position text with
    | none => last
    | some found =>
      if found.start = found.stop ∧ last.any (fun l => l.stop = found.stop) then
        match text with
        | [] => last
        | c :: cs => m.lastFrom rounds (some c) (position + c.utf8Size) last cs
      else
        let (before, rest) := dropTo found.stop before position text
        m.lastFrom rounds before found.stop (some found) rest

/-- The last of the matches in a text that follow one another without overlapping. -/
def findLast? (m : Machine) (text : List Char) : Option Match :=
  m.lastFrom (2 * text.length + 2) none 0 none text

end Formula.Machine
