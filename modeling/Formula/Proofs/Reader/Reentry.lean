import Formula.Proofs.Reader.Step

/-!
# Reading within reading

A text is read by reading texts within it. `Grammar.readNoting` reads as `Grammar.readWithin` does and
also notes each text that is read while another one is (`Reentry`); what is noted changes neither the
result nor what is remembered (`noted_readNoting`). In the default grammar every text that is read on
the way is a stretch of the first, with fewer characters besides blanks than the one it is read for. So
no error is about anything but a stretch of the text, and a limit on depth above the number of its
characters besides blanks is never reached (`Reader.reentries_within`).
-/

set_option autoImplicit false

namespace Formula

/-! ## Noting what is read -/

/-- A text is read while another one is. -/
structure Reentry where
  outer : List Char
  inner : List Char
  deriving DecidableEq, Repr

/-- Reading that remembers results and notes what is read on the way. An error leaves both. -/
abbrev NotingM := ExceptT ReadError (StateM (Cache × List Reentry))

/-- The result of reading, what is remembered then, and what was noted. -/
abbrev NotingM.result {α : Type} (x : NotingM α) (state : Cache × List Reentry) :
    Except ReadError α × Cache × List Reentry :=
  x.run.run state

theorem NotingM.result_bind {α β : Type} (x : NotingM α) (f : α → NotingM β)
    (state : Cache × List Reentry) : NotingM.result (x >>= f) state =
      match NotingM.result x state with
      | (.ok a, state') => NotingM.result (f a) state'
      | (.error e, state') => (.error e, state') := by
  show (match NotingM.result x state with | (r, state') => (ExceptT.bindCont f r).run state') = _
  split
  · next r state' h =>
    rw [h]
    cases r <;> rfl

theorem NotingM.throw_bind {α β : Type} (e : ReadError) (f : α → NotingM β) :
    (throw e >>= f : NotingM β) = throw e := rfl

/-- Reads a text and notes that it is read while another one is. -/
def noting (outer : List Char) (read : List Char → NotingM Expr) (inner : List Char) : NotingM Expr := do
  modify fun (cache, notes) => (cache, notes ++ [⟨outer, inner⟩])
  read inner

theorem noting_result (outer : List Char) (read : List Char → NotingM Expr) (inner : List Char)
    (cache : Cache) (notes : List Reentry) : NotingM.result (noting outer read inner) (cache, notes) =
      NotingM.result (read inner) (cache, notes ++ [⟨outer, inner⟩]) := rfl

/-- Reads a text as `Grammar.readWithin` does, and notes what is read on the way. -/
def Grammar.readNoting (g : Grammar) (limit : Nat) : (levels : Nat) → List Char → NotingM Expr
  | 0, input => do
    match (← get).1.get? (cacheKey input) with
    | some e => pure e
    | none => throw (.tooDeep limit input)
  | levels + 1, input => do
    match (← get).1.get? (cacheKey input) with
    | some e => pure e
    | none =>
      let e ← readStep g (noting input (g.readNoting limit levels)) input
      modify fun (cache, notes) => (cache.insert (cacheKey input) e, notes)
      pure e

theorem readNoting_result {g : Grammar} (limit n : Nat) (p : List Char) (cache : Cache)
    (notes : List Reentry) : NotingM.result (g.readNoting limit n p) (cache, notes) =
      match cache.get? (cacheKey p) with
      | some e => (.ok e, cache, notes)
      | none => match n with
        | 0 => (.error (.tooDeep limit p), cache, notes)
        | n + 1 =>
          match NotingM.result (readStep g (noting p (g.readNoting limit n)) p) (cache, notes) with
          | (.ok e, cache', notes') => (.ok e, cache'.insert (cacheKey p) e, notes')
          | (.error e, state') => (.error e, state') := by
  cases n with
  | zero =>
    rw [Grammar.readNoting, NotingM.result_bind]
    show (NotingM.result (match cache.get? (cacheKey p) with
      | some e => _
      | none => _) (cache, notes)) = _
    cases cache.get? (cacheKey p) <;> rfl
  | succ n =>
    rw [Grammar.readNoting, NotingM.result_bind]
    show (NotingM.result (match cache.get? (cacheKey p) with
      | some e => _
      | none => _) (cache, notes)) = _
    cases cache.get? (cacheKey p) with
    | some e => rfl
    | none =>
      dsimp only
      rw [NotingM.result_bind]
      rcases NotingM.result (readStep g (noting p (g.readNoting limit n)) p) (cache, notes) with
        ⟨_ | e, cache', notes'⟩ <;> rfl

/-! ## What is noted -/

/-- What is read on the way is a stretch of a text, and is within the text it is read for. -/
structure Reentry.Shrinks (text : List Char) (r : Reentry) : Prop where
  stretch : r.inner <:+: text
  within : Text.Within r.inner r.outer

section

variable {α β : Type} {text : List Char}

/-- Noting changes neither the result nor what is remembered, and all that is noted shrinks. -/
def Noted (text : List Char) (x : NotingM α) (y : ReadM α) : Prop :=
  ∀ (cache : Cache) (notes : List Reentry), (∀ r ∈ notes, r.Shrinks text) →
    ∃ notes' : List Reentry, (∀ r ∈ notes', r.Shrinks text) ∧
      NotingM.result x (cache, notes) = ((y.result cache).1, (y.result cache).2, notes')

theorem Noted.bind {x : NotingM α} {y : ReadM α} {f : α → NotingM β} {g : α → ReadM β}
    (hx : Noted text x y) (hf : ∀ a, Noted text (f a) (g a)) : Noted text (x >>= f) (y >>= g) := by
  intro cache notes hnotes
  obtain ⟨notes', hnotes', hresult⟩ := hx cache notes hnotes
  rcases hy : y.result cache with ⟨e | a, cache'⟩
  · refine ⟨notes', hnotes', ?_⟩
    rw [NotingM.result_bind, ReadM.result_bind, hresult, hy]
  · obtain ⟨notes'', hnotes'', hrest⟩ := hf a cache' notes' hnotes'
    refine ⟨notes'', hnotes'', ?_⟩
    rw [NotingM.result_bind, ReadM.result_bind, hresult, hy]
    exact hrest

end

/-- Reading that notes, beside reading. -/
def Simulation.noted (text : List Char) : Simulation NotingM ReadM where
  rel := Noted text
  pure _ := fun _ notes hnotes => ⟨notes, hnotes, rfl⟩
  throw _ := fun _ notes hnotes => ⟨notes, hnotes, rfl⟩
  bind := Noted.bind
  throw_bind_left := NotingM.throw_bind
  throw_bind_right := ReadM.throw_bind

/-- Reading a stretch of a text notes only what shrinks. -/
theorem noted_readNoting {text : List Char} (limit n : Nat) {p : List Char} (hp : p <:+: text) :
    Noted text (Grammar.default.readNoting limit n p) (Grammar.default.readWithin limit n p) := by
  induction n generalizing p with
  | zero =>
    intro cache notes hnotes
    refine ⟨notes, hnotes, ?_⟩
    rw [readNoting_result, readWithin_result]
    cases cache.get? (cacheKey p) <;> rfl
  | succ n ih =>
    have hstep : Noted text (readStep Grammar.default (noting p (Grammar.default.readNoting limit n)) p)
        (readStep Grammar.default (Grammar.default.readWithin limit n) p) := by
      apply (Simulation.noted text).readStep
      intro q hq cache notes hnotes
      have hwithin := within_of_mem_pieces hq
      have hstretch : q <:+: text := hwithin.stretch.trans hp
      rw [noting_result]
      apply ih hstretch cache
      intro r hr
      rcases List.mem_append.1 hr with hr | hr
      · exact hnotes r hr
      · rw [List.mem_singleton.1 hr]
        exact ⟨hstretch, hwithin⟩
    intro cache notes hnotes
    rw [readNoting_result, readWithin_result]
    cases cache.get? (cacheKey p) with
    | some e => exact ⟨notes, hnotes, rfl⟩
    | none =>
      dsimp only
      obtain ⟨notes', hnotes', hresult⟩ := hstep cache notes hnotes
      refine ⟨notes', hnotes', ?_⟩
      rw [hresult]
      rcases (readStep Grammar.default (Grammar.default.readWithin limit n) p).result cache with
        ⟨e | e, cache'⟩ <;> rfl

/-! ## Errors -/

/-- All errors of reading a stretch of a text are about stretches of it. -/
theorem error_stretch {text : List Char} (limit n : Nat) {p : List Char} (hp : p <:+: text) :
    ReadM.Stays (fun _ => True) (fun e => e.input <:+: text)
      (Grammar.default.readWithin limit n p) := by
  refine stays_readWithin_of_levels (T := fun _ => {p | p <:+: text}) ?_ (fun _ _ hp => hp)
    (fun _ hp => hp) (fun _ _ _ _ _ _ => trivial) n hp
  intro _ p hp s hs hpieces
  constructor
  · exact fun q hq => (within_of_mem_pieces (hpieces q hq)).stretch.trans hp
  · intro e he
    rcases hs.eq_fail he with ⟨rfl, -⟩ | ⟨rfl, -⟩
    · exact hp
    · exact hp

/-- With more levels than a text has characters besides blanks, reading it is not given up. -/
theorem not_tooDeep_of_solidCount (limit n : Nat) {p : List Char} (hp : Text.solidCount p < n) :
    ReadM.Stays (fun _ => True) (fun e => e.isTooDeep = false)
      (Grammar.default.readWithin limit n p) := by
  refine stays_readWithin_of_levels (T := fun n => {p | Text.solidCount p < n}) ?_ (fun _ _ _ => rfl)
    ?_ (fun _ _ _ _ _ _ => trivial) n hp
  · intro n p hp s hs hpieces
    constructor
    · intro q hq
      have hlt := (within_of_mem_pieces (hpieces q hq)).lt
      have hcount : Text.solidCount p < n + 1 := hp
      show Text.solidCount q < n
      omega
    · intro e he
      rcases hs.eq_fail he with ⟨rfl, -⟩ | ⟨rfl, -⟩ <;> rfl
  · intro p hp
    exact absurd hp (Nat.not_lt_zero _)

namespace Reader

/-- Reads a text as `Reader.read` does, and gives what is read on the way. -/
def readNoting (r : Reader) (input : List Char) : Except ReadError Expr × Reader × List Reentry :=
  let (result, cache, notes) :=
    NotingM.result (r.grammar.readNoting r.maxDepth r.maxDepth input) (r.cache, [])
  (result, { r with cache }, notes)

/-- What a reader of ordinary formulas does when it notes what is read on the way. -/
theorem exists_readNoting {r : Reader} (hr : r.grammar = .default) (text : List Char) :
    ∃ calls : List Reentry, (∀ call ∈ calls, call.Shrinks text) ∧
      r.readNoting text = ((r.read text).1, (r.read text).2, calls) := by
  obtain ⟨grammar, cache, depth⟩ := r
  obtain rfl : grammar = .default := hr
  obtain ⟨calls, hcalls, hresult⟩ :=
    noted_readNoting depth depth (List.infix_refl text) cache [] fun _ h => by cases h
  refine ⟨calls, hcalls, ?_⟩
  show (match NotingM.result (Grammar.default.readNoting depth depth text) (cache, []) with
    | (result, cache, calls) => (result, (⟨.default, cache, depth⟩ : Reader), calls)) = _
  rw [hresult]
  rfl

/-- Whatever a reader of ordinary formulas remembers: noting what is read on the way does not change
reading a text; all that is read on the way are stretches of the text, each with fewer characters
besides blanks than the text it is read for; errors are about stretches of the text; and a limit above
the number of its characters besides blanks is not reached. -/
theorem reentries_within {r : Reader} (hr : r.grammar = .default) (text : List Char) :
    ((r.readNoting text).1, (r.readNoting text).2.1) = r.read text ∧
      (∀ call ∈ (r.readNoting text).2.2, call.inner <:+: text ∧ call.inner <:+: call.outer ∧
        Text.solidCount call.inner < Text.solidCount call.outer) ∧
      (∀ e, (r.read text).1 = .error e → e.input <:+: text) ∧
      (Text.solidCount text < r.maxDepth → ∀ limit input,
        (r.read text).1 ≠ .error (.tooDeep limit input)) := by
  obtain ⟨calls, hcalls, hnoting⟩ := exists_readNoting hr text
  rw [hnoting]
  obtain ⟨grammar, cache, depth⟩ := r
  obtain rfl : grammar = .default := hr
  refine ⟨rfl, ?_, ?_, ?_⟩
  · intro call hcall
    have hshrinks := hcalls call hcall
    exact ⟨hshrinks.stretch, hshrinks.within.stretch, hshrinks.within.lt⟩
  · intro e he
    exact (error_stretch depth depth (List.infix_refl text) cache trivial).2 e he
  · intro hdepth limit input he
    have hnot := (not_tooDeep_of_solidCount depth depth hdepth cache trivial).2 _ he
    cases hnot

/-- In a group of four characters besides blanks an operand is missing. -/
theorem reentries_within_unfinished :
    (ofDepth 5).grammar = .default ∧
    (∃ call ∈ ((ofDepth 5).readNoting "(1 + )".toList).2.2, call.inner <:+: "(1 + )".toList ∧
      call.inner <:+: call.outer ∧ Text.solidCount call.inner < Text.solidCount call.outer) ∧
    (∃ e, ((ofDepth 5).read "(1 + )".toList).1 = .error e ∧ e.input <:+: "(1 + )".toList) ∧
    Text.solidCount "(1 + )".toList < 5 ∧
    ∀ limit input, ((ofDepth 5).read "(1 + )".toList).1 ≠ .error (.tooDeep limit input) := by
  have hgrammar : (ofDepth 5).grammar = .default := rfl
  obtain ⟨-, hcalls, herror, hdeep⟩ := reentries_within hgrammar "(1 + )".toList
  have hcount : Text.solidCount "(1 + )".toList < 5 := by decide
  have hnoted : 0 < ((ofDepth 5).readNoting "(1 + )".toList).2.2.length := by decide +kernel
  have hfails : ((ofDepth 5).read "(1 + )".toList).1.isOk = false := by decide +kernel
  obtain ⟨call, hcall⟩ := List.exists_mem_of_length_pos hnoted
  refine ⟨hgrammar, ⟨call, hcall, hcalls call hcall⟩, ?_, hcount, hdeep hcount⟩
  cases hread : ((ofDepth 5).read "(1 + )".toList).1 with
  | error e => exact ⟨e, rfl, herror e hread⟩
  | ok e =>
    rw [hread] at hfails
    cases hfails

end Reader

end Formula
