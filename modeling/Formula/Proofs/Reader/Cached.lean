import Formula.Proofs.Reader.Fresh

/-!
# Reading with remembered results

A remembered result may be used for another text of the same key. Among texts of which each passes only
texts among them on (`Closed`), remembering is harmless when texts of the same key have the same result
(`KeysAgree`): whatever was read before, a text is read as if nothing was remembered
(`readWithin_eq_or_tooDeep`). The condition is exact: `readTexts_eq_iff` says that all sessions of a
reader over such texts have the results of reading afresh if and only if it holds.
-/

set_option autoImplicit false

namespace Formula

/-- A step of reading passes only texts among these on. -/
def Closed (texts : Set (List Char)) : Prop :=
  ∀ p ∈ texts, ∀ q ∈ Grammar.default.pieces p, q ∈ texts

/-- Texts of the same key have the same result, if one of them has a result. -/
def KeysAgree (texts : Set (List Char)) : Prop :=
  ∀ p ∈ texts, ∀ q ∈ texts, cacheKey p = cacheKey q → ∀ e,
    Grammar.default.readUnlimited q = .ok e → Grammar.default.readUnlimited p = .ok e

/-- What is remembered for the texts is what reading them afresh gives. -/
def Cache.Sound (texts : Set (List Char)) (cache : Cache) : Prop :=
  ∀ p ∈ texts, ∀ e, cache.get? (cacheKey p) = some e → Grammar.default.readUnlimited p = .ok e

theorem Cache.sound_empty (texts : Set (List Char)) : Cache.Sound texts {} := by
  intro p _ e h
  cases h

/-- A result that is remembered for one of the texts is right for all of the same key. -/
theorem Cache.Sound.insert {texts : Set (List Char)} {cache : Cache} (hkeys : KeysAgree texts)
    (hs : Cache.Sound texts cache) {p : List Char} {e : Expr} (hp : p ∈ texts)
    (he : Grammar.default.readUnlimited p = .ok e) :
    Cache.Sound texts (cache.insert (cacheKey p) e) := by
  intro q hq e' h
  obtain ⟨hkey, rfl⟩ | h := Table.get?_insert_eq_some h
  · exact hkeys q hq p hp hkey _ he
  · exact hs q hq e' h

/-- The result of reading, and what is remembered then. -/
abbrev ReadM.result {α : Type} (x : ReadM α) (cache : Cache) : Except ReadError α × Cache :=
  x.run.run cache

theorem ReadM.result_bind {α β : Type} (x : ReadM α) (f : α → ReadM β) (cache : Cache) :
    (x >>= f).result cache = match x.result cache with
      | (.ok a, cache') => (f a).result cache'
      | (.error e, cache') => (.error e, cache') := by
  show (match x.result cache with | (r, cache') => (ExceptT.bindCont f r).run cache') = _
  split
  · next r cache' h =>
    rw [h]
    cases r <;> rfl

theorem ReadM.throw_bind {α β : Type} (e : ReadError) (f : α → ReadM β) :
    (throw e >>= f : ReadM β) = throw e := rfl

theorem readWithin_result {g : Grammar} (limit n : Nat) (p : List Char) (cache : Cache) :
    (g.readWithin limit n p).result cache = match cache.get? (cacheKey p) with
      | some e => (.ok e, cache)
      | none => match n with
        | 0 => (.error (.tooDeep limit p), cache)
        | n + 1 => match (readStep g (g.readWithin limit n) p).result cache with
          | (.ok e, cache') => (.ok e, cache'.insert (cacheKey p) e)
          | (.error e, cache') => (.error e, cache') := by
  cases n with
  | zero =>
    rw [Grammar.readWithin, ReadM.result_bind]
    show (ReadM.result (match cache.get? (cacheKey p) with
      | some e => _
      | none => _) cache) = _
    cases cache.get? (cacheKey p) <;> rfl
  | succ n =>
    rw [Grammar.readWithin, ReadM.result_bind]
    show (ReadM.result (match cache.get? (cacheKey p) with
      | some e => _
      | none => _) cache) = _
    cases cache.get? (cacheKey p) with
    | some e => rfl
    | none =>
      dsimp only
      rw [ReadM.result_bind]
      rcases (readStep g (g.readWithin limit n) p).result cache with ⟨_ | e, cache'⟩ <;> rfl

/-- A result that is given is remembered. -/
theorem get?_readWithin {g : Grammar} {limit n : Nat} {p : List Char} {cache : Cache} {e : Expr}
    (h : ((g.readWithin limit n p).result cache).1 = .ok e) :
    ((g.readWithin limit n p).result cache).2.get? (cacheKey p) = some e := by
  rw [readWithin_result] at h ⊢
  cases hkey : cache.get? (cacheKey p) with
  | some e' =>
    rw [hkey] at h
    cases h
    exact hkey
  | none =>
    rw [hkey] at h
    cases n with
    | zero => cases h
    | succ n =>
      dsimp only at h ⊢
      rcases hresult : (readStep g (g.readWithin limit n) p).result cache with ⟨e' | e', cache'⟩
      · rw [hresult] at h
        cases h
      · rw [hresult] at h
        cases h
        exact Table.get?_insert_self _ _ _

/-! ## Remembering is harmless -/

variable {texts : Set (List Char)}

section

variable {α β : Type}

/-- What is remembered stays sound, and the result is that of the other reading unless reading is given
up. -/
def AgreesOrDeep (texts : Set (List Char)) (x : ReadM α) (y : Except ReadError α) : Prop :=
  ∀ cache : Cache, Cache.Sound texts cache → Cache.Sound texts (x.result cache).2 ∧
    ((∃ limit input, (x.result cache).1 = .error (.tooDeep limit input)) ∨ (x.result cache).1 = y)

theorem AgreesOrDeep.bind {x : ReadM α} {y : Except ReadError α} {f : α → ReadM β}
    {g : α → Except ReadError β} (hx : AgreesOrDeep texts x y)
    (hf : ∀ a, AgreesOrDeep texts (f a) (g a)) : AgreesOrDeep texts (x >>= f) (y >>= g) := by
  intro cache hs
  obtain ⟨hs', hr⟩ := hx cache hs
  rw [ReadM.result_bind]
  rcases hresult : x.result cache with ⟨e | a, cache'⟩
  · rw [hresult] at hs' hr
    refine ⟨hs', ?_⟩
    rcases hr with ⟨limit, input, h⟩ | rfl
    · exact .inl ⟨limit, input, congrArg Except.error (Except.error.inj h)⟩
    · exact .inr rfl
  · rw [hresult] at hs' hr
    rcases hr with ⟨limit, input, h⟩ | rfl
    · cases h
    · exact hf a cache' hs'

end

/-- Reading that remembers keeps what is remembered sound, and gives the result of the other reading
unless it is given up. -/
def Simulation.cached (texts : Set (List Char)) : Simulation ReadM (Except ReadError) where
  rel := AgreesOrDeep texts
  pure _ := fun _ hs => ⟨hs, .inr rfl⟩
  throw _ := fun _ hs => ⟨hs, .inr rfl⟩
  bind := AgreesOrDeep.bind
  throw_bind_left := ReadM.throw_bind
  throw_bind_right := throw_bind_except

/-- Whatever was read before, reading one of the texts gives its result unless it is given up. -/
theorem readWithin_eq_or_tooDeep (hclosed : Closed texts) (hkeys : KeysAgree texts) (limit n : Nat)
    {p : List Char} (hp : p ∈ texts) : (Simulation.cached texts).rel
      (Grammar.default.readWithin limit n p) (Grammar.default.readUnlimited p) := by
  induction n generalizing p with
  | zero =>
    intro cache hs
    rw [readWithin_result]
    cases he : cache.get? (cacheKey p) with
    | some e => exact ⟨hs, .inr (hs p hp e he).symm⟩
    | none => exact ⟨hs, .inl ⟨limit, p, rfl⟩⟩
  | succ n ih =>
    have hstep : (Simulation.cached texts).rel
        (readStep Grammar.default (Grammar.default.readWithin limit n) p)
        (Grammar.default.readUnlimited p) := by
      rw [readUnlimited_eq]
      exact (Simulation.cached texts).readStep fun q hq => ih (hclosed p hp q hq)
    intro cache hs
    rw [readWithin_result]
    cases he : cache.get? (cacheKey p) with
    | some e => exact ⟨hs, .inr (hs p hp e he).symm⟩
    | none =>
      dsimp only
      obtain ⟨hs', hr⟩ := hstep cache hs
      rcases hresult : (readStep Grammar.default (Grammar.default.readWithin limit n) p).result cache
        with ⟨e | e, cache'⟩
      · rw [hresult] at hs' hr
        exact ⟨hs', hr⟩
      · rw [hresult] at hs' hr
        rcases hr with ⟨_, _, h⟩ | h
        · cases h
        · exact ⟨hs'.insert hkeys hp h.symm, .inr h⟩

section

variable {α β : Type}

/-- What is remembered stays sound, and the result is that of the other reading unless that one is given
up. -/
def AgreesUnlessDeep (texts : Set (List Char)) (x : ReadM α) (y : Except ReadError α) : Prop :=
  ∀ cache : Cache, Cache.Sound texts cache → Cache.Sound texts (x.result cache).2 ∧
    ((∃ limit input, y = .error (.tooDeep limit input)) ∨ (x.result cache).1 = y)

theorem AgreesUnlessDeep.bind {x : ReadM α} {y : Except ReadError α} {f : α → ReadM β}
    {g : α → Except ReadError β} (hx : AgreesUnlessDeep texts x y)
    (hf : ∀ a, AgreesUnlessDeep texts (f a) (g a)) : AgreesUnlessDeep texts (x >>= f) (y >>= g) := by
  intro cache hs
  obtain ⟨hs', hr⟩ := hx cache hs
  rw [ReadM.result_bind]
  rcases hresult : x.result cache with ⟨e | a, cache'⟩
  · rw [hresult] at hs' hr
    refine ⟨hs', hr.imp ?_ ?_⟩
    · rintro ⟨limit, input, rfl⟩
      exact ⟨limit, input, rfl⟩
    · rintro rfl
      rfl
  · rw [hresult] at hs' hr
    have hrest := hf a cache' hs'
    refine ⟨hrest.1, ?_⟩
    rcases hr with ⟨limit, input, rfl⟩ | rfl
    · exact .inl ⟨limit, input, rfl⟩
    · exact hrest.2

end

/-- Reading that remembers keeps what is remembered sound, and gives the result of the other reading
unless that is given up. -/
def Simulation.cachedDeep (texts : Set (List Char)) : Simulation ReadM (Except ReadError) where
  rel := AgreesUnlessDeep texts
  pure _ := fun _ hs => ⟨hs, .inr rfl⟩
  throw _ := fun _ hs => ⟨hs, .inr rfl⟩
  bind := AgreesUnlessDeep.bind
  throw_bind_left := ReadM.throw_bind
  throw_bind_right := throw_bind_except

/-- Where reading afresh is not given up, reading with as many levels has the same result. -/
theorem readWithin_eq_readFresh (hclosed : Closed texts) (hkeys : KeysAgree texts) (limit n : Nat)
    {p : List Char} (hp : p ∈ texts) : (Simulation.cachedDeep texts).rel
      (Grammar.default.readWithin limit n p) (Grammar.default.readFresh limit n p) := by
  have hhit : ∀ (n : Nat) {p : List Char} {cache : Cache} {e : Expr}, p ∈ texts →
      Cache.Sound texts cache → cache.get? (cacheKey p) = some e →
      (∃ l input, Grammar.default.readFresh limit n p = .error (.tooDeep l input)) ∨
        .ok e = Grammar.default.readFresh limit n p := by
    intro n p cache e hp hs he
    rcases readFresh_eq_or_tooDeep limit n p with h | h
    · exact .inl h
    · exact .inr (by rw [h, hs p hp e he])
  induction n generalizing p with
  | zero =>
    intro cache hs
    rw [readWithin_result]
    cases he : cache.get? (cacheKey p) with
    | some e => exact ⟨hs, hhit 0 hp hs he⟩
    | none => exact ⟨hs, .inr rfl⟩
  | succ n ih =>
    have hstep : (Simulation.cachedDeep texts).rel
        (readStep Grammar.default (Grammar.default.readWithin limit n) p)
        (Grammar.default.readFresh limit (n + 1) p) :=
      (Simulation.cachedDeep texts).readStep fun q hq => ih (hclosed p hp q hq)
    intro cache hs
    refine ⟨(readWithin_eq_or_tooDeep hclosed hkeys limit (n + 1) hp cache hs).1, ?_⟩
    rw [readWithin_result]
    cases he : cache.get? (cacheKey p) with
    | some e => exact hhit (n + 1) hp hs he
    | none =>
      dsimp only
      refine (hstep cache hs).2.imp id fun h => ?_
      rw [← h]
      rcases (readStep Grammar.default (Grammar.default.readWithin limit n) p).result cache with
        ⟨e | e, cache'⟩ <;> rfl

/-! ## Sessions -/

namespace Reader

/-- The results of reading texts one after the other. -/
def readTexts (r : Reader) : List (List Char) → List (Except ReadError Expr)
  | [] => []
  | p :: ps => (r.read p).1 :: (r.read p).2.readTexts ps

/-- A new reader of ordinary formulas with a limit on depth. -/
def ofDepth (depth : Nat) : Reader :=
  { Reader.default with maxDepth := depth }

/-- A reader that has remembered sound results reads texts of a closed set as if it had not. -/
theorem readTexts_eq (hclosed : Closed texts) (hkeys : KeysAgree texts) {depth : Nat}
    {session : List (List Char)} (hsession : ∀ p ∈ session, p ∈ texts)
    (hdeep : ∀ p ∈ session, ∀ l input,
      Grammar.default.readFresh depth depth p ≠ .error (.tooDeep l input))
    {r : Reader} (hr : r = { ofDepth depth with cache := r.cache }) (hs : Cache.Sound texts r.cache) :
    r.readTexts session = session.map (Grammar.default.readFresh depth depth) := by
  induction session generalizing r with
  | nil => rfl
  | cons p session ih =>
    obtain ⟨hs', hresult⟩ := readWithin_eq_readFresh hclosed hkeys depth depth
      (hsession p List.mem_cons_self) r.cache hs
    have hread : r.read p = ((ReadM.result (Grammar.default.readWithin depth depth p) r.cache).1,
        { ofDepth depth with
          cache := (ReadM.result (Grammar.default.readWithin depth depth p) r.cache).2 }) := by
      rw [hr]
      rfl
    rw [readTexts, hread, List.map_cons]
    congr 1
    · rcases hresult with ⟨l, input, h⟩ | h
      · exact absurd h (hdeep p List.mem_cons_self l input)
      · exact h
    · exact ih (fun q hq => hsession q (List.mem_cons_of_mem _ hq))
        (fun q hq => hdeep q (List.mem_cons_of_mem _ hq)) rfl hs'

/-- A new reader reads a text of a closed set where keys agree as if nothing was remembered. -/
theorem read_of_readFresh (hclosed : Closed texts) (hkeys : KeysAgree texts) {depth : Nat}
    {p : List Char} (hp : p ∈ texts) {e : Expr}
    (he : Grammar.default.readFresh depth depth p = .ok e) : ((ofDepth depth).read p).1 = .ok e := by
  obtain ⟨-, hresult⟩ := readWithin_eq_readFresh hclosed hkeys depth depth hp {} (Cache.sound_empty _)
  rw [he] at hresult
  rcases hresult with ⟨limit, input, hdeep⟩ | hresult
  · cases hdeep
  · exact hresult

/-- A new reader that may nest more deeply than a text is long reads it as if nothing was remembered, if the
text is of a closed set where keys agree. -/
theorem read_of_closed (hclosed : Closed texts) (hkeys : KeysAgree texts) {depth : Nat} {p : List Char}
    (hp : p ∈ texts) (hdepth : p.length < depth) {e : Expr}
    (he : Grammar.default.readUnlimited p = .ok e) : ((ofDepth depth).read p).1 = .ok e :=
  read_of_readFresh hclosed hkeys hp (by rw [readFresh_eq_readUnlimited hdepth, he])

/-- The result of a text is remembered. -/
theorem get?_of_read {depth : Nat} {q : List Char} {e : Expr}
    (h : ((ofDepth depth).read q).1 = .ok e) :
    ((ofDepth depth).read q).2.cache.get? (cacheKey q) = some e :=
  get?_readWithin h

/-- A text that is read after one of the same key has the result of that one. -/
theorem read_of_key {depth : Nat} {p q : List Char} {e : Expr} (hkey : cacheKey p = cacheKey q)
    (h : ((ofDepth depth).read q).1 = .ok e) : (((ofDepth depth).read q).2.read p).1 = .ok e := by
  have hget := get?_of_read h
  change (ReadM.result (Grammar.default.readWithin depth depth p) ((ofDepth depth).read q).2.cache).1
    = .ok e
  rw [readWithin_result, hkey, hget]

end Reader

/-- In closed texts, all sessions of readers with enough depth have the results of reading afresh if
and only if texts of the same key have the same result. -/
theorem readTexts_eq_iff (hclosed : Closed texts) :
    (∀ (session : List (List Char)) (depth : Nat), (∀ p ∈ session, p ∈ texts) →
      (∀ p ∈ session, ∀ l input,
        Grammar.default.readFresh depth depth p ≠ .error (.tooDeep l input)) →
      (Reader.ofDepth depth).readTexts session =
        session.map (Grammar.default.readFresh depth depth)) ↔ KeysAgree texts := by
  constructor
  · intro h p hp q hq hkey e he
    have hlen : ∀ r ∈ [q, p], r.length < q.length + p.length + 1 := by
      intro r hr
      rcases List.mem_pair.1 hr with rfl | rfl <;> omega
    have hfresh : ∀ r ∈ [q, p], Grammar.default.readFresh (q.length + p.length + 1)
        (q.length + p.length + 1) r = Grammar.default.readUnlimited r :=
      fun r hr => readFresh_eq_readUnlimited (hlen r hr)
    have hsession := h [q, p] (q.length + p.length + 1) (by simp [hp, hq]) fun r hr l input => by
      rw [hfresh r hr]
      exact readUnlimited_ne_tooDeep r l input
    rw [List.map_congr_left hfresh] at hsession
    have hfirst : ((Reader.ofDepth (q.length + p.length + 1)).read q).1 = .ok e :=
      (List.cons.inj hsession).1.trans he
    have hsecond := (List.cons.inj (List.cons.inj hsession).2).1
    rw [← hsecond]
    exact Reader.read_of_key hkey hfirst
  · intro hkeys session depth hsession hdeep
    exact Reader.readTexts_eq hclosed hkeys hsession hdeep rfl (Cache.sound_empty texts)

theorem readTexts_eq_iff_univ :
    (∀ (session : List (List Char)) (depth : Nat), (∀ p ∈ session, p ∈ Set.univ) →
      (∀ p ∈ session, ∀ l input,
        Grammar.default.readFresh depth depth p ≠ .error (.tooDeep l input)) →
      (Reader.ofDepth depth).readTexts session =
        session.map (Grammar.default.readFresh depth depth)) ↔ KeysAgree Set.univ :=
  readTexts_eq_iff fun _ _ _ _ => trivial

/-- The binary operator at the root of a result. -/
def rootOperator? : Except ReadError Expr → Option BinaryOperator
  | .ok (.binary _ op _) => some op
  | _ => none

/-- The key does not tell a percent sign behind its operand from the remainder of a negative number. -/
theorem not_keysAgree : ¬ KeysAgree Set.univ := by
  intro h
  have hrem : rootOperator? (Grammar.default.readUnlimited "7 % -3".toList) = some .rem := by
    decide +kernel
  have hsub : rootOperator? (Grammar.default.readUnlimited "7% -3".toList) = some .sub := by
    decide +kernel
  have hkey : cacheKey "7% -3".toList = cacheKey "7 % -3".toList := by decide +kernel
  cases he : Grammar.default.readUnlimited "7 % -3".toList with
  | error e =>
    rw [he] at hrem
    cases hrem
  | ok e =>
    rw [h _ trivial _ trivial hkey e he, ← he, hrem] at hsub
    cases hsub

end Formula
