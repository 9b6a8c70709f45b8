import Formula.Proofs.Reader.Plan
import Formula.Proofs.Text.Commas

/-!
# Reading afresh

One step of reading passes only the pieces of a text on (`Grammar.pieces`), so two ways of reading that
are related on the pieces are related on the text (`Simulation.readStep`). In the default grammar the
pieces are within the text (`within_of_mem_pieces`), so they are shorter. So reading ends by itself:
without a limit on depth it is a function, `Grammar.readUnlimited`, that takes one step and reads the
pieces in the same way (`readUnlimited_eq`). A limit changes nothing but that reading may be given up
(`readFresh_eq_or_tooDeep`).
-/

set_option autoImplicit false

namespace Formula

/-! ## Pieces -/

/-- The texts of a list of expressions. -/
def listPieces (list : List Char) : List (List Char) :=
  match hide? .brackets list with
  | none => []
  | some h => if Text.isAllBlank h.text then [] else (splitAtCommas h.text).map h.restore

/-- The texts that building from an occurrence reads. -/
def buildPieces (builder : Builder) (text : List Char) (token : Token) : List (List Char) :=
  let front := (Text.before? token.index text).toList
  let back := (Text.from? token.stop text).toList
  match builder with
  | .binary | .binaryAs _ | .assignment => front ++ back
  | .before => back
  | .after => front
  | .call => (back.filterMap (enclosedGroup? '(')).flatMap fun group =>
    (Text.interior? group.text).toList.flatMap listPieces
  | .tuple | .vector => (Text.interior? token.text).toList.flatMap listPieces
  | .parentheses => (Text.interior? token.text).toList
  | .constant | .variable | .number | .aroundGroups | .host _ => []

/-- The texts that a step of reading passes on. -/
def Grammar.pieces (g : Grammar) (text : List Char) : List (List Char) :=
  match g.plan text with
  | .error _ => []
  | .ok (builder, token) => buildPieces builder text token

theorem before?_occurrence {text front w back : List Char} (ht : text = front ++ w ++ back) :
    Text.before? (Text.byteSize front) text = some front := by
  rw [ht, List.append_assoc, Text.before?_append]

theorem from?_occurrence {text front w back : List Char} (ht : text = front ++ w ++ back) :
    Text.from? (Token.stop ⟨w, Text.byteSize front⟩) text = some back := by
  rw [ht, Token.stop, ← Text.byteSize_append, Text.from?_append]

/-! ## Related readings -/

/-- Whether reading was given up because of the limit on depth. -/
def ReadError.isTooDeep : ReadError → Bool
  | .tooDeep .. => true
  | _ => false

/-- A relation between two kinds of computations that steps of reading preserve. -/
structure Simulation (m m' : Type → Type) [Monad m] [MonadExceptOf ReadError m] [Monad m']
    [MonadExceptOf ReadError m'] where
  rel : {α : Type} → m α → m' α → Prop
  pure {α : Type} (a : α) : rel (pure a) (pure a)
  throw {α : Type} {e : ReadError} : e.isTooDeep = false → rel (throw e : m α) (throw e)
  bind {α β : Type} {x : m α} {y : m' α} {f : α → m β} {g : α → m' β} :
    rel x y → (∀ a, rel (f a) (g a)) → rel (x >>= f) (y >>= g)
  throw_bind_left {α β : Type} (e : ReadError) (f : α → m β) : (MonadExcept.throw e >>= f) =
    MonadExcept.throw e
  throw_bind_right {α β : Type} (e : ReadError) (f : α → m' β) : (MonadExcept.throw e >>= f) =
    MonadExcept.throw e

namespace Simulation

variable {m m' : Type → Type} [Monad m] [LawfulMonad m] [MonadExceptOf ReadError m] [Monad m']
  [LawfulMonad m'] [MonadExceptOf ReadError m'] (S : Simulation m m') {read : List Char → m Expr}
  {read' : List Char → m' Expr}

theorem orThrow {α β : Type} {e : ReadError} (he : e.isTooDeep = false) {o : Option α}
    {f : α → m β} {g : α → m' β} (h : ∀ a, o = some a → S.rel (f a) (g a)) :
    S.rel (Formula.orThrow e o >>= f) (Formula.orThrow e o >>= g) := by
  cases o with
  | none =>
    rw [Formula.orThrow, Formula.orThrow, S.throw_bind_left, S.throw_bind_right]
    exact S.throw he
  | some a =>
    rw [Formula.orThrow, Formula.orThrow, pure_bind, pure_bind]
    exact h a rfl

omit [LawfulMonad m] [LawfulMonad m'] in
theorem readAll {texts : List (List Char)} (h : ∀ q ∈ texts, S.rel (read q) (read' q)) :
    S.rel (readAll read texts) (readAll read' texts) := by
  induction texts with
  | nil => exact S.pure []
  | cons q texts ih =>
    refine S.bind (h q List.mem_cons_self) fun e => ?_
    exact S.bind (ih fun q hq => h q (List.mem_cons_of_mem _ hq)) fun es => S.pure (e :: es)

theorem readList {list : List Char} (h : ∀ q ∈ listPieces list, S.rel (read q) (read' q)) :
    S.rel (readList read list) (readList read' list) := by
  refine S.orThrow rfl fun hid hhide => ?_
  rw [listPieces, hhide] at h
  dsimp only at h
  split
  · exact S.pure []
  · next hblank =>
    rw [if_neg hblank] at h
    exact S.readAll h

theorem buildBinary {op : BinaryOperator} {text : List Char} {token : Token}
    (h : ∀ q ∈ buildPieces .binary text token, S.rel (read q) (read' q)) :
    S.rel (buildBinary read op text token) (buildBinary read' op text token) := by
  refine S.orThrow rfl fun front hfront => ?_
  refine S.bind (h front (by simp [buildPieces, hfront])) fun left => ?_
  refine S.orThrow rfl fun back hback => ?_
  exact S.bind (h back (by simp [buildPieces, hback])) fun right => S.pure _

theorem buildAssignment {text : List Char} {token : Token}
    (h : ∀ q ∈ buildPieces .assignment text token, S.rel (read q) (read' q)) :
    S.rel (buildAssignment read text token) (buildAssignment read' text token) := by
  refine S.orThrow rfl fun front hfront => ?_
  refine S.bind (h front (by simp [buildPieces, hfront])) fun target => ?_
  cases target with
  | «variable» name =>
    refine S.orThrow rfl fun back hback => ?_
    exact S.bind (h back (by simp [buildPieces, hback])) fun value => S.pure _
  | _ => exact S.throw rfl

theorem buildCall {text : List Char} {token : Token}
    (h : ∀ q ∈ buildPieces .call text token, S.rel (read q) (read' q)) :
    S.rel (buildCall read text token) (buildCall read' text token) := by
  refine S.orThrow rfl fun rest hrest => ?_
  refine S.orThrow rfl fun group hgroup => ?_
  refine S.orThrow rfl fun list hlist => ?_
  refine S.bind (S.readList fun q hq => h q ?_) fun args => S.pure _
  simp [buildPieces, hrest, hgroup, hlist, hq]

/-- Building preserves the relation when reading the pieces does. -/
theorem buildPlain {builder : Builder} {text : List Char} {token : Token}
    (h : ∀ q ∈ buildPieces builder text token, S.rel (read q) (read' q)) :
    S.rel (buildPlain read builder text token) (buildPlain read' builder text token) := by
  cases builder with
  | binary => exact S.orThrow rfl fun op _ => S.buildBinary h
  | binaryAs op => exact S.buildBinary h
  | assignment => exact S.buildAssignment h
  | before =>
    refine S.orThrow rfl fun op _ => S.orThrow rfl fun operand hoperand => ?_
    exact S.bind (h operand (by simp [buildPieces, hoperand])) fun e => S.pure _
  | after =>
    refine S.orThrow rfl fun op _ => S.orThrow rfl fun operand hoperand => ?_
    exact S.bind (h operand (by simp [buildPieces, hoperand])) fun e => S.pure _
  | constant => exact S.orThrow rfl fun kind _ => S.pure _
  | «variable» => exact S.pure _
  | number => exact S.orThrow rfl fun x _ => S.pure _
  | call => exact S.buildCall h
  | tuple | vector =>
    refine S.orThrow rfl fun list hlist => ?_
    exact S.bind (S.readList fun q hq => h q (by simp [buildPieces, hlist, hq])) fun es => S.pure _
  | parentheses =>
    refine S.orThrow rfl fun list hlist => ?_
    exact S.bind (h list (by simp [buildPieces, hlist])) fun e => S.pure _
  | aroundGroups | host => exact S.throw rfl

theorem isTooDeep_of_plan {g : Grammar} {text : List Char} {e : ReadError}
    (h : g.plan text = .error e) : e.isTooDeep = false := by
  rw [Grammar.plan] at h
  repeat' split at h
  all_goals cases h
  all_goals rfl

/-- A step of reading preserves the relation when building does. -/
theorem readStepWith {g : Grammar} {text : List Char} {build : Builder → List Char → Token → m Expr}
    {build' : Builder → List Char → Token → m' Expr}
    (h : ∀ builder token, g.plan text = .ok (builder, token) →
      S.rel (build builder text token) (build' builder text token)) :
    S.rel (readStepWith g build text) (readStepWith g build' text) := by
  rw [readStepWith_eq S.throw_bind_left, readStepWith_eq S.throw_bind_right]
  cases hplan : g.plan text with
  | error e => exact S.throw (isTooDeep_of_plan hplan)
  | ok found => exact h found.1 found.2 hplan

/-- A step of reading preserves the relation when reading the pieces does. -/
theorem readStep {g : Grammar} {text : List Char}
    (h : ∀ q ∈ g.pieces text, S.rel (read q) (read' q)) :
    S.rel (readStep g read text) (readStep g read' text) := by
  refine S.readStepWith fun builder token hplan => S.buildPlain ?_
  rw [Grammar.pieces, hplan] at h
  exact h

end Simulation

/-! ## Pieces are within the text -/

/-- The texts of a list are those of its segments between commas. -/
theorem listPieces_texts {segs : List Segment} (hv : Segment.AllValid segs) :
    listPieces (Segment.texts segs) =
      if Text.isAllBlank (Segment.texts segs) then [] else (commaParts segs).map Segment.texts := by
  rw [listPieces, hide?_eq_some.2 ⟨segs, hv, rfl, rfl⟩]
  dsimp only
  rw [isAllBlank_covered hv, restore_splitAtCommas (Hidden.shows_all segs)]

theorem exists_part_of_mem_listPieces {q list : List Char} (h : q ∈ listPieces list) :
    ∃ segs, Segment.AllValid segs ∧ list = Segment.texts segs ∧
      ∃ part ∈ commaParts segs, q = Segment.texts part := by
  cases hhide : hide? .brackets list with
  | none =>
    rw [listPieces, hhide] at h
    cases h
  | some hid =>
    obtain ⟨segs, hv, rfl, -⟩ := hide?_eq_some.1 hhide
    rw [listPieces_texts hv] at h
    split at h
    · cases h
    · obtain ⟨part, hpart, rfl⟩ := List.mem_map.1 h
      exact ⟨segs, hv, rfl, part, hpart, rfl⟩

theorem stretch_of_mem_listPieces {q list : List Char} (h : q ∈ listPieces list) : q <:+: list := by
  obtain ⟨segs, -, rfl, part, hpart, rfl⟩ := exists_part_of_mem_listPieces h
  exact texts_stretch (stretch_of_mem_commaParts hpart)

/-- A step of reading passes on only texts within the one it reads: an operator is cut off, or the
brackets of a group are. -/
theorem within_of_mem_pieces {text q : List Char} (h : q ∈ Grammar.default.pieces text) :
    Text.Within q text := by
  rw [Grammar.pieces] at h
  cases hplan : Grammar.default.plan text with
  | error e =>
    rw [hplan] at h
    cases h
  | ok found =>
    obtain ⟨builder, token⟩ := found
    rw [hplan] at h
    cases planned_of_plan hplan with
    | @operator _ front w back hb ht hne hw =>
      obtain ⟨c, r, rfl⟩ := List.exists_cons_of_ne_nil hne
      obtain ⟨hfront, hback⟩ := Text.within_of_append ht List.mem_cons_self
        (Lexeme.isBlank_of_operator (hw c List.mem_cons_self))
      have hsides : ∀ q, q ∈ (Text.before? (Text.byteSize front) text).toList ++
          (Text.from? (Token.stop ⟨c :: r, Text.byteSize front⟩) text).toList → Text.Within q text := by
        intro q hq
        rw [before?_occurrence ht, from?_occurrence ht] at hq
        rcases List.mem_pair.1 hq with rfl | rfl
        · exact hfront
        · exact hback
      cases builder with
      | binary | assignment => exact hsides q h
      | before => exact hsides q (List.mem_append_right _ h)
      | after => exact hsides q (List.mem_append_left _ h)
      | _ => cases hb
    | constant | named | number => cases h
    | @call x w z s y ht _ _ hz hs hy =>
      simp only [buildPieces, from?_occurrence ht] at h
      obtain ⟨group, hgroup, hq⟩ := List.mem_flatMap.1 h
      have hgroup : enclosedGroup? '(' (z ++ ('(' :: (s ++ [')'])) ++ y) = some group := by
        simpa using hgroup
      cases (enclosedGroup?_group hz hy rfl hs).symm.trans hgroup
      rw [Text.interior?_eq rfl rfl] at hq
      have htext : text = x ++ w ++ z ++ '(' :: (s ++ [')']) ++ y := by
        rw [ht]
        simp
      exact Text.within_of_group htext rfl (stretch_of_mem_listPieces (by simpa using hq))
    | tuple ht | vector ht =>
      simp only [buildPieces] at h
      rw [Text.interior?_eq rfl rfl] at h
      exact Text.within_of_group ht rfl (stretch_of_mem_listPieces (by simpa using h))
    | parentheses ht =>
      simp only [buildPieces] at h
      rw [Text.interior?_eq rfl rfl] at h
      obtain rfl : q = _ := by simpa using h
      exact Text.within_of_group ht rfl (List.infix_refl q)

/-- A step of reading passes on shorter texts only. -/
theorem length_lt_of_mem_pieces {text q : List Char} (h : q ∈ Grammar.default.pieces text) :
    q.length < text.length :=
  (within_of_mem_pieces h).length_lt

/-! ## Without a limit -/

theorem throw_bind_except {α β : Type} (e : ReadError) (f : α → Except ReadError β) :
    (throw e >>= f : Except ReadError β) = throw e := rfl

/-- Reading that takes its pieces' results for granted. -/
def Simulation.eq : Simulation (Except ReadError) (Except ReadError) where
  rel x y := x = y ∧ ∀ limit input, x ≠ .error (.tooDeep limit input)
  pure a := ⟨rfl, fun _ _ h => by cases h⟩
  throw h := ⟨rfl, fun _ _ h' => by cases h'; cases h⟩
  bind := by
    rintro α β x y f g ⟨rfl, hx⟩ hf
    cases x with
    | error e => exact ⟨rfl, fun limit input h => hx limit input (by cases h; rfl)⟩
    | ok a => exact hf a
  throw_bind_left := throw_bind_except
  throw_bind_right := throw_bind_except

/-- With more levels than the text is long, neither their number nor the limit matters. -/
theorem readFresh_congr (limit limit' : Nat) {text : List Char} {n n' : Nat} (h : text.length < n)
    (h' : text.length < n') :
    Grammar.default.readFresh limit n text = Grammar.default.readFresh limit' n' text ∧
      ∀ l input, Grammar.default.readFresh limit n text ≠ .error (.tooDeep l input) := by
  induction hlen : text.length using Nat.strongRecOn generalizing text n n' with
  | ind k ih =>
    obtain ⟨n, rfl⟩ := Nat.exists_eq_succ_of_ne_zero (Nat.ne_of_gt (Nat.zero_lt_of_lt h))
    obtain ⟨n', rfl⟩ := Nat.exists_eq_succ_of_ne_zero (Nat.ne_of_gt (Nat.zero_lt_of_lt h'))
    refine Simulation.eq.readStep fun q hq => ?_
    have hlt := length_lt_of_mem_pieces hq
    exact ih q.length (by omega) (by omega) (by omega) rfl

/-- Reading afresh with no limit on depth. -/
def Grammar.readUnlimited (g : Grammar) (text : List Char) : Except ReadError Expr :=
  g.readFresh text.length (text.length + 1) text

theorem readFresh_eq_readUnlimited {text : List Char} {limit n : Nat} (h : text.length < n) :
    Grammar.default.readFresh limit n text = Grammar.default.readUnlimited text :=
  (readFresh_congr limit _ h (Nat.lt_succ_self _)).1

theorem readUnlimited_ne_tooDeep (text : List Char) (limit : Nat) (input : List Char) :
    Grammar.default.readUnlimited text ≠ .error (.tooDeep limit input) :=
  (readFresh_congr _ 0 (Nat.lt_succ_self _) (Nat.lt_succ_self _)).2 limit input

/-- Reading without a limit takes one step and reads the pieces without a limit. -/
theorem readUnlimited_eq (text : List Char) : Grammar.default.readUnlimited text =
    readStep Grammar.default Grammar.default.readUnlimited text := by
  refine (Simulation.eq.readStep fun q hq => ?_).1
  have hlt := length_lt_of_mem_pieces hq
  exact ⟨readFresh_eq_readUnlimited hlt, fun limit input h =>
    readUnlimited_ne_tooDeep q limit input (by rw [← readFresh_eq_readUnlimited hlt]; exact h)⟩

/-- The left reading is given up, or both agree. -/
def Simulation.orTooDeep : Simulation (Except ReadError) (Except ReadError) where
  rel x y := (∃ limit input, x = .error (.tooDeep limit input)) ∨ x = y
  pure a := .inr rfl
  throw _ := .inr rfl
  bind := by
    rintro α β x y f g (⟨limit, input, rfl⟩ | rfl) hf
    · exact .inl ⟨limit, input, rfl⟩
    · cases x with
      | error e => exact .inr rfl
      | ok a => exact hf a
  throw_bind_left := throw_bind_except
  throw_bind_right := throw_bind_except

/-- A limit changes nothing but that reading may be given up. -/
theorem readFresh_eq_or_tooDeep (limit n : Nat) (text : List Char) :
    (∃ l input, Grammar.default.readFresh limit n text = .error (.tooDeep l input)) ∨
      Grammar.default.readFresh limit n text = Grammar.default.readUnlimited text := by
  induction n generalizing text with
  | zero => exact .inl ⟨limit, text, rfl⟩
  | succ n ih =>
    rw [readUnlimited_eq]
    exact Simulation.orTooDeep.readStep fun q _ => ih q

end Formula
