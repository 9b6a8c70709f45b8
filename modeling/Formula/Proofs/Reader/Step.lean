import Formula.Proofs.Reader.Cached

/-!
# Steps of reading by what they make

What a step of reading makes of a text is an error, a tree, or a tree of the trees of its parts
(`Step`). In the default grammar every text has such a step, however the parts are read
(`exists_step`): a slice of the text that a builder takes always exists, and the only errors of the step
itself are about brackets that do not nest and about texts in the wrong format. `StepOf` says which
steps there are; brackets nest in all parts.

From this follows what all of reading keeps (`stays_readWithin`): a property of what is remembered, and
the kinds of errors. Where that depends on how many levels are left, so do the texts that are read
(`stays_readWithin_of_levels`).
-/

set_option autoImplicit false

namespace Formula

open Lexeme

/-- What a step of reading makes of a text. -/
inductive Step where
  | fail (e : ReadError)
  | leaf (e : Expr)
  | unary (side : Side) (op : UnaryOperator) (operand : List Char)
  | binary (left : List Char) (op : BinaryOperator) (right : List Char)
  | assign (target value : List Char)
  | parens (inner : List Char)
  | call (name : String) (args : List (List Char))
  | collection (kind : CollectionKind) (elements : List (List Char))

namespace Step

/-- The texts that are read. -/
def parts : Step → List (List Char)
  | fail _ | leaf _ => []
  | unary _ _ operand => [operand]
  | binary left _ right => [left, right]
  | assign target value => [target, value]
  | parens inner => [inner]
  | call _ args => args
  | collection _ elements => elements

/-- Reads the parts and builds the tree. The text is what an assignment to something else than a
variable is blamed on. -/
def build {m : Type → Type} [Monad m] [MonadExceptOf ReadError m] (read : List Char → m Expr)
    (text : List Char) : Step → m Expr
  | fail e => throw e
  | leaf e => pure e
  | unary side op operand => do
    let e ← read operand
    pure (.unary side op e)
  | binary left op right => do
    let l ← read left
    let r ← read right
    pure (.binary l op r)
  | assign target value => do
    let t ← read target
    match t with
    | .variable name => do
      let v ← read value
      pure (.assign name v)
    | _ => throw (.malformed text)
  | parens inner => do
    let e ← read inner
    pure (.parens e)
  | call name args => do
    let es ← readAll read args
    pure (.call name es)
  | collection kind elements => do
    let es ← readAll read elements
    pure (.collection kind es)

end Step

/-- The steps that the default grammar takes on texts. -/
inductive StepOf (text : List Char) : Step → Prop
  | malformed : Nested text → StepOf text (.fail (.malformed text))
  | unbalanced : ¬ Nested text → StepOf text (.fail (.unbalanced text))
  | constant {w : List Char} {kind : Constant} : Constant.ofSymbol? w = some kind →
      StepOf text (.leaf (.constant kind))
  | named {w : List Char} : w ∈ name.lang → w ∉ constant.lang →
      StepOf text (.leaf (.variable (String.ofList w)))
  | number {w : List Char} {x : Float} : w ∈ number.lang → Number.read? w = some x →
      StepOf text (.leaf (.ofFloat x))
  | before {front w back : List Char} {op : UnaryOperator} : text = front ++ w ++ back →
      UnaryOperator.ofSymbol? .before w = some op → Nested back → StepOf text (.unary .before op back)
  | after {front w back : List Char} {op : UnaryOperator} : text = front ++ w ++ back →
      UnaryOperator.ofSymbol? .after w = some op → Nested front → StepOf text (.unary .after op front)
  | binary {front w back : List Char} {op : BinaryOperator} : text = front ++ w ++ back →
      BinaryOperator.ofSymbol? w = some op → Nested front → Nested back →
      StepOf text (.binary front op back)
  | assign {front w back : List Char} : text = front ++ w ++ back → Nested front → Nested back →
      StepOf text (.assign front back)
  | parens {z s y : List Char} : text = z ++ ('(' :: (s ++ [')'])) ++ y → Nested s →
      StepOf text (.parens s)
  | call {x w z s y : List Char} : text = x ++ w ++ (z ++ ('(' :: (s ++ [')'])) ++ y) →
      w ∈ name.lang → Nested s → StepOf text (.call (String.ofList w) (listPieces s))
  | tuple {z s y : List Char} : text = z ++ ('(' :: (s ++ [')'])) ++ y → Nested s →
      (Text.isAllBlank s = true ∨ ∃ h, hide? .brackets s = some h ∧ ',' ∈ h.text) →
      StepOf text (.collection .tuple (listPieces s))
  | vector {z s y : List Char} : text = z ++ ('[' :: (s ++ [']'])) ++ y → Nested s →
      StepOf text (.collection .vector (listPieces s))

/-! ## Parts -/

theorem nested_of_mem_listPieces {q list : List Char} (h : q ∈ listPieces list) : Nested q := by
  obtain ⟨segs, hv, rfl, part, hpart, rfl⟩ := exists_part_of_mem_listPieces h
  exact nested_texts (hv.part hpart)

/-- Brackets nest in the parts. -/
theorem StepOf.nested {text q : List Char} {s : Step} (h : StepOf text s) (hq : q ∈ s.parts) :
    Nested q := by
  cases h with
  | malformed | unbalanced | constant | named | number => cases hq
  | before _ _ hback => exact List.mem_singleton.1 hq ▸ hback
  | after _ _ hfront => exact List.mem_singleton.1 hq ▸ hfront
  | binary _ _ hfront hback | assign _ hfront hback =>
    rcases List.mem_pair.1 hq with rfl | rfl
    · exact hfront
    · exact hback
  | parens _ hs => exact List.mem_singleton.1 hq ▸ hs
  | call | tuple | vector => exact nested_of_mem_listPieces hq

/-- The errors of a step itself. -/
theorem StepOf.eq_fail {text : List Char} {s : Step} (h : StepOf text s) {e : ReadError}
    (hs : s = .fail e) : (e = .malformed text ∧ Nested text) ∨ (e = .unbalanced text ∧ ¬ Nested text) := by
  cases h with
  | malformed hnested => cases hs; exact .inl ⟨rfl, hnested⟩
  | unbalanced hnested => cases hs; exact .inr ⟨rfl, hnested⟩
  | _ => cases hs

/-! ## Building from an occurrence -/

section

variable {m : Type → Type} [Monad m] [LawfulMonad m] [MonadExceptOf ReadError m]
  {read : List Char → m Expr} {text front w back : List Char}

theorem buildPlain_binary {op : BinaryOperator} (ht : text = front ++ w ++ back)
    (hop : BinaryOperator.ofSymbol? w = some op) :
    buildPlain read .binary text ⟨w, Text.byteSize front⟩ =
      Step.build read text (.binary front op back) := by
  simp only [buildPlain, buildBinary, orThrow, hop, before?_occurrence ht, from?_occurrence ht,
    pure_bind, Step.build]

theorem buildPlain_assignment (ht : text = front ++ w ++ back) :
    buildPlain read .assignment text ⟨w, Text.byteSize front⟩ =
      Step.build read text (.assign front back) := by
  rw [buildPlain, buildAssignment, before?_occurrence ht]
  refine (pure_bind front _).trans (bind_congr fun target => ?_)
  cases target <;> simp only [orThrow, from?_occurrence ht, pure_bind]

theorem buildPlain_before {op : UnaryOperator} (ht : text = front ++ w ++ back)
    (hop : UnaryOperator.ofSymbol? .before w = some op) :
    buildPlain read .before text ⟨w, Text.byteSize front⟩ =
      Step.build read text (.unary .before op back) := by
  simp only [buildPlain, orThrow, hop, from?_occurrence ht, pure_bind, Step.build]

theorem buildPlain_after {op : UnaryOperator} (ht : text = front ++ w ++ back)
    (hop : UnaryOperator.ofSymbol? .after w = some op) :
    buildPlain read .after text ⟨w, Text.byteSize front⟩ =
      Step.build read text (.unary .after op front) := by
  simp only [buildPlain, orThrow, hop, before?_occurrence ht, pure_bind, Step.build]

theorem readList_eq {s : List Char} (hs : Nested s) :
    readList read s = readAll read (listPieces s) := by
  obtain ⟨h, hh⟩ := Option.isSome_iff_exists.1 (hide?_isSome_iff.2 hs)
  simp only [readList, listPieces, hh, orThrow, pure_bind]
  split
  · rfl
  · rfl

theorem interior?_group {o c : Char} (hoc : Grouping.brackets.closer? o = some c) (s : List Char) :
    Text.interior? (o :: (s ++ [c])) = some s :=
  have ⟨_, _, ho, hc⟩ := closer_of_closer? hoc
  Text.interior?_eq ho hc s

theorem buildPlain_call {z s y : List Char}
    (ht : text = front ++ w ++ (z ++ ('(' :: (s ++ [')'])) ++ y)) (hz : Blank z) (hs : Nested s)
    (hy : Blank y) : buildPlain read .call text ⟨w, Text.byteSize front⟩ =
      Step.build read text (.call (String.ofList w) (listPieces s)) := by
  have hoc : Grouping.brackets.closer? '(' = some ')' := rfl
  simp only [buildPlain, buildCall, orThrow, from?_occurrence ht, enclosedGroup?_group hz hy hoc hs,
    inside, interior?_group hoc, pure_bind, readList_eq hs, Step.build]

/-- Building a tuple, a vector or parentheses from a group. -/
theorem buildPlain_group {o c : Char} {s : List Char} {index : Nat} (hs : Nested s)
    (hoc : Grouping.brackets.closer? o = some c) :
    buildPlain read .tuple text ⟨o :: (s ++ [c]), index⟩ =
        Step.build read text (.collection .tuple (listPieces s)) ∧
      buildPlain read .vector text ⟨o :: (s ++ [c]), index⟩ =
        Step.build read text (.collection .vector (listPieces s)) ∧
      buildPlain read .parentheses text ⟨o :: (s ++ [c]), index⟩ =
        Step.build read text (.parens s) := by
  simp only [buildPlain, inside, orThrow, interior?_group hoc, pure_bind, readList_eq hs, Step.build,
    and_self]

end

/-! ## Steps of planned texts -/

/-- Reading a text takes a step: no texts but its parts are passed on, and the tree is built from theirs. -/
structure Takes (text : List Char) (s : Step) : Prop where
  pieces : ∀ q ∈ Grammar.default.pieces text, q ∈ s.parts
  readStep : ∀ read : List Char → Except ReadError Expr,
    readStep Grammar.default read text = s.build read text

section

variable {text front w back : List Char}

theorem takes_of_plan {builder : Builder} {token : Token} {s : Step}
    (hplan : Grammar.default.plan text = .ok (builder, token))
    (hpieces : ∀ q ∈ buildPieces builder text token, q ∈ s.parts)
    (hbuild : ∀ read : List Char → Except ReadError Expr,
      buildPlain read builder text token = s.build read text) : Takes text s where
  pieces q hq := by
    rw [Grammar.pieces, hplan] at hq
    exact hpieces q hq
  readStep read := by
    rw [readStep_eq throw_bind_except, hplan]
    exact hbuild read

theorem Takes.readUnlimited {s : Step} (h : Takes text s) : Grammar.default.readUnlimited text =
    s.build Grammar.default.readUnlimited text := by
  rw [readUnlimited_eq, h.readStep]

theorem takes_binary {op : BinaryOperator} (ht : text = front ++ w ++ back)
    (hop : BinaryOperator.ofSymbol? w = some op)
    (hplan : Grammar.default.plan text = .ok (.binary, ⟨w, Text.byteSize front⟩)) :
    Takes text (.binary front op back) := by
  refine takes_of_plan hplan (fun q hq => ?_) fun read => buildPlain_binary ht hop
  rw [buildPieces, before?_occurrence ht, from?_occurrence ht] at hq
  exact hq

theorem takes_assign (ht : text = front ++ w ++ back)
    (hplan : Grammar.default.plan text = .ok (.assignment, ⟨w, Text.byteSize front⟩)) :
    Takes text (.assign front back) := by
  refine takes_of_plan hplan (fun q hq => ?_) fun read => buildPlain_assignment ht
  rw [buildPieces, before?_occurrence ht, from?_occurrence ht] at hq
  exact hq

theorem takes_before {op : UnaryOperator} (ht : text = front ++ w ++ back)
    (hop : UnaryOperator.ofSymbol? .before w = some op)
    (hplan : Grammar.default.plan text = .ok (.before, ⟨w, Text.byteSize front⟩)) :
    Takes text (.unary .before op back) := by
  refine takes_of_plan hplan (fun q hq => ?_) fun read => buildPlain_before ht hop
  rw [buildPieces, from?_occurrence ht] at hq
  exact hq

theorem takes_after {op : UnaryOperator} (ht : text = front ++ w ++ back)
    (hop : UnaryOperator.ofSymbol? .after w = some op)
    (hplan : Grammar.default.plan text = .ok (.after, ⟨w, Text.byteSize front⟩)) :
    Takes text (.unary .after op front) := by
  refine takes_of_plan hplan (fun q hq => ?_) fun read => buildPlain_after ht hop
  rw [buildPieces, before?_occurrence ht] at hq
  exact hq

variable {token : Token}

theorem takes_constant {kind : Constant} (hkind : Constant.ofSymbol? token.text = some kind)
    (hplan : Grammar.default.plan text = .ok (.constant, token)) :
    Takes text (.leaf (.constant kind)) :=
  takes_of_plan hplan (fun q hq => by cases hq) fun read => by
    simp only [buildPlain, hkind, orThrow, pure_bind, Step.build]

theorem takes_variable (hplan : Grammar.default.plan text = .ok (.variable, token)) :
    Takes text (.leaf (.variable (String.ofList token.text))) :=
  takes_of_plan hplan (fun q hq => by cases hq) fun read => rfl

theorem takes_number {x : Float} (hx : Number.read? token.text = some x)
    (hplan : Grammar.default.plan text = .ok (.number, token)) : Takes text (.leaf (.ofFloat x)) :=
  takes_of_plan hplan (fun q hq => by cases hq) fun read => by
    simp only [buildPlain, hx, orThrow, pure_bind, Step.build]

theorem takes_call {z s y : List Char} (ht : text = front ++ w ++ (z ++ ('(' :: (s ++ [')'])) ++ y))
    (hz : Blank z) (hs : Nested s) (hy : Blank y)
    (hplan : Grammar.default.plan text = .ok (.call, ⟨w, Text.byteSize front⟩)) :
    Takes text (.call (String.ofList w) (listPieces s)) := by
  have hoc : Grouping.brackets.closer? '(' = some ')' := rfl
  refine takes_of_plan hplan (fun q hq => ?_) fun read => buildPlain_call ht hz hs hy
  simpa only [buildPieces, Step.parts, from?_occurrence ht, Option.toList_some, List.filterMap_cons,
    enclosedGroup?_group hz hy hoc hs, List.filterMap_nil, List.flatMap_cons, List.flatMap_nil,
    List.append_nil, interior?_group hoc] using hq

theorem takes_tuple {s : List Char} {index : Nat} (hs : Nested s)
    (hplan : Grammar.default.plan text = .ok (.tuple, ⟨'(' :: (s ++ [')']), index⟩)) :
    Takes text (.collection .tuple (listPieces s)) := by
  have hoc : Grouping.brackets.closer? '(' = some ')' := rfl
  refine takes_of_plan hplan (fun q hq => ?_) fun read => (buildPlain_group hs hoc).1
  simpa only [buildPieces, Step.parts, interior?_group hoc, Option.toList_some, List.flatMap_cons,
    List.flatMap_nil, List.append_nil] using hq

theorem takes_vector {s : List Char} {index : Nat} (hs : Nested s)
    (hplan : Grammar.default.plan text = .ok (.vector, ⟨'[' :: (s ++ [']']), index⟩)) :
    Takes text (.collection .vector (listPieces s)) := by
  have hoc : Grouping.brackets.closer? '[' = some ']' := rfl
  refine takes_of_plan hplan (fun q hq => ?_) fun read => (buildPlain_group hs hoc).2.1
  simpa only [buildPieces, Step.parts, interior?_group hoc, Option.toList_some, List.flatMap_cons,
    List.flatMap_nil, List.append_nil] using hq

theorem takes_parens {s : List Char} {index : Nat} (hs : Nested s)
    (hplan : Grammar.default.plan text = .ok (.parentheses, ⟨'(' :: (s ++ [')']), index⟩)) :
    Takes text (.parens s) := by
  have hoc : Grouping.brackets.closer? '(' = some ')' := rfl
  refine takes_of_plan hplan (fun q hq => ?_) fun read => (buildPlain_group hs hoc).2.2
  simpa only [buildPieces, Step.parts, interior?_group hoc, Option.toList_some] using hq

end

/-! ### Trees of steps -/

namespace Step

variable {read : List Char → Except ReadError Expr} {text : List Char}

theorem build_unary {side : Side} {op : UnaryOperator} {operand : List Char} {e : Expr}
    (h : read operand = .ok e) : build read text (.unary side op operand) = .ok (.unary side op e) := by
  rw [build, h]
  rfl

theorem build_binary {op : BinaryOperator} {left right : List Char} {l r : Expr}
    (hl : read left = .ok l) (hr : read right = .ok r) :
    build read text (.binary left op right) = .ok (.binary l op r) := by
  rw [build, hl, hr]
  rfl

theorem build_assign {target value : List Char} {name : String} {e : Expr}
    (ht : read target = .ok (.variable name)) (hv : read value = .ok e) :
    build read text (.assign target value) = .ok (.assign name e) := by
  simp only [build, ht, hv]
  rfl

theorem build_parens {inner : List Char} {e : Expr} (h : read inner = .ok e) :
    build read text (.parens inner) = .ok (.parens e) := by
  rw [build, h]
  rfl

theorem build_call {name : String} {args : List (List Char)} {es : List Expr}
    (h : readAll read args = .ok es) : build read text (.call name args) = .ok (.call name es) := by
  rw [build, h]
  rfl

theorem build_collection {kind : CollectionKind} {elements : List (List Char)} {es : List Expr}
    (h : readAll read elements = .ok es) :
    build read text (.collection kind elements) = .ok (.collection kind es) := by
  rw [build, h]
  rfl

end Step

/-! ## Every text has a step -/

/-- Building from an occurrence is a step, however the parts are read. -/
structure Step.Builds (s : Step) (text : List Char) (builder : Builder) (token : Token) : Prop where
  of : StepOf text s
  parts : ∀ q ∈ s.parts, q ∈ buildPieces builder text token
  eq : ∀ (m : Type → Type) [Monad m] [LawfulMonad m] [MonadExceptOf ReadError m],
    (∀ {α β : Type} (e : ReadError) (f : α → m β), (throw e >>= f : m β) = throw e) →
    ∀ read : List Char → m Expr, buildPlain read builder text token = s.build read text

/-- Where the symbol of an operator belongs to none, the text is in the wrong format. -/
theorem builds_malformed {text : List Char} {builder : Builder} {token : Token} (h : Nested text)
    (hb : ∀ (m : Type → Type) [Monad m] [LawfulMonad m] [MonadExceptOf ReadError m],
      (∀ {α β : Type} (e : ReadError) (f : α → m β), (throw e >>= f : m β) = throw e) →
      ∀ read : List Char → m Expr, buildPlain read builder text token = throw (.malformed text)) :
    ∃ s : Step, s.Builds text builder token :=
  ⟨.fail (.malformed text), .malformed h, fun q hq => by (cases hq), hb⟩

section

variable {text : List Char} {builder : Builder} {token : Token}

/-- What is split at an operator is a step. -/
theorem exists_builds_operator {front w back : List Char} (hb : builder.splits = true)
    (ht : text = front ++ w ++ back) (hnested : Nested text) (hfront : Nested front)
    (hback : Nested back) : ∃ s : Step, s.Builds text builder ⟨w, Text.byteSize front⟩ := by
  have hpieces : ∀ q, (q = front ∨ q = back) →
      q ∈ (Text.before? (Text.byteSize front) text).toList ++
        (Text.from? (Token.stop ⟨w, Text.byteSize front⟩) text).toList := by
    rw [before?_occurrence ht, from?_occurrence ht]
    exact fun q hq => List.mem_pair.2 hq
  cases builder with
  | binary =>
    cases hop : BinaryOperator.ofSymbol? w with
    | none =>
      exact builds_malformed hnested fun m _ _ _ hthrow read => by
        simp only [buildPlain, hop, orThrow, hthrow]
    | some op =>
      exact ⟨.binary front op back, .binary ht hop hfront hback,
        fun q hq => hpieces q (List.mem_pair.1 hq), fun m _ _ _ _ read => buildPlain_binary ht hop⟩
  | assignment =>
    exact ⟨.assign front back, .assign ht hfront hback, fun q hq => hpieces q (List.mem_pair.1 hq),
      fun m _ _ _ _ read => buildPlain_assignment ht⟩
  | before =>
    cases hop : UnaryOperator.ofSymbol? .before w with
    | none =>
      exact builds_malformed hnested fun m _ _ _ hthrow read => by
        simp only [buildPlain, hop, orThrow, hthrow]
    | some op =>
      refine ⟨.unary .before op back, .before ht hop hback, fun q hq => ?_,
        fun m _ _ _ _ read => buildPlain_before ht hop⟩
      rw [List.mem_singleton.1 hq, buildPieces, from?_occurrence ht]
      exact List.mem_singleton_self back
  | after =>
    cases hop : UnaryOperator.ofSymbol? .after w with
    | none =>
      exact builds_malformed hnested fun m _ _ _ hthrow read => by
        simp only [buildPlain, hop, orThrow, hthrow]
    | some op =>
      refine ⟨.unary .after op front, .after ht hop hfront, fun q hq => ?_,
        fun m _ _ _ _ read => buildPlain_after ht hop⟩
      rw [List.mem_singleton.1 hq, buildPieces, before?_occurrence ht]
      exact List.mem_singleton_self front
  | _ => cases hb

/-- What is planned is a step. -/
theorem exists_builds (h : Planned text builder token) : ∃ s : Step, s.Builds text builder token := by
  have hnested := h.nested
  cases h with
  | operator hb ht _ _ hfront hback => exact exists_builds_operator hb ht hnested hfront hback
  | constant _ hw =>
    cases hkind : Constant.ofSymbol? token.text with
    | none =>
      exact builds_malformed hnested fun m _ _ _ hthrow read => by
        simp only [buildPlain, hkind, orThrow, hthrow]
    | some kind =>
      exact ⟨.leaf (.constant kind), .constant hkind, fun q hq => by (cases hq),
        fun m _ _ _ _ read => by simp only [buildPlain, hkind, orThrow, pure_bind, Step.build]⟩
  | named _ hw hnot =>
    exact ⟨.leaf _, .named hw hnot, fun q hq => by (cases hq), fun m _ _ _ _ read => rfl⟩
  | number _ hw =>
    cases hx : Number.read? token.text with
    | none =>
      exact builds_malformed hnested fun m _ _ _ hthrow read => by
        simp only [buildPlain, hx, orThrow, hthrow]
    | some x =>
      exact ⟨.leaf (.ofFloat x), .number hw hx, fun q hq => by (cases hq),
        fun m _ _ _ _ read => by simp only [buildPlain, hx, orThrow, pure_bind, Step.build]⟩
  | @call x w z s y ht _ hw hz hs hy =>
    have hoc : Grouping.brackets.closer? '(' = some ')' := rfl
    refine ⟨.call _ _, .call ht hw hs, fun q hq => ?_,
      fun m _ _ _ _ read => buildPlain_call ht hz hs hy⟩
    simp only [buildPieces, from?_occurrence ht, Option.toList_some, List.filterMap_cons,
      enclosedGroup?_group hz hy hoc hs, List.filterMap_nil, List.flatMap_cons, List.flatMap_nil,
      List.append_nil, interior?_group hoc]
    exact hq
  | @tuple z s y ht _ hs _ hcomma =>
    have hoc : Grouping.brackets.closer? '(' = some ')' := rfl
    refine ⟨.collection .tuple _, .tuple ht hs hcomma, fun q hq => ?_,
      fun m _ _ _ _ read => (buildPlain_group hs hoc).1⟩
    simpa only [buildPieces, Step.parts, interior?_group hoc, Option.toList_some, List.flatMap_cons,
      List.flatMap_nil, List.append_nil] using hq
  | @vector z s y ht _ hs _ =>
    have hoc : Grouping.brackets.closer? '[' = some ']' := rfl
    refine ⟨.collection .vector _, .vector ht hs, fun q hq => ?_,
      fun m _ _ _ _ read => (buildPlain_group hs hoc).2.1⟩
    simpa only [buildPieces, Step.parts, interior?_group hoc, Option.toList_some, List.flatMap_cons,
      List.flatMap_nil, List.append_nil] using hq
  | @parentheses z s y ht _ hs _ =>
    have hoc : Grouping.brackets.closer? '(' = some ')' := rfl
    refine ⟨.parens s, .parens ht hs, fun q hq => ?_,
      fun m _ _ _ _ read => (buildPlain_group hs hoc).2.2⟩
    simpa only [buildPieces, Step.parts, interior?_group hoc, Option.toList_some] using hq

end

/-- A step of reading is one of the steps, however the parts are read. -/
theorem exists_step (text : List Char) : ∃ s : Step, StepOf text s ∧
    (∀ q ∈ s.parts, q ∈ Grammar.default.pieces text) ∧
    ∀ (m : Type → Type) [Monad m] [LawfulMonad m] [MonadExceptOf ReadError m],
      (∀ {α β : Type} (e : ReadError) (f : α → m β), (throw e >>= f : m β) = throw e) →
      ∀ read : List Char → m Expr, readStep Grammar.default read text = s.build read text := by
  cases hplan : Grammar.default.plan text with
  | error e =>
    refine ⟨.fail e, ?_, fun q hq => by (cases hq), fun m _ _ _ hthrow read => ?_⟩
    · rcases plan_eq_error hplan with ⟨rfl, h⟩ | ⟨rfl, h⟩
      · exact .malformed h
      · exact .unbalanced h
    · rw [readStep_eq hthrow, hplan]
      rfl
  | ok found =>
    obtain ⟨builder, token⟩ := found
    obtain ⟨s, hs⟩ := exists_builds (planned_of_plan hplan)
    refine ⟨s, hs.of, fun q hq => ?_, fun m _ _ _ hthrow read => ?_⟩
    · rw [Grammar.pieces, hplan]
      exact hs.parts q hq
    · rw [readStep_eq hthrow, hplan]
      exact hs.eq m hthrow read

/-! ## What all of reading keeps -/

/-- A computation keeps a property of what is remembered, and its errors are of the given kinds. -/
def ReadM.Stays {α : Type} (I : Cache → Prop) (ok : ReadError → Prop) (x : ReadM α) : Prop :=
  ∀ cache, I cache → I (x.result cache).2 ∧ ∀ e, (x.result cache).1 = .error e → ok e

section

variable {I : Cache → Prop} {ok : ReadError → Prop} {α β : Type}

theorem ReadM.stays_pure (a : α) : ReadM.Stays I ok (pure a : ReadM α) :=
  fun _ h => ⟨h, fun _ he => by cases he⟩

theorem ReadM.stays_throw {e : ReadError} (h : ok e) : ReadM.Stays I ok (throw e : ReadM α) := by
  refine fun _ hI => ⟨hI, fun e' he => ?_⟩
  cases he
  exact h

theorem ReadM.Stays.bind {x : ReadM α} {f : α → ReadM β} (hx : ReadM.Stays I ok x)
    (hf : ∀ a, ReadM.Stays I ok (f a)) : ReadM.Stays I ok (x >>= f) := by
  intro cache h
  obtain ⟨hI, he⟩ := hx cache h
  rw [ReadM.result_bind]
  rcases hresult : x.result cache with ⟨e | a, cache'⟩
  · rw [hresult] at hI he
    refine ⟨hI, fun e' he' => ?_⟩
    cases he'
    exact he e rfl
  · rw [hresult] at hI
    exact hf a cache' hI

theorem ReadM.stays_readAll {read : List Char → ReadM Expr} {texts : List (List Char)}
    (h : ∀ q ∈ texts, ReadM.Stays I ok (read q)) : ReadM.Stays I ok (readAll read texts) := by
  induction texts with
  | nil => exact ReadM.stays_pure []
  | cons q texts ih =>
    refine (h q List.mem_cons_self).bind fun e => ?_
    exact (ih fun q hq => h q (List.mem_cons_of_mem _ hq)).bind fun es => ReadM.stays_pure (e :: es)

/-- A step stays when reading its parts does. -/
theorem ReadM.stays_build {read : List Char → ReadM Expr} {text : List Char} {s : Step}
    (h : ∀ q ∈ s.parts, ReadM.Stays I ok (read q)) (hfail : ∀ e, s = .fail e → ok e)
    (hmalformed : ok (.malformed text)) : ReadM.Stays I ok (s.build read text) := by
  cases s with
  | fail e => exact ReadM.stays_throw (hfail e rfl)
  | leaf e => exact ReadM.stays_pure e
  | unary side op operand =>
    exact (h operand List.mem_cons_self).bind fun e => ReadM.stays_pure _
  | parens inner => exact (h inner List.mem_cons_self).bind fun e => ReadM.stays_pure _
  | binary left op right =>
    refine (h left List.mem_cons_self).bind fun l => ?_
    exact (h right (List.mem_cons_of_mem _ List.mem_cons_self)).bind fun r => ReadM.stays_pure _
  | assign target value =>
    refine (h target List.mem_cons_self).bind fun t => ?_
    cases t with
    | «variable» name =>
      exact (h value (List.mem_cons_of_mem _ List.mem_cons_self)).bind fun v => ReadM.stays_pure _
    | _ => exact ReadM.stays_throw hmalformed
  | call name args => exact (ReadM.stays_readAll h).bind fun es => ReadM.stays_pure _
  | collection kind elements => exact (ReadM.stays_readAll h).bind fun es => ReadM.stays_pure _

/-- Reading with some levels left stays on texts of a set for that number when the parts of their steps
are in the set for one level less, the errors of their steps are of the given kinds, and their results
may be remembered. -/
theorem stays_readWithin_of_levels {T : Nat → Set (List Char)} {limit : Nat}
    (hstep : ∀ n, ∀ p ∈ T (n + 1), ∀ s, StepOf p s → (∀ q ∈ s.parts, q ∈ Grammar.default.pieces p) →
      (∀ q ∈ s.parts, q ∈ T n) ∧ ∀ e, s = .fail e → ok e)
    (hmalformed : ∀ n, ∀ p ∈ T n, ok (.malformed p)) (hdeep : ∀ p ∈ T 0, ok (.tooDeep limit p))
    (hinsert : ∀ n, ∀ p ∈ T n, ∀ e cache, I cache → I (cache.insert (cacheKey p) e)) (n : Nat)
    {p : List Char} (hp : p ∈ T n) :
    ReadM.Stays I ok (Grammar.default.readWithin limit n p) := by
  induction n generalizing p with
  | zero =>
    intro cache hI
    rw [readWithin_result]
    cases cache.get? (cacheKey p) with
    | some e => exact ⟨hI, fun _ he => by cases he⟩
    | none =>
      refine ⟨hI, fun e he => ?_⟩
      cases he
      exact hdeep p hp
  | succ n ih =>
    intro cache hI
    rw [readWithin_result]
    cases cache.get? (cacheKey p) with
    | some e => exact ⟨hI, fun _ he => by cases he⟩
    | none =>
      obtain ⟨s, hs, hpieces, heq⟩ := exists_step p
      obtain ⟨hparts, hfail⟩ := hstep n p hp s hs hpieces
      obtain ⟨hI', he⟩ :=
        ReadM.stays_build (fun q hq => ih (hparts q hq)) hfail (hmalformed (n + 1) p hp) cache hI
      dsimp only
      rw [heq ReadM ReadM.throw_bind]
      rcases hresult : (s.build (Grammar.default.readWithin limit n) p).result cache with ⟨e | e, cache'⟩
      · rw [hresult] at hI' he
        exact ⟨hI', he⟩
      · rw [hresult] at hI'
        exact ⟨hinsert (n + 1) p hp e cache' hI', fun _ he => by cases he⟩

/-- Reading the texts of a set stays when the parts of their steps are in the set, the errors of their
steps are of the given kinds, and results for texts of the set may be remembered. -/
theorem stays_readWithin {T : Set (List Char)}
    (hstep : ∀ p ∈ T, ∀ s, StepOf p s → (∀ q ∈ s.parts, q ∈ T) ∧ ∀ e, s = .fail e → ok e)
    (hmalformed : ∀ p ∈ T, ok (.malformed p)) (hdeep : ∀ limit, ∀ p ∈ T, ok (.tooDeep limit p))
    (hinsert : ∀ p ∈ T, ∀ e cache, I cache → I (cache.insert (cacheKey p) e)) (limit n : Nat)
    {p : List Char} (hp : p ∈ T) :
    ReadM.Stays I ok (Grammar.default.readWithin limit n p) :=
  stays_readWithin_of_levels (T := fun _ => T) (fun _ p hp s hs _ => hstep p hp s hs)
    (fun _ => hmalformed) (hdeep limit) (fun _ => hinsert) n hp

end

end Formula
