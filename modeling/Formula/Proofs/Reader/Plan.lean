import Formula.Proofs.Grammar.UnarySearch
import Formula.Proofs.Reader.ChainSearch
import Formula.Proofs.Text.Groups
import Formula.Reader.Basic

/-!
# What one step of reading does

A step of reading first finds what to build (`Grammar.plan`), also where groups have to be hidden for
this, and then builds it (`readStep_eq`). In the default grammar an occurrence that was found is a part
of the text (`planned_of_plan`): hiding the groups does not show. Where groups were hidden it is an
operator between them, whose place in the text exists (`operator_of_hidden`), so planning fails for two
reasons only (`plan_eq_error`).
-/

set_option autoImplicit false

namespace Formula

/-- What to build from a text, and the occurrence to build it from. -/
def Grammar.plan (g : Grammar) (text : List Char) : Except ReadError (Builder × Token) :=
  match g.select? (fun _ => true) text with
  | none => .error (.malformed text)
  | some (.aroundGroups, _) =>
    match hide? .brackets text with
    | none => .error (.unbalanced text)
    | some h =>
      match g.select? (fun r => r.name ≠ aroundGroupsName) h.text with
      | none => .error (.malformed text)
      | some (builder, token) =>
        match h.offset? token.index with
        | none => .error (.misplaced text)
        | some index => .ok (builder, ⟨h.restore token.text, index⟩)
  | some found => .ok found

theorem exists_rule_of_select? {g : Grammar} {tried : Rule → Bool} {text : List Char}
    {builder : Builder} {token : Token} (h : g.select? tried text = some (builder, token)) :
    ∃ rule ∈ g.rules, rule.builder? = some builder := by
  obtain ⟨⟨rule, finder⟩, hmem, hfound⟩ := List.exists_of_findSome?_eq_some h
  refine ⟨rule, (List.of_mem_zip hmem).1, ?_⟩
  dsimp only at hfound
  split at hfound
  · split at hfound
    · cases hfound
    · next hbuilder =>
      obtain ⟨_, -, heq⟩ := Option.map_eq_some_iff.1 hfound
      cases heq
      exact hbuilder
  · cases hfound

/-- What is planned is built by a rule of the grammar. -/
theorem exists_rule_of_plan {g : Grammar} {text : List Char} {builder : Builder} {token : Token}
    (h : g.plan text = .ok (builder, token)) : ∃ rule ∈ g.rules, rule.builder? = some builder := by
  rw [Grammar.plan] at h
  split at h
  · cases h
  · split at h
    · cases h
    · split at h
      · cases h
      · next hselect =>
        split at h
        · cases h
        · cases h
          exact exists_rule_of_select? hselect
  · next hselect =>
    cases h
    exact exists_rule_of_select? hselect

section

variable {m : Type → Type} [Monad m] [LawfulMonad m] [MonadExceptOf ReadError m]

/-- A step of reading builds what is planned. -/
theorem readStepWith_eq (hthrow : ∀ {α β : Type} (e : ReadError) (f : α → m β),
    (throw e >>= f : m β) = throw e) (g : Grammar) (build : Builder → List Char → Token → m Expr)
    (text : List Char) : readStepWith g build text = match g.plan text with
      | .error e => throw e
      | .ok (builder, token) => build builder text token := by
  rw [readStepWith, Grammar.plan]
  cases g.select? (fun _ => true) text with
  | none => simp only [orThrow, hthrow]
  | some found =>
    obtain ⟨builder, token⟩ := found
    simp only [orThrow, pure_bind]
    cases builder with
    | aroundGroups =>
      simp only [buildAroundGroups]
      cases hide? .brackets text with
      | none => simp only [orThrow, hthrow]
      | some h =>
        simp only [orThrow, pure_bind]
        cases g.select? (fun r => r.name ≠ aroundGroupsName) h.text with
        | none => simp only [hthrow]
        | some found =>
          obtain ⟨builder, token⟩ := found
          simp only [pure_bind]
          cases h.offset? token.index with
          | none => simp only [hthrow]
          | some index => simp only [pure_bind]
    | _ => rfl

theorem readStep_eq (hthrow : ∀ {α β : Type} (e : ReadError) (f : α → m β),
    (throw e >>= f : m β) = throw e) (g : Grammar) (read : List Char → m Expr) (text : List Char) :
    readStep g read text = match g.plan text with
      | .error e => throw e
      | .ok (builder, token) => buildPlain read builder text token :=
  readStepWith_eq hthrow g (buildPlain read) text

end

/-! ## The default grammar -/

open Lexeme

/-- Whether a builder splits a text at an operator. -/
def Builder.splits : Builder → Bool
  | .binary | .assignment | .before | .after => true
  | _ => false

/-- The builders that are tried on texts with brackets only. -/
def groupBuilders : List Builder :=
  [.call, .tuple, .parentheses, .vector, .aroundGroups]

theorem not_mem_groupBuilders {builder : Builder} (h : builder.splits = true) :
    builder ∉ groupBuilders := by
  intro hmem
  have hall : groupBuilders.all (fun b => !b.splits) = true := by decide
  have := List.all_eq_true.1 hall builder hmem
  rw [h] at this
  cases this

/-- What is planned for a text, with what is known of the occurrence and of the texts beside it. -/
inductive Planned (text : List Char) : Builder → Token → Prop
  | operator {builder : Builder} {front w back : List Char} : builder.splits = true →
      text = front ++ w ++ back → w ≠ [] → (∀ c ∈ w, c ∈ operatorChars) → Nested front →
      Nested back → Planned text builder ⟨w, Text.byteSize front⟩
  | constant {token : Token} : Nested text → token.text ∈ constant.lang →
      Planned text .constant token
  | named {token : Token} : Nested text → token.text ∈ name.lang → token.text ∉ constant.lang →
      Planned text .variable token
  | number {token : Token} : Nested text → token.text ∈ number.lang → Planned text .number token
  | call {x w z s y : List Char} : text = x ++ w ++ (z ++ ('(' :: (s ++ [')'])) ++ y) → Blank x →
      w ∈ name.lang → Blank z → Nested s → Blank y → Planned text .call ⟨w, Text.byteSize x⟩
  | tuple {z s y : List Char} : text = z ++ ('(' :: (s ++ [')'])) ++ y → Blank z → Nested s →
      Blank y → (Text.isAllBlank s = true ∨ ∃ h, hide? .brackets s = some h ∧ ',' ∈ h.text) →
      Planned text .tuple ⟨'(' :: (s ++ [')']), Text.byteSize z⟩
  | parentheses {z s y : List Char} : text = z ++ ('(' :: (s ++ [')'])) ++ y → Blank z → Nested s →
      Blank y → Planned text .parentheses ⟨'(' :: (s ++ [')']), Text.byteSize z⟩
  | vector {z s y : List Char} : text = z ++ ('[' :: (s ++ [']'])) ++ y → Blank z → Nested s →
      Blank y → Planned text .vector ⟨'[' :: (s ++ [']']), Text.byteSize z⟩

/-! ### Words and operators hold no brackets -/

theorem isBracket_of_operator {c : Char} (h : c ∈ operatorChars) : isBracket c = false := by
  have hall : operatorChars.all (fun c => !isBracket c) = true := by decide
  simpa using List.all_eq_true.1 hall c h

theorem nested_of_blank {z : List Char} (hz : Blank z) : Nested z :=
  nested_of_not_isBracket fun c hc => isBracket_of_isBlank (hz c hc)

theorem nested_of_operators {w : List Char} (hw : ∀ c ∈ w, c ∈ operatorChars) : Nested w :=
  nested_of_not_isBracket fun c hc => isBracket_of_operator (hw c hc)

theorem bracket_cases {c : Char} (h : isBracket c = true) : c ∈ ['(', ')', '[', ']'] := by
  simpa [isBracket, or_assoc] using h

theorem IsWord.not_special {w : List Char} (hw : IsWord w) :
    ∀ c ∈ w, c ∉ ['(', ')', '[', ']', ',', '\\'] := by
  intro c hc hspecial
  have hpart := hw.all c hc
  rw [not_isWordPart hspecial] at hpart
  cases hpart

theorem IsWord.not_isBracket {w : List Char} (hw : IsWord w) : ∀ c ∈ w, isBracket c = false := by
  intro c hc
  rw [← Bool.not_eq_true]
  exact fun hbracket =>
    IsWord.not_special hw c hc (List.mem_append_left [',', '\\'] (bracket_cases hbracket))

theorem IsWord.not_isEscaped {w : List Char} (hw : IsWord w) : ∀ c ∈ w, isEscaped c = false := by
  intro c hc
  have hspecial := IsWord.not_special hw c hc
  simp only [List.mem_cons, not_or] at hspecial
  simp [isEscaped, hspecial]

theorem IsWord.nested {w : List Char} (hw : IsWord w) : Nested w :=
  nested_of_not_isBracket (IsWord.not_isBracket hw)

theorem Planned.nested {text : List Char} {builder : Builder} {token : Token}
    (h : Planned text builder token) : Nested text := by
  cases h with
  | operator _ ht _ hw hfront hback =>
    rw [ht]
    exact (hfront.append (nested_of_operators hw)).append hback
  | constant h | named h | number h => exact h
  | call ht hx hw hz hs hy =>
    rw [ht]
    exact ((nested_of_blank hx).append (IsWord.nested (.inl hw))).append
      (.enclosed rfl (nested_of_blank hz) hs (nested_of_blank hy))
  | tuple ht hz hs hy | parentheses ht hz hs hy | vector ht hz hs hy =>
    rw [ht]
    exact .enclosed rfl (nested_of_blank hz) hs (nested_of_blank hy)

/-! ### What the searches find -/

section

variable {around : Bool} {text : List Char} {builder : Builder} {token : Token}

/-- An occurrence that an operator search finds. -/
theorem exists_of_level {p : Pattern} (hp : p ∈ levelPatterns)
    (h : (operatorPatterns p).search.find? text = some token) :
    ∃ front w back, text = front ++ w ++ back ∧ token = ⟨w, Text.byteSize front⟩ ∧
      w ∈ separators := by
  obtain ⟨i, hi, rfl⟩ := List.getElem_of_mem hp
  obtain ⟨front, w, back, ht, htoken, hfits, -⟩ := OperatorPatterns.find?_backward rfl
    (List.all_eq_true.1 isAnchorFree_level _ hp) h
  exact ⟨front, w, back, ht, htoken, ((mem_lang_level hi).1 hfits.mem_lang).1⟩

theorem exists_of_assignment (h : assignmentPatterns.search.find? text = some token) :
    ∃ front w back, text = front ++ w ++ back ∧ token = ⟨w, Text.byteSize front⟩ ∧
      w ∈ separators := by
  obtain ⟨front, w, back, ht, htoken, hfits, -⟩ :=
    OperatorPatterns.find?_forward rfl isAnchorFree_assignment h
  exact ⟨front, w, back, ht, htoken, by rw [mem_char.1 hfits.mem_lang]; decide⟩

/-- Where a text is split, it is split at an operator. -/
theorem Attempted.exists_operator (h : Attempted around text builder token)
    (hb : builder.splits = true) : ∃ front w back, text = front ++ w ++ back ∧
      token = ⟨w, Text.byteSize front⟩ ∧ w ≠ [] ∧ ∀ c ∈ w, c ∈ operatorChars := by
  cases h with
  | assignment h =>
    obtain ⟨front, w, back, ht, htoken, hw⟩ := exists_of_assignment h
    exact ⟨front, w, back, ht, htoken, separator_ne_nil hw, operatorChar_of_separator hw⟩
  | binary hp h =>
    obtain ⟨front, w, back, ht, htoken, hw⟩ := exists_of_level hp h
    exact ⟨front, w, back, ht, htoken, separator_ne_nil hw, operatorChar_of_separator hw⟩
  | before h =>
    obtain ⟨front, w, back, ht, ⟨-, hw⟩, htoken⟩ := find?_pattern (names_leading rfl rfl) h
    exact ⟨front, w, back, ht, htoken, operator_of_front hw⟩
  | after h =>
    obtain ⟨front, w, back, ht, htoken, hw, -, -⟩ := findBehind?_sound h
    exact ⟨front, w, back, ht, htoken, operator_of_back hw⟩
  | call | tuple | parentheses | vector | aroundGroups | constant | named | number => cases hb

/-- A call is a name and a group. -/
theorem findCall?_eq_some (h : findCall? (.of callee) text = some token) :
    ∃ x w z s y, text = x ++ w ++ (z ++ ('(' :: (s ++ [')'])) ++ y) ∧
      token = ⟨w, Text.byteSize x⟩ ∧ Blank x ∧ w ∈ name.lang ∧ Blank z ∧ Nested s ∧ Blank y := by
  rw [findCall?] at h
  split at h
  · cases h
  · next start stop hspan =>
    obtain ⟨found, hfound, hfoundSpan⟩ := Option.bind_eq_some_iff.1 hspan
    obtain ⟨x, w, rest, rfl, ⟨hx, hw, -⟩, hnamed⟩ := span?_of_names names_callee hfound
    cases hfoundSpan.symm.trans hnamed
    rw [Text.splitAt?_append] at h
    dsimp only at h
    rw [Text.from?_append] at h
    split at h
    · next group _ hgroup hname =>
      obtain ⟨z, s, y, hz, hs, hy, hrest, -⟩ := enclosedGroup?_eq_some rfl hgroup
      cases hname
      cases h
      exact ⟨x, w, z, s, y, by rw [hrest], rfl, hx, hw, hz, hs, hy⟩
    · cases h

/-- A tuple is a group with a comma of its own, or with nothing. -/
theorem findTuple?_eq_some (h : findTuple? text = some token) :
    ∃ z s y, text = z ++ ('(' :: (s ++ [')'])) ++ y ∧
      token = ⟨'(' :: (s ++ [')']), Text.byteSize z⟩ ∧ Blank z ∧ Nested s ∧ Blank y ∧
      (Text.isAllBlank s = true ∨ ∃ h, hide? .brackets s = some h ∧ ',' ∈ h.text) := by
  rw [findTuple?] at h
  split at h
  · cases h
  · next group hgroup =>
    obtain ⟨z, s, y, hz, hs, hy, rfl, rfl⟩ := enclosedGroup?_eq_some rfl hgroup
    rw [Text.interior?_eq rfl rfl] at h
    dsimp only at h
    split at h
    · next hblank =>
      cases h
      exact ⟨z, s, y, rfl, rfl, hz, hs, hy, .inl hblank⟩
    · split at h
      · next hid hhide =>
        split at h
        · next hcomma =>
          cases h
          exact ⟨z, s, y, rfl, rfl, hz, hs, hy, .inr ⟨hid, hhide, hcomma⟩⟩
        · cases h
      · cases h

/-- The search for brackets finds them all, so behind it there are none. -/
theorem select_of_bracket {c : Char} (hc : c ∈ text) (hbracket : isBracket c = true) :
    ∃ builder ∈ groupBuilders, ∃ token,
      (attempts true text).findSome? id = some (builder, token) := by
  obtain ⟨u, r, rfl⟩ := List.append_of_mem hc
  have hocc : (matched (anyOf '(' [')', '[', ']'])).OccursIn (u ++ c :: r) :=
    ⟨u, [c], r, by simp, 0, _, (Pattern.matches_group rfl rfl).2
      ⟨mem_anyOf.2 ⟨c, bracket_cases hbracket, rfl⟩, rfl⟩⟩
  obtain ⟨token, htoken⟩ := exists_find?_pattern (names_matched rfl rfl) hocc
  cases hcall : findCall? (.of callee) (u ++ c :: r) with
  | some found => exact ⟨.call, by decide, found, by simp [attempts, hcall]⟩
  | none =>
  cases htuple : findTuple? (u ++ c :: r) with
  | some found => exact ⟨.tuple, by decide, found, by simp [attempts, hcall, htuple]⟩
  | none =>
  cases hparens : enclosedGroup? '(' (u ++ c :: r) with
  | some found =>
    exact ⟨.parentheses, by decide, found, by simp [attempts, hcall, htuple, hparens]⟩
  | none =>
  cases hvector : enclosedGroup? '[' (u ++ c :: r) with
  | some found =>
    exact ⟨.vector, by decide, found, by simp [attempts, hcall, htuple, hparens, hvector]⟩
  | none =>
    exact ⟨.aroundGroups, by decide, token,
      by simp [attempts, hcall, htuple, hparens, hvector, htoken]⟩

/-- Where nothing with brackets is planned, there are none. -/
theorem not_isBracket_of_select {found : Option (Builder × Token)}
    (h : (attempts true text).findSome? id = found)
    (hfound : ∀ builder token, found = some (builder, token) → builder ∉ groupBuilders) :
    ∀ c ∈ text, isBracket c = false := by
  intro c hc
  rw [← Bool.not_eq_true]
  intro hbracket
  obtain ⟨builder, hmem, token, hselect⟩ := select_of_bracket hc hbracket
  exact hfound builder token (h ▸ hselect) hmem

/-- What is found in a text is planned. -/
theorem planned_of_select (h : (attempts true text).findSome? id = some (builder, token))
    (hb : builder ≠ .aroundGroups) : Planned text builder token := by
  have hfree : builder ∉ groupBuilders → ∀ c ∈ text, isBracket c = false := by
    intro hnot
    refine not_isBracket_of_select h fun b t hbt => ?_
    cases hbt
    exact hnot
  have hoperator : builder.splits = true → Planned text builder token := by
    intro hsplits
    obtain ⟨front, w, back, ht, rfl, hne, hw⟩ :=
      (attempted_of_select h).exists_operator hsplits
    have hfree := hfree (not_mem_groupBuilders hsplits)
    refine .operator hsplits ht hne hw ?_ ?_
    · exact nested_of_not_isBracket fun c hc => hfree c (by rw [ht]; simp [hc])
    · exact nested_of_not_isBracket fun c hc => hfree c (by rw [ht]; simp [hc])
  cases attempted_of_select h with
  | call h =>
    obtain ⟨x, w, z, s, y, ht, rfl, hx, hw, hz, hs, hy⟩ := findCall?_eq_some h
    exact .call ht hx hw hz hs hy
  | tuple h =>
    obtain ⟨z, s, y, ht, rfl, hz, hs, hy, hcomma⟩ := findTuple?_eq_some h
    exact .tuple ht hz hs hy hcomma
  | parentheses h =>
    obtain ⟨z, s, y, hz, hs, hy, ht, rfl⟩ := enclosedGroup?_eq_some rfl h
    exact .parentheses ht hz hs hy
  | vector h =>
    obtain ⟨z, s, y, hz, hs, hy, ht, rfl⟩ := enclosedGroup?_eq_some rfl h
    exact .vector ht hz hs hy
  | aroundGroups => exact absurd rfl hb
  | assignment | binary | before | after => exact hoperator rfl
  | constant h =>
    obtain ⟨z, w, y, -, ⟨-, hw, -⟩, rfl⟩ := find?_pattern (names_only rfl rfl) h
    exact .constant (nested_of_not_isBracket (hfree (by decide))) hw
  | named hnot h =>
    obtain ⟨z, w, y, rfl, ⟨hz, hw, hy⟩, rfl⟩ := find?_pattern (names_only rfl rfl) h
    refine .named (nested_of_not_isBracket (hfree (by decide))) hw fun hconstant => ?_
    rw [find?_only rfl rfl (fun w hw => IsWord.trimmed (.inr (.inl hw))) hz hconstant hy] at hnot
    cases hnot
  | number h =>
    obtain ⟨z, w, y, -, ⟨-, hw, -⟩, rfl⟩ := find?_pattern (names_only rfl rfl) h
    exact .number (nested_of_not_isBracket (hfree (by decide))) hw

end

/-! ### Around groups -/

section

variable {segs : List Segment} {builder : Builder} {token : Token}

/-- The text with its groups hidden. -/
def hiddenOf (segs : List Segment) : Hidden :=
  ⟨Segment.covered 0 segs, Segment.groups 0 segs⟩

/-- A word is no whole text with a placeholder in it. -/
theorem not_only_of_placeholder {p : Pattern} {text : List Char} (hgroup : '[' ∈ text)
    (ha : p.isAnchorFree = true) (hm : p.isMarkFree = true) (hp : ∀ w ∈ p.lang, IsWord w) :
    (Finder.pattern (.of (only p)) false).find? text ≠ some token := by
  intro h
  obtain ⟨z, w, y, rfl, ⟨hz, hw, hy⟩, -⟩ := find?_pattern (names_only ha hm) h
  rw [List.mem_append, List.mem_append] at hgroup
  rcases hgroup with (hmem | hmem) | hmem
  · exact absurd (hz _ hmem) (by decide)
  · exact absurd ((hp w hw).all _ hmem) (by decide)
  · exact absurd (hy _ hmem) (by decide)

/-- What is found where groups are hidden is an operator between segments of the text. -/
theorem operator_of_hidden (hv : Segment.AllValid segs) (hgroup : '[' ∈ Segment.covered 0 segs)
    (hparentheses : enclosedGroup? '(' (Segment.texts segs) = none)
    (hvector : enclosedGroup? '[' (Segment.texts segs) = none)
    (h : Attempted false (Segment.covered 0 segs) builder token) :
    builder.splits = true ∧ ∃ front w back, segs = front ++ w.map .char ++ back ∧
      token = ⟨w, Text.byteSize (Segment.covered 0 front)⟩ ∧ w ≠ [] ∧
      ∀ c ∈ w, c ∈ operatorChars := by
  have hno : '(' ∉ Segment.covered 0 segs := Segment.not_mem_covered hv (.inl rfl)
  have hsplits : builder.splits = true := by
    cases h with
    | call h =>
      obtain ⟨x, w, z, s, y, ht, -⟩ := findCall?_eq_some h
      exact absurd (by rw [ht]; simp) hno
    | tuple h =>
      obtain ⟨z, s, y, ht, -⟩ := findTuple?_eq_some h
      exact absurd (by rw [ht]; simp) hno
    | parentheses h =>
      obtain ⟨z, s, y, -, -, -, ht, -⟩ := enclosedGroup?_eq_some rfl h
      exact absurd (by rw [ht]; simp) hno
    | vector h =>
      obtain ⟨o, c, hoc, hsome⟩ := exists_group_of_covered hv h
      rcases closer_cases hoc with ⟨rfl, -⟩ | ⟨rfl, -⟩
      · rw [hparentheses] at hsome
        cases hsome
      · rw [hvector] at hsome
        cases hsome
    | aroundGroups h => cases h
    | constant h => exact absurd h (not_only_of_placeholder hgroup rfl rfl fun _ hw => .inr (.inl hw))
    | named _ h => exact absurd h (not_only_of_placeholder hgroup rfl rfl fun _ hw => .inl hw)
    | number h => exact absurd h (not_only_of_placeholder hgroup rfl rfl fun _ hw => .inr (.inr hw))
    | assignment | binary | before | after => rfl
  obtain ⟨x, w, y, ht, rfl, hne, hw⟩ := h.exists_operator hsplits
  have hall : operatorChars.all standsForItself = true := by decide
  obtain ⟨front, back, rfl, rfl, -⟩ :=
    Segment.covered_eq_append ht hne fun c hc => List.all_eq_true.1 hall c (hw c hc)
  exact ⟨hsplits, front, w, back, rfl, rfl, hne, hw⟩

theorem isEscaped_of_operator {c : Char} (h : c ∈ operatorChars) : isEscaped c = false := by
  have hall : operatorChars.all (fun c => !isEscaped c) = true := by decide
  simpa using List.all_eq_true.1 hall c h

/-- An operator stands for itself. -/
theorem restore_operator (h : Hidden) {w : List Char} (hw : ∀ c ∈ w, c ∈ operatorChars) :
    h.restore w = w :=
  Hidden.restore_eq_self fun c hc => isEscaped_of_operator (hw c hc)

/-- The place of an operator between segments. -/
theorem offset?_hiddenOf (front back : List Segment) (w : List Char) :
    (hiddenOf (front ++ w.map .char ++ back)).offset?
      (Text.byteSize (Segment.covered 0 front)) = some (Text.byteSize (Segment.texts front)) := by
  rw [List.append_assoc]
  exact Hidden.offset?_hidden front _

/-- Where there is a bracket, the hidden text has a placeholder. -/
theorem placeholder_mem_covered (hv : Segment.AllValid segs) {c : Char}
    (hc : c ∈ Segment.texts segs) (hbracket : isBracket c = true) (n : Nat) :
    '[' ∈ Segment.covered n segs := by
  induction segs generalizing n with
  | nil => cases hc
  | cons seg segs ih =>
    have hv' := hv.tail
    rw [Segment.covered]
    cases seg with
    | group o k s => exact List.mem_append_left _ (List.mem_cons_self)
    | char d =>
      rw [Segment.texts_cons, Segment.text, List.mem_append, List.mem_singleton] at hc
      rcases hc with rfl | hc
      · have hd : isBracket c = false := hv (.char c) List.mem_cons_self
        rw [hbracket] at hd
        cases hd
      · exact List.mem_append_right _ (ih hv' hc _)

end

/-! ### Plans -/

section

variable {text : List Char} {builder : Builder} {token : Token}

theorem select?_all : Grammar.default.select? (fun _ => true) text =
    (attempts true text).findSome? id := by
  rw [← select?_default]
  simp

theorem select?_hidden : Grammar.default.select? (fun r => r.name ≠ aroundGroupsName) text =
    (attempts false text).findSome? id := by
  rw [← select?_default]
  simp

/-- Where groups are to be hidden, there is a bracket and the text is no single group. -/
theorem around_of_select (h : (attempts true text).findSome? id = some (.aroundGroups, token)) :
    (∃ c ∈ text, isBracket c = true) ∧ enclosedGroup? '(' text = none ∧
      enclosedGroup? '[' text = none := by
  cases attempted_of_select h with
  | aroundGroups _ hparentheses hvector hfind =>
    obtain ⟨x, w, y, rfl, hw, -⟩ := find?_pattern (names_matched rfl rfl) hfind
    obtain ⟨c, hc, rfl⟩ := mem_anyOf.1 hw
    refine ⟨⟨c, by simp, ?_⟩, hparentheses, hvector⟩
    have hall : ['(', ')', '[', ']'].all isBracket = true := by decide
    exact List.all_eq_true.1 hall c hc

/-- What the default grammar plans for a text is a part of it. -/
theorem planned_of_plan (h : Grammar.default.plan text = .ok (builder, token)) :
    Planned text builder token := by
  rw [Grammar.plan, select?_all] at h
  split at h
  · cases h
  · next _ hselect =>
    obtain ⟨⟨c, hc, hbracket⟩, hparentheses, hvector⟩ := around_of_select hselect
    split at h
    · cases h
    · next hid hhide =>
      obtain ⟨segs, hv, rfl, rfl⟩ := hide?_eq_some.1 hhide
      rw [select?_hidden] at h
      split at h
      · cases h
      · next builder' found hfound =>
        obtain ⟨hsplits, front, w, back, rfl, rfl, hne, hw⟩ := operator_of_hidden hv
          (placeholder_mem_covered hv hc hbracket 0) hparentheses hvector
          (attempted_of_select hfound)
        have hindex := offset?_hiddenOf front back w
        rw [hiddenOf] at hindex
        rw [hindex] at h
        cases h
        rw [restore_operator _ hw]
        have ht : Segment.texts (front ++ w.map .char ++ back) =
            Segment.texts front ++ w ++ Segment.texts back := by
          rw [Segment.texts_append, Segment.texts_append, Segment.texts_map_char]
        refine .operator hsplits ht hne hw ?_ ?_
        · exact nested_texts fun seg hseg => hv seg (by simp [hseg])
        · exact nested_texts fun seg hseg => hv seg (by simp [hseg])
  · next found hnot hselect =>
    cases h
    refine planned_of_select hselect ?_
    rintro rfl
    exact hnot _ rfl

/-- Planning fails where no rule applies, and where brackets do not nest. -/
theorem plan_eq_error {e : ReadError} (h : Grammar.default.plan text = .error e) :
    (e = .malformed text ∧ Nested text) ∨ (e = .unbalanced text ∧ ¬ Nested text) := by
  rw [Grammar.plan, select?_all] at h
  split at h
  · next hselect =>
    cases h
    refine .inl ⟨rfl, nested_of_not_isBracket (not_isBracket_of_select hselect ?_)⟩
    intro builder token hfound
    cases hfound
  · next _ hselect =>
    obtain ⟨⟨c, hc, hbracket⟩, hparentheses, hvector⟩ := around_of_select hselect
    split at h
    · next hhide =>
      cases h
      exact .inr ⟨rfl, hide?_eq_none_iff.1 hhide⟩
    · next hid hhide =>
      have hnested : Nested text := hide?_isSome_iff.1 (by rw [hhide]; rfl)
      obtain ⟨segs, hv, rfl, rfl⟩ := hide?_eq_some.1 hhide
      rw [select?_hidden] at h
      split at h
      · cases h
        exact .inl ⟨rfl, hnested⟩
      · next builder' found hfound =>
        obtain ⟨-, front, w, back, rfl, rfl, -, -⟩ := operator_of_hidden hv
          (placeholder_mem_covered hv hc hbracket 0) hparentheses hvector
          (attempted_of_select hfound)
        have hindex := offset?_hiddenOf front back w
        rw [hiddenOf] at hindex
        rw [hindex] at h
        cases h
  · cases h

/-- Brackets that do not nest are the first thing that is noticed. -/
theorem plan_of_not_nested (h : ¬ Nested text) :
    Grammar.default.plan text = .error (.unbalanced text) := by
  cases hplan : Grammar.default.plan text with
  | ok found => exact absurd (planned_of_plan hplan).nested h
  | error e =>
    rcases plan_eq_error hplan with ⟨-, hnested⟩ | ⟨rfl, -⟩
    · exact absurd hnested h
    · rfl

end

end Formula
