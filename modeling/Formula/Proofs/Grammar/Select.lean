import Formula.Proofs.Grammar.DefaultPatterns
import Formula.Proofs.Grammar.OperandSearch
import Formula.Proofs.Pattern.Find

/-!
# Which rule is tried when

The default grammar tries its searches on a text in a fixed order (`select?_default`). The searches
for constants, names and numbers take a whole text but the blanks around it (`find?_only`), the one
for operators in front takes one from the start of a text (`names_leading`), and the one for calls a
name before a parenthesis (`names_callee`).
-/

set_option autoImplicit false

namespace Formula

open Lexeme

/-- What the rules of the default grammar find in a text, in the order in which they are tried. Texts
around groups are left out once the groups are hidden. -/
def attempts (around : Bool) (text : List Char) : List (Option (Builder × Token)) :=
  [(findCall? (.of callee) text).map (.call, ·), (findTuple? text).map (.tuple, ·),
    (enclosedGroup? '(' text).map (.parentheses, ·), (enclosedGroup? '[' text).map (.vector, ·),
    if around then
      ((Finder.pattern (.of (matched (anyOf '(' [')', '[', ']']))) false).find? text).map
        (.aroundGroups, ·)
    else none,
    (assignmentPatterns.search.find? text).map (.assignment, ·)] ++
  (levelPatterns.map fun p => ((operatorPatterns p).search.find? text).map (.binary, ·)) ++
  [((Finder.pattern (.of (leading frontOperator)) false).find? text).map (.before, ·),
    (findBehind? text).map (.after, ·),
    ((Finder.pattern (.of (only constant)) false).find? text).map (.constant, ·),
    ((Finder.pattern (.of (only name)) false).find? text).map (.variable, ·),
    ((Finder.pattern (.of (only number)) false).find? text).map (.number, ·)]

/-- What one rule finds, when it is tried. -/
def attempt (tried : Rule → Bool) (text : List Char) (entry : Rule × Finder) :
    Option (Builder × Token) :=
  if tried entry.1 then
    match entry.1.builder? with
    | none => none
    | some builder => (entry.2.find? text).map (builder, ·)
  else none

theorem attempt_eq {tried : Rule → Bool} {rule : Rule} {builder : Builder} (finder : Finder)
    (text : List Char) (hbuilder : rule.builder? = some builder) (htried : tried rule = true) :
    attempt tried text (rule, finder) = (finder.find? text).map (builder, ·) := by
  rw [attempt, if_pos htried, hbuilder]

theorem select?_default (around : Bool) (text : List Char) :
    Grammar.default.select? (fun r => around || r.name ≠ aroundGroupsName) text =
      (attempts around text).findSome? id := by
  have htried : ∀ {name : String} {pattern kind}, decide (name ≠ aroundGroupsName) = true →
      (around || decide ((Rule.mk name pattern kind).name ≠ aroundGroupsName)) = true :=
    fun h => by rw [Bool.or_eq_true]; exact .inr h
  have hlist : (Grammar.default.rules.zip Grammar.default.finders).map
      (attempt (fun r => around || r.name ≠ aroundGroupsName) text) =
        none :: none :: attempts around text := by
    rw [finders_default]
    simp only [Grammar.default, Grammar.ofRules, defaultRules, levelPatterns, attempts,
      List.map_cons, List.map_nil, List.cons_append, List.nil_append, List.zip_cons_cons,
      List.zip_nil_left, List.cons.injEq, and_true]
    refine ⟨?_, ?_, attempt_eq _ text rfl (htried ?_), attempt_eq _ text rfl (htried ?_),
      attempt_eq _ text rfl (htried ?_), attempt_eq _ text rfl (htried ?_), ?_,
      attempt_eq _ text rfl (htried ?_), attempt_eq _ text rfl (htried ?_),
      attempt_eq _ text rfl (htried ?_), attempt_eq _ text rfl (htried ?_),
      attempt_eq _ text rfl (htried ?_), attempt_eq _ text rfl (htried ?_),
      attempt_eq _ text rfl (htried ?_), attempt_eq _ text rfl (htried ?_),
      attempt_eq _ text rfl (htried ?_), attempt_eq _ text rfl (htried ?_),
      attempt_eq _ text rfl (htried ?_), attempt_eq _ text rfl (htried ?_),
      attempt_eq _ text rfl (htried ?_), attempt_eq _ text rfl (htried ?_)⟩
    · exact ite_self _
    · exact ite_self _
    case refine_7 => cases around <;> rfl
    all_goals decide
  have hselect : Grammar.default.select? (fun r => around || r.name ≠ aroundGroupsName) text =
      ((Grammar.default.rules.zip Grammar.default.finders).map
        (attempt (fun r => around || r.name ≠ aroundGroupsName) text)).findSome? id := by
    rw [List.findSome?_map]
    rfl
  rw [hselect, hlist]
  rfl

/-- What was found by one of the rules, those before it having found nothing. -/
inductive Attempted (around : Bool) (text : List Char) : Builder → Token → Prop
  | call {token : Token} : findCall? (.of callee) text = some token →
      Attempted around text .call token
  | tuple {token : Token} : findTuple? text = some token → Attempted around text .tuple token
  | parentheses {token : Token} : enclosedGroup? '(' text = some token →
      Attempted around text .parentheses token
  | vector {token : Token} : enclosedGroup? '[' text = some token →
      Attempted around text .vector token
  | aroundGroups {token : Token} : around = true → enclosedGroup? '(' text = none →
      enclosedGroup? '[' text = none →
      (Finder.pattern (.of (matched (anyOf '(' [')', '[', ']']))) false).find? text = some token →
      Attempted around text .aroundGroups token
  | assignment {token : Token} : assignmentPatterns.search.find? text = some token →
      Attempted around text .assignment token
  | binary {p : Pattern} {token : Token} : p ∈ levelPatterns →
      (operatorPatterns p).search.find? text = some token → Attempted around text .binary token
  | before {token : Token} :
      (Finder.pattern (.of (leading frontOperator)) false).find? text = some token →
      Attempted around text .before token
  | after {token : Token} : findBehind? text = some token → Attempted around text .after token
  | constant {token : Token} :
      (Finder.pattern (.of (only constant)) false).find? text = some token →
      Attempted around text .constant token
  | named {token : Token} : (Finder.pattern (.of (only constant)) false).find? text = none →
      (Finder.pattern (.of (only name)) false).find? text = some token →
      Attempted around text .variable token
  | number {token : Token} :
      (Finder.pattern (.of (only number)) false).find? text = some token →
      Attempted around text .number token

theorem findSome?_map_cons {o : Option Token} {b builder : Builder} {token : Token}
    {rest : List (Option (Builder × Token))}
    (h : (o.map (b, ·) :: rest).findSome? id = some (builder, token)) :
    (builder = b ∧ o = some token) ∨ (o = none ∧ rest.findSome? id = some (builder, token)) := by
  cases o with
  | none => exact .inr ⟨rfl, h⟩
  | some t =>
    cases h
    exact .inl ⟨rfl, rfl⟩

theorem findSome?_binary {ps : List Pattern} {text : List Char} {builder : Builder} {token : Token}
    {rest : List (Option (Builder × Token))}
    (h : ((ps.map fun p => ((operatorPatterns p).search.find? text).map (Builder.binary, ·)) ++
      rest).findSome? id = some (builder, token)) :
    (builder = .binary ∧ ∃ p ∈ ps, (operatorPatterns p).search.find? text = some token) ∨
      rest.findSome? id = some (builder, token) := by
  induction ps with
  | nil => exact .inr h
  | cons p ps ih =>
    rcases findSome?_map_cons h with ⟨hb, hp⟩ | ⟨-, h⟩
    · exact .inl ⟨hb, p, List.mem_cons_self, hp⟩
    · exact (ih h).imp_left fun ⟨hb, q, hq, hfind⟩ => ⟨hb, q, List.mem_cons_of_mem p hq, hfind⟩

theorem attempted_of_select {around : Bool} {text : List Char} {builder : Builder} {token : Token}
    (h : (attempts around text).findSome? id = some (builder, token)) :
    Attempted around text builder token := by
  rcases findSome?_map_cons h with ⟨rfl, hfound⟩ | ⟨-, h⟩
  · exact .call hfound
  rcases findSome?_map_cons h with ⟨rfl, hfound⟩ | ⟨-, h⟩
  · exact .tuple hfound
  rcases findSome?_map_cons h with ⟨rfl, hfound⟩ | ⟨hparentheses, h⟩
  · exact .parentheses hfound
  rcases findSome?_map_cons h with ⟨rfl, hfound⟩ | ⟨hvector, h⟩
  · exact .vector hfound
  have h : (builder = .aroundGroups ∧ around = true ∧
      (Finder.pattern (.of (matched (anyOf '(' [')', '[', ']']))) false).find? text = some token) ∨
      ((attempts around text).drop 5).findSome? id = some (builder, token) := by
    cases around with
    | false => exact .inr h
    | true => exact (findSome?_map_cons h).imp (fun ⟨hb, h⟩ => ⟨hb, rfl, h⟩) (·.2)
  rcases h with ⟨rfl, haround, hfound⟩ | h
  · exact .aroundGroups haround hparentheses hvector hfound
  rcases findSome?_map_cons h with ⟨rfl, hfound⟩ | ⟨-, h⟩
  · exact .assignment hfound
  rcases findSome?_binary h with ⟨rfl, p, hp, hfound⟩ | h
  · exact .binary hp hfound
  rcases findSome?_map_cons h with ⟨rfl, hfound⟩ | ⟨-, h⟩
  · exact .before hfound
  rcases findSome?_map_cons h with ⟨rfl, hfound⟩ | ⟨-, h⟩
  · exact .after hfound
  rcases findSome?_map_cons h with ⟨rfl, hfound⟩ | ⟨hconstant, h⟩
  · exact .constant hfound
  rcases findSome?_map_cons h with ⟨rfl, hfound⟩ | ⟨-, h⟩
  · exact .named hconstant hfound
  rcases findSome?_map_cons h with ⟨rfl, hfound⟩ | ⟨-, h⟩
  · exact .number hfound
  · cases h

/-! ## Named groups -/

namespace Pattern

variable {p q : Pattern} {b a : Option Char} {i : Nat} {r : List Char} {l : List (Mark × Nat)}

theorem matches_blanks : Matches blanks b i r a l ↔ Blank r ∧ l = [] := by
  rw [matches_iff_mem_lang rfl rfl, mem_blanks]
  rfl

/-- The marks of a named group are those of its ends. -/
theorem matches_group {n : List Char} (ha : p.isAnchorFree = true) (hm : p.isMarkFree = true) :
    Matches (group n p) b i r a l ↔
      r ∈ p.lang ∧ l = [(⟨n, true⟩, i), (⟨n, false⟩, i + Text.byteSize r)] := by
  constructor
  · intro h
    obtain ⟨s, t, k, m, rfl, rfl, hs, ht⟩ := matches_seq.1 h
    obtain ⟨rfl, rfl⟩ := matches_mark.1 hs
    obtain ⟨s, t, k, m, rfl, rfl, hs, ht⟩ := matches_seq.1 ht
    obtain ⟨rfl, rfl⟩ := matches_mark.1 ht
    obtain ⟨hw, rfl⟩ := (matches_iff_mem_lang ha hm).1 hs
    exact ⟨by simpa using hw, by simp⟩
  · rintro ⟨hr, rfl⟩
    refine matches_seq.2 ⟨[], r, [_], [_], rfl, rfl, matches_mark.2 ⟨rfl, rfl⟩, ?_⟩
    refine matches_seq.2 ⟨r, [], [], [_], (List.append_nil r).symm, rfl,
      (matches_iff_mem_lang ha hm).2 ⟨hr, rfl⟩, matches_mark.2 ⟨rfl, ?_⟩⟩
    simp

/-- Every match of the pattern in the text passes just the marks of one named group, around a text
with the given property. -/
def Names (q : Pattern) (n text : List Char) (f : List Char → List Char → List Char → Prop) : Prop :=
  ∀ u v r l, text = u ++ v ++ r → q.Matches (lastOr none u) (Text.byteSize u) v (headOr r none) l →
    ∃ x w y, text = x ++ w ++ y ∧ f x w y ∧
      l = [(⟨n, true⟩, Text.byteSize x), (⟨n, false⟩, Text.byteSize (x ++ w))]

end Pattern

theorem span?_of_names {q : Pattern} {n text : List Char}
    {f : List Char → List Char → List Char → Prop} (h : q.Names n text f) {found : Machine.Match}
    (hfind : (Machine.of q).find? text = some found) :
    ∃ x w y, text = x ++ w ++ y ∧ f x w y ∧
      found.span? n = some (Text.byteSize x, Text.byteSize (x ++ w)) := by
  obtain ⟨u, v, r, ht, -, -, hm⟩ := Machine.find?_sound hfind
  obtain ⟨x, w, y, hx, hf, hl⟩ := h u v r _ ht hm
  refine ⟨x, w, y, hx, hf, ?_⟩
  rw [List.reverse_eq_iff] at hl
  simp [Machine.Match.span?, hl]

theorem tokenAt?_append (x w y : List Char) :
    Finder.tokenAt? (x ++ w ++ y) (Text.byteSize x, Text.byteSize (x ++ w)) =
      some ⟨w, Text.byteSize x⟩ := by
  rw [Finder.tokenAt?, Text.slice?, Text.before?_append, Option.bind_some, Text.from?_append]
  rfl

section

variable {q : Pattern} {text : List Char} {f : List Char → List Char → List Char → Prop}

/-- What a search for a pattern finds is the text of its group. -/
theorem find?_pattern (h : q.Names "matched".toList text f) {token : Token}
    (hfind : (Finder.pattern (.of q) false).find? text = some token) :
    ∃ x w y, text = x ++ w ++ y ∧ f x w y ∧ token = ⟨w, Text.byteSize x⟩ := by
  obtain ⟨span, hspan, htoken⟩ := Option.bind_eq_some_iff.1 hfind
  obtain ⟨found, hfound, hfoundSpan⟩ := Option.bind_eq_some_iff.1 hspan
  obtain ⟨x, w, y, rfl, hf, hnamed⟩ := span?_of_names h hfound
  cases hfoundSpan.symm.trans hnamed
  rw [tokenAt?_append] at htoken
  exact ⟨x, w, y, rfl, hf, (Option.some.inj htoken).symm⟩

theorem exists_find?_pattern (h : q.Names "matched".toList text f) (hq : q.OccursIn text) :
    ∃ token, (Finder.pattern (.of q) false).find? text = some token := by
  obtain ⟨found, hfound⟩ := Option.isSome_iff_exists.1 (Machine.find?_isSome hq)
  obtain ⟨x, w, y, rfl, -, hspan⟩ := span?_of_names h hfound
  refine ⟨⟨w, Text.byteSize x⟩, ?_⟩
  simp only [Finder.find?, Bool.false_eq_true, if_false, hfound, Option.bind_some, hspan]
  exact tokenAt?_append x w y

end

/-! ## The searches of the default grammar that a pattern describes -/

section

variable {p : Pattern} {text : List Char}

theorem eq_nil_of_textStart {u : List Char} {a : Option Char}
    (h : Assertion.textStart.holds (lastOr none u) a = true) : u = [] :=
  lastOr_none_eq_none h

theorem eq_nil_of_textEnd {r : List Char} {b : Option Char}
    (h : Assertion.textEnd.holds b (headOr r none) = true) : r = [] := by
  cases r with
  | nil => rfl
  | cons c r => cases h

theorem names_matched (ha : p.isAnchorFree = true) (hm : p.isMarkFree = true) :
    (matched p).Names "matched".toList text fun _ w _ => w ∈ p.lang := by
  intro u v r l ht h
  obtain ⟨hv, rfl⟩ := (Pattern.matches_group ha hm).1 h
  exact ⟨u, v, r, ht, hv, by rw [Text.byteSize_append]⟩

theorem names_leading (ha : p.isAnchorFree = true) (hm : p.isMarkFree = true) :
    (leading p).Names "matched".toList text fun z w _ => Blank z ∧ w ∈ p.lang := by
  intro u v r l ht h
  simp only [leading, matched, Pattern.matches_seq, Pattern.matches_assert, Pattern.matches_blanks,
    Pattern.matches_group ha hm] at h
  obtain ⟨_, _, _, _, rfl, rfl, ⟨rfl, rfl, hstart⟩, z, w, _, _, rfl, rfl, ⟨hz, rfl⟩, hw, rfl⟩ := h
  obtain rfl := eq_nil_of_textStart hstart
  refine ⟨z, w, r, by simpa using ht, ⟨hz, hw⟩, ?_⟩
  simp [Text.byteSize_append]

theorem names_only (ha : p.isAnchorFree = true) (hm : p.isMarkFree = true) :
    (only p).Names "matched".toList text fun z w y => Blank z ∧ w ∈ p.lang ∧ Blank y := by
  intro u v r l ht h
  simp only [only, matched, Pattern.matches_seq, Pattern.matches_assert, Pattern.matches_blanks,
    Pattern.matches_group ha hm] at h
  obtain ⟨_, _, _, _, rfl, rfl, ⟨rfl, rfl, hstart⟩, z, _, _, _, rfl, rfl, ⟨hz, rfl⟩, w, _, _, _, rfl,
    rfl, ⟨hw, rfl⟩, y, _, _, _, rfl, rfl, ⟨hy, rfl⟩, rfl, rfl, hend⟩ := h
  obtain rfl := eq_nil_of_textStart hstart
  obtain rfl := eq_nil_of_textEnd hend
  refine ⟨z, w, y, by simpa using ht, ⟨hz, hw, hy⟩, ?_⟩
  simp [Text.byteSize_append]

theorem names_callee :
    callee.Names "name".toList text fun z w y =>
      Blank z ∧ w ∈ name.lang ∧ ∃ z' r, y = z' ++ '(' :: r ∧ Blank z' := by
  intro u v r l ht h
  simp only [callee, Pattern.matches_seq, Pattern.matches_assert, Pattern.matches_blanks,
    Pattern.matches_group (show name.isAnchorFree = true from rfl) (show name.isMarkFree = true from rfl),
    Pattern.matches_iff_mem_lang (show (char '(').isAnchorFree = true from rfl)
      (show (char '(').isMarkFree = true from rfl), mem_char] at h
  obtain ⟨_, _, _, _, rfl, rfl, ⟨rfl, rfl, hstart⟩, z, _, _, _, rfl, rfl, ⟨hz, rfl⟩, w, _, _, _, rfl,
    rfl, ⟨hw, rfl⟩, y, _, _, _, rfl, rfl, ⟨hy, rfl⟩, rfl, rfl⟩ := h
  obtain rfl := eq_nil_of_textStart hstart
  refine ⟨z, w, y ++ '(' :: r, by simpa using ht, ⟨hz, hw, y, r, rfl, hy⟩, ?_⟩
  simp [Text.byteSize_append]

/-- The whole of a text but the blanks around it is found. -/
theorem find?_only {z w y : List Char} (ha : p.isAnchorFree = true) (hm : p.isMarkFree = true)
    (hp : ∀ w ∈ p.lang, Text.Trimmed w) (hz : Blank z) (hw : w ∈ p.lang) (hy : Blank y) :
    (Finder.pattern (.of (only p)) false).find? (z ++ w ++ y) = some ⟨w, Text.byteSize z⟩ := by
  have hocc : (only p).OccursIn (z ++ w ++ y) := by
    refine ⟨[], z ++ w ++ y, [], by simp, Pattern.accepts_seq.2 ⟨[], _, rfl,
      accepts_assert.2 ⟨rfl, rfl⟩, ?_⟩⟩
    refine Pattern.accepts_seq.2 ⟨z, w ++ y, List.append_assoc .., accepts_blanks.2 hz, ?_⟩
    refine Pattern.accepts_seq.2 ⟨w, y, rfl, ⟨0, _, (Pattern.matches_group ha hm).2 ⟨hw, rfl⟩⟩, ?_⟩
    exact Pattern.accepts_seq.2 ⟨y, [], (List.append_nil y).symm, accepts_blanks.2 hy,
      accepts_assert.2 ⟨rfl, rfl⟩⟩
  obtain ⟨token, htoken⟩ := exists_find?_pattern (names_only ha hm) hocc
  obtain ⟨z', w', y', ht, ⟨hz', hw', hy'⟩, rfl⟩ := find?_pattern (names_only ha hm) htoken
  obtain ⟨rfl, rfl, rfl⟩ :=
    Text.append_inj_of_trimmed hz (hp w hw) hy hz' (hp w' hw') hy' ht
  exact htoken

theorem find?_only_eq_none {z w y : List Char} (ha : p.isAnchorFree = true)
    (hm : p.isMarkFree = true) (hp : ∀ w ∈ p.lang, Text.Trimmed w) (hz : Blank z)
    (hw : Text.Trimmed w) (hnot : w ∉ p.lang) (hy : Blank y) :
    (Finder.pattern (.of (only p)) false).find? (z ++ w ++ y) = none := by
  cases hfind : (Finder.pattern (.of (only p)) false).find? (z ++ w ++ y) with
  | none => rfl
  | some token =>
    obtain ⟨z', w', y', ht, ⟨hz', hw', hy'⟩, rfl⟩ := find?_pattern (names_only ha hm) hfind
    obtain ⟨rfl, rfl, rfl⟩ := Text.append_inj_of_trimmed hz hw hy hz' (hp w' hw') hy' ht
    exact absurd hw' hnot

end

end Formula
