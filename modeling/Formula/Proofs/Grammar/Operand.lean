import Formula.Proofs.Grammar.DefaultPatterns
import Formula.Proofs.Text.CharClass

/-!
# Operands in a text

The words at the core of an operand, without the operators around it: names, constants, numbers and
placeholders. Their shapes tell how they begin and end (`CoreShape.head`, `CoreShape.last`), and where a sign
can be in them (`CoreShape.sign`).
-/

set_option autoImplicit false

namespace Formula.Lexeme

open Pattern
open scoped Computability

/-! ## Languages of repetitions -/

section

variable {p : Pattern} {s : CharSet} {w : List Char} {f : Char → Prop}

theorem mem_lang_opt : w ∈ (Pattern.opt true p).lang ↔ w ∈ p.lang ∨ w = [] := Iff.rfl

theorem mem_lang_star : w ∈ (Pattern.star true p).lang ↔ w ∈ p.lang∗ := by
  rw [← Language.one_add_self_mul_kstar_eq_kstar, add_comm]
  rfl

theorem mem_lang_seq {q : Pattern} :
    w ∈ (seq p q).lang ↔ ∃ u ∈ p.lang, ∃ v ∈ q.lang, u ++ v = w := Iff.rfl

theorem mem_lang_set : w ∈ (Pattern.set s).lang ↔ ∃ c, s.contains c = true ∧ w = [c] := Iff.rfl

/-- What every character of the words is, every character of a repetition is. -/
theorem forall_of_mem_kstar {l : Language Char} (h : ∀ v ∈ l, ∀ c ∈ v, f c) (hw : w ∈ l∗) :
    ∀ c ∈ w, f c := by
  obtain ⟨words, rfl, hwords⟩ := Language.mem_kstar.1 hw
  intro c hc
  obtain ⟨v, hv, hcv⟩ := List.mem_flatten.1 hc
  exact h v (hwords v hv) c hcv

theorem mem_kstar_set : w ∈ (Pattern.set s).lang∗ ↔ ∀ c ∈ w, s.contains c = true := by
  constructor
  · refine forall_of_mem_kstar ?_
    rintro v ⟨d, hd, rfl⟩ c hc
    rwa [List.mem_singleton.1 hc]
  · intro h
    refine Language.mem_kstar.2 ⟨w.map ([·]), ?_, ?_⟩
    · induction w with
      | nil => rfl
      | cons c w ih => simp [← ih fun d hd => h d (List.mem_cons_of_mem _ hd)]
    · intro v hv
      obtain ⟨c, hc, rfl⟩ := List.mem_map.1 hv
      exact ⟨c, h c hc, rfl⟩

theorem mem_plus_set : w ∈ (Pattern.plus true (.set s)).lang ↔
    w ≠ [] ∧ ∀ c ∈ w, s.contains c = true := by
  constructor
  · rintro ⟨u, ⟨d, hd, rfl⟩, v, hv, rfl⟩
    exact ⟨by simp, List.forall_mem_cons.2 ⟨hd, mem_kstar_set.1 hv⟩⟩
  · rintro ⟨hne, h⟩
    obtain ⟨c, w, rfl⟩ := List.exists_cons_of_ne_nil hne
    exact ⟨[c], ⟨c, h c List.mem_cons_self, rfl⟩, w,
      mem_kstar_set.2 fun d hd => h d (List.mem_cons_of_mem _ hd), rfl⟩

theorem mem_blanks : w ∈ blanks.lang ↔ ∀ c ∈ w, Text.isBlank c = true :=
  mem_lang_star.trans mem_kstar_set

theorem mem_char {c : Char} : w ∈ (char c).lang ↔ w = [c] := by
  have h : (char c).words? = some [[c]] := by simp [char, words?, CharSet.single, CharSet.members?]
  simp [mem_lang_iff_mem_words h]

end

/-! ## Classes of characters -/

/-- Characters of names. -/
def isNamePart (c : Char) : Bool :=
  letterOrDigit.contains c || c = '_'

/-- Characters of operators in front of their operand. -/
def isFront (c : Char) : Bool :=
  ['+', '-', '!', '~', '¬'].contains c

/-- Characters of operators behind their operand. -/
def isBack (c : Char) : Bool :=
  ['+', '-', '!', '%', '#'].contains c

/-- The first character of an operand without unary operators. -/
def startsCore (c : Char) : Bool :=
  letter.contains c || Text.isDecimalDigit c || ['[', '∞', '.'].contains c

/-- The last character of an operand without unary operators. -/
def endsCore (c : Char) : Bool :=
  letterOrDigit.contains c || Text.isDecimalDigit c || [']', '∞', '.'].contains c

/-- Characters that continue no name and no number. -/
def isEdge (c : Char) : Bool :=
  !Text.isWordChar c && c != '.'

/-- The digits and the point of a number. -/
def isDigitOrPoint (c : Char) : Bool :=
  Text.isDecimalDigit c || c = '.'

theorem endsCore_of_letterOrDigit {c : Char} (h : letterOrDigit.contains c = true) :
    endsCore c = true := by
  simp [endsCore, h]

theorem letterOrDigit_of_letter {c : Char} (h : letter.contains c = true) :
    letterOrDigit.contains c = true := by
  simp [letterOrDigit, CharSet.contains, h]

/-! ## Names -/

/-- A name starts with a letter, ends with a letter or digit, and holds nothing else but
underscores. -/
structure NameShape (w : List Char) : Prop where
  head : ∃ c rest, w = c :: rest ∧ letter.contains c = true
  last : ∃ front c, w = front ++ [c] ∧ letterOrDigit.contains c = true
  all : ∀ c ∈ w, isNamePart c = true

theorem last_of_plus_set {s : CharSet} {w : List Char} (h : w ∈ (Pattern.plus true (.set s)).lang) :
    ∃ front c, w = front ++ [c] ∧ s.contains c = true := by
  obtain ⟨hne, hall⟩ := mem_plus_set.1 h
  rcases List.eq_nil_or_concat w with rfl | ⟨front, c, rfl⟩
  · exact absurd rfl hne
  · exact ⟨front, c, List.concat_eq_append, hall c (by simp)⟩

theorem nameShape_of_mem {w : List Char} (h : w ∈ name.lang) : NameShape w := by
  obtain ⟨u, hu, v, hv, rfl⟩ := mem_lang_seq.1 h
  have hpart : ∀ x ∈ (seq (char '_') (Pattern.plus true (.set letterOrDigit))).lang,
      ∃ y ∈ (Pattern.plus true (.set letterOrDigit)).lang, x = '_' :: y := by
    rintro x ⟨a, ha, y, hy, rfl⟩
    exact ⟨y, hy, by rw [mem_char.1 ha]; rfl⟩
  obtain ⟨hune, huall⟩ := mem_plus_set.1 hu
  obtain ⟨c, rest, rfl⟩ := List.exists_cons_of_ne_nil hune
  obtain ⟨words, rfl, hwords⟩ := Language.mem_kstar.1 (mem_lang_star.1 hv)
  refine ⟨⟨c, rest ++ words.flatten, rfl, huall c List.mem_cons_self⟩, ?_, ?_⟩
  · rcases List.eq_nil_or_concat words with rfl | ⟨words, x, rfl⟩
    · obtain ⟨front, d, hd, hdl⟩ := last_of_plus_set hu
      exact ⟨front, d, by rw [List.flatten_nil, List.append_nil, hd], letterOrDigit_of_letter hdl⟩
    · obtain ⟨y, hy, rfl⟩ := hpart x (hwords x (by simp))
      obtain ⟨front, d, rfl, hd⟩ := last_of_plus_set hy
      exact ⟨c :: rest ++ words.flatten ++ '_' :: front, d, by simp, hd⟩
  · intro d hd
    rcases List.mem_append.1 hd with hd | hd
    · simp [isNamePart, letterOrDigit_of_letter (huall d hd)]
    · obtain ⟨x, hx, hdx⟩ := List.mem_flatten.1 hd
      obtain ⟨y, hy, rfl⟩ := hpart x (hwords x hx)
      rcases List.mem_cons.1 hdx with rfl | hdy
      · simp [isNamePart]
      · simp [isNamePart, (mem_plus_set.1 hy).2 d hdy]

/-! ## Numbers -/

/-- The shape of a number without a sign in it: an exponent has none, or there is no exponent. Or with
one: digits and a point, `e` or `E`, the sign, and digits. -/
inductive NumberShape : List Char → Prop
  | unsigned {m x : List Char} : m ≠ [] → (∀ c ∈ m, isDigitOrPoint c = true) →
      (x = [] ∨ ∃ e d, x = e :: d ∧ (e = 'e' ∨ e = 'E') ∧ d ≠ [] ∧
        ∀ c ∈ d, Text.isDecimalDigit c = true) → NumberShape (m ++ x)
  | signed {m d : List Char} {e s : Char} : m ≠ [] → (∀ c ∈ m, isDigitOrPoint c = true) →
      (e = 'e' ∨ e = 'E') → (s = '+' ∨ s = '-') → d ≠ [] →
      (∀ c ∈ d, Text.isDecimalDigit c = true) → NumberShape (m ++ e :: s :: d)

theorem mem_anyOf {c : Char} {cs w : List Char} : w ∈ (anyOf c cs).lang ↔ ∃ d ∈ c :: cs, w = [d] := by
  have h : ∀ (cs : List Char) (s : CharSet) (ds : List Char), s.members? = some ds →
      (cs.foldl (fun s d => CharSet.union s (.single d)) s).members? = some (ds ++ cs) := by
    intro cs
    induction cs with
    | nil => simp
    | cons d cs ih =>
      intro s ds hs
      rw [List.foldl_cons, ih _ (ds ++ [d]) (by simp [CharSet.members?, hs, CharSet.single])]
      simp
  rw [anyOf, mem_lang_set]
  simp only [CharSet.contains_iff_mem (h cs (.single c) [c] (by simp [CharSet.members?, CharSet.single]))]
  rfl

theorem mantissa_shape {w : List Char} (h : w ∈ mantissa.lang) :
    w ≠ [] ∧ ∀ c ∈ w, isDigitOrPoint c = true := by
  have hdigits : ∀ {v : List Char}, v ∈ (Pattern.plus true (.set .digit)).lang →
      v ≠ [] ∧ ∀ c ∈ v, isDigitOrPoint c = true := by
    intro v hv
    obtain ⟨hne, hall⟩ := mem_plus_set.1 hv
    exact ⟨hne, fun c hc => by
      have : Text.isDecimalDigit c = true := hall c hc
      simp [isDigitOrPoint, this]⟩
  have hpoint : ∀ {v : List Char}, v ∈ (char '.').lang → ∀ c ∈ v, isDigitOrPoint c = true := by
    intro v hv c hc
    rw [mem_char.1 hv, List.mem_singleton] at hc
    simp [isDigitOrPoint, hc]
  rcases h with ⟨u, hu, v, ⟨x, hx, y, hy, rfl⟩, rfl⟩ | ⟨u, hu, v, hv, rfl⟩
  · obtain ⟨hne, hall⟩ := hdigits hu
    refine ⟨by simp [hne], fun c hc => ?_⟩
    rcases List.mem_append.1 hc with hc | hc
    · exact hall c hc
    · rcases List.mem_append.1 hc with hc | hc
      · rcases mem_lang_opt.1 hx with hx | rfl
        · exact hpoint hx c hc
        · cases hc
      · rcases mem_lang_opt.1 hy with hy | rfl
        · exact (hdigits hy).2 c hc
        · cases hc
  · refine ⟨by simp [mem_char.1 hu], fun c hc => ?_⟩
    rcases List.mem_append.1 hc with hc | hc
    · exact hpoint hu c hc
    · exact (hdigits hv).2 c hc

theorem numberShape_of_mem {w : List Char} (h : w ∈ number.lang) : NumberShape w := by
  obtain ⟨m, hm, x, hx, rfl⟩ := mem_lang_seq.1 h
  obtain ⟨hne, hall⟩ := mantissa_shape hm
  rcases mem_lang_opt.1 hx with hx | rfl
  · obtain ⟨u, hu, v, ⟨a, ha, d, hd, rfl⟩, rfl⟩ := mem_lang_seq.1 hx
    obtain ⟨e, he, rfl⟩ := mem_anyOf.1 hu
    obtain ⟨hdne, hdall⟩ := mem_plus_set.1 hd
    have he : e = 'e' ∨ e = 'E' := by simpa using he
    rcases mem_lang_opt.1 ha with ha | rfl
    · obtain ⟨s, hs, rfl⟩ := mem_anyOf.1 ha
      exact .signed hne hall he (by simpa using hs) hdne hdall
    · exact .unsigned hne hall (.inr ⟨e, d, rfl, he, hdne, hdall⟩)
  · exact .unsigned hne hall (.inl rfl)

/-! ## Operands without unary operators -/

/-- The characters of operands without unary operators, but for the sign of an exponent. -/
def isCoreChar (c : Char) : Bool :=
  isNamePart c || Text.isDecimalDigit c || ['[', ']', '∞', '.'].contains c

/-- The characters of operators. -/
def operatorChars : List Char :=
  ['|', '∨', '⊕', '&', '∧', '=', '!', '<', '>', '≠', '≤', '≥', '+', '-', '*', '×', '/', '÷', '%', '^',
   '~', '¬', '#']

theorem isCoreChar_of_operator {c : Char} (h : c ∈ operatorChars) : isCoreChar c = false := by
  have hall : operatorChars.all (fun c => !isCoreChar c) = true := by decide
  simpa using List.all_eq_true.1 hall c h

theorem isCoreChar_of_isBlank {c : Char} (h : Text.isBlank c = true) : isCoreChar c = false := by
  simpa using Text.forall_blank (f := fun c => !isCoreChar c) (by decide) h

theorem isCoreChar_of_isDigitOrPoint {c : Char} (h : isDigitOrPoint c = true) :
    isCoreChar c = true := by
  rw [isDigitOrPoint, Bool.or_eq_true, decide_eq_true_eq] at h
  rcases h with h | rfl
  · simp [isCoreChar, h]
  · decide

theorem isCoreChar_e {e : Char} (h : e = 'e' ∨ e = 'E') : isCoreChar e = true := by
  rcases h with rfl | rfl <;> decide

theorem isCoreChar_of_isNamePart {c : Char} (h : isNamePart c = true) : isCoreChar c = true := by
  simp [isCoreChar, h]

theorem isCoreChar_of_isDecimalDigit {c : Char} (h : Text.isDecimalDigit c = true) :
    isCoreChar c = true := by
  simp [isCoreChar, h]

/-- The shapes of an operand without unary operators. -/
inductive CoreShape : List Char → Prop
  | group {n d : List Char} : (n = [] ∨ NameShape n) → d ≠ [] →
      (∀ c ∈ d, Text.isDecimalDigit c = true) → CoreShape (n ++ '[' :: (d ++ [']']))
  | name {w : List Char} : NameShape w → CoreShape w
  | infinity : CoreShape ['∞']
  | number {w : List Char} : NumberShape w → CoreShape w

/-- The spellings of the named constants. -/
def constantWords : List (List Char) :=
  [['∞'], "infinity".toList, "inf".toList, ['π'], "pi".toList, ['τ'], "tau".toList, ['e'],
    "true".toList, "false".toList, "undefined".toList]

theorem mem_constant {w : List Char} : w ∈ constant.lang ↔ w ∈ constantWords := by
  have h : constant.words? = some constantWords := by decide
  exact mem_lang_iff_mem_words h

theorem nameShape_of_letters {w : List Char} (hne : w ≠ [])
    (h : ∀ c ∈ w, letter.contains c = true) : NameShape w := by
  refine nameShape_of_mem (mem_lang_seq.2 ⟨w, mem_plus_set.2 ⟨hne, h⟩, [], ?_, List.append_nil w⟩)
  exact .inr rfl

theorem coreShape_of_mem {w : List Char} (h : w ∈ core.lang) : CoreShape w := by
  rcases h with ⟨n, hn, t, ⟨a, ha, r, ⟨d, hd, b, hb, rfl⟩, rfl⟩, rfl⟩ | h | h | h
  · obtain ⟨hdne, hdall⟩ := mem_plus_set.1 hd
    rw [mem_char.1 ha, mem_char.1 hb]
    refine .group ?_ hdne hdall
    rcases mem_lang_opt.1 hn with hn | rfl
    · exact .inr (nameShape_of_mem hn)
    · exact .inl rfl
  · exact .name (nameShape_of_mem h)
  · have hw : constantWords.all (fun w => w = ['∞'] ∨ (w ≠ [] ∧ w.all letter.contains)) = true := by
      decide
    have := List.all_eq_true.1 hw w (mem_constant.1 h)
    simp only [decide_eq_true_eq, List.all_eq_true] at this
    rcases this with rfl | ⟨hne, hall⟩
    · exact .infinity
    · exact .name (nameShape_of_letters hne hall)
  · exact .number (numberShape_of_mem h)

theorem NumberShape.head {w : List Char} (h : NumberShape w) :
    ∃ c rest, w = c :: rest ∧ isDigitOrPoint c = true := by
  cases h with
  | unsigned hm hall =>
    obtain ⟨c, m, rfl⟩ := List.exists_cons_of_ne_nil hm
    exact ⟨c, _, rfl, hall c List.mem_cons_self⟩
  | signed hm hall =>
    obtain ⟨c, m, rfl⟩ := List.exists_cons_of_ne_nil hm
    exact ⟨c, _, rfl, hall c List.mem_cons_self⟩

theorem NumberShape.last {w : List Char} (h : NumberShape w) :
    ∃ front c, w = front ++ [c] ∧ isDigitOrPoint c = true := by
  have hdigits : ∀ (front : List Char) {d : List Char}, d ≠ [] → (∀ c ∈ d, Text.isDecimalDigit c = true) →
      ∃ front' c, front ++ d = front' ++ [c] ∧ isDigitOrPoint c = true := by
    intro front d hd hall
    rcases List.eq_nil_or_concat d with rfl | ⟨d, c, rfl⟩
    · exact absurd rfl hd
    · exact ⟨front ++ d, c, by simp, by simp [isDigitOrPoint, hall c (by simp)]⟩
  cases h with
  | @unsigned m x hm hall hx =>
    rcases hx with rfl | ⟨e, d, rfl, -, hd, hdall⟩
    · rcases List.eq_nil_or_concat m with rfl | ⟨m, c, rfl⟩
      · exact absurd rfl hm
      · exact ⟨m, c, by simp, hall c (by simp)⟩
    · have := hdigits (m ++ [e]) hd hdall
      rwa [List.append_assoc] at this
  | @signed m d e s hm hall he hs hd hdall =>
    have := hdigits (m ++ [e, s]) hd hdall
    rwa [List.append_assoc] at this

section

variable {w : List Char}

theorem CoreShape.head (h : CoreShape w) : ∃ c rest, w = c :: rest ∧ startsCore c = true := by
  cases h with
  | group hn =>
    rcases hn with rfl | hn
    · exact ⟨'[', _, rfl, by decide⟩
    · obtain ⟨c, rest, rfl, hc⟩ := hn.head
      exact ⟨c, _, rfl, by simp [startsCore, hc]⟩
  | name hn =>
    obtain ⟨c, rest, rfl, hc⟩ := hn.head
    exact ⟨c, _, rfl, by simp [startsCore, hc]⟩
  | infinity => exact ⟨'∞', _, rfl, by decide⟩
  | number hn =>
    obtain ⟨c, rest, rfl, hc⟩ := hn.head
    rw [isDigitOrPoint, Bool.or_eq_true, decide_eq_true_eq] at hc
    refine ⟨c, _, rfl, ?_⟩
    rcases hc with hc | rfl
    · simp [startsCore, hc]
    · decide

theorem CoreShape.last (h : CoreShape w) : ∃ front c, w = front ++ [c] ∧ endsCore c = true := by
  cases h with
  | @group n d => exact ⟨n ++ '[' :: d, ']', by simp, by decide⟩
  | name hn =>
    obtain ⟨front, c, rfl, hc⟩ := hn.last
    exact ⟨front, c, rfl, endsCore_of_letterOrDigit hc⟩
  | infinity => exact ⟨[], '∞', rfl, by decide⟩
  | number hn =>
    obtain ⟨front, c, rfl, hc⟩ := hn.last
    rw [isDigitOrPoint, Bool.or_eq_true, decide_eq_true_eq] at hc
    refine ⟨front, c, rfl, ?_⟩
    rcases hc with hc | rfl
    · simp [endsCore, hc]
    · decide

/-- Every character is one of those listed, but for the sign of an exponent. -/
theorem CoreShape.cases_sign (h : CoreShape w) : (∀ c ∈ w, isCoreChar c = true) ∨
    ∃ m e s d, w = m ++ e :: s :: d ∧ m ≠ [] ∧ (∀ c ∈ m, isDigitOrPoint c = true) ∧
      (e = 'e' ∨ e = 'E') ∧ (s = '+' ∨ s = '-') ∧ ∀ c ∈ d, isCoreChar c = true := by
  cases h with
  | @group n d hn _ hd =>
    left
    intro c hc
    simp only [List.mem_append, List.mem_cons, List.not_mem_nil, or_false] at hc
    rcases hc with hc | rfl | hc | rfl
    · rcases hn with rfl | hn
      · cases hc
      · exact isCoreChar_of_isNamePart (hn.all c hc)
    · decide
    · exact isCoreChar_of_isDecimalDigit (hd c hc)
    · decide
  | name hn => exact .inl fun c hc => isCoreChar_of_isNamePart (hn.all c hc)
  | infinity => exact .inl fun c hc => by rw [List.mem_singleton.1 hc]; decide
  | number hn =>
    cases hn with
    | unsigned _ hall hx =>
      left
      intro c hc
      rcases List.mem_append.1 hc with hc | hc
      · exact isCoreChar_of_isDigitOrPoint (hall c hc)
      · rcases hx with rfl | ⟨e, d, rfl, he, -, hd⟩
        · cases hc
        · rcases List.mem_cons.1 hc with rfl | hc
          · exact isCoreChar_e he
          · exact isCoreChar_of_isDecimalDigit (hd c hc)
    | signed hm hall he hs _ hd =>
      exact .inr ⟨_, _, _, _, rfl, hm, hall, he, hs, fun c hc =>
        isCoreChar_of_isDecimalDigit (hd c hc)⟩

/-- A character of an operator in it is the sign of an exponent. -/
theorem CoreShape.sign (h : CoreShape w) {a b : List Char} {c : Char} (hw : w = a ++ c :: b)
    (hc : c ∈ operatorChars) : ∃ m e, a = m ++ [e] ∧ m ≠ [] ∧
      (∀ c ∈ m, isDigitOrPoint c = true) ∧ (e = 'e' ∨ e = 'E') ∧ (c = '+' ∨ c = '-') := by
  have hno := isCoreChar_of_operator hc
  rcases h.cases_sign with hall | ⟨m, e, s, d, hw', hm, hmall, he, hs, hd⟩
  · rw [hall c (by simp [hw])] at hno
    cases hno
  · have hm' : c ∉ m ++ [e] := by
      intro hmem
      rcases List.mem_append.1 hmem with hmem | hmem
      · rw [isCoreChar_of_isDigitOrPoint (hmall c hmem)] at hno
        cases hno
      · rw [List.mem_singleton.1 hmem, isCoreChar_e he] at hno
        cases hno
    have hd' : c ∉ d := by
      intro hmem
      rw [hd c hmem] at hno
      cases hno
    have heq : (m ++ [e]) ++ s :: d = a ++ c :: b := by
      rw [← hw, hw']
      simp
    obtain ⟨rfl, rfl, rfl⟩ := (List.append_cons_inj_of_notMem hm' hd').1 heq
    exact ⟨m, e, rfl, hm, hmall, he, hs⟩

theorem CoreShape.not_isBlank (h : CoreShape w) {c : Char} (hc : c ∈ w) : Text.isBlank c = false := by
  rw [← Bool.not_eq_true]
  intro hb
  have hno := isCoreChar_of_isBlank hb
  rcases h.cases_sign with hall | ⟨m, e, s, d, rfl, -, hmall, he, hs, hd⟩
  · rw [hall c hc] at hno
    cases hno
  · simp only [List.mem_append, List.mem_cons] at hc
    rcases hc with hc | rfl | rfl | hc
    · rw [isCoreChar_of_isDigitOrPoint (hmall c hc)] at hno
      cases hno
    · rw [isCoreChar_e he] at hno
      cases hno
    · rcases hs with rfl | rfl <;> exact absurd hb (by decide)
    · rw [hd c hc] at hno
      cases hno

/-- What ends like the part of a number before its sign is a name. -/
theorem CoreShape.name_of_last (h : CoreShape w) {front : List Char} {e : Char}
    (hw : w = front ++ [e]) (he : e = 'e' ∨ e = 'E') : NameShape w := by
  have hend : ∀ (front' : List Char) {c : Char}, w = front' ++ [c] → c = e := by
    intro front' c hw'
    rw [hw] at hw'
    exact (by simpa using (List.append_inj_right' hw' rfl).symm)
  cases h with
  | @group n d =>
    have := hend (n ++ '[' :: d) (c := ']') (by simp)
    subst this
    simp at he
  | name hn => exact hn
  | infinity =>
    have := hend [] rfl
    subst this
    simp at he
  | number hn =>
    obtain ⟨front', c, hc, hd⟩ := hn.last
    have := hend front' hc
    subst this
    rcases he with rfl | rfl <;> exact absurd hd (by decide)

end

/-! ## Names, constants and numbers -/

/-- The characters of names, constants and numbers. -/
def isWordPart (c : Char) : Bool :=
  isNamePart c || Text.isDecimalDigit c || ['∞', '.', '+', '-'].contains c

/-- A name, a constant or a number. -/
def IsWord (w : List Char) : Prop :=
  w ∈ name.lang ∨ w ∈ constant.lang ∨ w ∈ number.lang

theorem IsWord.mem_core {w : List Char} (h : IsWord w) : w ∈ core.lang := by
  rcases h with h | h | h
  · exact .inr (.inl h)
  · exact .inr (.inr (.inl h))
  · exact .inr (.inr (.inr h))

theorem NumberShape.all {w : List Char} (h : NumberShape w) : ∀ c ∈ w, isWordPart c = true := by
  have hdigit : ∀ {c : Char}, Text.isDecimalDigit c = true → isWordPart c = true := by
    intro c hc
    simp [isWordPart, hc]
  have hpart : ∀ {c : Char}, isDigitOrPoint c = true → isWordPart c = true := by
    intro c hc
    rw [isDigitOrPoint, Bool.or_eq_true, decide_eq_true_eq] at hc
    rcases hc with hc | rfl
    · exact hdigit hc
    · decide
  intro c hc
  cases h with
  | unsigned _ hall hx =>
    rcases List.mem_append.1 hc with hc | hc
    · exact hpart (hall c hc)
    · rcases hx with rfl | ⟨e, d, rfl, he, -, hd⟩
      · cases hc
      · rcases List.mem_cons.1 hc with rfl | hc
        · rcases he with rfl | rfl <;> decide
        · exact hdigit (hd c hc)
  | signed _ hall he hs _ hd =>
    simp only [List.mem_append, List.mem_cons] at hc
    rcases hc with hc | rfl | rfl | hc
    · exact hpart (hall c hc)
    · rcases he with rfl | rfl <;> decide
    · rcases hs with rfl | rfl <;> decide
    · exact hdigit (hd c hc)

theorem IsWord.all {w : List Char} (h : IsWord w) : ∀ c ∈ w, isWordPart c = true := by
  rcases h with h | h | h
  · intro c hc
    simp [isWordPart, (nameShape_of_mem h).all c hc]
  · have hall : constantWords.all (fun w => w.all isWordPart) = true := by decide
    have := List.all_eq_true.1 hall w (mem_constant.1 h)
    exact List.all_eq_true.1 this
  · exact (numberShape_of_mem h).all

/-- Brackets, commas and backslashes belong to no word. -/
theorem not_isWordPart {c : Char} (h : c ∈ ['(', ')', '[', ']', ',', '\\']) :
    isWordPart c = false := by
  have hall : ['(', ')', '[', ']', ',', '\\'].all (fun c => !isWordPart c) = true := by
    decide
  simpa using List.all_eq_true.1 hall c h

theorem IsWord.trimmed {w : List Char} (h : IsWord w) : Text.Trimmed w := by
  have hcore := coreShape_of_mem h.mem_core
  obtain ⟨c, r, hc, -⟩ := hcore.head
  exact Text.trimmed_of_not_blank (by simp [hc]) fun c hc => hcore.not_isBlank hc

end Formula.Lexeme
