import Formula.Proofs.Reader.ChainKey
import Formula.Proofs.Reader.Shown

/-!
# The texts of values

The text of a value is made of words, of words behind a minus sign, and of brackets around such texts with
a comma and a space between them (`Printed`). Reading such a text passes on such texts only
(`closed_printed`). Their only blanks stand behind commas, where the key drops them and from where they can
be put back, so texts of the same key are the same (`keysAgree_printed`). So a new reader reads them as the
trees that they show (`Reader.read_printed`).
-/

set_option autoImplicit false

namespace Formula

open Lexeme

/-- Texts with a comma and a space between them. -/
def joined : List (List Char) → List Char
  | [] => []
  | [text] => text
  | text :: texts => text ++ ',' :: ' ' :: joined texts

theorem joined_cons_cons (text text' : List Char) (texts : List (List Char)) :
    joined (text :: text' :: texts) = text ++ ',' :: ' ' :: joined (text' :: texts) := rfl

/-- The words in the text of a value, and what they are read as. -/
inductive PrintedWord : List Char → Expr → Prop
  | constant (kind : Constant) : PrintedWord kind.symbol.toList (.constant kind)
  | number {w : List Char} {x : Float} : w ∈ number.lang → Number.read? w = some x →
      PrintedWord w (.ofFloat x)

/-- The texts of values, and what they are read as. -/
inductive Printed : List Char → Expr → Prop
  | word {w : List Char} {e : Expr} : PrintedWord w e → Printed w e
  | negated {w : List Char} {e : Expr} : PrintedWord w e → Printed ('-' :: w) (.unary .before .negate e)
  | vector (ps : List (List Char × Expr)) : (∀ p ∈ ps, Printed p.1 p.2) →
      Printed ('[' :: (joined (ps.map Prod.fst) ++ [']'])) (.collection .vector (ps.map Prod.snd))
  | tuple (ps : List (List Char × Expr)) : ps.length ≠ 1 → (∀ p ∈ ps, Printed p.1 p.2) →
      Printed ('(' :: (joined (ps.map Prod.fst) ++ [')'])) (.collection .tuple (ps.map Prod.snd))

/-! ## Texts of values are shown -/

section

variable {w text : List Char} {e : Expr}

theorem PrintedWord.isWord (h : PrintedWord w e) : IsWord w := by
  cases h with
  | constant kind => exact .inr (.inl (Constant.mem_lang_of_mem kind.symbol_mem))
  | number hw => exact .inr (.inr hw)

theorem PrintedWord.takes (h : PrintedWord w e) {z y : List Char} (hz : Blank z) (hy : Blank y) :
    Takes (z ++ w ++ y) (.leaf e) := by
  cases h with
  | constant kind =>
    exact takes_constant (Constant.ofSymbol?_of_mem kind.symbol_mem)
      (plan_constant hz hy (Constant.mem_lang_of_mem kind.symbol_mem))
  | number hw hx => exact takes_number hx (plan_number hz hy hw)

theorem PrintedWord.shown (h : PrintedWord w e) : Shown w Expr.atomBinding e :=
  shown_word h.isWord fun hz hy => h.takes hz hy

/-- A word binds tightly enough to stand behind an operator. -/
theorem PrintedWord.shownOperand (h : PrintedWord w e) : Shown w Expr.afterBinding e :=
  h.shown.mono (by decide)

theorem standsOn_negate : UnaryOperator.negate.standsOn .before = true := rfl

theorem shownAll_joined {ps : List (List Char × Expr)} (h : ∀ p ∈ ps, Shown p.1 0 p.2) :
    ShownAll (joined (ps.map Prod.fst)) (ps.map Prod.snd) := by
  induction ps with
  | nil => exact .nil
  | cons p ps ih =>
    rw [List.forall_mem_cons] at h
    have hps := ih h.2
    cases ps with
    | nil => exact .one h.1
    | cons q ps => exact .cons h.1 hps

theorem Printed.shown (h : Printed text e) : Shown text 0 e := by
  induction h with
  | word h => exact h.shown.mono (Nat.zero_le _)
  | negated h =>
    exact (h.shownOperand.before standsOn_negate).mono (Nat.zero_le _)
  | vector ps _ ih => exact (shownAll_joined ih).vector.mono (Nat.zero_le _)
  | tuple ps hlength _ ih =>
    refine ((shownAll_joined ih).tuple ?_).mono (Nat.zero_le _)
    rwa [List.length_map]

end

/-! ## Reading passes on texts of values -/

/-- Texts of values between blanks. -/
def printedTexts : Set (List Char) :=
  {p | ∃ z text y e, Blank z ∧ Blank y ∧ Printed text e ∧ p = z ++ text ++ y}

/-- A list of texts that are shown splits at its own commas. -/
theorem exists_segs_joined {texts : List (List Char)} (hne : texts ≠ [])
    (h : ∀ t ∈ texts, ∃ e, Shown t 0 e) {z : List Char} (hz : Blank z) :
    ∃ segs, Segment.AllValid segs ∧ Segment.texts segs = z ++ joined texts ∧
      ∀ part ∈ commaParts segs, ∃ z' t, Blank z' ∧ t ∈ texts ∧ Segment.texts part = z' ++ t := by
  induction texts generalizing z with
  | nil => exact absurd rfl hne
  | cons t texts ih =>
    rw [List.forall_mem_cons] at h
    obtain ⟨⟨e, ht⟩, htexts⟩ := h
    obtain ⟨segs, hsegs⟩ := ht.listSegs hz
    have hnot : Segment.char ',' ∉ segs :=
      not_mem_of_comma_not_mem (n := 0) fun hmem => (hsegs.comma 0).1 hmem rfl
    cases texts with
    | nil =>
      refine ⟨segs, hsegs.valid, hsegs.texts, fun part hpart => ?_⟩
      rw [commaParts_of_not_mem hnot, List.mem_singleton] at hpart
      rw [hpart]
      exact ⟨z, t, hz, List.mem_cons_self, hsegs.texts⟩
    | cons t' texts =>
      obtain ⟨segs', hvalid', htexts', hparts'⟩ := ih (List.cons_ne_nil _ _) htexts blank_space
      refine ⟨segs ++ .char ',' :: segs', ?_, ?_, fun part hpart => ?_⟩
      · exact allValid_append hsegs.valid
          (allValid_append (allValid_map_char (w := [',']) (by simp [isBracket])) hvalid')
      · rw [Segment.texts_append, Segment.texts_cons, hsegs.texts, htexts', joined_cons_cons]
        simp [Segment.text]
      · rw [commaParts_append hnot, List.mem_cons] at hpart
        rcases hpart with rfl | hpart
        · exact ⟨z, t, hz, List.mem_cons_self, hsegs.texts⟩
        · obtain ⟨z', u, hz', hu, hpart⟩ := hparts' part hpart
          exact ⟨z', u, hz', List.mem_cons_of_mem _ hu, hpart⟩

/-- The pieces of a list of texts are these, behind blanks. -/
theorem exists_of_mem_listPieces_joined {texts : List (List Char)} (h : ∀ t ∈ texts, ∃ e, Shown t 0 e)
    {q : List Char} (hq : q ∈ listPieces (joined texts)) : ∃ z t, Blank z ∧ t ∈ texts ∧ q = z ++ t := by
  rcases eq_or_ne texts [] with rfl | hne
  · rw [joined, listPieces_blank Blank.nil] at hq
    cases hq
  · obtain ⟨segs, hvalid, htexts, hparts⟩ := exists_segs_joined hne h Blank.nil
    rw [List.nil_append] at htexts
    rw [← htexts, listPieces_texts hvalid] at hq
    split at hq
    · cases hq
    · obtain ⟨part, hpart, rfl⟩ := List.mem_map.1 hq
      exact hparts part hpart

/-- Reading the text of a value takes a step to texts of values. -/
theorem Printed.exists_takes {text : List Char} {e : Expr} (h : Printed text e) {z y : List Char}
    (hz : Blank z) (hy : Blank y) :
    ∃ s, Takes (z ++ text ++ y) s ∧ ∀ q ∈ s.parts, q ∈ printedTexts := by
  have helements : ∀ {ps : List (List Char × Expr)}, (∀ p ∈ ps, Printed p.1 p.2) →
      ∀ q ∈ listPieces (joined (ps.map Prod.fst)), q ∈ printedTexts := by
    intro ps hps q hq
    have hshown : ∀ t ∈ ps.map Prod.fst, ∃ e, Shown t 0 e := by
      intro t ht
      obtain ⟨p, hp, rfl⟩ := List.mem_map.1 ht
      exact ⟨p.2, (hps p hp).shown⟩
    obtain ⟨z', t, hz', ht, rfl⟩ := exists_of_mem_listPieces_joined hshown hq
    obtain ⟨p, hp, rfl⟩ := List.mem_map.1 ht
    exact ⟨z', p.1, [], p.2, hz', Blank.nil, hps p hp, by simp⟩
  cases h with
  | word h => exact ⟨_, h.takes hz hy, fun q hq => by cases hq⟩
  | @negated w e h =>
    refine ⟨_, h.shownOperand.takes_before standsOn_negate hz hy, fun q hq => ?_⟩
    rw [List.mem_singleton.1 hq]
    exact ⟨[], w, y, e, Blank.nil, hy, .word h, rfl⟩
  | vector ps hps =>
    exact ⟨_, (shownAll_joined fun p hp => (hps p hp).shown).takes_vector hz hy, helements hps⟩
  | tuple ps hlength hps =>
    refine ⟨_, (shownAll_joined fun p hp => (hps p hp).shown).takes_tuple ?_ hz hy, helements hps⟩
    rwa [List.length_map]

theorem closed_printed : Closed printedTexts := by
  rintro p ⟨z, text, y, e, hz, hy, h, rfl⟩ q hq
  obtain ⟨s, htakes, hparts⟩ := h.exists_takes hz hy
  exact hparts q (htakes.pieces q hq)

/-! ## Keys of texts of values -/

/-- Puts a space behind every comma. -/
def respace (key : List Char) : List Char :=
  key.flatMap fun c => if c = ',' then [',', ' '] else [c]

theorem respace_append (k l : List Char) : respace (k ++ l) = respace k ++ respace l :=
  List.flatMap_append

theorem respace_comma (k : List Char) : respace (',' :: k) = ',' :: ' ' :: respace k := rfl

theorem respace_cons {c : Char} (h : c ≠ ',') (k : List Char) : respace (c :: k) = c :: respace k := by
  rw [respace, List.flatMap_cons, if_neg h]
  rfl

theorem respace_eq_self {k : List Char} (h : ',' ∉ k) : respace k = k := by
  induction k with
  | nil => rfl
  | cons c k ih =>
    rw [List.mem_cons, not_or] at h
    rw [respace_cons (Ne.symm h.1), ih h.2]

theorem keepsApart_comma_left (c : Char) : keepsApart ',' c = false := by
  have hcomma : JoinClass.of ',' = .delimiter := by decide
  rw [keepsApart, hcomma]
  cases JoinClass.of c <;> rfl

theorem keepsApart_comma_right (c : Char) : keepsApart c ',' = false := by
  have hcomma : JoinClass.of ',' = .delimiter := by decide
  rw [keepsApart, hcomma]
  exact Bool.and_false _

/-- Spaces behind commas leave nothing in the key. -/
theorem keyFrom_respace {key y : List Char} (hkey : ∀ c ∈ key, Text.isBlank c = false) (hy : Blank y)
    {last : Option Char} {gap : Bool} (hgap : gap = true → last = none ∨ last = some ',') :
    keyFrom last gap (respace key ++ y) = key := by
  induction key generalizing last gap with
  | nil => exact keyFrom_end hy
  | cons c key ih =>
    rw [List.forall_mem_cons] at hkey
    by_cases hc : c = ','
    · subst hc
      have hapart : (gap && last.any (keepsApart · ',')) = false := by
        cases last <;> simp [keepsApart_comma_right]
      rw [respace_comma, List.cons_append, List.cons_append, keyFrom, if_neg (by rw [hkey.1]; decide),
        hapart, keyFrom, if_pos Text.isBlank_space, ih hkey.2 fun _ => .inr rfl]
      rfl
    · have hapart : (gap && last.any (keepsApart · c)) = false := by
        cases gap with
        | false => rfl
        | true => rcases hgap rfl with rfl | rfl <;> simp [keepsApart_comma_left]
      rw [respace_cons hc, List.cons_append, keyFrom, if_neg (by rw [hkey.1]; decide), hapart,
        ih hkey.2 fun h => by cases h]
      rfl

/-- A text of which the only blanks are spaces behind all of its commas. -/
def SpacedCommas (text : List Char) : Prop :=
  ∃ key, (∀ c ∈ key, Text.isBlank c = false) ∧ text = respace key

theorem spacedCommas_joined {texts : List (List Char)} (h : ∀ t ∈ texts, SpacedCommas t) :
    SpacedCommas (joined texts) := by
  induction texts with
  | nil => exact ⟨[], by simp, rfl⟩
  | cons t texts ih =>
    rw [List.forall_mem_cons] at h
    cases texts with
    | nil => exact h.1
    | cons t' texts =>
      obtain ⟨k, hk, rfl⟩ := h.1
      obtain ⟨l, hl, hjoined⟩ := ih h.2
      refine ⟨k ++ ',' :: l, ?_, ?_⟩
      · rw [List.forall_mem_append, List.forall_mem_cons]
        exact ⟨hk, by decide, hl⟩
      · rw [respace_append, respace_comma, ← hjoined, joined_cons_cons]

theorem spacedCommas_bracket {text : List Char} (h : SpacedCommas text) {o c : Char}
    (ho : Text.isBlank o = false ∧ o ≠ ',') (hc : Text.isBlank c = false ∧ c ≠ ',') :
    SpacedCommas (o :: (text ++ [c])) := by
  obtain ⟨k, hk, rfl⟩ := h
  refine ⟨o :: (k ++ [c]), ?_, ?_⟩
  · rw [List.forall_mem_cons, List.forall_mem_append, List.forall_mem_singleton]
    exact ⟨ho.1, hk, hc.1⟩
  · rw [respace_cons ho.2, respace_append, respace_cons hc.2]
    rfl

theorem Printed.spacedCommas {text : List Char} {e : Expr} (h : Printed text e) : SpacedCommas text := by
  have hword : ∀ {w : List Char} {e : Expr}, PrintedWord w e →
      (∀ c ∈ w, Text.isBlank c = false) ∧ w = respace w := by
    intro w e h
    refine ⟨fun c => (IsWord.shape h.isWord).not_isBlank, (respace_eq_self fun hmem => ?_).symm⟩
    exact IsWord.not_special h.isWord ',' hmem (by decide)
  have helements : ∀ {ps : List (List Char × Expr)}, (∀ p ∈ ps, SpacedCommas p.1) →
      SpacedCommas (joined (ps.map Prod.fst)) :=
    fun h => spacedCommas_joined (List.forall_mem_map.2 h)
  induction h with
  | @word w _ h => exact ⟨w, hword h⟩
  | @negated w _ h =>
    obtain ⟨hblank, hrespace⟩ := hword h
    refine ⟨'-' :: w, List.forall_mem_cons.2 ⟨by decide, hblank⟩, ?_⟩
    rw [respace_cons (by decide), ← hrespace]
  | vector ps _ ih => exact spacedCommas_bracket (helements ih) (by decide) (by decide)
  | tuple ps _ _ ih => exact spacedCommas_bracket (helements ih) (by decide) (by decide)

/-- Texts of values of the same key are the same but for blanks around them. -/
theorem eq_of_cacheKey {text text' z y z' y' : List Char} (h : SpacedCommas text)
    (h' : SpacedCommas text') (hz : Blank z) (hy : Blank y) (hz' : Blank z') (hy' : Blank y')
    (hkey : cacheKey (z ++ text ++ y) = cacheKey (z' ++ text' ++ y')) : text = text' := by
  obtain ⟨k, hk, rfl⟩ := h
  obtain ⟨k', hk', rfl⟩ := h'
  have hkeys := String.ofList_injective hkey
  rw [List.append_assoc, List.append_assoc, keyFrom_blank hz, keyFrom_blank hz',
    keyFrom_respace hk hy fun _ => .inl rfl, keyFrom_respace hk' hy' fun _ => .inl rfl] at hkeys
  rw [hkeys]

theorem keysAgree_printed : KeysAgree printedTexts := by
  rintro p ⟨z, text, y, d, hz, hy, h, rfl⟩ q ⟨z', text', y', d', hz', hy', h', rfl⟩ hkey e he
  obtain rfl := eq_of_cacheKey h.spacedCommas h'.spacedCommas hz hy hz' hy' hkey
  rw [h'.shown.read hz' hy'] at he
  rw [h'.shown.read hz hy, he]

/-- A new reader that may nest more deeply than the text of a value is long reads the text. -/
theorem Reader.read_printed {text : List Char} {e : Expr} (h : Printed text e) {depth : Nat}
    (hdepth : text.length < depth) : ((Reader.ofDepth depth).read text).1 = .ok e := by
  have hread := h.shown.read Blank.nil Blank.nil
  rw [List.nil_append, List.append_nil] at hread
  exact Reader.read_of_closed closed_printed keysAgree_printed
    ⟨[], text, [], e, Blank.nil, Blank.nil, h, by simp⟩ hdepth hread

end Formula
