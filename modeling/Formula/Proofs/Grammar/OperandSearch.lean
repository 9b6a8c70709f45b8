import Formula.Proofs.Grammar.Operand

/-!
# Where an operand ends or starts

`endsWithOperand_iff` and `startsWithOperand_iff` say in terms of words when there is an operand at the
end or at the start of a text. From these follow the places where there is none: after a symbol that
stands apart from every operand (`not_endsWith_symbols`), after half of a double operator
(`not_endsWith_half`), before the sign of an exponent (`not_endsWith_exponent`), and before a symbol
that is not in front of an operand (`front_of_startsWith`).
-/

set_option autoImplicit false

namespace Formula.Lexeme

open Pattern
open scoped Computability

variable {w text : List Char}

/-! ## Unary operators -/

/-- The spellings of the operators in front of an operand. -/
def frontWords : List (List Char) :=
  [['+', '+'], ['-', '-'], ['+'], ['-'], ['!'], ['~'], ['¬']]

/-- The spellings of the operators behind an operand. -/
def backWords : List (List Char) :=
  [['+', '+'], ['-', '-'], ['!', '!'], ['!'], ['%'], ['#']]

theorem lang_frontOperator : w ∈ frontOperator.lang ↔ w ∈ frontWords :=
  mem_lang_iff_mem_words (by decide)

theorem lang_backOperator : w ∈ backOperator.lang ↔ w ∈ backWords :=
  mem_lang_iff_mem_words (by decide)

theorem operator_of_front (h : w ∈ frontOperator.lang) : w ≠ [] ∧ ∀ c ∈ w, c ∈ operatorChars := by
  have hall : frontWords.all (fun w => w ≠ [] ∧ w.all (· ∈ operatorChars)) = true := by decide
  simpa using List.all_eq_true.1 hall w (lang_frontOperator.1 h)

theorem operator_of_back (h : w ∈ backOperator.lang) : w ≠ [] ∧ ∀ c ∈ w, c ∈ operatorChars := by
  have hall : backWords.all (fun w => w ≠ [] ∧ w.all (· ∈ operatorChars)) = true := by decide
  simpa using List.all_eq_true.1 hall w (lang_backOperator.1 h)

theorem forall_of_fronts (h : w ∈ (seq frontOperator blanks).lang∗) :
    ∀ c ∈ w, isFront c = true ∨ Text.isBlank c = true := by
  refine forall_of_mem_kstar ?_ h
  rintro v ⟨x, hx, y, hy, rfl⟩ c hc
  rcases List.mem_append.1 hc with hc | hc
  · have hall : frontWords.all (fun w => w.all isFront) = true := by decide
    have := List.all_eq_true.1 hall x (lang_frontOperator.1 hx)
    exact .inl (List.all_eq_true.1 this c hc)
  · exact .inr (mem_blanks.1 hy c hc)

theorem forall_of_backs (h : w ∈ backOperator.lang∗) : ∀ c ∈ w, isBack c = true := by
  refine forall_of_mem_kstar ?_ h
  intro x hx c hc
  have hall : backWords.all (fun w => w.all isBack) = true := by decide
  have := List.all_eq_true.1 hall x (lang_backOperator.1 hx)
  exact List.all_eq_true.1 this c hc

/-- A plus or minus sign at the end is the second half of an operator. -/
theorem double_of_backs (h : w ∈ backOperator.lang∗) {front : List Char} {c : Char}
    (hw : w = front ++ [c]) (hc : c = '+' ∨ c = '-') : ∃ front', front = front' ++ [c] := by
  obtain ⟨words, rfl, hwords⟩ := Language.mem_kstar_iff_exists_nonempty.1 h
  rcases List.eq_nil_or_concat words with rfl | ⟨words, v, rfl⟩
  · simp at hw
  · obtain ⟨hv, hne⟩ := hwords v (by simp)
    rw [List.concat_eq_append, List.flatten_append, List.flatten_singleton] at hw
    have hlast : v.getLast? = some c := by
      have := congrArg List.getLast? hw
      simpa [List.getLast?_append_of_ne_nil _ hne] using this
    have hall : backWords.all
        (fun w => ['+', '-'].all fun c => w.getLast? ≠ some c || w = [c, c]) = true := by decide
    have := List.all_eq_true.1 (List.all_eq_true.1 hall v (lang_backOperator.1 hv)) c (by simpa)
    have hvv : v = [c, c] := by simpa [hlast] using this
    subst hvv
    have hends : front ++ [c] = (words.flatten ++ [c]) ++ [c] := by simpa using hw.symm
    exact ⟨words.flatten, List.append_inj_left' hends rfl⟩

/-! ## Words of an operand -/

theorem lang_operand : w ∈ operand.lang ↔ ∃ p c q, w = p ++ c ++ q ∧
    p ∈ (seq frontOperator blanks).lang∗ ∧ c ∈ core.lang ∧ q ∈ backOperator.lang∗ := by
  constructor
  · rintro ⟨p, hp, r, ⟨c, hc, q, hq, rfl⟩, rfl⟩
    exact ⟨p, c, q, (List.append_assoc ..).symm, mem_lang_star.1 hp, hc, mem_lang_star.1 hq⟩
  · rintro ⟨p, c, q, rfl, hp, hc, hq⟩
    rw [List.append_assoc]
    exact ⟨p, mem_lang_star.2 hp, _, ⟨c, hc, q, mem_lang_star.2 hq, rfl⟩, rfl⟩

theorem isEdge_of_isBlank {c : Char} (h : Text.isBlank c = true) : isEdge c = true :=
  Text.forall_blank (by decide +kernel) h

theorem isEdge_iff {c : Char} : CharSet.contains (.compl (.union .word (.single '.'))) c = true ↔
    isEdge c = true := by
  have h : CharSet.contains (.single '.') c = decide (c = '.') := by
    rw [Bool.eq_iff_iff, CharSet.contains_iff_mem (show CharSet.members? (.single '.') = some ['.'] from rfl)]
    simp
  simp [CharSet.contains, h, isEdge]

/-- Where an operand may begin: at the start of the text, or after a character that continues no name
and no number. -/
def EdgeBefore (front : List Char) : Prop :=
  ∀ c, front.getLast? = some c → isEdge c = true

/-- Where an operand may end. -/
def EdgeAfter (back : List Char) : Prop :=
  ∀ c, back.head? = some c → isEdge c = true

/-- All characters are blank. -/
def Blank (text : List Char) : Prop :=
  ∀ c ∈ text, Text.isBlank c = true

theorem EdgeBefore.append {u z : List Char} (hu : EdgeBefore u) (hz : Blank z) : EdgeBefore (u ++ z) := by
  intro c hc
  rcases List.eq_nil_or_concat z with rfl | ⟨z, d, rfl⟩
  · exact hu c (by simpa using hc)
  · have hd : d = c := by simpa using hc
    exact hd ▸ isEdge_of_isBlank (hz d (by simp))

theorem EdgeAfter.append {z r : List Char} (hz : Blank z) (hr : EdgeAfter r) : EdgeAfter (z ++ r) := by
  intro c hc
  cases z with
  | nil => exact hr c hc
  | cons d z =>
    cases hc
    exact isEdge_of_isBlank (hz c List.mem_cons_self)

theorem isAnchorFree_operand : operand.isAnchorFree = true := by decide

theorem accepts_blanks {b a : Option Char} : blanks.Accepts b w a ↔ Blank w := by
  rw [accepts_iff_mem_lang (by decide), mem_blanks]
  rfl

theorem accepts_assert {x : Assertion} {b a : Option Char} :
    (Pattern.assert x).Accepts b w a ↔ w = [] ∧ x.holds b a = true := by
  constructor
  · rintro ⟨i, l, _ | _ | h⟩
    exact ⟨rfl, h⟩
  · rintro ⟨rfl, h⟩
    exact ⟨0, _, .assert h⟩

theorem accepts_edge {b a : Option Char} : edge.Accepts b w a ↔ ∃ c, w = [c] ∧ isEdge c = true := by
  rw [edge, accepts_iff_mem_lang rfl, mem_lang_set]
  simp only [isEdge_iff, and_comm]

theorem lastOr_none_eq_none {u : List Char} (h : (lastOr none u).isNone = true) : u = [] := by
  cases u with
  | nil => rfl
  | cons c u =>
    obtain ⟨d, hd⟩ := exists_lastOr_some c u
    rw [lastOr_cons, hd] at h
    cases h

theorem accepts_operand_end {b : Option Char} {o z : List Char} (ho : o ∈ operand.lang)
    (hz : Blank z) :
    (seq blanks (seq operand (seq blanks (.assert .textEnd)))).Accepts b (o ++ z) none := by
  refine accepts_seq.2 ⟨[], o ++ z, rfl, accepts_blanks.2 (by simp [Blank]), ?_⟩
  refine accepts_seq.2 ⟨o, z, rfl, (accepts_iff_mem_lang isAnchorFree_operand).2 ho, ?_⟩
  exact accepts_seq.2 ⟨z, [], by simp, accepts_blanks.2 hz, accepts_assert.2 ⟨rfl, rfl⟩⟩

/-- A text ends with an operand: one that begins at an edge and has only blanks after it. -/
theorem endsWithOperand_iff : operandAtEnd.OccursIn text ↔
    ∃ u o z, text = u ++ o ++ z ∧ EdgeBefore u ∧ o ∈ operand.lang ∧ Blank z := by
  constructor
  · simp only [OccursIn, operandAtEnd, accepts_seq, accepts_alt, accepts_assert, accepts_blanks,
      accepts_edge, accepts_iff_mem_lang isAnchorFree_operand]
    rintro ⟨u, v, r, rfl, s, t, rfl, hs, z, t, rfl, hz, o, t, rfl, ho, z', e, rfl, hz', rfl, he⟩
    have hr : r = [] := by
      cases r with
      | nil => rfl
      | cons c r => simp [Assertion.holds] at he
    subst hr
    refine ⟨u ++ s ++ z, o, z', by simp, EdgeBefore.append ?_ hz, ho, hz'⟩
    rcases hs with ⟨rfl, hs⟩ | ⟨c, rfl, hc⟩
    · rw [lastOr_none_eq_none hs]
      intro c hc
      cases hc
    · intro d hd
      rw [List.getLast?_append_of_ne_nil _ (List.cons_ne_nil c [])] at hd
      cases hd
      exact hc
  · rintro ⟨u, o, z, rfl, hu, ho, hz⟩
    rcases List.eq_nil_or_concat u with rfl | ⟨u, c, rfl⟩
    · refine ⟨[], o ++ z, [], by simp, accepts_seq.2 ⟨[], o ++ z, rfl, ?_, accepts_operand_end ho hz⟩⟩
      exact accepts_alt.2 (.inl (accepts_assert.2 ⟨rfl, rfl⟩))
    · refine ⟨u, c :: (o ++ z), [], by simp, ?_⟩
      refine accepts_seq.2 ⟨[c], o ++ z, rfl, ?_, accepts_operand_end ho hz⟩
      exact accepts_alt.2 (.inr (accepts_edge.2 ⟨c, rfl, hu c (by simp)⟩))

/-- A text starts with an operand: one that has only blanks before it and ends at an edge. -/
theorem startsWithOperand_iff : operandAtStart.OccursIn text ↔
    ∃ z o r, text = z ++ o ++ r ∧ Blank z ∧ o ∈ operand.lang ∧ EdgeAfter r := by
  constructor
  · simp only [OccursIn, operandAtStart, accepts_seq, accepts_alt, accepts_assert, accepts_blanks,
      accepts_edge, accepts_iff_mem_lang isAnchorFree_operand]
    rintro ⟨u, v, r, rfl, s, t, rfl, ⟨rfl, hs⟩, z, t, rfl, hz, o, t, rfl, ho, z', e, rfl, hz', he⟩
    rw [lastOr_none_eq_none hs]
    refine ⟨z, o, z' ++ (e ++ r), by simp, hz, ho, EdgeAfter.append hz' ?_⟩
    rcases he with ⟨rfl, he⟩ | ⟨c, rfl, hc⟩
    · cases r with
      | nil =>
        intro c hc
        cases hc
      | cons c r => simp [Assertion.holds] at he
    · intro d hd
      cases hd
      exact hc
  · rintro ⟨z, o, r, rfl, hz, ho, hr⟩
    have hstart : ∀ {e r' : List Char}, Pattern.Accepts (.alt (.assert .textEnd) edge)
        (lastOr none (z ++ o)) e r'.head? → operandAtStart.OccursIn (z ++ o ++ e ++ r') := by
      intro e r' he
      refine ⟨[], z ++ o ++ e, r', rfl, accepts_seq.2 ⟨[], _, rfl, accepts_assert.2 ⟨rfl, rfl⟩, ?_⟩⟩
      refine accepts_seq.2 ⟨z, o ++ e, by simp, accepts_blanks.2 hz, ?_⟩
      refine accepts_seq.2 ⟨o, e, rfl, (accepts_iff_mem_lang isAnchorFree_operand).2 ho, ?_⟩
      refine accepts_seq.2 ⟨[], e, rfl, accepts_blanks.2 (by simp [Blank]), ?_⟩
      rw [headOr_none]
      rw [lastOr_append] at he
      exact he
    cases r with
    | nil =>
      have := @hstart [] [] (accepts_alt.2 (.inl (accepts_assert.2 ⟨rfl, rfl⟩)))
      simpa using this
    | cons c r =>
      have := @hstart [c] r (accepts_alt.2 (.inr (accepts_edge.2 ⟨c, rfl, hr c rfl⟩)))
      simpa using this

/-! ## Where there is no operand -/

theorem Blank.nil : Blank [] := by simp [Blank]

theorem endsCore_of_isBlank {c : Char} (h : Text.isBlank c = true) : endsCore c = false := by
  simpa using Text.forall_blank (f := fun c => !endsCore c) (by decide) h

theorem isBack_of_isBlank {c : Char} (h : Text.isBlank c = true) : isBack c = false := by
  simpa using Text.forall_blank (f := fun c => !isBack c) (by decide) h

theorem startsCore_of_isBlank {c : Char} (h : Text.isBlank c = true) : startsCore c = false := by
  simpa using Text.forall_blank (f := fun c => !startsCore c) (by decide) h

theorem isBlank_of_isBack {c : Char} (h : isBack c = true) : Text.isBlank c = false := by
  rw [← Bool.not_eq_true]
  intro hb
  rw [isBack_of_isBlank hb] at h
  cases h

theorem isBlank_of_endsCore {c : Char} (h : endsCore c = true) : Text.isBlank c = false := by
  rw [← Bool.not_eq_true]
  intro hb
  rw [endsCore_of_isBlank hb] at h
  cases h

theorem endsCore_of_operator {c : Char} (h : c ∈ operatorChars) : endsCore c = false := by
  have hall : operatorChars.all (fun c => !endsCore c) = true := by decide
  simpa using List.all_eq_true.1 hall c h

theorem startsCore_of_operator {c : Char} (h : c ∈ operatorChars) : startsCore c = false := by
  have hall : operatorChars.all (fun c => !startsCore c) = true := by decide
  simpa using List.all_eq_true.1 hall c h

theorem isBlank_of_operator {c : Char} (h : c ∈ operatorChars) : Text.isBlank c = false := by
  have hall : operatorChars.all (fun c => !Text.isBlank c) = true := by decide
  simpa using List.all_eq_true.1 hall c h

/-- A text ends with an operand only if its last character that belongs neither to an operator behind
nor to the blanks after it ends a name, constant, number or group. -/
theorem exists_of_endsWith (h : operandAtEnd.OccursIn text) : ∃ u d q z, text = u ++ d :: (q ++ z) ∧
    endsCore d = true ∧ q ∈ backOperator.lang∗ ∧ Blank z := by
  obtain ⟨u, o, z, rfl, -, ho, hz⟩ := endsWithOperand_iff.1 h
  obtain ⟨p, c, q, rfl, -, hc, hq⟩ := lang_operand.1 ho
  obtain ⟨front, d, rfl, hd⟩ := (coreShape_of_mem hc).last
  exact ⟨u ++ p ++ front, d, q, z, by simp, hd, hq, hz⟩

/-- The last character of a text that is neither blank at the end nor belongs to an operator behind. -/
def coreEnd? (text : List Char) : Option Char :=
  ((text.reverse.dropWhile Text.isBlank).dropWhile isBack).head?

theorem coreEnd?_append {front z : List Char} (hz : Blank z) :
    coreEnd? (front ++ z) = coreEnd? front := by
  rw [coreEnd?, List.reverse_append, List.dropWhile_append_of_pos, coreEnd?]
  exact fun c hc => hz c (List.mem_reverse.1 hc)

theorem coreEnd?_backs {front q : List Char} {d : Char} (hd : endsCore d = true)
    (hq : ∀ c ∈ q, isBack c = true) : coreEnd? (front ++ d :: q) = some d := by
  have hback : isBack d = false := by
    rw [← Bool.not_eq_true]
    intro hb
    have hall : ['+', '-', '!', '%', '#'].all (fun c => !endsCore c) = true := by decide
    have hmem : d ∈ ['+', '-', '!', '%', '#'] := by simpa [isBack] using hb
    have := List.all_eq_true.1 hall d hmem
    rw [hd] at this
    cases this
  have hrev : (front ++ d :: q).reverse = q.reverse ++ d :: front.reverse := by simp
  have hdrop : (q.reverse ++ d :: front.reverse).dropWhile Text.isBlank =
      q.reverse ++ d :: front.reverse := by
    cases hqr : q.reverse with
    | nil => simp [isBlank_of_endsCore hd]
    | cons e q' =>
      have he : isBack e = true := hq e (List.mem_reverse.1 (by simp [hqr]))
      simp [isBlank_of_isBack he]
  rw [coreEnd?, hrev, hdrop, List.dropWhile_append_of_pos
    fun c hc => hq c (List.mem_reverse.1 hc), List.dropWhile_cons_of_neg (by simp [hback])]
  rfl

theorem endsCore_of_endsWith (h : operandAtEnd.OccursIn text) :
    ∃ d, coreEnd? text = some d ∧ endsCore d = true := by
  obtain ⟨u, d, q, z, rfl, hd, hq, hz⟩ := exists_of_endsWith h
  refine ⟨d, ?_, hd⟩
  rw [← List.cons_append, ← List.append_assoc, coreEnd?_append hz]
  exact coreEnd?_backs hd (forall_of_backs hq)

/-- A text does not end with an operand when it ends with symbols that stand apart from every
operand. -/
theorem not_endsWith_symbols {front symbols z : List Char} (hne : symbols ≠ [])
    (hs : ∀ c ∈ symbols, c ∈ operatorChars) (hz : Blank z)
    (hfront : ∀ c, front.getLast? = some c → Text.isBlank c = true) :
    ¬ operandAtEnd.OccursIn (front ++ symbols ++ z) := by
  intro h
  obtain ⟨d, hd, hend⟩ := endsCore_of_endsWith h
  rw [coreEnd?_append hz, coreEnd?, List.reverse_append] at hd
  have hblank : (symbols.reverse ++ front.reverse).dropWhile Text.isBlank =
      symbols.reverse ++ front.reverse := by
    cases hsr : symbols.reverse with
    | nil => exact absurd (List.reverse_eq_nil_iff.1 hsr) hne
    | cons c cs =>
      have hc : c ∈ operatorChars := hs c (List.mem_reverse.1 (by simp [hsr]))
      simp [isBlank_of_operator hc]
  rw [hblank, List.dropWhile_append] at hd
  split at hd
  · -- All symbols may belong to operators behind, but a blank stands before them.
    rw [← List.head?_reverse] at hfront
    cases hf : front.reverse with
    | nil => simp [hf] at hd
    | cons c cs =>
      have hb := hfront c (by simp [hf])
      rw [hf, List.dropWhile_cons_of_neg (by simp [isBack_of_isBlank hb])] at hd
      cases hd
      rw [endsCore_of_isBlank hb] at hend
      cases hend
  · next hnil =>
    have hmem : d ∈ symbols := by
      rw [List.head?_append] at hd
      cases hdw : symbols.reverse.dropWhile isBack with
      | nil => simp [hdw] at hnil
      | cons c cs =>
        rw [hdw] at hd
        cases hd
        exact List.mem_reverse.1 ((List.dropWhile_suffix _).subset (by rw [hdw]; simp))
    rw [endsCore_of_operator (hs d hmem)] at hend
    cases hend

/-- A text does not end with an operand between the halves of a double operator. -/
theorem not_endsWith_half {front : List Char} {c : Char} (hc : c = '+' ∨ c = '-')
    (hfront : front.getLast? ≠ some c) : ¬ operandAtEnd.OccursIn (front ++ [c]) := by
  intro h
  obtain ⟨u, d, q, z, ht, hd, hq, hz⟩ := exists_of_endsWith h
  have hop : c ∈ operatorChars := by rcases hc with rfl | rfl <;> decide
  rcases List.eq_nil_or_concat z with rfl | ⟨z, e, rfl⟩
  · rcases List.eq_nil_or_concat q with rfl | ⟨q, e, rfl⟩
    · have hcd : [c] = [d] := List.append_inj_right' (by simpa using ht) rfl
      cases hcd
      rw [endsCore_of_operator hop] at hd
      cases hd
    · have heq : front ++ [c] = (u ++ d :: q) ++ [e] := by simpa using ht
      have hce : [c] = [e] := List.append_inj_right' heq rfl
      cases hce
      obtain ⟨q', rfl⟩ := double_of_backs hq List.concat_eq_append hc
      rw [List.append_inj_left' heq rfl] at hfront
      exact hfront (by simp [List.getLast?_cons])
  · have heq : front ++ [c] = (u ++ d :: (q ++ z)) ++ [e] := by simpa using ht
    have hce : [c] = [e] := List.append_inj_right' heq rfl
    cases hce
    have := hz c (by simp)
    rw [isBlank_of_operator hop] at this
    cases this

theorem isDecimalDigit_of_letter {c : Char} (h : letter.contains c = true) :
    Text.isDecimalDigit c = false := by
  have hcode : ∃ r ∈ [('A', 'Z'), ('a', 'z'), ('Α', 'Ω'), ('α', 'ω')],
      r.1.toNat ≤ c.toNat ∧ c.toNat ≤ r.2.toNat := by
    simp only [letter, CharSet.contains, Bool.or_eq_true, Bool.and_eq_true, decide_eq_true_eq] at h
    rcases h with ((h | h) | h) | h
    · exact ⟨('A', 'Z'), by simp, h⟩
    · exact ⟨('a', 'z'), by simp, h⟩
    · exact ⟨('Α', 'Ω'), by simp, h⟩
    · exact ⟨('α', 'ω'), by simp, h⟩
  have hall : [('A', 'Z'), ('a', 'z'), ('Α', 'Ω'), ('α', 'ω')].all (fun r =>
      (List.range' r.1.toNat (r.2.toNat + 1 - r.1.toNat)).all fun n =>
        !Text.isDecimalDigit (Char.ofNat n)) = true := by decide
  obtain ⟨r, hr, hlo, hhi⟩ := hcode
  have := List.all_eq_true.1 (List.all_eq_true.1 hall r hr) c.toNat
    (List.mem_range'_1.2 ⟨hlo, by omega⟩)
  rw [Char.ofNat_toNat] at this
  simpa using this

/-- A name does not start with digits or a point. -/
theorem NameShape.head_not_digitOrPoint {m r : List Char} (h : NameShape (m ++ r)) (hm : m ≠ [])
    (hmall : ∀ c ∈ m, isDigitOrPoint c = true) : False := by
  obtain ⟨c, rest, hc, hletter⟩ := h.head
  obtain ⟨d, m, rfl⟩ := List.exists_cons_of_ne_nil hm
  injection hc with hcd
  subst hcd
  have hd := hmall d List.mem_cons_self
  rw [isDigitOrPoint, isDecimalDigit_of_letter hletter, Bool.false_or, decide_eq_true_eq] at hd
  subst hd
  exact absurd hletter (by decide)

/-- An operand that ends with the letter of an exponent is a name there, with operators in front. -/
theorem exists_name_of_endsWith {e : Char} (he : e = 'e' ∨ e = 'E')
    (h : operandAtEnd.OccursIn (text ++ [e])) : ∃ u p w, text = u ++ p ++ w ∧ EdgeBefore u ∧
      p ∈ (seq frontOperator blanks).lang∗ ∧ NameShape (w ++ [e]) := by
  obtain ⟨u, o, z, ht, hu, ho, hz⟩ := endsWithOperand_iff.1 h
  obtain ⟨p, w, q, rfl, hp, hw, hq⟩ := lang_operand.1 ho
  have hshape := coreShape_of_mem hw
  have heback : isBack e = false := by rcases he with rfl | rfl <;> decide
  have heblank : Text.isBlank e = false := by rcases he with rfl | rfl <;> decide
  -- Nothing stands behind the name: neither an operator nor a blank ends with `e`.
  have hqz : q ++ z = [] := by
    rcases List.eq_nil_or_concat (q ++ z) with hnil | ⟨x, d, hx⟩
    · exact hnil
    · have heq : text ++ [e] = (u ++ p ++ w ++ x) ++ [d] := by
        rw [ht]
        simp only [List.append_assoc] at hx ⊢
        rw [hx, List.concat_eq_append]
      have hed : [e] = [d] := List.append_inj_right' heq rfl
      cases hed
      have hmem : e ∈ q ++ z := by simp [hx]
      rcases List.mem_append.1 hmem with hmem | hmem
      · rw [forall_of_backs hq e hmem] at heback
        cases heback
      · rw [hz e hmem] at heblank
        cases heblank
  obtain ⟨rfl, rfl⟩ := List.append_eq_nil_iff.1 hqz
  obtain ⟨w', d, rfl, -⟩ := hshape.last
  have heq : text ++ [e] = (u ++ p ++ w') ++ [d] := by simpa using ht
  have hed : [e] = [d] := List.append_inj_right' heq rfl
  cases hed
  exact ⟨u, p, w', List.append_inj_left' heq rfl, hu, hp, hshape.name_of_last rfl he⟩

theorem isEdge_of_isDigitOrPoint {d : Char} (hd : isDigitOrPoint d = true) : isEdge d = false := by
  rw [isDigitOrPoint, Bool.or_eq_true, decide_eq_true_eq] at hd
  rcases hd with hd | rfl
  · rw [isEdge, Text.isWordChar_of_isDecimalDigit hd]
    rfl
  · decide

/-- Neither a digit nor a point stands directly before a name, constant, number or group. -/
theorem not_digitOrPoint_before {u p : List Char} (hu : EdgeBefore u)
    (hp : p ∈ (seq frontOperator blanks).lang∗) {d : Char} (hd : (u ++ p).getLast? = some d) :
    isDigitOrPoint d = false := by
  rw [← Bool.not_eq_true]
  intro hdigit
  rcases List.eq_nil_or_concat p with rfl | ⟨p, f, rfl⟩
  · rw [List.append_nil] at hd
    have hedge := hu d hd
    rw [isEdge_of_isDigitOrPoint hdigit] at hedge
    cases hedge
  · obtain rfl : f = d := by simpa [← List.append_assoc] using hd
    have hno : isCoreChar f = false := by
      rcases forall_of_fronts hp f (by simp) with hf | hf
      · refine isCoreChar_of_operator ?_
        have hall : ['+', '-', '!', '~', '¬'].all (· ∈ operatorChars) = true := by decide
        simpa using List.all_eq_true.1 hall f (by simpa [isFront] using hf)
      · exact isCoreChar_of_isBlank hf
    rw [isCoreChar_of_isDigitOrPoint hdigit] at hno
    cases hno

/-- A text does not end with an operand before the sign of an exponent. -/
theorem not_endsWith_exponent {front m : List Char} {e : Char} (hm : m ≠ [])
    (hmall : ∀ c ∈ m, isDigitOrPoint c = true) (he : e = 'e' ∨ e = 'E')
    (hfront : ∀ c, front.getLast? = some c → isNamePart c = false) :
    ¬ operandAtEnd.OccursIn (front ++ m ++ [e]) := by
  intro h
  obtain ⟨u, p, w, heq, hu, hp, hname⟩ := exists_name_of_endsWith he h
  rcases List.append_eq_append_iff.1 heq with ⟨x, hux, hmx⟩ | ⟨x, hfx, hwx⟩
  · rcases List.eq_nil_or_concat x with rfl | ⟨x, d, rfl⟩
    · rw [List.nil_append] at hmx
      subst hmx
      exact hname.head_not_digitOrPoint hm hmall
    · -- A digit or point would stand directly before it.
      have hd := hmall d (by simp [hmx])
      rw [not_digitOrPoint_before hu hp (by simp [hux])] at hd
      cases hd
  · rcases List.eq_nil_or_concat x with rfl | ⟨x, d, rfl⟩
    · rw [List.nil_append] at hwx
      subst hwx
      exact hname.head_not_digitOrPoint hm hmall
    · -- The name would hold the character before the number.
      have := hname.all d (by simp [hwx])
      rw [hfront d (by simp [hfx])] at this
      cases this

/-- A text starts with an operand only if what stands before the first name, constant, number or group
are operators in front and blanks. -/
theorem exists_of_startsWith (h : operandAtStart.OccursIn text) : ∃ f d r, text = f ++ d :: r ∧
    (∀ c ∈ f, isFront c = true ∨ Text.isBlank c = true) ∧ startsCore d = true := by
  obtain ⟨z, o, r, rfl, hz, ho, -⟩ := startsWithOperand_iff.1 h
  obtain ⟨p, w, q, rfl, hp, hw, -⟩ := lang_operand.1 ho
  obtain ⟨d, rest, rfl, hd⟩ := (coreShape_of_mem hw).head
  refine ⟨z ++ p, d, rest ++ q ++ r, by simp, fun c hc => ?_, hd⟩
  exact (List.mem_append.1 hc).elim (fun hc => .inr (hz c hc)) (forall_of_fronts hp c)

/-- What stands before the first operand without unary operators is in front of it. -/
theorem front_of_startsWith {f r : List Char} (h : operandAtStart.OccursIn (f ++ r))
    (hf : ∀ c ∈ f, startsCore c = false) : ∀ c ∈ f, isFront c = true ∨ Text.isBlank c = true := by
  obtain ⟨f', d, r', ht, hf', hd⟩ := exists_of_startsWith h
  rcases List.append_eq_append_iff.1 ht with ⟨x, rfl, -⟩ | ⟨x, hfx, hx⟩
  · exact fun c hc => hf' c (by simp [hc])
  · cases x with
    | nil =>
      rw [List.append_nil] at hfx
      subst hfx
      exact hf'
    | cons c x =>
      injection hx with hcd
      subst hcd
      rw [hf d (by simp [hfx])] at hd
      cases hd

end Formula.Lexeme
