import Formula.Proofs.Grammar.DefaultPatterns
import Formula.Proofs.Grammar.SlicedSearch
import Formula.Proofs.Pattern.Leftmost

/-!
# The occurrence of an operator that is found

An operator stands at a span of a text when its pattern matches the span, which is not empty, and the
search accepts the texts around it (`IsOperator`).

The engine that reads and matches the patterns is a parameter. What is relied on is collected in
`Engine.Semantics`: which parts of a text a pattern matches, that an engine finds the leftmost of them, what
it means to put a notation between the ends of a text, and that a pattern without assertions does not look
around. The notation of the operator has to be a pattern of its own: one like `a)|(?:b` is a pattern only
inside the group that it is put into.

**Main statement** (`operator_iff`): for an operator without assertions, the search from the right returns
the span with the greatest end, and of those the one with the least start. The search from the left returns
the first span that is the longest match at its start. They return nothing only where there is no such
span, and no slice that they take is missing.

The engine of this library has such a semantics (`Engine.ownSemantics`), and the search that is run is the one
that it is prepared for (`own_tests?`, `OperatorSearch.find?_sliced`).
-/

set_option autoImplicit false

namespace Formula

/-- What an engine is relied on for. -/
structure Engine.Semantics (engine : Engine) where
  /-- Whether a pattern matches a part of a text, between what is before and after it. -/
  Matches : engine.Regex → (front inside back : List Char) → Prop
  /-- Whether a pattern has anchors or word boundaries in it. -/
  HasAssertions : engine.Regex → Prop
  /-- A text has a match when one of its parts is matched. -/
  isMatch_iff : ∀ {r text}, engine.isMatch r text = true ↔
    ∃ span : Span text, Matches r span.front span.inside span.back
  /-- What is found is a match, and none begins earlier. -/
  find?_sound : ∀ {r text start stop}, engine.find? r text = some (start, stop) →
    ∃ span : Span text, span.IsFirst (fun t => Matches r t.front t.inside t.back) ∧
      span.start = start ∧ span.stop = stop
  /-- Nothing is found only where there is no match. -/
  find?_complete : ∀ {r text}, engine.find? r text = none →
    ∀ span : Span text, ¬ Matches r span.front span.inside span.back
  /-- A pattern with the end of the text behind. -/
  atEnd_iff : ∀ {e r r'}, engine.read? e = some r →
    engine.read? ("(?:".toList ++ e ++ ")$".toList) = some r' →
    ∀ {front inside back}, Matches r' front inside back ↔ back = [] ∧ Matches r front inside back
  /-- A pattern between the start of the text and its end. -/
  exact_iff : ∀ {e r r'}, engine.read? e = some r →
    engine.read? ("^(?:".toList ++ e ++ ")$".toList) = some r' →
    ∀ {front inside back}, Matches r' front inside back ↔
      front = [] ∧ back = [] ∧ Matches r front inside back
  /-- Without anchors and word boundaries, a pattern does not look around. -/
  matches_anywhere : ∀ {r}, ¬ HasAssertions r → ∀ {front inside back}, Matches r front inside back →
    ∀ front' back', Matches r front' inside back'

namespace Engine

variable {engine : Engine} {rules : List Rule} {pattern : String} {options : SearchOptions}
  {s : OperatorTests} {r : engine.Regex} {text : List Char}

/-- A span at which an operator stands. -/
structure Semantics.IsOperator (sem : engine.Semantics) (r : engine.Regex) (s : OperatorTests)
    (span : Span text) : Prop where
  ne_nil : span.inside ≠ []
  matched : sem.Matches r span.front span.inside span.back
  accepted : s.accepts? text span.start span.stop = some true

/-- No longer span with the same start is matched. -/
def Semantics.IsLongest (sem : engine.Semantics) (r : engine.Regex) (span : Span text) : Prop :=
  ∀ t : Span text, t.start = span.start → t.inside ≠ [] →
    sem.Matches r t.front t.inside t.back → t.stop ≤ span.stop

theorem notations_eq {notations : OperatorNotations}
    (h : OperatorNotations.of? rules pattern options = some notations) :
    ∃ e, expand? rules pattern.toList = some e ∧
      notations.atEnd = "(?:".toList ++ e ++ ")$".toList ∧
      notations.exact = "^(?:".toList ++ e ++ ")$".toList := by
  obtain ⟨e, he, h⟩ := Option.bind_eq_some_iff.1 h
  obtain ⟨operand, -, h⟩ := Option.bind_eq_some_iff.1 h
  cases h
  exact ⟨e, he, rfl, rfl⟩

/-- The tests for an operator whose notation is a pattern of its own. -/
theorem tests?_eq_some (hs : engine.tests? rules pattern options = some s)
    (hr : (expand? rules pattern.toList).bind engine.read? = some r) :
    s.rightToLeft = options.rightToLeft ∧ ∃ e atEnd exact, engine.read? e = some r ∧
      engine.read? ("(?:".toList ++ e ++ ")$".toList) = some atEnd ∧
      engine.read? ("^(?:".toList ++ e ++ ")$".toList) = some exact ∧
      s.firstAtEnd = (fun text => (engine.find? atEnd text).map (·.1)) ∧
      s.exact = engine.isMatch exact := by
  obtain ⟨notations, hnotations, hs⟩ := Option.bind_eq_some_iff.1 hs
  obtain ⟨e, he, hatEnd, hexact⟩ := notations_eq hnotations
  obtain ⟨atEnd, hreadAtEnd, hs⟩ := Option.bind_eq_some_iff.1 hs
  obtain ⟨exact, hreadExact, hs⟩ := Option.bind_eq_some_iff.1 hs
  obtain ⟨left, -, hs⟩ := Option.bind_eq_some_iff.1 hs
  obtain ⟨right, -, hs⟩ := Option.bind_eq_some_iff.1 hs
  cases hs
  rw [he] at hr
  rw [hatEnd] at hreadAtEnd
  rw [hexact] at hreadExact
  exact ⟨rfl, e, atEnd, exact, hr, hreadAtEnd, hreadExact, rfl, rfl⟩

namespace Semantics

variable {sem : engine.Semantics} {span : Span text}

theorem exact_eq_true (hs : engine.tests? rules pattern options = some s)
    (hr : (expand? rules pattern.toList).bind engine.read? = some r) (hfree : ¬ sem.HasAssertions r) :
    s.exact span.inside = true ↔ sem.Matches r span.front span.inside span.back := by
  obtain ⟨-, e, -, exact, hread, -, hexact, -, heq⟩ := tests?_eq_some hs hr
  rw [heq, sem.isMatch_iff]
  constructor
  · rintro ⟨whole, hwhole⟩
    obtain ⟨hfront, hback, hmatch⟩ := (sem.exact_iff hread hexact).1 hwhole
    have hinside : whole.inside = span.inside := by
      have h := whole.eq_text
      rwa [hfront, hback, List.nil_append, List.append_nil] at h
    exact hinside ▸ sem.matches_anywhere hfree hmatch span.front span.back
  · intro hmatch
    refine ⟨⟨[], span.inside, [], by simp⟩, (sem.exact_iff hread hexact).2 ⟨rfl, rfl, ?_⟩⟩
    exact sem.matches_anywhere hfree hmatch [] []

/-- The first match at the end of the text up to a span that is matched begins no later. -/
theorem firstAtEnd_le (hs : engine.tests? rules pattern options = some s)
    (hr : (expand? rules pattern.toList).bind engine.read? = some r) (hfree : ¬ sem.HasAssertions r)
    (hmatch : sem.Matches r span.front span.inside span.back) :
    (s.firstAtEnd (span.front ++ span.inside)).getD span.stop ≤ span.start := by
  obtain ⟨-, e, atEnd, -, hread, hatEnd, -, heq, -⟩ := tests?_eq_some hs hr
  let last : Span (span.front ++ span.inside) := ⟨span.front, span.inside, [], List.append_nil _⟩
  have hlast : sem.Matches atEnd last.front last.inside last.back :=
    (sem.atEnd_iff hread hatEnd).2 ⟨rfl, sem.matches_anywhere hfree hmatch span.front []⟩
  rw [heq]
  cases hfind : engine.find? atEnd (span.front ++ span.inside) with
  | none => exact absurd hlast (sem.find?_complete hfind last)
  | some found =>
    have hfound : engine.find? atEnd (span.front ++ span.inside) = some (found.1, found.2) := hfind
    obtain ⟨first, hfirst, hstart, -⟩ := sem.find?_sound hfound
    have hle : found.1 ≤ span.start := hstart ▸ hfirst.2 last hlast
    simpa only [hfind, Option.map_some, Option.getD_some] using hle

theorem accepts?_iff : s.accepts? text span.start span.stop = some true ↔
    s.admits span.front span.back = true := by
  rw [s.accepts?_span span, Option.some.injEq]

theorem fitsBackward_iff (hs : engine.tests? rules pattern options = some s)
    (hr : (expand? rules pattern.toList).bind engine.read? = some r) (hfree : ¬ sem.HasAssertions r) :
    s.FitsBackward span ↔ sem.IsOperator r s span := by
  constructor
  · rintro ⟨hne, -, hexact, hadmits⟩
    exact ⟨hne, (exact_eq_true hs hr hfree).1 hexact, accepts?_iff.2 hadmits⟩
  · rintro ⟨hne, hmatch, haccepts⟩
    exact ⟨hne, firstAtEnd_le hs hr hfree hmatch, (exact_eq_true hs hr hfree).2 hmatch,
      accepts?_iff.1 haccepts⟩

theorem fitsForward_iff (hs : engine.tests? rules pattern options = some s)
    (hr : (expand? rules pattern.toList).bind engine.read? = some r) (hfree : ¬ sem.HasAssertions r) :
    s.FitsForward span ↔ sem.IsOperator r s span ∧ sem.IsLongest r span := by
  have hlongest : sem.IsLongest r span ↔ ∀ t : Span text, t.start = span.start → t.inside ≠ [] →
      s.exact t.inside = true → t.stop ≤ span.stop :=
    forall_congr' fun t => by rw [exact_eq_true hs hr hfree]
  rw [hlongest]
  constructor
  · rintro ⟨hne, hexact, hlong, hadmits⟩
    exact ⟨⟨hne, (exact_eq_true hs hr hfree).1 hexact, accepts?_iff.2 hadmits⟩, hlong⟩
  · rintro ⟨⟨hne, hmatch, haccepts⟩, hlong⟩
    exact ⟨hne, (exact_eq_true hs hr hfree).2 hmatch, hlong, accepts?_iff.1 haccepts⟩

end Semantics

/-! ## The engine of this library -/

section

variable {p : Pattern} {front inside back : List Char}

theorem accepts_final_iff :
    (OperatorPatterns.final p).Accepts (lastOr none front) inside (headOr back none) ↔
      back = [] ∧ p.Accepts (lastOr none front) inside (headOr back none) := by
  rw [OperatorPatterns.accepts_final, headOr_none, List.head?_eq_none_iff]

theorem accepts_whole_iff :
    (OperatorPatterns.whole p).Accepts (lastOr none front) inside (headOr back none) ↔
      front = [] ∧ back = [] ∧ p.Accepts (lastOr none front) inside (headOr back none) := by
  constructor
  · intro h
    obtain ⟨e, t, rfl, ⟨i, l, he⟩, ht⟩ := Pattern.accepts_seq.1 h
    obtain ⟨rfl, -, hstart⟩ := Pattern.matches_assert.1 he
    obtain ⟨hback, ht⟩ := accepts_final_iff.1 ht
    cases front with
    | nil => exact ⟨rfl, hback, ht⟩
    | cons c front =>
      obtain ⟨d, hd⟩ := exists_lastOr_some c front
      rw [lastOr_cons, hd] at hstart
      cases hstart
  · rintro ⟨rfl, hback, ht⟩
    exact Pattern.accepts_seq.2 ⟨[], inside, rfl, ⟨0, _, .assert rfl⟩, accepts_final_iff.2 ⟨hback, ht⟩⟩

end

/-- What the engine of this library is relied on for. -/
def ownSemantics : Engine.own.Semantics where
  Matches p front inside back := Pattern.Accepts p (lastOr none front) inside (headOr back none)
  HasAssertions p := Pattern.isAnchorFree p = false
  isMatch_iff {r text} := by
    refine Machine.occursIn_of.trans ⟨?_, ?_⟩
    · rintro ⟨front, inside, back, ht, hmatch⟩
      exact ⟨⟨front, inside, back, ht.symm⟩, hmatch⟩
    · rintro ⟨⟨front, inside, back, ht⟩, hmatch⟩
      exact ⟨front, inside, back, ht.symm, hmatch⟩
  find?_sound {r text start stop} hfind := by
    obtain ⟨found, hfound, heq⟩ := Option.map_eq_some_iff.1 hfind
    obtain ⟨front, inside, back, ht, hstart, hstop, hmatch⟩ := Machine.find?_sound hfound
    cases heq
    refine ⟨⟨front, inside, back, ht.symm⟩, ⟨⟨_, _, hmatch⟩, fun t htmatch => ?_⟩, hstart.symm,
      hstop.symm⟩
    exact Nat.le_trans (Nat.le_of_eq hstart.symm)
      (Machine.find?_start_le hfound t.eq_text.symm htmatch)
  find?_complete {r text} hfind span hmatch := by
    have hsome := Machine.find?_isSome ⟨_, _, _, span.eq_text.symm, hmatch⟩
    rw [Option.map_eq_none_iff.1 hfind] at hsome
    cases hsome
  atEnd_iff {e r r'} hread hread' front inside back := by
    cases hread'.symm.trans (Pattern.read?_final hread)
    exact accepts_final_iff
  exact_iff {e r r'} hread hread' front inside back := by
    cases hread'.symm.trans (Pattern.read?_whole hread)
    exact accepts_whole_iff
  matches_anywhere {r} hfree front inside back hmatch front' back' := by
    have hfree : Pattern.isAnchorFree r = true := by simpa using hfree
    exact (Pattern.accepts_iff_mem_lang hfree).2 ((Pattern.accepts_iff_mem_lang hfree).1 hmatch)

/-- An operator is searched with the tests that the engine of this library makes. -/
theorem own_tests? (rules : List Rule) (pattern : String) (options : SearchOptions) :
    own.tests? rules pattern options =
      (OperatorSearch.prepare? rules pattern options).map OperatorSearch.tests := by
  rw [tests?, OperatorSearch.prepare?]
  cases OperatorNotations.of? rules pattern options with
  | none => rfl
  | some notations =>
    dsimp only [Option.bind_eq_bind, Option.bind_some]
    cases Pattern.read? notations.atEnd with
    | none => rfl
    | some atEnd =>
      cases Pattern.read? notations.exact with
      | none => rfl
      | some exact =>
        cases Pattern.read? notations.left with
        | none => rfl
        | some left =>
          cases Pattern.read? notations.right with
          | none => rfl
          | some right =>
            refine congrArg some (OperatorTests.ext (funext fun text => ?_) rfl rfl
              (funext fun text => Bool.eq_iff_iff.2 ?_) rfl rfl)
            · exact (Option.map_map ..).trans (Machine.start_find? atEnd text)
            · refine Machine.occursIn_of.trans (Iff.trans ?_ Machine.occursIn_of.symm)
              rw [Pattern.occursIn_reverse, List.reverse_reverse]

/-- What an operator search finds. From the right, it is the operator with the greatest end, and of
those with that end the one with the least start. From the left, it is the operator with the least start
of those that are the longest matches at their starts. -/
theorem Semantics.operator_iff (sem : engine.Semantics)
    (hs : engine.tests? rules pattern options = some s)
    (hr : (expand? rules pattern.toList).bind engine.read? = some r)
    (hfree : ¬ sem.HasAssertions r) (text : List Char) :
    ∃ found, s.find? text = some found ∧
      (options.rightToLeft = true →
        (∀ token, found = some token ↔
          ∃ span : Span text, span.IsLast (sem.IsOperator r s) ∧ span.token = token) ∧
        (found = none ↔ ∀ span : Span text, ¬ sem.IsOperator r s span)) ∧
      (options.rightToLeft = false →
        (∀ token, found = some token ↔ ∃ span : Span text,
          span.IsFirst (fun t => sem.IsOperator r s t ∧ sem.IsLongest r t) ∧ span.token = token) ∧
        (found = none ↔
          ∀ span : Span text, ¬ (sem.IsOperator r s span ∧ sem.IsLongest r span))) := by
  have hdirection := (tests?_eq_some hs hr).1
  have hbackward : (s.FitsBackward : Span text → Prop) = sem.IsOperator r s :=
    funext fun span => propext (fitsBackward_iff hs hr hfree)
  have hforward : (s.FitsForward : Span text → Prop) =
      fun t => sem.IsOperator r s t ∧ sem.IsLongest r t :=
    funext fun span => propext (fitsForward_iff hs hr hfree)
  cases hright : options.rightToLeft with
  | true =>
    obtain ⟨found, hfound, hiff⟩ := s.find?_backward (hdirection.trans hright) text
    rw [hbackward] at hiff
    exact ⟨found, hfound, fun _ => hiff, nofun⟩
  | false =>
    obtain ⟨found, hfound, hiff⟩ := s.find?_forward (hdirection.trans hright) text
    simp only [hforward] at hiff
    exact ⟨found, hfound, nofun, fun _ => hiff⟩

/-- The pattern `-+` with the operands of ordinary formulas in `α--β-γ`: `-` at byte 6 from the right, and
`--` at byte 2 from the left. -/
theorem Semantics.operator_iff_minus :
    let text := "α--β-γ".toList
    let symbol := Pattern.plus true (Lexeme.char '-')
    let right := { rightToLeft := true, padReferences := true : SearchOptions }
    let left := { padReferences := true : SearchOptions }
    (∃ s, OperatorSearch.prepare? defaultRules "-+" right = some s ∧ s.find? text = some ⟨['-'], 6⟩ ∧
      own.tests? defaultRules "-+" right = some s.tests ∧
      ∃ span : Span text, span.IsLast (ownSemantics.IsOperator symbol s.tests) ∧
        span.token = ⟨['-'], 6⟩) ∧
    ∃ s, OperatorSearch.prepare? defaultRules "-+" left = some s ∧ s.find? text = some ⟨"--".toList, 2⟩ ∧
      own.tests? defaultRules "-+" left = some s.tests ∧
      ∃ span : Span text, span.IsFirst (fun t =>
        ownSemantics.IsOperator symbol s.tests t ∧ ownSemantics.IsLongest symbol t) ∧
          span.token = ⟨"--".toList, 2⟩ := by
  intro text symbol right left
  have hsymbol : (expand? defaultRules "-+".toList).bind Pattern.read? = some symbol := by
    decide +kernel
  have hfree : ¬ ownSemantics.HasAssertions symbol :=
    show ¬ symbol.isAnchorFree = false from by decide
  let minus (rightToLeft : Bool) : OperatorPatterns :=
    ⟨symbol, Lexeme.operandAtEnd, Lexeme.operandAtStart, rightToLeft, none⟩
  have hright : OperatorSearch.prepare? defaultRules "-+" right = some (minus true).search :=
    prepare?_default rfl hsymbol
  have hleft : OperatorSearch.prepare? defaultRules "-+" left = some (minus false).search :=
    prepare?_default rfl hsymbol
  refine ⟨⟨_, hright, ?_⟩, ⟨_, hleft, ?_⟩⟩
  · have hfind : (minus true).search.find? text = some ⟨['-'], 6⟩ := by decide +kernel
    have htests : own.tests? defaultRules "-+" right = some (minus true).search.tests := by
      rw [own_tests?, hright, Option.map_some]
    obtain ⟨found, hfound, hlast, -⟩ := ownSemantics.operator_iff htests hsymbol hfree text
    rw [OperatorSearch.find?_sliced, hfind] at hfound
    cases hfound
    exact ⟨hfind, htests, ((hlast rfl).1 _).1 rfl⟩
  · have hfind : (minus false).search.find? text = some ⟨"--".toList, 2⟩ := by decide +kernel
    have htests : own.tests? defaultRules "-+" left = some (minus false).search.tests := by
      rw [own_tests?, hleft, Option.map_some]
    obtain ⟨found, hfound, -, hfirst⟩ := ownSemantics.operator_iff htests hsymbol hfree text
    rw [OperatorSearch.find?_sliced, hfind] at hfound
    cases hfound
    exact ⟨hfind, htests, ((hfirst rfl).1 _).1 rfl⟩

end Engine

end Formula
