import Formula.Proofs.Grammar.SlicedSearch
import Formula.Proofs.Reader.Step

/-!
# Reading slices in range

Texts are sliced at bytes that searches try and return, also at bytes that were found in a hidden text and
mapped back. `inRange` says that all of these slices exist, for every text: their bounds lie in the text, in
order, and between characters.

The slices that a search takes on its way, also for what it rejects, are those of `Finder.findSliced?`,
which fails where one is missing. It never fails, and it finds what the search finds. For the hidden text
the reason is `operator_of_hidden`: what is found there is an operator that begins and ends between segments,
never in a placeholder or an escape.
-/

set_option autoImplicit false

namespace Formula

open Lexeme

/-- The token is the slice of the text at its place. -/
def Token.LiesIn (token : Token) (text : List Char) : Prop :=
  Finder.tokenAt? text (token.index, token.stop) = some token

/-- The slices that reading takes of a text exist, whatever was remembered before. -/
structure InRange (text : List Char) : Prop where
  /-- Searches take slices that exist, for all that they try, and find slices of the text. -/
  search : ∀ f ∈ Grammar.default.finders, f.findSliced? text = some (f.find? text) ∧
    ∀ token, f.find? text = some token → token.LiesIn text
  /-- Hidden groups are slices of the text. -/
  groups : ∀ h, hide? .brackets text = some h → ∀ group ∈ h.groups, group.LiesIn text
  /-- What is found once groups are hidden is mapped back to a slice of the text. -/
  hidden : ∀ h around builder token, hide? .brackets text = some h →
    Grammar.default.select? (fun _ => true) text = some (.aroundGroups, around) →
    Grammar.default.select? (fun r => r.name ≠ aroundGroupsName) h.text = some (builder, token) →
    ∃ index, h.offset? token.index = some index ∧
      Token.LiesIn ⟨h.restore token.text, index⟩ text
  /-- No builder is given an occurrence that does not lie in the text, however deep in it. -/
  read : ∀ limit levels cache input,
    ((Grammar.default.readWithin limit levels text).result cache).1 ≠ .error (.misplaced input)

section

variable {text front w back : List Char} {token : Token}

theorem liesIn_of_eq (ht : text = front ++ w ++ back) :
    Token.LiesIn ⟨w, Text.byteSize front⟩ text := by
  rw [Token.LiesIn, Token.stop, ← Text.byteSize_append, ht]
  exact tokenAt?_append front w back

/-! ## Groups -/

theorem enclosedGroup?_eq_trim {opener : Char} (h : enclosedGroup? opener text = some token) :
    token = ⟨Text.trim text, Text.byteSize (text.takeWhile Text.isBlank)⟩ := by
  rw [enclosedGroup?] at h
  split at h
  · cases h
  · split at h
    · cases h
    · split at h
      · cases h
      · split at h
        · exact (Option.some.inj h).symm
        · cases h

theorem liesIn_of_enclosedGroup {opener : Char} (h : enclosedGroup? opener text = some token) :
    token.LiesIn text := by
  obtain ⟨y, -, ht⟩ := Text.exists_trim text
  rw [enclosedGroup?_eq_trim h]
  exact liesIn_of_eq ht

/-- The bytes between which a group is looked for are cuts in their order, except in a blank text. -/
theorem enclosedSpan?_eq (opener : Char) (text : List Char) : enclosedSpan? opener text =
    some ((enclosedGroup? opener text).map fun group => (group.index, group.stop)) := by
  obtain ⟨y, hy, ht⟩ := Text.exists_trim text
  have hsplit : text.takeWhile Text.isBlank ++ Text.trimStart text = text :=
    List.takeWhile_append_dropWhile
  have hstart : Text.byteSize text - Text.byteSize (Text.trimStart text) =
      Text.byteSize (text.takeWhile Text.isBlank) := by
    have h := congrArg Text.byteSize hsplit
    rw [Text.byteSize_append] at h
    exact Nat.sub_eq_of_eq_add h.symm
  rw [enclosedSpan?, hstart]
  cases htrim : Text.trim text with
  | nil =>
    have hblank : Text.trimEnd text = [] := Text.trimEnd_of_blank fun c hc => by
      rw [ht, htrim, List.append_nil] at hc
      exact (List.mem_append.1 hc).elim List.mem_takeWhile_imp (hy c)
    have hgroup : enclosedGroup? opener text = none := by
      rw [enclosedGroup?, htrim]
    rw [hblank, hgroup]
    exact if_pos (Nat.zero_le _)
  | cons c w =>
    have hend : Text.trimEnd text = text.takeWhile Text.isBlank ++ c :: w := by
      have h : Text.trimEnd (Text.trimStart text) = c :: w := htrim
      rw [← h, ← Text.trimEnd_append_of_ne_nil (by rw [h]; exact List.cons_ne_nil c w), hsplit]
    have hlt := Text.byteSize_pos (List.cons_ne_nil c w)
    rw [htrim] at ht
    have hslice : Text.slice? (Text.byteSize (text.takeWhile Text.isBlank))
        (Text.byteSize (text.takeWhile Text.isBlank ++ c :: w)) text = some (c :: w) :=
      Span.slice? ⟨_, _, _, ht.symm⟩
    rw [hend, hslice, enclosedGroup?, htrim]
    dsimp only
    rw [if_neg (by rw [Text.byteSize_append]; omega)]
    dsimp only [Option.bind_eq_bind, Option.bind_some]
    by_cases hc : c = opener
    · cases hhide : hide? .brackets (c :: w) with
      | none => simp [hc]
      | some hidden =>
        by_cases hshown : hidden.text = placeholder 0
        · simp [hc, hshown, Token.stop, Text.byteSize_append]
        · simp [hc, hshown]
    · simp [hc]

theorem groupSliced?_eq (opener : Char) (text : List Char) :
    Finder.groupSliced? opener text = some (enclosedGroup? opener text) := by
  rw [Finder.groupSliced?, enclosedSpan?_eq, Option.bind_some]
  cases hgroup : enclosedGroup? opener text with
  | none => rfl
  | some group => exact congrArg (Option.map some) (liesIn_of_enclosedGroup hgroup)

theorem tupleSliced?_eq (text : List Char) :
    Finder.tupleSliced? text = some (findTuple? text) := by
  rw [Finder.tupleSliced?, groupSliced?_eq, findTuple?]
  cases hgroup : enclosedGroup? '(' text with
  | none => rfl
  | some group =>
    obtain ⟨z, s, y, -, -, -, -, rfl⟩ := enclosedGroup?_eq_some rfl hgroup
    dsimp only [Option.bind_eq_bind, Option.bind_some]
    rw [Text.interior?_eq rfl rfl, Option.bind_some]
    refine congrArg some ?_
    dsimp only
    cases Text.isAllBlank s with
    | true => rfl
    | false =>
      cases hide? .brackets s with
      | none => rfl
      | some hidden => by_cases hcomma : ',' ∈ hidden.text <;> simp [hcomma]

/-! ## Calls, patterns and operators behind -/

theorem callSliced?_eq (text : List Char) :
    Finder.callSliced? (.of callee) text = some (findCall? (.of callee) text) := by
  rw [Finder.callSliced?, findCall?]
  cases hfind : (Machine.of callee).find? text with
  | none => rfl
  | some found =>
    obtain ⟨x, w, rest, rfl, -, hspan⟩ := span?_of_names names_callee hfind
    rw [Option.bind_some, hspan]
    dsimp only [Option.bind_eq_bind]
    rw [Text.from?_append, Text.splitAt?_append, Option.bind_some, enclosedSpan?_eq, Option.bind_some]
    dsimp only
    rw [Text.from?_append]
    cases enclosedGroup? '(' rest with
    | none => rfl
    | some group =>
      dsimp only [Option.map_some]
      rw [tokenAt?_append]
      rfl

theorem behindSliced?_eq (text : List Char) :
    Finder.behindSliced? text = some (findBehind? text) := by
  cases hsymbol : symbolBehind? (Text.trimEnd text) with
  | none => simp only [Finder.behindSliced?, findBehind?, hsymbol]; rfl
  | some symbol =>
    obtain ⟨-, front, hfront⟩ := symbolBehind?_sound hsymbol
    rw [findBehind?_of_symbol hfront (hfront ▸ hsymbol), Finder.behindSliced?]
    dsimp only
    rw [hsymbol, hfront]
    dsimp only
    rw [if_neg (by rw [Text.byteSize_append]; omega), Text.byteSize_append, Nat.add_sub_cancel,
      Text.before?_append]
    rfl

theorem sliced_pattern {q : Pattern} {f : List Char → List Char → List Char → Prop}
    (h : q.Names "matched".toList text f) :
    (Finder.pattern (.of q) false).findSliced? text =
        some ((Finder.pattern (.of q) false).find? text) ∧
      ∀ token, (Finder.pattern (.of q) false).find? text = some token → token.LiesIn text := by
  constructor
  · rw [Finder.findSliced?, Finder.find?, if_neg Bool.false_ne_true]
    cases hfind : (Machine.of q).find? text with
    | none => rfl
    | some found =>
      obtain ⟨x, w, y, rfl, -, hspan⟩ := span?_of_names h hfind
      rw [Option.bind_some, hspan, Option.bind_some, Finder.tokenSliced?, tokenAt?_append]
      rfl
  · intro token htoken
    obtain ⟨x, w, y, ht, -, rfl⟩ := find?_pattern h htoken
    exact liesIn_of_eq ht

/-! ## All searches -/

/-- All searches of the default grammar take slices that exist. -/
theorem sliced_finders : ∀ f ∈ Grammar.default.finders, f.findSliced? text = some (f.find? text) ∧
    ∀ token, f.find? text = some token → token.LiesIn text := by
  have hassignment : ∀ token, (Finder.operator assignmentPatterns.search).find? text = some token →
      token.LiesIn text := fun token h => by
    obtain ⟨front, w, back, ht, rfl, -⟩ := exists_of_assignment h
    exact liesIn_of_eq ht
  have hlevel : ∀ p ∈ levelPatterns, ∀ token,
      (Finder.operator (operatorPatterns p).search).find? text = some token → token.LiesIn text :=
    fun p hp token h => by
      obtain ⟨front, w, back, ht, rfl, -⟩ := exists_of_level hp h
      exact liesIn_of_eq ht
  have hcall : ∀ token, (Finder.call (.of callee)).find? text = some token → token.LiesIn text :=
    fun token h => by
      obtain ⟨x, w, z, s, y, ht, rfl, -⟩ := findCall?_eq_some h
      exact liesIn_of_eq ht
  have htuple : ∀ token, Finder.tuple.find? text = some token → token.LiesIn text :=
    fun token h => by
      obtain ⟨z, s, y, ht, rfl, -⟩ := findTuple?_eq_some h
      exact liesIn_of_eq ht
  have hafter : ∀ token, Finder.after.find? text = some token → token.LiesIn text :=
    fun token h => by
      obtain ⟨front, w, back, ht, rfl, -⟩ := findBehind?_sound h
      exact liesIn_of_eq ht
  have hnone : ∀ token : Token, none = some token → token.LiesIn text := fun token h => by cases h
  rw [finders_default]
  simp only [List.forall_mem_append, List.forall_mem_cons, List.forall_mem_map]
  exact ⟨⟨⟨⟨rfl, hnone⟩, ⟨rfl, hnone⟩, ⟨callSliced?_eq text, hcall⟩, ⟨tupleSliced?_eq text, htuple⟩,
      ⟨groupSliced?_eq '(' text, fun _ => liesIn_of_enclosedGroup⟩,
      ⟨groupSliced?_eq '[' text, fun _ => liesIn_of_enclosedGroup⟩,
      sliced_pattern (names_matched rfl rfl), ⟨OperatorSearch.find?_sliced _ text, hassignment⟩,
      by simp⟩,
    fun p hp => ⟨OperatorSearch.find?_sliced _ text, hlevel p hp⟩⟩,
    sliced_pattern (names_leading rfl rfl), ⟨behindSliced?_eq text, hafter⟩,
    sliced_pattern (names_only rfl rfl), sliced_pattern (names_only rfl rfl),
    sliced_pattern (names_only rfl rfl), by simp⟩

/-! ## Hidden groups -/

theorem liesIn_of_mem_groups {segs : List Segment} {group : Token}
    (h : group ∈ Segment.groups (Text.byteSize front) segs) :
    group.LiesIn (front ++ Segment.texts segs) := by
  induction segs generalizing front with
  | nil => cases h
  | cons seg segs ih =>
    have hnext : ∀ {front' : List Char}, front' = front ++ seg.text →
        group ∈ Segment.groups (Text.byteSize front') segs →
        group.LiesIn (front ++ Segment.texts (seg :: segs)) := by
      rintro front' rfl hmem
      rw [Segment.texts_cons, ← List.append_assoc]
      exact ih hmem
    cases seg with
    | char c =>
      refine hnext rfl ?_
      rw [Text.byteSize_append]
      exact h
    | group o c s =>
      rcases List.mem_cons.1 h with rfl | h
      · exact liesIn_of_eq (List.append_assoc ..).symm
      · refine hnext rfl ?_
        rw [Text.byteSize_append]
        exact h

end

/-- Whether an error is about an occurrence that does not lie in the text. -/
def ReadError.isMisplaced : ReadError → Bool
  | .misplaced _ => true
  | _ => false

/-- For every text, all slices that reading takes exist. -/
theorem inRange (text : List Char) : InRange text where
  search := sliced_finders
  groups := by
    intro h hh group hgroup
    obtain ⟨segs, -, rfl, rfl⟩ := hide?_eq_some.1 hh
    have hmem : group ∈ Segment.groups (Text.byteSize []) segs := hgroup
    exact liesIn_of_mem_groups hmem
  hidden := by
    intro h around builder token hh haround hselect
    rw [select?_all] at haround
    rw [select?_hidden] at hselect
    obtain ⟨⟨c, hc, hbracket⟩, hparentheses, hvector⟩ := around_of_select haround
    obtain ⟨segs, hv, rfl, rfl⟩ := hide?_eq_some.1 hh
    obtain ⟨-, front, w, back, rfl, rfl, -, hw⟩ := operator_of_hidden hv
      (placeholder_mem_covered hv hc hbracket 0) hparentheses hvector (attempted_of_select hselect)
    have ht : Segment.texts (front ++ w.map .char ++ back) =
        Segment.texts front ++ w ++ Segment.texts back := by
      rw [Segment.texts_append, Segment.texts_append, Segment.texts_map_char]
    refine ⟨_, offset?_hiddenOf front back w, ?_⟩
    rw [restore_operator _ hw]
    exact liesIn_of_eq ht
  read := by
    intro limit levels cache input he
    have hstays : ReadM.Stays (fun _ => True) (fun e => e.isMisplaced = false)
        (Grammar.default.readWithin limit levels text) := by
      refine stays_readWithin (T := Set.univ) (fun p _ s hs => ⟨fun _ _ => trivial, fun e hfail => ?_⟩)
        (fun _ _ => rfl) (fun _ _ _ => rfl) (fun _ _ _ _ _ => trivial) limit levels trivial
      rcases hs.eq_fail hfail with ⟨rfl, -⟩ | ⟨rfl, -⟩
      · rfl
      · rfl
    have := (hstays cache trivial).2 _ he
    cases this

end Formula
