import Formula.Proofs.Reader.ChainPlan

/-!
# What is planned for a group

A text that is a single group between blanks is read as a tuple, as parentheses or as a vector
(`plan_tuple`, `plan_parentheses`, `plan_vector`), and one that is a name and a group as a call
(`plan_call`). As part of a chain a group, maybe behind a name, is the core of a leaf
(`GroupedLeaf.ofCall`).
-/

set_option autoImplicit false

namespace Formula

open Lexeme

variable {z y s w : List Char}

/-! ## Groups as leaves -/

theorem placeholder_mem_token (n : Nat) : placeholder n ∈ token.lang := by
  refine ⟨['['], mem_char.2 rfl, Nat.toDigits 10 n ++ [']'], ⟨Nat.toDigits 10 n, ?_, [']'],
    mem_char.2 rfl, rfl⟩, rfl⟩
  refine mem_plus_set.2 ⟨Nat.toDigits_ne_nil, fun c hc => ?_⟩
  show Text.isDecimalDigit c = true
  rw [Text.isDecimalDigit, isDigit_toDigits n c hc]
  rfl

theorem call_mem_core {n : Nat} (hw : w = [] ∨ w ∈ name.lang) : w ++ placeholder n ∈ core.lang := by
  refine .inl ⟨w, ?_, placeholder n, placeholder_mem_token n, rfl⟩
  rcases hw with rfl | hw
  · exact .inr rfl
  · exact .inl hw

theorem covered_call {o c : Char} (hw : w = [] ∨ w ∈ name.lang) (n : Nat) :
    Segment.covered n (w.map .char ++ [.group o c s]) ∈ core.lang := by
  have hcovered : Segment.covered n (w.map .char) = w := by
    refine covered_map_char (fun d hd => ?_) n
    rcases hw with rfl | hw
    · cases hd
    · exact IsWord.not_isEscaped (.inl hw) d hd
  rw [Segment.covered_append, hcovered, Segment.count_map_char]
  simpa [Segment.covered, Segment.shown] using call_mem_core hw

theorem allValid_call {o c : Char} (hw : w = [] ∨ w ∈ name.lang)
    (hoc : Grouping.brackets.closer? o = some c) (hs : Nested s) :
    Segment.AllValid (w.map .char ++ [.group o c s]) := by
  refine allValid_append (allValid_map_char fun d hd => ?_) fun seg hseg => ?_
  · rcases hw with rfl | hw
    · cases hd
    · exact IsWord.not_isBracket (.inl hw) d hd
  · rw [List.mem_singleton.1 hseg]
    exact ⟨hoc, hs⟩

/-- The leaf that is a group, maybe behind a name. -/
def GroupedLeaf.ofCall {o c : Char} (hw : w = [] ∨ w ∈ name.lang)
    (hoc : Grouping.brackets.closer? o = some c) (hs : Nested s) : GroupedLeaf where
  front := []
  core := w.map .char ++ [.group o c s]
  back := []
  front_mem := nil_mem_fronts
  core_mem := covered_call hw
  back_mem := nil_mem_backs
  valid := allValid_call hw hoc hs

theorem groupedText_ofCall {o c : Char} (hw : w = [] ∨ w ∈ name.lang)
    (hoc : Grouping.brackets.closer? o = some c) (hs : Nested s) :
    groupedText (.ofCall hw hoc hs) [] = w ++ o :: (s ++ [c]) := by
  simp [groupedText_nil, GroupedLeaf.ofCall, Segment.texts_append, Segment.text]

/-! ## Searches for groups -/

theorem isBlank_of_letter {c : Char} (h : letter.contains c = true) : Text.isBlank c = false := by
  rw [← Bool.not_eq_true]
  intro hblank
  have hall := Text.forall_blank (f := fun c => !letter.contains c) (by decide) hblank
  simp [h] at hall

/-- The callee of a text is the name it starts with. -/
theorem callee_unique {z' w' r r' : List Char} (hz : Blank z) (hw : w ∈ name.lang) (hz' : Blank z')
    (hw' : w' ∈ name.lang) (hr' : ∃ y q, r' = y ++ '(' :: q ∧ Blank y)
    (h : z ++ w ++ '(' :: r = z' ++ w' ++ r') : z = z' ∧ w = w' := by
  obtain ⟨c, u, hc, hletter⟩ := (nameShape_of_mem hw).head
  obtain ⟨c', u', hc', hletter'⟩ := (nameShape_of_mem hw').head
  rw [hc, hc', List.append_assoc, List.append_assoc] at h
  obtain ⟨rfl, hrest⟩ := Text.append_cons_inj_of_blank hz (isBlank_of_letter hletter) hz'
    (isBlank_of_letter hletter') h
  refine ⟨rfl, ?_⟩
  have hleft : (w ++ '(' :: r).takeWhile isNamePart = w :=
    Text.takeWhile_append (nameShape_of_mem hw).all fun c hc => by
      rw [← Option.some.inj hc]
      rfl
  have hright : (w' ++ r').takeWhile isNamePart = w' := by
    refine Text.takeWhile_append (nameShape_of_mem hw').all fun c hc => ?_
    obtain ⟨y, q, rfl, hy⟩ := hr'
    cases y with
    | nil =>
      rw [← Option.some.inj hc]
      rfl
    | cons d y =>
      rw [← Option.some.inj hc]
      have hall := Text.forall_blank (f := fun c => !isNamePart c) (by decide) (hy d List.mem_cons_self)
      simpa using hall
  have heq : w ++ '(' :: r = w' ++ r' := by rw [hc, hc']; exact hrest
  rw [← hleft, heq, hright]

/-- A name and a group make a call. -/
theorem findCall?_group (hz : Blank z) (hw : w ∈ name.lang) (hs : Nested s) (hy : Blank y) :
    findCall? (.of callee) (z ++ w ++ ('(' :: (s ++ [')']) ++ y)) = some ⟨w, Text.byteSize z⟩ := by
  have hocc : callee.OccursIn (z ++ w ++ ('(' :: (s ++ [')']) ++ y)) := by
    refine ⟨[], z ++ (w ++ ([] ++ ['('])), s ++ [')'] ++ y, by simp, Pattern.accepts_seq.2 ⟨[], _, rfl,
      accepts_assert.2 ⟨rfl, rfl⟩, Pattern.accepts_seq.2 ⟨z, _, rfl, accepts_blanks.2 hz, ?_⟩⟩⟩
    refine Pattern.accepts_seq.2 ⟨w, _, rfl, ⟨0, _, (Pattern.matches_group rfl rfl).2 ⟨hw, rfl⟩⟩, ?_⟩
    exact Pattern.accepts_seq.2 ⟨[], ['('], rfl, accepts_blanks.2 Blank.nil,
      0, [], (Pattern.matches_iff_mem_lang rfl rfl).2 ⟨mem_char.2 rfl, rfl⟩⟩
  obtain ⟨found, hfound⟩ := Option.isSome_iff_exists.1 (Machine.find?_isSome hocc)
  obtain ⟨z', w', r, ht, ⟨hz', hw', hr⟩, hspan⟩ := span?_of_names names_callee hfound
  obtain ⟨rfl, rfl⟩ := callee_unique (r := s ++ [')'] ++ y) hz hw hz' hw'
    (by obtain ⟨y', q, hr, hy'⟩ := hr; exact ⟨y', q, hr, hy'⟩) ht
  have hrest : r = '(' :: (s ++ [')']) ++ y := (List.append_cancel_left ht).symm
  have hgroup : enclosedGroup? '(' ([] ++ ('(' :: (s ++ [')'])) ++ y) = some ⟨'(' :: (s ++ [')']), 0⟩ :=
    enclosedGroup?_group Blank.nil hy rfl hs
  rw [List.nil_append] at hgroup
  rw [findCall?, hfound, Option.bind_some, hspan]
  dsimp only
  rw [Text.splitAt?_append]
  dsimp only
  rw [hgroup, Text.from?_append]

/-- A group in front of a text is no callee. -/
theorem findCall?_eq_none {o c : Char} (hoc : Grouping.brackets.closer? o = some c) (hz : Blank z)
    (r : List Char) : findCall? (.of callee) (z ++ o :: r) = none := by
  cases hfind : findCall? (.of callee) (z ++ o :: r) with
  | none => rfl
  | some token =>
    obtain ⟨x, w, z', s, y', ht, -, hx, hw, -⟩ := findCall?_eq_some hfind
    obtain ⟨d, u, rfl, hletter⟩ := (nameShape_of_mem hw).head
    rw [List.append_assoc] at ht
    have hblank := isBlank_of_isBracket (isBracket_of_closer hoc).1
    obtain ⟨-, hrest⟩ := Text.append_cons_inj_of_blank hz hblank hx (isBlank_of_letter hletter) ht
    rw [← (List.cons.inj hrest).1] at hletter
    rcases closer_cases hoc with ⟨rfl, -⟩ | ⟨rfl, -⟩
    · cases hletter
    · cases hletter

section

variable {text : List Char} {found : Token}

theorem plan_of_call (h : findCall? (.of callee) text = some found) :
    Grammar.default.plan text = .ok (.call, found) := by
  rw [Grammar.plan, select?_all]
  simp [attempts, h]

theorem plan_of_tuple (hcall : findCall? (.of callee) text = none) (h : findTuple? text = some found) :
    Grammar.default.plan text = .ok (.tuple, found) := by
  rw [Grammar.plan, select?_all]
  simp [attempts, hcall, h]

theorem plan_of_parentheses (hcall : findCall? (.of callee) text = none)
    (htuple : findTuple? text = none) (h : enclosedGroup? '(' text = some found) :
    Grammar.default.plan text = .ok (.parentheses, found) := by
  rw [Grammar.plan, select?_all]
  simp [attempts, hcall, htuple, h]

theorem plan_of_vector (hcall : findCall? (.of callee) text = none) (htuple : findTuple? text = none)
    (hparentheses : enclosedGroup? '(' text = none) (h : enclosedGroup? '[' text = some found) :
    Grammar.default.plan text = .ok (.vector, found) := by
  rw [Grammar.plan, select?_all]
  simp [attempts, hcall, htuple, hparentheses, h]

end

/-! ## Plans -/

theorem plan_call (hz : Blank z) (hy : Blank y) (hw : w ∈ name.lang) (hs : Nested s) :
    Grammar.default.plan (z ++ w ++ ('(' :: (s ++ [')']) ++ y)) = .ok (.call, ⟨w, Text.byteSize z⟩) :=
  plan_of_call (findCall?_group hz hw hs hy)

/-- A group with nothing in it or a comma of its own is a tuple. -/
theorem plan_tuple (hz : Blank z) (hy : Blank y) {h : Hidden} (hh : hide? .brackets s = some h)
    (hcomma : Text.isAllBlank s = true ∨ ',' ∈ h.text) :
    Grammar.default.plan (z ++ ('(' :: (s ++ [')'])) ++ y) =
      .ok (.tuple, ⟨'(' :: (s ++ [')']), Text.byteSize z⟩) := by
  have hs : Nested s := hide?_isSome_iff.1 (by rw [hh]; rfl)
  have hcall : findCall? (.of callee) (z ++ ('(' :: (s ++ [')'])) ++ y) = none := by
    rw [List.append_assoc]
    exact findCall?_eq_none (o := '(') rfl hz _
  refine plan_of_tuple hcall ?_
  rw [findTuple?, enclosedGroup?_group hz hy rfl hs]
  dsimp only
  rw [Text.interior?_eq rfl rfl]
  dsimp only
  split
  · rfl
  · next hblank =>
    rw [hh]
    dsimp only
    rw [if_pos (hcomma.resolve_left hblank)]

/-- Another group is parentheses. -/
theorem plan_parentheses (hz : Blank z) (hy : Blank y) {h : Hidden} (hh : hide? .brackets s = some h)
    (hblank : Text.isAllBlank s = false) (hcomma : ',' ∉ h.text) :
    Grammar.default.plan (z ++ ('(' :: (s ++ [')'])) ++ y) =
      .ok (.parentheses, ⟨'(' :: (s ++ [')']), Text.byteSize z⟩) := by
  have hs : Nested s := hide?_isSome_iff.1 (by rw [hh]; rfl)
  have hgroup : enclosedGroup? '(' (z ++ ('(' :: (s ++ [')'])) ++ y) =
      some ⟨'(' :: (s ++ [')']), Text.byteSize z⟩ := enclosedGroup?_group hz hy rfl hs
  have hcall : findCall? (.of callee) (z ++ ('(' :: (s ++ [')'])) ++ y) = none := by
    rw [List.append_assoc]
    exact findCall?_eq_none (o := '(') rfl hz _
  refine plan_of_parentheses hcall ?_ hgroup
  rw [findTuple?, hgroup]
  dsimp only
  rw [Text.interior?_eq rfl rfl]
  dsimp only
  rw [if_neg (by rw [hblank]; decide), hh]
  dsimp only
  rw [if_neg hcomma]

/-- A group in square brackets is a vector. -/
theorem plan_vector (hz : Blank z) (hy : Blank y) (hs : Nested s) :
    Grammar.default.plan (z ++ ('[' :: (s ++ [']'])) ++ y) =
      .ok (.vector, ⟨'[' :: (s ++ [']']), Text.byteSize z⟩) := by
  have hcall : findCall? (.of callee) (z ++ ('[' :: (s ++ [']'])) ++ y) = none := by
    rw [List.append_assoc]
    exact findCall?_eq_none (o := '[') rfl hz _
  have hnone : enclosedGroup? '(' (z ++ ('[' :: (s ++ [']'])) ++ y) = none := by
    have hv : Segment.AllValid [.group '[' ']' s] := by
      intro seg hseg
      rw [List.mem_singleton.1 hseg]
      exact ⟨rfl, hs⟩
    have htexts : Segment.texts [.group '[' ']' s] = '[' :: (s ++ [']']) := List.append_nil _
    rw [← htexts]
    refine enclosedGroup?_eq_none hz hy hv ?_ (by simp)
    rw [htexts]
    exact trimmed_group rfl
  have htuple : findTuple? (z ++ ('[' :: (s ++ [']'])) ++ y) = none := by
    rw [findTuple?, hnone]
  exact plan_of_vector hcall htuple hnone (enclosedGroup?_group hz hy rfl hs)

end Formula
