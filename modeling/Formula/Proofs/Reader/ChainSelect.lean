import Formula.Proofs.Reader.Plan

/-!
# What is built from a chain

Where no rule for groups applies, the rule that applies to a chain is that of its first equals sign
(`select_assignment`), else that of the last of its loosest operators (`select_binary`). A leaf alone is
read from its operator in front (`select_before`), else from that behind it (`select_after`), else as the
word that it is.
-/

set_option autoImplicit false

namespace Formula

open Lexeme

/-- No rule for groups applies to the text. -/
structure NoGroup (around : Bool) (text : List Char) : Prop where
  call : findCall? (.of callee) text = none
  tuple : findTuple? text = none
  parentheses : enclosedGroup? '(' text = none
  vector : enclosedGroup? '[' text = none
  hides : around = true →
    (Finder.pattern (.of (matched (anyOf '(' [')', '[', ']']))) false).find? text = none

section

variable {around : Bool} {text : List Char}

/-- Where there are no brackets, no rule for groups applies. -/
theorem noGroup_of_not_isBracket (h : ∀ c ∈ text, isBracket c = false) : NoGroup around text := by
  have hnot : ∀ {c : Char}, isBracket c = true → c ∉ text := by
    intro c hc hmem
    rw [h c hmem] at hc
    cases hc
  refine ⟨?_, ?_, ?_, ?_, fun _ => ?_⟩
  · cases hfind : findCall? (.of callee) text with
    | none => rfl
    | some token =>
      obtain ⟨x, w, z, s, y, rfl, -⟩ := findCall?_eq_some hfind
      exact absurd (by simp) (hnot (c := '(') rfl)
  · cases hfind : findTuple? text with
    | none => rfl
    | some token =>
      obtain ⟨z, s, y, rfl, -⟩ := findTuple?_eq_some hfind
      exact absurd (by simp) (hnot (c := '(') rfl)
  · cases hfind : enclosedGroup? '(' text with
    | none => rfl
    | some token =>
      obtain ⟨z, s, y, -, -, -, rfl, -⟩ := enclosedGroup?_eq_some rfl hfind
      exact absurd (by simp) (hnot (c := '(') rfl)
  · cases hfind : enclosedGroup? '[' text with
    | none => rfl
    | some token =>
      obtain ⟨z, s, y, -, -, -, rfl, -⟩ := enclosedGroup?_eq_some rfl hfind
      exact absurd (by simp) (hnot (c := '[') rfl)
  · cases hfind : (Finder.pattern (.of (matched (anyOf '(' [')', '[', ']']))) false).find? text with
    | none => rfl
    | some token =>
      obtain ⟨x, w, y, rfl, hw, -⟩ := find?_pattern (names_matched rfl rfl) hfind
      obtain ⟨c, hc, rfl⟩ := mem_anyOf.1 hw
      have hall : ['(', ')', '[', ']'].all isBracket = true := by decide
      exact absurd (by simp) (hnot (List.all_eq_true.1 hall c hc))

/-- The searches for words and operators, in order. -/
def wordAttempts (text : List Char) : List (Option (Builder × Token)) :=
  (attempts false text).drop 5

theorem NoGroup.findSome? (h : NoGroup around text) :
    (attempts around text).findSome? id = (wordAttempts text).findSome? id := by
  have hsplit : attempts around text = (attempts around text).take 5 ++ wordAttempts text := rfl
  have hfirst : (attempts around text).take 5 = [none, none, none, none, none] := by
    simp only [attempts, List.cons_append, List.take_succ_cons, List.take_zero, h.call, h.tuple,
      h.parentheses, h.vector, Option.map_none, List.cons.injEq, and_true, true_and]
    cases around with
    | false => rfl
    | true => rw [if_pos rfl, h.hides rfl]; rfl
  rw [hsplit, hfirst]
  rfl

/-! ## The searches for words and operators -/

theorem wordAttempts_eq (text : List Char) : wordAttempts text =
    (assignmentPatterns.search.find? text).map (.assignment, ·) ::
      ((levelPatterns.map fun p => ((operatorPatterns p).search.find? text).map (Builder.binary, ·)) ++
      [((Finder.pattern (.of (leading frontOperator)) false).find? text).map (.before, ·),
        (findBehind? text).map (.after, ·),
        ((Finder.pattern (.of (only constant)) false).find? text).map (.constant, ·),
        ((Finder.pattern (.of (only name)) false).find? text).map (.variable, ·),
        ((Finder.pattern (.of (only number)) false).find? text).map (.number, ·)]) := rfl

/-- The first search for operators that finds something. -/
theorem findSome?_levels {token : Token} {rest : List (Option (Builder × Token))} {i : Nat}
    (hi : i < levelPatterns.length)
    (hbefore : ∀ j (hj : j < levelPatterns.length), j < i →
      (operatorPatterns levelPatterns[j]).search.find? text = none)
    (h : (operatorPatterns levelPatterns[i]).search.find? text = some token) :
    ((levelPatterns.map fun p => ((operatorPatterns p).search.find? text).map (Builder.binary, ·)) ++
      rest).findSome? id = some (.binary, token) := by
  rw [← List.take_append_drop i levelPatterns, List.map_append, List.append_assoc,
    List.findSome?_append, List.drop_eq_getElem_cons hi, List.map_cons, h]
  have hnone : ((levelPatterns.take i).map fun p =>
      ((operatorPatterns p).search.find? text).map (Builder.binary, ·)).findSome? id = none := by
    rw [List.findSome?_eq_none_iff]
    intro o ho
    obtain ⟨p, hp, rfl⟩ := List.mem_map.1 ho
    obtain ⟨j, hj, rfl⟩ := List.getElem_of_mem hp
    rw [List.length_take] at hj
    rw [List.getElem_take, hbefore j (by omega) (by omega)]
    rfl
  rw [hnone]
  rfl

/-- No search for operators finds something. -/
theorem findSome?_levels_none {rest : List (Option (Builder × Token))}
    (h : ∀ i (hi : i < levelPatterns.length),
      (operatorPatterns levelPatterns[i]).search.find? text = none) :
    ((levelPatterns.map fun p => ((operatorPatterns p).search.find? text).map (Builder.binary, ·)) ++
      rest).findSome? id = rest.findSome? id := by
  rw [List.findSome?_append]
  have hnone : (levelPatterns.map fun p =>
      ((operatorPatterns p).search.find? text).map (Builder.binary, ·)).findSome? id = none := by
    rw [List.findSome?_eq_none_iff]
    intro o ho
    obtain ⟨p, hp, rfl⟩ := List.mem_map.1 ho
    obtain ⟨i, hi, rfl⟩ := List.getElem_of_mem hp
    rw [h i hi]
    rfl
  rw [hnone]
  rfl

end

/-! ## Chains -/

section

variable {z t : List Char} {l : Leaf} {links : Links} {around : Bool}

theorem select_assignment (hz : Blank z) (ht : Blank t) {before after : Links} {l' : Leaf}
    (heq : links = before ++ (['='], l') :: after) (hlinks : links.Valid)
    (hfirst : ∀ p ∈ before, level p.1 ≠ 0) (hno : NoGroup around (z ++ chainText l links ++ t)) :
    (attempts around (z ++ chainText l links ++ t)).findSome? id =
      some (.assignment, ⟨['='], Text.byteSize (z ++ chainText l before ++ [' '])⟩) := by
  rw [hno.findSome?, wordAttempts_eq, find?_assignment hz ht heq hlinks hfirst]
  rfl

theorem select_binary (hz : Blank z) (ht : Blank t) {before after : Links} {s : List Char} {l' : Leaf}
    (heq : links = before ++ (s, l') :: after) (hlinks : links.Valid) (hpos : 0 < level s)
    (hlevels : ∀ p ∈ links, level s ≤ level p.1) (hlast : ∀ p ∈ after, level s < level p.1)
    (hno : NoGroup around (z ++ chainText l links ++ t)) :
    (attempts around (z ++ chainText l links ++ t)).findSome? id =
      some (.binary, ⟨s, Text.byteSize (z ++ chainText l before ++ [' '])⟩) := by
  obtain ⟨i, hi⟩ := Nat.exists_eq_add_one_of_ne_zero (Nat.ne_of_gt hpos)
  rw [hi] at hlevels hlast
  have hs : s ∈ separators := hlinks (s, l') (by rw [heq]; simp)
  have hbound : i < levelPatterns.length := by
    rcases level_cases hs with ⟨-, h⟩ | ⟨-, -, h⟩
    · omega
    · show i < 8
      omega
  have hnone : assignmentPatterns.search.find? (z ++ chainText l links ++ t) = none :=
    find?_assignment_eq_none hz ht hlinks fun p hp => by
      have := hlevels p hp
      omega
  rw [hno.findSome?, wordAttempts_eq, hnone]
  refine findSome?_levels hbound (fun j _ hj => ?_) (find?_level hbound hz ht heq hlinks hlevels hi hlast)
  exact find?_level_eq_none _ hz ht hlinks fun p hp => by
    have := hlevels p hp
    omega

/-- In a leaf there are no binary operators. -/
theorem select_leaf (hz : Blank z) (ht : Blank t) (hno : NoGroup around (z ++ l.text ++ t)) :
    (attempts around (z ++ l.text ++ t)).findSome? id =
      [((Finder.pattern (.of (leading frontOperator)) false).find? (z ++ l.text ++ t)).map
          (Builder.before, ·),
        (findBehind? (z ++ l.text ++ t)).map (.after, ·),
        ((Finder.pattern (.of (only constant)) false).find? (z ++ l.text ++ t)).map (.constant, ·),
        ((Finder.pattern (.of (only name)) false).find? (z ++ l.text ++ t)).map (.variable, ·),
        ((Finder.pattern (.of (only number)) false).find? (z ++ l.text ++ t)).map
          (.number, ·)].findSome? id := by
  have hvalid : Links.Valid [] := fun p hp => by cases hp
  have hnone : assignmentPatterns.search.find? (z ++ l.text ++ t) = none := by
    have := find?_assignment_eq_none (l := l) hz ht hvalid fun p hp => by cases hp
    rwa [chainText_nil] at this
  rw [hno.findSome?, wordAttempts_eq, hnone]
  refine findSome?_levels_none fun i hi => ?_
  have := find?_level_eq_none (l := l) hi hz ht hvalid fun p hp => by cases hp
  rwa [chainText_nil] at this

/-- An operand without unary operators does not begin with a character of an operator. -/
theorem ne_of_startsCore {c d : Char} (hc : startsCore c = true) (hd : d ∈ operatorChars) : c ≠ d := by
  rintro rfl
  rw [startsCore_of_operator hd] at hc
  cases hc

theorem select_before (hz : Blank z) (ht : Blank t) (hfront : l.front ≠ [])
    (hno : NoGroup around (z ++ l.text ++ t)) :
    (attempts around (z ++ l.text ++ t)).findSome? id =
      some (.before, ⟨l.front, Text.byteSize z⟩) := by
  have hmem : l.front ∈ frontOperator.lang := by
    have h := l.front_mem
    rw [List.mem_cons] at h
    exact lang_frontOperator.2 (h.resolve_left hfront)
  have htext : z ++ l.text ++ t = z ++ l.front ++ (l.core ++ l.back ++ t) := by simp [Leaf.text]
  obtain ⟨c, rest, hc, hstart⟩ := (coreShape_of_mem l.core_mem).head
  have hfind : (Finder.pattern (.of (leading frontOperator)) false).find? (z ++ l.text ++ t) =
      some ⟨l.front, Text.byteSize z⟩ := by
    rw [htext]
    refine find?_leading hz hmem fun hsign => ?_
    rw [hc]
    rcases hsign with h | h
    · simpa [h] using ne_of_startsCore hstart (show '+' ∈ operatorChars by decide)
    · simpa [h] using ne_of_startsCore hstart (show '-' ∈ operatorChars by decide)
  rw [select_leaf hz ht hno, hfind]
  rfl

theorem isBack_of_endsCore {d : Char} (h : endsCore d = true) : isBack d = false := by
  rw [← Bool.not_eq_true]
  intro hback
  have hall : ['+', '-', '!', '%', '#'].all (fun c => !endsCore c) = true := by decide
  have := List.all_eq_true.1 hall d (by simpa [isBack] using hback)
  rw [h] at this
  cases this

theorem isFront_of_startsCore {c : Char} (h : startsCore c = true) : isFront c = false := by
  rw [← Bool.not_eq_true]
  intro hfront
  have hall : ['+', '-', '!', '~', '¬'].all (fun c => !startsCore c) = true := by decide
  have := List.all_eq_true.1 hall c (by simpa [isFront] using hfront)
  rw [h] at this
  cases this

theorem isBlank_of_startsCore {c : Char} (h : startsCore c = true) : Text.isBlank c = false := by
  rw [← Bool.not_eq_true]
  intro hblank
  rw [startsCore_of_isBlank hblank] at h
  cases h

/-- Without an operator in front, none is found. -/
theorem find?_leading_leaf (hz : Blank z) (hfront : l.front = []) :
    (Finder.pattern (.of (leading frontOperator)) false).find? (z ++ l.text ++ t) = none := by
  obtain ⟨c, rest, hc, hstart⟩ := (coreShape_of_mem l.core_mem).head
  have htext : z ++ l.text ++ t = z ++ c :: (rest ++ l.back ++ t) := by simp [Leaf.text, hfront, hc]
  rw [htext]
  exact find?_leading_eq_none hz (isBlank_of_startsCore hstart) (isFront_of_startsCore hstart)

theorem select_after (hz : Blank z) (ht : Blank t) (hfront : l.front = []) (hback : l.back ≠ [])
    (hno : NoGroup around (z ++ l.text ++ t)) :
    (attempts around (z ++ l.text ++ t)).findSome? id =
      some (.after, ⟨l.back, Text.byteSize (z ++ l.core)⟩) := by
  have hmem : l.back ∈ backOperator.lang := by
    have h := l.back_mem
    rw [List.mem_cons] at h
    exact lang_backOperator.2 (h.resolve_left hback)
  obtain ⟨w, d, hd, hend⟩ := (coreShape_of_mem l.core_mem).last
  have htext : z ++ l.text ++ t = z ++ w ++ [d] ++ l.back ++ t := by simp [Leaf.text, hfront, hd]
  have hfind : findBehind? (z ++ l.text ++ t) = some ⟨l.back, Text.byteSize (z ++ l.core)⟩ := by
    rw [htext, findBehind?_eq_some (isBack_of_endsCore hend) (isBlank_of_endsCore hend) hmem ht, hd,
      List.append_assoc]
  rw [select_leaf hz ht hno, find?_leading_leaf hz hfront, hfind]
  rfl

/-! ## Words -/

/-- A leaf that is a word without operators. -/
def Leaf.ofWord {w : List Char} (hw : w ∈ Lexeme.core.lang) : Leaf :=
  ⟨[], w, [], by decide, hw, by decide⟩

@[simp] theorem Leaf.ofWord_text {w : List Char} (hw : w ∈ Lexeme.core.lang) : (Leaf.ofWord hw).text = w := by
  simp [Leaf.text, Leaf.ofWord]

/-- A word is read as the constant, variable or number that it is. -/
theorem select_word {w : List Char} (hz : Blank z) (ht : Blank t) (hw : IsWord w)
    (hno : NoGroup around (z ++ w ++ t)) : (attempts around (z ++ w ++ t)).findSome? id =
      [((Finder.pattern (.of (only constant)) false).find? (z ++ w ++ t)).map (Builder.constant, ·),
        ((Finder.pattern (.of (only name)) false).find? (z ++ w ++ t)).map (.variable, ·),
        ((Finder.pattern (.of (only number)) false).find? (z ++ w ++ t)).map
          (.number, ·)].findSome? id := by
  have hleaf : z ++ (Leaf.ofWord hw.mem_core).text ++ t = z ++ w ++ t := by
    rw [Leaf.ofWord_text]
  have hno' : NoGroup around (z ++ (Leaf.ofWord hw.mem_core).text ++ t) := by rwa [hleaf]
  have hselect := select_leaf hz ht hno'
  have hlead := find?_leading_leaf (t := t) (l := Leaf.ofWord hw.mem_core) hz rfl
  have hbehind : findBehind? (z ++ w ++ t) = none := by
    obtain ⟨u, d, rfl, hend⟩ := (coreShape_of_mem hw.mem_core).last
    rw [← List.append_assoc]
    exact findBehind?_eq_none (isBack_of_endsCore hend) (isBlank_of_endsCore hend) ht
  rw [hleaf] at hselect hlead
  rw [hselect, hlead, hbehind]
  rfl

variable {w : List Char}

theorem select_constant (hz : Blank z) (ht : Blank t) (hw : w ∈ constant.lang)
    (hno : NoGroup around (z ++ w ++ t)) :
    (attempts around (z ++ w ++ t)).findSome? id = some (.constant, ⟨w, Text.byteSize z⟩) := by
  rw [select_word hz ht (.inr (.inl hw)) hno,
    find?_only rfl rfl (fun _ h => IsWord.trimmed (.inr (.inl h))) hz hw ht]
  rfl

theorem select_variable (hz : Blank z) (ht : Blank t) (hw : w ∈ name.lang) (hnot : w ∉ constant.lang)
    (hno : NoGroup around (z ++ w ++ t)) :
    (attempts around (z ++ w ++ t)).findSome? id = some (.variable, ⟨w, Text.byteSize z⟩) := by
  have htrimmed := IsWord.trimmed (.inl hw)
  rw [select_word hz ht (.inl hw) hno,
    find?_only_eq_none rfl rfl (fun _ h => IsWord.trimmed (.inr (.inl h))) hz htrimmed hnot ht,
    find?_only rfl rfl (fun _ h => IsWord.trimmed (.inl h)) hz hw ht]
  rfl

/-- A number is no name and no constant. -/
theorem NumberShape.not_word (h : NumberShape w) : w ∉ name.lang ∧ w ∉ constant.lang := by
  obtain ⟨c, rest, rfl, hc⟩ := h.head
  constructor
  · intro hname
    refine NameShape.head_not_digitOrPoint (m := [c]) (r := rest) (nameShape_of_mem hname)
      (List.cons_ne_nil c []) ?_
    simpa using hc
  · intro hconstant
    have hall : constantWords.all (fun w => w.head?.all fun c => !isDigitOrPoint c) = true := by decide
    have := List.all_eq_true.1 hall _ (mem_constant.1 hconstant)
    rw [List.head?_cons, Option.all_some, hc] at this
    cases this

theorem select_number (hz : Blank z) (ht : Blank t) (hw : w ∈ number.lang)
    (hno : NoGroup around (z ++ w ++ t)) :
    (attempts around (z ++ w ++ t)).findSome? id = some (.number, ⟨w, Text.byteSize z⟩) := by
  have htrimmed := IsWord.trimmed (.inr (.inr hw))
  obtain ⟨hname, hconstant⟩ := NumberShape.not_word (numberShape_of_mem hw)
  rw [select_word hz ht (.inr (.inr hw)) hno,
    find?_only_eq_none rfl rfl (fun _ h => IsWord.trimmed (.inr (.inl h))) hz htrimmed hconstant ht,
    find?_only_eq_none rfl rfl (fun _ h => IsWord.trimmed (.inl h)) hz htrimmed hname ht,
    find?_only rfl rfl (fun _ h => IsWord.trimmed (.inr (.inr h))) hz hw ht]
  rfl

end

end Formula
