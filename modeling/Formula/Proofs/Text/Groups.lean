import Formula.Proofs.Text.CharClass
import Formula.Proofs.Text.Hiding

/-!
# Texts and their groups

Groups are hidden of texts whose brackets, round and square, nest properly; these are the texts of segments
that are valid (`hide?_eq_some`). What is found in the hidden text has a place in the text itself: a
fragment without characters of placeholders or escapes stands for characters (`covered_eq_append`).

`enclosedGroup?_eq_some` says which texts are one group, and `restore_splitAtCommas` what the parts of a
list are; they are stretches of it (`stretch_of_mem_commaParts`).
-/

set_option autoImplicit false

namespace Formula

/-- Whether a character opens or closes a group. -/
def isBracket (c : Char) : Bool :=
  c = '(' || c = ')' || c = '[' || c = ']'

/-- Brackets nest properly. -/
inductive Nested : List Char → Prop
  | nil : Nested []
  | char {c : Char} {s : List Char} : isBracket c = false → Nested s → Nested (c :: s)
  | group {o c : Char} {s t : List Char} : Grouping.brackets.closer? o = some c → Nested s →
      Nested t → Nested (o :: (s ++ c :: t))

namespace Segment

/-- Characters are no brackets, and the brackets in groups nest properly. -/
def Valid : Segment → Prop
  | char c => isBracket c = false
  | group o c s => Grouping.brackets.closer? o = some c ∧ Nested s

/-- All segments are valid. -/
def AllValid (segs : List Segment) : Prop :=
  ∀ seg ∈ segs, seg.Valid

theorem AllValid.tail {seg : Segment} {segs : List Segment} (hv : AllValid (seg :: segs)) :
    AllValid segs :=
  (List.forall_mem_cons.1 hv).2

end Segment

open Segment

/-! ## Brackets -/

theorem tracks_brackets (c : Char) : Grouping.brackets.tracks c = isBracket c := by
  cases hc : isBracket c with
  | true =>
    simp only [isBracket, Bool.or_eq_true, decide_eq_true_eq] at hc
    rcases hc with ((rfl | rfl) | rfl) | rfl <;> rfl
  | false =>
    simp only [isBracket, Bool.or_eq_false_iff, decide_eq_false_iff_not] at hc
    obtain ⟨⟨⟨h1, h2⟩, h3⟩, h4⟩ := hc
    refine tracks_eq_false_iff.2 ⟨?_, ?_⟩
    · unfold Grouping.closer?
      split <;> simp_all
    · unfold Grouping.isCloser
      split <;> simp_all

theorem nested_iff {s : List Char} : Nested s ↔ Grouping.brackets.Nests s := by
  constructor
  · intro h
    induction h with
    | nil => exact .nil
    | char hc _ ih => exact .char (by rwa [tracks_brackets]) ih
    | group hoc _ _ ihs iht => exact .group hoc ihs iht
  · intro h
    induction h with
    | nil => exact .nil
    | char hc _ ih => exact .char (by rwa [← tracks_brackets]) ih
    | group hoc _ _ ihs iht => exact .group hoc ihs iht

theorem allValid_iff {segs : List Segment} : AllValid segs ↔ AllValidIn .brackets segs := by
  refine forall₂_congr fun seg _ => ?_
  cases seg with
  | char c => simp only [Valid, ValidIn, tracks_brackets]
  | group o c s => simp only [Valid, ValidIn, nested_iff]

theorem isBracket_of_isBlank {c : Char} (h : Text.isBlank c = true) : isBracket c = false := by
  simpa using Text.forall_blank (f := fun c => !isBracket c) (by decide) h

theorem isBlank_of_isBracket {c : Char} (h : isBracket c = true) : Text.isBlank c = false := by
  cases hblank : Text.isBlank c with
  | false => rfl
  | true =>
    rw [isBracket_of_isBlank hblank] at h
    cases h

theorem isEscaped_of_not_isBracket {c : Char} (h : isBracket c = false) :
    isEscaped c = decide (c = '\\') := by
  simp only [isBracket, Bool.or_eq_false_iff, decide_eq_false_iff_not] at h
  simp [isEscaped, h.1.2, h.2]

/-- A text has hidden groups when it is the text of segments. -/
theorem hide?_eq_some {text : List Char} {h : Hidden} : hide? .brackets text = some h ↔
    ∃ segs, AllValid segs ∧ text = texts segs ∧ h = ⟨covered 0 segs, Segment.groups 0 segs⟩ := by
  simp only [allValid_iff]
  exact Grouping.hide?_eq_some

/-! ## Texts whose brackets nest -/

theorem nested_of_not_isBracket {text : List Char} (h : ∀ c ∈ text, isBracket c = false) :
    Nested text := by
  induction text with
  | nil => exact .nil
  | cons c text ih =>
    exact .char (h c List.mem_cons_self) (ih fun d hd => h d (List.mem_cons_of_mem c hd))

theorem Nested.append {s t : List Char} (hs : Nested s) (ht : Nested t) : Nested (s ++ t) :=
  nested_iff.2 ((nested_iff.1 hs).append (nested_iff.1 ht))

theorem isBracket_of_closer {o c : Char} (h : Grouping.brackets.closer? o = some c) :
    isBracket o = true ∧ isBracket c = true := by
  rcases closer_cases h with ⟨rfl, rfl⟩ | ⟨rfl, rfl⟩ <;> exact ⟨rfl, rfl⟩

/-- Brackets still nest when other characters are left out. -/
theorem Nested.filter {keep : Char → Bool} (hkeep : ∀ c, isBracket c = true → keep c = true)
    {text : List Char} (h : Nested text) : Nested (text.filter keep) := by
  induction h with
  | nil => exact .nil
  | char hc _ ih =>
    rw [List.filter_cons]
    split
    · exact .char hc ih
    · exact ih
  | group hoc _ _ ihs iht =>
    obtain ⟨ho, hc⟩ := isBracket_of_closer hoc
    rw [List.filter_cons_of_pos (hkeep _ ho), List.filter_append, List.filter_cons_of_pos (hkeep _ hc)]
    exact .group hoc ihs iht

theorem Nested.enclosed {o c : Char} {z s y : List Char} (hoc : Grouping.brackets.closer? o = some c)
    (hz : Nested z) (hs : Nested s) (hy : Nested y) : Nested (z ++ (o :: (s ++ [c])) ++ y) :=
  (hz.append (.group hoc hs .nil)).append hy

theorem nested_texts {segs : List Segment} (hv : AllValid segs) : Nested (texts segs) :=
  nested_iff.2 (.of_texts (allValid_iff.1 hv))

/-- The groups of a text can be hidden exactly when its brackets nest. -/
theorem hide?_isSome_iff {text : List Char} : (hide? .brackets text).isSome = true ↔ Nested text :=
  Grouping.isSome_hide?.trans nested_iff.symm

theorem hide?_eq_none_iff {text : List Char} : hide? .brackets text = none ↔ ¬ Nested text := by
  rw [← hide?_isSome_iff, Bool.not_eq_true, Option.isSome_eq_false_iff, Option.isNone_iff_eq_none]

/-! ## Places in the hidden text -/

/-- Characters that belong to no placeholder and no escape. -/
def standsForItself (c : Char) : Bool :=
  !c.isDigit && !isEscaped c

namespace Segment

variable {n : Nat} {segs : List Segment} {w x y : List Char}

theorem shown_of_mem {seg : Segment} {c : Char} (hc : c ∈ seg.shown n)
    (hself : standsForItself c = true) : seg = char c ∧ seg.shown n = [c] := by
  simp only [standsForItself, Bool.and_eq_true, Bool.not_eq_true'] at hself
  cases seg with
  | char d =>
    rw [shown] at hc ⊢
    split
    · next hd =>
      rw [if_pos hd] at hc
      simp only [List.mem_cons, List.not_mem_nil, or_false] at hc
      rcases hc with rfl | rfl
      · exact absurd hself.2 (by decide)
      · rw [hd] at hself
        cases hself.2
    · next hd =>
      rw [if_neg hd, List.mem_singleton] at hc
      subst hc
      exact ⟨rfl, rfl⟩
  | group o d s =>
    rw [shown, placeholder, List.mem_cons, List.mem_append, List.mem_singleton] at hc
    rcases hc with rfl | hc | rfl
    · exact absurd hself.2 (by decide)
    · rw [isDigit_toDigits n c hc] at hself
      cases hself.1
    · exact absurd hself.2 (by decide)

theorem shown_ne_nil (n : Nat) (seg : Segment) : seg.shown n ≠ [] := by
  cases seg with
  | char c => rw [shown]; split <;> simp
  | group o c s => simp [shown, placeholder]

/-- Such characters at the start of a hidden text are characters of the text. -/
theorem covered_eq_append_of_start (h : covered n segs = w ++ y)
    (hw : ∀ c ∈ w, standsForItself c = true) :
    ∃ back, segs = w.map char ++ back ∧ y = covered n back := by
  induction w generalizing segs with
  | nil => exact ⟨segs, rfl, h.symm⟩
  | cons c w ih =>
    cases segs with
    | nil => cases h
    | cons seg segs =>
      rw [covered] at h
      obtain ⟨d, r, hd⟩ := List.exists_cons_of_ne_nil (shown_ne_nil n seg)
      have hdc : d = c := by
        rw [hd] at h
        exact (List.cons.inj h).1
      obtain ⟨rfl, hshown⟩ := shown_of_mem (n := n) (by rw [hd, hdc]; exact List.mem_cons_self)
        (hw c List.mem_cons_self)
      rw [hshown] at h
      obtain ⟨back, rfl, hy⟩ := ih (List.cons.inj h).2 fun e he => hw e (List.mem_cons_of_mem c he)
      exact ⟨back, rfl, hy⟩

/-- Such characters in a hidden text are characters of the text. -/
theorem covered_eq_append (h : covered n segs = x ++ w ++ y) (hne : w ≠ [])
    (hw : ∀ c ∈ w, standsForItself c = true) :
    ∃ front back, segs = front ++ w.map char ++ back ∧ x = covered n front ∧
      y = covered (n + count front) back := by
  induction segs generalizing n x with
  | nil =>
    rw [covered] at h
    simp [hne] at h
  | cons seg segs ih =>
    have hlater : ∀ x', x = seg.shown n ++ x' → covered (n + count [seg]) segs = x' ++ w ++ y →
        ∃ front back, seg :: segs = front ++ w.map char ++ back ∧ x = covered n front ∧
          y = covered (n + count front) back := by
      rintro x' rfl hx
      obtain ⟨front, back, rfl, rfl, rfl⟩ := ih hx
      refine ⟨seg :: front, back, rfl, rfl, ?_⟩
      rw [count_cons seg front, Nat.add_assoc]
    rw [covered, List.append_assoc x w y] at h
    rcases List.append_eq_append_iff.1 h with ⟨x', hx, hrest⟩ | ⟨r, hshown, hrest⟩
    · exact hlater x' hx (by rw [hrest, List.append_assoc])
    · cases r with
      | nil => exact hlater [] (by simpa using hshown.symm) (by simpa using hrest.symm)
      | cons d r =>
        -- The first of the characters begins here.
        obtain ⟨c, w', rfl⟩ := List.exists_cons_of_ne_nil hne
        have hdc : c = d := (List.cons.inj hrest).1
        subst hdc
        obtain ⟨rfl, hc⟩ := shown_of_mem (n := n) (by rw [hshown]; simp) (hw c List.mem_cons_self)
        rw [hc] at hshown
        cases x with
        | nil =>
          have hstart : covered n (char c :: segs) = c :: w' ++ y := by
            rw [covered, h]
            rfl
          obtain ⟨back, hback, hy⟩ := covered_eq_append_of_start hstart hw
          exact ⟨[], back, hback, rfl, hy⟩
        | cons e x => simp at hshown

end Segment

@[simp] theorem Segment.texts_map_char (w : List Char) : texts (w.map .char) = w := by
  induction w with
  | nil => rfl
  | cons c w ih => rw [List.map_cons, texts_cons, ih]; rfl

@[simp] theorem Segment.count_map_char (w : List Char) : count (w.map .char) = 0 := by
  induction w with
  | nil => rfl
  | cons c w ih => rw [List.map_cons, count_cons, ih, count_char]

theorem Segment.eq_nil_of_covered {n : Nat} {segs : List Segment} (h : covered n segs = []) :
    segs = [] := by
  cases segs with
  | nil => rfl
  | cons seg segs =>
    rw [covered, List.append_eq_nil_iff] at h
    exact absurd h.1 (shown_ne_nil n seg)

/-- Hidden text holds no parentheses. -/
theorem Segment.not_mem_covered {n : Nat} {segs : List Segment} (hv : AllValid segs) {c : Char}
    (hc : c = '(' ∨ c = ')') : c ∉ covered n segs := by
  induction segs generalizing n with
  | nil => simp [covered]
  | cons seg segs ih =>
    rw [covered, List.mem_append, not_or]
    refine ⟨fun hmem => ?_, ih hv.tail⟩
    have hself : standsForItself c = true := by rcases hc with rfl | rfl <;> decide
    obtain ⟨rfl, -⟩ := shown_of_mem hmem hself
    have hbracket : isBracket c = false := hv _ List.mem_cons_self
    rcases hc with rfl | rfl <;> cases hbracket

/-! ## Texts that are one group -/

section

variable {opener closer : Char} {s z y : List Char} {segs : List Segment}

theorem hidden_eq_placeholder (hv : AllValid segs) (h : covered 0 segs = placeholder 0) :
    ∃ o c s, segs = [.group o c s] := by
  cases segs with
  | nil => cases h
  | cons seg segs =>
    cases seg with
    | char c =>
      have hc : isBracket c = false := hv _ List.mem_cons_self
      rw [covered, Segment.shown] at h
      split at h
      · cases h
      · obtain rfl := (List.cons.inj h).1
        cases hc
    | group o c s =>
      cases segs with
      | nil => exact ⟨o, c, s, rfl⟩
      | cons seg segs =>
        rw [covered, Segment.shown, List.append_right_eq_self] at h
        cases Segment.eq_nil_of_covered h

theorem trimmed_group (hoc : Grouping.brackets.closer? opener = some closer) :
    Text.Trimmed (opener :: (s ++ [closer])) := by
  obtain ⟨hopener, hcloser⟩ := isBracket_of_closer hoc
  exact ⟨⟨opener, _, rfl, isBlank_of_isBracket hopener⟩, opener :: s, closer, rfl,
    isBlank_of_isBracket hcloser⟩

/-- A text that is one group, apart from blanks around it. -/
theorem enclosedGroup?_group (hz : ∀ c ∈ z, Text.isBlank c = true)
    (hy : ∀ c ∈ y, Text.isBlank c = true) (hoc : Grouping.brackets.closer? opener = some closer)
    (hs : Nested s) : enclosedGroup? opener (z ++ (opener :: (s ++ [closer])) ++ y) =
      some ⟨opener :: (s ++ [closer]), Text.byteSize z⟩ := by
  have hw := trimmed_group (s := s) hoc
  have hsegs : hide? .brackets (opener :: (s ++ [closer])) =
      some ⟨placeholder 0, Segment.groups 0 [.group opener closer s]⟩ := by
    refine hide?_eq_some.2 ⟨[.group opener closer s], ?_, by simp [Segment.text], ?_⟩
    · intro seg hseg
      rw [List.mem_singleton.1 hseg]
      exact ⟨hoc, hs⟩
    · simp [covered, Segment.shown]
  have htake : (z ++ (opener :: (s ++ [closer])) ++ y).takeWhile Text.isBlank = z := by
    obtain ⟨⟨c, r, hc, hblank⟩, -⟩ := hw
    rw [hc, List.append_assoc, List.takeWhile_append_of_pos hz, List.cons_append,
      List.takeWhile_cons_of_neg (by simp [hblank]), List.append_nil]
  rw [enclosedGroup?, Text.trim_append hz hw hy]
  simp only [ne_eq, not_true_eq_false, if_false, hsegs, if_true, htake]

theorem enclosedGroup?_eq_some {text : List Char} {token : Token}
    (hoc : Grouping.brackets.closer? opener = some closer)
    (h : enclosedGroup? opener text = some token) :
    ∃ z s y, (∀ c ∈ z, Text.isBlank c = true) ∧ Nested s ∧ (∀ c ∈ y, Text.isBlank c = true) ∧
      text = z ++ (opener :: (s ++ [closer])) ++ y ∧
      token = ⟨opener :: (s ++ [closer]), Text.byteSize z⟩ := by
  obtain ⟨y, hy, htext⟩ := Text.exists_trim text
  rw [enclosedGroup?] at h
  split at h
  · cases h
  · next c r htrim =>
    split at h
    · cases h
    · next hc =>
      obtain rfl := Decidable.of_not_not hc
      split at h
      · cases h
      · next hid hhide =>
        split at h
        · next hshown =>
          obtain ⟨segs, hv, hsegs, rfl⟩ := hide?_eq_some.1 hhide
          obtain ⟨o, c', s, rfl⟩ := hidden_eq_placeholder hv hshown
          obtain ⟨hoc', hs⟩ := hv _ List.mem_cons_self
          have hgroup : Text.trim text = o :: (s ++ [c']) := by simpa [Segment.text] using hsegs
          obtain rfl : c = o := (List.cons.inj (htrim.symm.trans hgroup)).1
          obtain rfl := Option.some.inj (hoc.symm.trans hoc')
          refine ⟨text.takeWhile Text.isBlank, s, y, fun c hc => List.mem_takeWhile_imp hc, hs, hy, ?_, ?_⟩
          · rw [← hgroup]
            exact htext
          · rw [← Option.some.inj h, hgroup]
        · cases h

/-- Segments that are not one group. -/
theorem enclosedGroup?_eq_none (hz : ∀ c ∈ z, Text.isBlank c = true)
    (hy : ∀ c ∈ y, Text.isBlank c = true) (hv : AllValid segs) (ht : Text.Trimmed (texts segs))
    (hsegs : ∀ closer s, segs ≠ [.group opener closer s]) :
    enclosedGroup? opener (z ++ texts segs ++ y) = none := by
  have hhide : hide? .brackets (texts segs) = some ⟨covered 0 segs, Segment.groups 0 segs⟩ :=
    hide?_eq_some.2 ⟨segs, hv, rfl, rfl⟩
  rw [enclosedGroup?, Text.trim_append hz ht hy]
  split
  · rfl
  · next c r htext =>
    split
    · rfl
    · next hc =>
      have hc := Decidable.of_not_not hc
      rw [hhide]
      dsimp only
      rw [if_neg]
      intro hshown
      obtain ⟨o, c', s, rfl⟩ := hidden_eq_placeholder hv hshown
      have ho : o = c := by
        have := htext
        simp only [texts_cons, Segment.text, List.cons_append, List.cons.injEq] at this
        exact this.1
      exact hsegs c' s (by rw [ho, hc])

end

/-- A group in brackets at the place of the first placeholder is that placeholder. -/
theorem Nested.eq_of_placeholder {s y rest : List Char} (hs : Nested s)
    (h : s ++ ']' :: y = '0' :: ']' :: rest) : rest = y := by
  cases hs with
  | nil => cases h
  | char _ hs =>
    have h := (List.cons.inj h).2
    cases hs with
    | nil => exact (List.cons.inj h).2.symm
    | char hd =>
      obtain rfl := (List.cons.inj h).1
      cases hd
    | group ho =>
      obtain rfl := (List.cons.inj h).1
      cases ho
  | group ho =>
    obtain rfl := (List.cons.inj h).1
    cases ho

/-- Where the hidden text is one group, the text is one. -/
theorem exists_group_of_covered {segs : List Segment} {token : Token} (hv : AllValid segs)
    (h : enclosedGroup? '[' (covered 0 segs) = some token) :
    ∃ o c, Grouping.brackets.closer? o = some c ∧ (enclosedGroup? o (texts segs)).isSome = true := by
  obtain ⟨z, s, y, hz, hs, hy, ht, -⟩ := enclosedGroup?_eq_some rfl h
  have hself : ∀ {x : List Char}, (∀ c ∈ x, Text.isBlank c = true) →
      ∀ c ∈ x, standsForItself c = true :=
    fun hx c hc => Text.forall_blank (by decide) (hx c hc)
  rw [List.append_assoc] at ht
  obtain ⟨back, rfl, hback⟩ := covered_eq_append_of_start ht (hself hz)
  cases back with
  | nil => cases hback
  | cons seg back =>
    cases seg with
    | char c =>
      have hc : isBracket c = false := hv (.char c) (by simp)
      rw [covered, Segment.shown] at hback
      split at hback
      · cases hback
      · obtain rfl := (List.cons.inj hback).1
        cases hc
    | group o c s' =>
      obtain ⟨hoc, hs'⟩ := hv (.group o c s') (by simp)
      -- What the brackets enclose is the number of the placeholder.
      have hrest : covered 1 back = y := by
        refine hs.eq_of_placeholder ?_
        rw [covered, Segment.shown] at hback
        simpa [placeholder, count_group] using hback
      rw [← List.append_nil y] at hrest
      obtain ⟨more, rfl, hmore⟩ := covered_eq_append_of_start hrest (hself hy)
      obtain rfl := Segment.eq_nil_of_covered hmore.symm
      refine ⟨o, c, hoc, ?_⟩
      have htext : texts (z.map .char ++ .group o c s' :: (y.map .char ++ [])) =
          z ++ (o :: (s' ++ [c])) ++ y := by
        simp [texts_append, Segment.text]
      rw [htext, enclosedGroup?_group hz hy hoc hs']
      rfl

/-! ## The parts of a list -/

/-- The parts of segments between commas. -/
def commaParts : List Segment → List (List Segment)
  | [] => [[]]
  | seg :: segs =>
    if seg = .char ',' then [] :: commaParts segs
    else
      match commaParts segs with
      | [] => [[seg]]
      | part :: parts => (seg :: part) :: parts

theorem splitAtCommas_ne_nil (text : List Char) : splitAtCommas text ≠ [] := by
  cases text with
  | nil => simp [splitAtCommas]
  | cons c text =>
    rw [splitAtCommas]
    split
    · simp
    · split <;> simp

theorem commaParts_ne_nil (segs : List Segment) : commaParts segs ≠ [] := by
  cases segs with
  | nil => simp [commaParts]
  | cons seg segs =>
    rw [commaParts]
    split
    · simp
    · split <;> simp

theorem splitAtCommas_append {u r part : List Char} {parts : List (List Char)}
    (hu : ',' ∉ u) (hr : splitAtCommas r = part :: parts) :
    splitAtCommas (u ++ r) = (u ++ part) :: parts := by
  induction u with
  | nil => exact hr
  | cons c u ih =>
    rw [List.mem_cons, not_or] at hu
    rw [List.cons_append, splitAtCommas, if_neg (Ne.symm hu.1), ih hu.2]
    rfl

theorem comma_not_mem_shown {n : Nat} {seg : Segment} (h : seg ≠ .char ',') :
    ',' ∉ seg.shown n := by
  intro hc
  exact h (Segment.shown_of_mem hc (by decide)).1

theorem commaParts_cons {seg : Segment} {segs part : List Segment} {parts : List (List Segment)}
    (hseg : seg ≠ .char ',') (h : commaParts segs = part :: parts) :
    commaParts (seg :: segs) = (seg :: part) :: parts := by
  rw [commaParts, if_neg hseg, h]

/-- A comma begins a new first part; everything else is put in front of the first part. -/
theorem commaParts_cases (seg : Segment) (segs : List Segment) :
    (seg = .char ',' ∧ commaParts (seg :: segs) = [] :: commaParts segs) ∨
      (seg ≠ .char ',' ∧ ∃ part parts, commaParts segs = part :: parts ∧
        commaParts (seg :: segs) = (seg :: part) :: parts) := by
  by_cases hseg : seg = .char ','
  · exact .inl ⟨hseg, if_pos hseg⟩
  · obtain ⟨part, parts, hparts⟩ := List.exists_cons_of_ne_nil (commaParts_ne_nil segs)
    exact .inr ⟨hseg, part, parts, hparts, commaParts_cons hseg hparts⟩

/-- A comma between groups is still seen when they are hidden. -/
theorem not_mem_of_comma_not_mem {n : Nat} {segs : List Segment} (h : ',' ∉ covered n segs) :
    char ',' ∉ segs := by
  intro hmem
  obtain ⟨front, back, rfl⟩ := List.append_of_mem hmem
  rw [covered_append] at h
  exact h (List.mem_append_right _ List.mem_cons_self)

theorem commaParts_of_not_mem {segs : List Segment} (h : char ',' ∉ segs) : commaParts segs = [segs] := by
  induction segs with
  | nil => rfl
  | cons seg segs ih =>
    rw [List.mem_cons, not_or] at h
    exact commaParts_cons (Ne.symm h.1) (ih h.2)

theorem commaParts_append {segs segs' : List Segment} (h : char ',' ∉ segs) :
    commaParts (segs ++ char ',' :: segs') = segs :: commaParts segs' := by
  induction segs with
  | nil => exact if_pos rfl
  | cons seg segs ih =>
    rw [List.mem_cons, not_or] at h
    exact commaParts_cons (Ne.symm h.1) (ih h.2)

/-- The first part is what the segments begin with, and the others are stretches of them. -/
theorem exists_commaParts (segs : List Segment) : ∃ first parts, commaParts segs = first :: parts ∧
    first <+: segs ∧ ∀ part ∈ parts, part <:+: segs := by
  induction segs with
  | nil => exact ⟨[], [], rfl, List.prefix_refl [], fun part h => by cases h⟩
  | cons seg segs ih =>
    obtain ⟨first, parts, hparts, hfirst, hrest⟩ := ih
    by_cases hseg : seg = .char ','
    · refine ⟨[], first :: parts, ?_, List.nil_prefix, ?_⟩
      · rw [commaParts, if_pos hseg, hparts]
      · intro part hpart
        rcases List.mem_cons.1 hpart with rfl | hpart
        · exact List.infix_cons hfirst.isInfix
        · exact List.infix_cons (hrest part hpart)
    · refine ⟨seg :: first, parts, commaParts_cons hseg hparts, ?_, ?_⟩
      · exact (List.prefix_cons_inj seg).2 hfirst
      · exact fun part hpart => List.infix_cons (hrest part hpart)

/-- A part is a stretch of the segments. -/
theorem stretch_of_mem_commaParts {segs part : List Segment} (h : part ∈ commaParts segs) :
    part <:+: segs := by
  obtain ⟨first, parts, hparts, hfirst, hrest⟩ := exists_commaParts segs
  rw [hparts] at h
  rcases List.mem_cons.1 h with rfl | h
  · exact hfirst.isInfix
  · exact hrest part h

theorem Segment.AllValid.part {segs part : List Segment} (hv : AllValid segs)
    (h : part ∈ commaParts segs) : AllValid part :=
  fun seg hseg => hv seg ((stretch_of_mem_commaParts h).mem hseg)

theorem texts_stretch {segs part : List Segment} (h : part <:+: segs) : texts part <:+: texts segs := by
  obtain ⟨front, back, rfl⟩ := h
  rw [texts_append, texts_append]
  exact List.infix_append (texts front) (texts part) (texts back)

/-- The parts of a hidden list stand for the parts of the list. -/
theorem restore_splitAtCommas {h : Hidden} {n : Nat} {segs : List Segment} (hs : h.Shows n segs) :
    (splitAtCommas (covered n segs)).map h.restore = (commaParts segs).map texts := by
  induction segs generalizing n with
  | nil => rfl
  | cons seg segs ih =>
    have ih := ih hs.tail
    by_cases hseg : seg = .char ','
    · subst hseg
      rw [covered, Segment.shown, if_neg (by decide), List.singleton_append, splitAtCommas, if_pos rfl,
        commaParts, if_pos rfl, List.map_cons, ih]
      rfl
    · obtain ⟨part, parts, hparts⟩ :=
        List.exists_cons_of_ne_nil (splitAtCommas_ne_nil (covered (n + count [seg]) segs))
      obtain ⟨part', parts', hparts'⟩ := List.exists_cons_of_ne_nil (commaParts_ne_nil segs)
      rw [hparts, hparts', List.map_cons, List.map_cons, List.cons.injEq] at ih
      rw [covered, splitAtCommas_append (comma_not_mem_shown hseg) hparts,
        commaParts_cons hseg hparts', List.map_cons, List.map_cons, List.cons.injEq]
      refine ⟨?_, ih.2⟩
      rw [Hidden.restore, Hidden.restoreFrom_segment hs.head, texts_cons, ← ih.1]
      rfl

end Formula
