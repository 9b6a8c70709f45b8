import Formula.Proofs.Text.Groups

/-!
# Lists with commas

The length of a list is told by the commas outside of all brackets (`listLength`), which a scan counts that
only remembers how many brackets are open (`topCommasFrom`). The parts of a list that is split where groups
are hidden agree with it: as many, without such commas, and joined to the list (`listParts_commaParts`).
Blanks may be left out of all this (`ListParts.solid`).
-/

set_option autoImplicit false

namespace Formula

open Segment

/-- How many commas stand outside of all brackets, when `depth` of them are open. -/
def topCommasFrom : (depth : Nat) → List Char → Nat
  | _, [] => 0
  | depth, c :: cs =>
    if c = '(' || c = '[' then topCommasFrom (depth + 1) cs
    else if c = ')' || c = ']' then topCommasFrom (depth - 1) cs
    else if c = ',' && depth = 0 then topCommasFrom depth cs + 1
    else topCommasFrom depth cs

/-- How many commas stand outside of all brackets. -/
def topCommas (text : List Char) : Nat :=
  topCommasFrom 0 text

/-- The length of a list: none when there are only blanks, else one more than there are commas. -/
def listLength (list : List Char) : Nat :=
  if Text.isAllBlank list then 0 else topCommas list + 1

/-- The parts of a list. Those of a list that is not blank give it when they are joined with commas. -/
structure ListParts (list : List Char) (parts : List (List Char)) : Prop where
  length : parts.length = listLength list
  joined : Text.isAllBlank list = false → [','].intercalate parts = list
  nested : ∀ part ∈ parts, Nested part
  noComma : ∀ part ∈ parts, topCommas part = 0

/-! ## Counting commas -/

section

variable {o c : Char} {s : List Char} {depth : Nat}

theorem topCommasFrom_open (hoc : Grouping.brackets.closer? o = some c) (s : List Char) :
    topCommasFrom depth (o :: s) = topCommasFrom (depth + 1) s := by
  rcases closer_cases hoc with ⟨rfl, rfl⟩ | ⟨rfl, rfl⟩ <;> rfl

theorem topCommasFrom_close (hoc : Grouping.brackets.closer? o = some c) (s : List Char) :
    topCommasFrom (depth + 1) (c :: s) = topCommasFrom depth s := by
  rcases closer_cases hoc with ⟨rfl, rfl⟩ | ⟨rfl, rfl⟩ <;> rfl

theorem topCommasFrom_char (hc : isBracket c = false) (s : List Char) :
    topCommasFrom depth (c :: s) = topCommasFrom depth s + if c = ',' ∧ depth = 0 then 1 else 0 := by
  simp only [isBracket, Bool.or_eq_false_iff, decide_eq_false_iff_not] at hc
  obtain ⟨⟨⟨h1, h2⟩, h3⟩, h4⟩ := hc
  simp only [topCommasFrom, h1, h2, h3, h4, decide_false, Bool.or_self, Bool.false_eq_true, if_false,
    Bool.and_eq_true, decide_eq_true_eq]
  split <;> rfl

/-- In brackets no comma counts. -/
theorem Nested.topCommasFrom_succ (hs : Nested s) (t : List Char) :
    topCommasFrom (depth + 1) (s ++ t) = topCommasFrom (depth + 1) t := by
  induction hs generalizing depth t with
  | nil => rfl
  | char hc _ ih =>
    rw [List.cons_append, topCommasFrom_char hc, ih, if_neg (by omega), Nat.add_zero]
  | group hoc _ _ ihs iht =>
    rw [List.cons_append, topCommasFrom_open hoc, List.append_assoc, ihs, List.cons_append,
      topCommasFrom_close hoc, iht]

theorem topCommas_group (hoc : Grouping.brackets.closer? o = some c) (hs : Nested s) (t : List Char) :
    topCommas (o :: (s ++ [c]) ++ t) = topCommas t := by
  rw [List.cons_append, topCommas, topCommasFrom_open hoc, List.append_assoc, hs.topCommasFrom_succ,
    List.singleton_append, topCommasFrom_close hoc, topCommas]

end

/-- The commas outside of brackets are the segments that are commas. -/
theorem topCommas_texts {segs : List Segment} (hv : AllValid segs) :
    topCommas (texts segs) = segs.count (.char ',') := by
  induction segs with
  | nil => rfl
  | cons seg segs ih =>
    have ih := ih hv.tail
    have hseg := hv seg List.mem_cons_self
    rw [texts_cons, List.count_cons]
    cases seg with
    | char c =>
      rw [Segment.text, List.singleton_append, topCommas, topCommasFrom_char hseg]
      rw [topCommas] at ih
      simp [ih]
    | group o c s =>
      rw [Segment.text, topCommas_group hseg.1 hseg.2, ih]
      simp

/-! ## The parts between commas -/

theorem length_commaParts (segs : List Segment) :
    (commaParts segs).length = segs.count (.char ',') + 1 := by
  induction segs with
  | nil => rfl
  | cons seg segs ih =>
    rcases commaParts_cases seg segs with ⟨rfl, h⟩ | ⟨hseg, part, parts, hparts, h⟩
    · rw [h, List.length_cons, ih, List.count_cons_self]
    · rw [h, List.count_cons_of_ne hseg, ← ih, hparts]
      rfl

theorem comma_not_mem_of_mem_commaParts {segs part : List Segment} (hpart : part ∈ commaParts segs) :
    .char ',' ∉ part := by
  induction segs generalizing part with
  | nil =>
    rw [List.mem_singleton.1 hpart]
    exact List.not_mem_nil
  | cons seg segs ih =>
    rcases commaParts_cases seg segs with ⟨-, h⟩ | ⟨hseg, first, parts, hparts, h⟩
    · rw [h, List.mem_cons] at hpart
      rcases hpart with rfl | hpart
      · exact List.not_mem_nil
      · exact ih hpart
    · rw [hparts] at ih
      rw [h, List.mem_cons] at hpart
      rcases hpart with rfl | hpart
      · rw [List.mem_cons, not_or]
        exact ⟨Ne.symm hseg, ih List.mem_cons_self⟩
      · exact ih (List.mem_cons_of_mem _ hpart)

theorem intercalate_commaParts (segs : List Segment) :
    [','].intercalate ((commaParts segs).map texts) = texts segs := by
  induction segs with
  | nil => rfl
  | cons seg segs ih =>
    rcases commaParts_cases seg segs with ⟨rfl, h⟩ | ⟨-, part, parts, hparts, h⟩
    · have hne : (commaParts segs).map texts ≠ [] := by simpa using commaParts_ne_nil segs
      rw [h, List.map_cons, List.intercalate_cons_of_ne_nil hne, ih]
      rfl
    · rw [h, texts_cons, ← ih, hparts]
      cases parts with
      | nil => simp
      | cons part' parts => simp [List.intercalate_cons_cons]

/-- Splitting the segments of a list at its commas gives its parts. -/
theorem listParts_commaParts {segs : List Segment} (hv : AllValid segs)
    (h : Text.isAllBlank (texts segs) = false) :
    ListParts (texts segs) ((commaParts segs).map texts) where
  length := by
    rw [List.length_map, length_commaParts, listLength, h, topCommas_texts hv]
    rfl
  joined _ := intercalate_commaParts segs
  nested part hpart := by
    obtain ⟨segs', hsegs', rfl⟩ := List.mem_map.1 hpart
    exact nested_texts (hv.part hsegs')
  noComma part hpart := by
    obtain ⟨segs', hsegs', rfl⟩ := List.mem_map.1 hpart
    rw [topCommas_texts (hv.part hsegs')]
    exact List.count_eq_zero.2 (comma_not_mem_of_mem_commaParts hsegs')

theorem listParts_blank {list : List Char} (h : Text.isAllBlank list = true) : ListParts list [] where
  length := by rw [listLength, h]; rfl
  joined h' := by rw [h] at h'; cases h'
  nested _ hpart := by cases hpart
  noComma _ hpart := by cases hpart

/-! ## Blanks -/

theorem isAllBlank_append (s t : List Char) :
    Text.isAllBlank (s ++ t) = (Text.isAllBlank s && Text.isAllBlank t) :=
  List.all_append

theorem isAllBlank_shown {n : Nat} {seg : Segment} (hv : seg.Valid) :
    Text.isAllBlank (seg.shown n) = Text.isAllBlank seg.text := by
  cases seg with
  | char c =>
    rw [shown]
    split
    · next hc =>
      have hnot : Text.isBlank c = false := by
        simp only [isEscaped, Bool.or_eq_true, decide_eq_true_eq] at hc
        rcases hc with (rfl | rfl) | rfl <;> decide
      simp [Text.isAllBlank, Segment.text, hnot]
    · rfl
  | group o c s =>
    have hnot := isBlank_of_isBracket (isBracket_of_closer hv.1).1
    have hbracket : Text.isBlank '[' = false := by decide
    simp [Text.isAllBlank, shown, placeholder, Segment.text, hnot, hbracket]

/-- The hidden text is blank where the text is. -/
theorem isAllBlank_covered {segs : List Segment} (hv : AllValid segs) (n : Nat) :
    Text.isAllBlank (covered n segs) = Text.isAllBlank (texts segs) := by
  induction segs generalizing n with
  | nil => rfl
  | cons seg segs ih =>
    have ih := ih hv.tail
    rw [covered, texts_cons, isAllBlank_append, isAllBlank_append, ih,
      isAllBlank_shown (hv seg List.mem_cons_self)]

/-! ## Without blanks -/

/-- The characters of a text that are not blank. -/
def Text.solid (text : List Char) : List Char :=
  text.filter fun c => !Text.isBlank c

theorem Text.solid_append (s t : List Char) : Text.solid (s ++ t) = Text.solid s ++ Text.solid t :=
  List.filter_append s t

theorem Text.solid_of_blank {z : List Char} (hz : ∀ c ∈ z, Text.isBlank c = true) :
    Text.solid z = [] := by
  rw [Text.solid, List.filter_eq_nil_iff]
  intro c hc
  simp [hz c hc]

theorem Text.solid_cons {c : Char} (hc : Text.isBlank c = false) (s : List Char) :
    Text.solid (c :: s) = c :: Text.solid s :=
  List.filter_cons_of_pos (by simp [hc])

theorem Text.solid_cons_blank {c : Char} (hc : Text.isBlank c = true) (s : List Char) :
    Text.solid (c :: s) = Text.solid s :=
  List.filter_cons_of_neg (by simp [hc])

theorem Text.isAllBlank_solid (s : List Char) : Text.isAllBlank (Text.solid s) = Text.isAllBlank s := by
  induction s with
  | nil => rfl
  | cons c s ih =>
    cases hc : Text.isBlank c with
    | true =>
      rw [Text.solid_cons_blank hc, ih, Text.isAllBlank, Text.isAllBlank, List.all_cons, hc,
        Bool.true_and]
    | false =>
      rw [Text.solid_cons hc, Text.isAllBlank, Text.isAllBlank, List.all_cons, List.all_cons, hc,
        Bool.false_and, Bool.false_and]

theorem Nested.solid {s : List Char} (h : Nested s) : Nested (Text.solid s) :=
  h.filter fun _ hc => by rw [isBlank_of_isBracket hc]; rfl

theorem topCommasFrom_solid (depth : Nat) (s : List Char) :
    topCommasFrom depth (Text.solid s) = topCommasFrom depth s := by
  induction s generalizing depth with
  | nil => rfl
  | cons c s ih =>
    cases hc : Text.isBlank c with
    | true =>
      have hcomma : c ≠ ',' := by
        rintro rfl
        exact absurd hc (by decide)
      rw [Text.solid_cons_blank hc, ih, topCommasFrom_char (isBracket_of_isBlank hc),
        if_neg fun h => hcomma h.1, Nat.add_zero]
    | false => simp only [Text.solid_cons hc, topCommasFrom, ih]

theorem listLength_solid (s : List Char) : listLength (Text.solid s) = listLength s := by
  rw [listLength, listLength, Text.isAllBlank_solid, topCommas, topCommas, topCommasFrom_solid]

theorem Text.solid_intercalate (parts : List (List Char)) :
    Text.solid ([','].intercalate parts) = [','].intercalate (parts.map Text.solid) := by
  induction parts with
  | nil => rfl
  | cons part parts ih =>
    cases parts with
    | nil => simp
    | cons part' parts =>
      rw [List.intercalate_cons_cons, Text.solid_append, Text.solid_append, ih, List.map_cons,
        List.map_cons, List.map_cons, List.intercalate_cons_cons]
      rfl

/-- Without blanks, a list has the same parts. -/
theorem ListParts.solid {list : List Char} {parts : List (List Char)} (h : ListParts list parts) :
    ListParts (Text.solid list) (parts.map Text.solid) where
  length := by rw [List.length_map, listLength_solid, h.length]
  joined hblank := by
    rw [Text.isAllBlank_solid] at hblank
    rw [← Text.solid_intercalate, h.joined hblank]
  nested _ hsolid := by
    obtain ⟨part, hpart, rfl⟩ := List.mem_map.1 hsolid
    exact (h.nested part hpart).solid
  noComma _ hsolid := by
    obtain ⟨part, hpart, rfl⟩ := List.mem_map.1 hsolid
    rw [topCommas, topCommasFrom_solid]
    exact h.noComma part hpart

end Formula
