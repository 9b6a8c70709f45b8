import Formula.Proofs.Text.Segments

/-!
# Which texts are hidden

A grouping tracks some of the brackets. If these nest properly (`Grouping.Nests`), a text is a list of
segments: characters that are not tracked, and groups. Hiding goes through the segments one by one
(`Hidden.hideFrom_texts`), and a text that it gets through is made of segments (`Hidden.exists_segments`).
So the groups of a text can be hidden exactly when its tracked brackets nest (`Grouping.isSome_hide?`), and
what hiding gives is told by the segments (`Grouping.hide?_eq_some`).
-/

set_option autoImplicit false

namespace Formula

open Segment

namespace Grouping

/-- Whether a character opens or closes a tracked group. -/
def tracks (g : Grouping) (c : Char) : Bool :=
  (g.closer? c).isSome || g.isCloser c

/-- The tracked brackets nest properly. -/
inductive Nests (g : Grouping) : List Char → Prop
  | nil : Nests g []
  | char {c : Char} {s : List Char} : g.tracks c = false → Nests g s → Nests g (c :: s)
  | group {o c : Char} {s t : List Char} : g.closer? o = some c → Nests g s → Nests g t →
      Nests g (o :: (s ++ c :: t))

end Grouping

namespace Segment

/-- Characters are not tracked, and the tracked brackets in groups nest properly. -/
def ValidIn (g : Grouping) : Segment → Prop
  | char c => g.tracks c = false
  | group o c s => g.closer? o = some c ∧ g.Nests s

/-- All segments are valid. -/
def AllValidIn (g : Grouping) (segs : List Segment) : Prop :=
  ∀ seg ∈ segs, seg.ValidIn g

theorem AllValidIn.tail {g : Grouping} {seg : Segment} {segs : List Segment}
    (hv : AllValidIn g (seg :: segs)) : AllValidIn g segs :=
  (List.forall_mem_cons.1 hv).2

end Segment

variable {g : Grouping}

/-! ## Brackets -/

theorem tracks_eq_false_iff {c : Char} :
    g.tracks c = false ↔ g.closer? c = none ∧ g.isCloser c = false := by
  rw [Grouping.tracks, Bool.or_eq_false_iff, Option.isSome_eq_false_iff, Option.isNone_iff_eq_none]

theorem closer_cases {o c : Char} (h : g.closer? o = some c) :
    (o = '(' ∧ c = ')') ∨ (o = '[' ∧ c = ']') := by
  unfold Grouping.closer? at h
  split at h
  · exact .inl ⟨rfl, (Option.some.inj h).symm⟩
  · exact .inr ⟨rfl, (Option.some.inj h).symm⟩
  · cases h

theorem closer_of_closer? {o c : Char} (h : g.closer? o = some c) :
    g.closer? c = none ∧ g.isCloser c = true ∧ o.utf8Size = 1 ∧ c.utf8Size = 1 := by
  cases g with
  | parentheses =>
    rcases closer_cases h with ⟨rfl, rfl⟩ | ⟨rfl, rfl⟩
    · exact ⟨rfl, rfl, rfl, rfl⟩
    · cases h
  | brackets => rcases closer_cases h with ⟨rfl, rfl⟩ | ⟨rfl, rfl⟩ <;> exact ⟨rfl, rfl, rfl, rfl⟩

namespace Grouping.Nests

theorem append {s t : List Char} (hs : g.Nests s) (ht : g.Nests t) : g.Nests (s ++ t) := by
  induction hs with
  | nil => exact ht
  | char hc _ ih => exact .char hc ih
  | @group o c s u hoc hs _ _ ih =>
    rw [List.cons_append, List.append_assoc]
    exact .group hoc hs ih

theorem of_texts {segs : List Segment} (hv : AllValidIn g segs) : g.Nests (texts segs) := by
  induction segs with
  | nil => exact .nil
  | cons seg segs ih =>
    have ih := ih hv.tail
    have hseg := hv seg List.mem_cons_self
    cases seg with
    | char c => exact .char hseg ih
    | group o c s => exact append (.group hseg.1 hseg.2 .nil) ih

theorem exists_segments {text : List Char} (h : g.Nests text) :
    ∃ segs, AllValidIn g segs ∧ text = texts segs := by
  induction h with
  | nil => exact ⟨[], by simp [AllValidIn], rfl⟩
  | @char c s hc _ ih =>
    obtain ⟨segs, hv, rfl⟩ := ih
    exact ⟨.char c :: segs, List.forall_mem_cons.2 ⟨hc, hv⟩, rfl⟩
  | @group o c s t hoc hs _ _ ih =>
    obtain ⟨segs, hv, rfl⟩ := ih
    exact ⟨.group o c s :: segs, List.forall_mem_cons.2 ⟨⟨hoc, hs⟩, hv⟩, by simp [Segment.text]⟩

end Grouping.Nests

/-! ## Hiding the groups -/

namespace Hidden

variable {offset n start : Nat} {group s rest : List Char} {h : Hidden}

/-- A bracket that opens a group inside of another one. -/
theorem hideFrom_open {o c k : Char} {ks : List Char} (hoc : g.closer? o = some c) :
    hideFrom g offset n (k :: ks) start group (o :: rest) =
      hideFrom g (offset + o.utf8Size) n (c :: k :: ks) start (o :: group) rest := by
  rw [hideFrom.eq_def]
  simp only [hoc]

/-- A bracket that closes a group inside of another one. -/
theorem hideFrom_close {o c k : Char} {ks : List Char} (hoc : g.closer? o = some c) :
    hideFrom g offset n (c :: k :: ks) start group (c :: rest) =
      hideFrom g (offset + c.utf8Size) n (k :: ks) start (c :: group) rest := by
  obtain ⟨h1, h2, -, -⟩ := closer_of_closer? hoc
  rw [hideFrom.eq_def]
  simp [h1, h2]

/-- A character inside of a group. -/
theorem hideFrom_inner {c k : Char} {ks : List Char} (hc : g.tracks c = false) :
    hideFrom g offset n (k :: ks) start group (c :: rest) =
      hideFrom g (offset + c.utf8Size) n (k :: ks) start (c :: group) rest := by
  obtain ⟨h1, h2⟩ := tracks_eq_false_iff.1 hc
  rw [hideFrom.eq_def]
  simp [h1, h2]

/-- A stretch in which brackets nest goes to the group that is open. -/
theorem hideFrom_nested {k : Char} {ks : List Char} (hs : g.Nests s) :
    hideFrom g offset n (k :: ks) start group (s ++ rest) =
      hideFrom g (offset + Text.byteSize s) n (k :: ks) start (s.reverse ++ group) rest := by
  induction hs generalizing offset k ks group rest with
  | nil => rfl
  | @char c s hc hs ih =>
    rw [List.cons_append, hideFrom_inner hc, ih]
    simp [Text.byteSize_cons, Nat.add_assoc]
  | @group o c s t hoc hs ht ihs iht =>
    simp only [List.cons_append, List.append_assoc]
    rw [hideFrom_open hoc, ihs, hideFrom_close hoc, iht]
    simp [Text.byteSize_cons, Text.byteSize_append, Nat.add_assoc]

/-- Where a group is open, the text goes on to its end. -/
theorem exists_nested {k : Char} {ks text : List Char}
    (hh : hideFrom g offset n (k :: ks) start group text = some h) :
    ∃ s rest, text = s ++ k :: rest ∧ g.Nests s := by
  induction hlen : text.length using Nat.strongRecOn
    generalizing offset group k ks text with
  | ind len ih =>
    cases text with
    | nil => cases hh
    | cons c text =>
      rw [List.length_cons] at hlen
      cases hopen : g.closer? c with
      | some closer =>
        -- The inner group comes first, then the rest of the outer one.
        rw [hideFrom_open hopen] at hh
        obtain ⟨s, rest, rfl, hs⟩ := ih text.length (by omega) hh rfl
        rw [hideFrom_nested hs, hideFrom_close hopen] at hh
        rw [List.length_append, List.length_cons] at hlen
        obtain ⟨t, rest, rfl, ht⟩ := ih rest.length (by omega) hh rfl
        exact ⟨c :: (s ++ closer :: t), rest, by simp, .group hopen hs ht⟩
      | none =>
        cases hclose : g.isCloser c with
        | true =>
          rw [hideFrom.eq_def] at hh
          simp only [hopen, hclose, if_true] at hh
          by_cases hk : k = c
          · exact ⟨[], text, by rw [hk]; rfl, .nil⟩
          · simp [hk] at hh
        | false =>
          have hc := tracks_eq_false_iff.2 ⟨hopen, hclose⟩
          rw [hideFrom_inner hc] at hh
          obtain ⟨s, rest, rfl, hs⟩ := ih text.length (by omega) hh rfl
          exact ⟨c :: s, rest, rfl, .char hc hs⟩

/-- A character outside of all groups. -/
theorem hideFrom_char {c : Char} (hc : g.tracks c = false) :
    hideFrom g offset n [] start group (c :: rest) =
      (hideFrom g (offset + c.utf8Size) n [] start group rest).map
        (prepend ((Segment.char c).shown n)) := by
  obtain ⟨h1, h2⟩ := tracks_eq_false_iff.1 hc
  rw [hideFrom.eq_def]
  simp [h1, h2, Segment.shown]

/-- A top-level group. -/
theorem hideFrom_group {o c : Char} (hoc : g.closer? o = some c) (hs : g.Nests s) :
    hideFrom g offset n [] start group (o :: (s ++ c :: rest)) =
      (hideFrom g (offset + Text.byteSize (Segment.text (.group o c s))) (n + 1) []
        (offset + Text.byteSize (Segment.text (.group o c s))) [] rest).map
          (prependGroup n ⟨Segment.text (.group o c s), offset⟩) := by
  obtain ⟨h1, h2, ho, hc⟩ := closer_of_closer? hoc
  have hopen : hideFrom g offset n [] start group (o :: (s ++ c :: rest)) =
      hideFrom g (offset + o.utf8Size) n [c] offset [o] (s ++ c :: rest) := by
    rw [hideFrom.eq_def]
    simp only [hoc]
  have hstop : offset + o.utf8Size + Text.byteSize s + c.utf8Size =
      offset + Text.byteSize (Segment.text (.group o c s)) := by
    simp [Segment.text, Text.byteSize_cons, Text.byteSize_append, Nat.add_assoc]
  rw [hopen, hideFrom_nested hs, hideFrom.eq_def]
  simp only [h1, h2, if_true, ne_eq, not_true_eq_false, if_false]
  rw [hstop]
  simp [Segment.text]

/-- The groups of a text are hidden segment by segment. -/
theorem hideFrom_texts {segs : List Segment} (hv : AllValidIn g segs) (offset n start : Nat)
    (group : List Char) :
    hideFrom g offset n [] start group (texts segs) =
      some ⟨covered n segs, Segment.groups offset segs⟩ := by
  induction segs generalizing offset n start group with
  | nil => rw [texts_nil, hideFrom]; rfl
  | cons seg segs ih =>
    have ih := ih hv.tail
    have hseg := hv seg List.mem_cons_self
    cases seg with
    | char c =>
      rw [texts_cons, Segment.text, List.singleton_append, hideFrom_char hseg, ih]
      rfl
    | group o c s =>
      have htext : texts (.group o c s :: segs) = o :: (s ++ c :: texts segs) := by
        simp [Segment.text]
      rw [htext, hideFrom_group hseg.1 hseg.2, ih]
      rfl

/-- A text whose groups can be hidden is the text of segments. -/
theorem exists_segments {text : List Char}
    (hh : hideFrom g offset n [] start group text = some h) :
    ∃ segs, AllValidIn g segs ∧ text = texts segs := by
  induction hlen : text.length using Nat.strongRecOn
    generalizing offset n start group text h with
  | ind len ih =>
    cases text with
    | nil => exact ⟨[], by simp [AllValidIn], rfl⟩
    | cons c text =>
      rw [List.length_cons] at hlen
      cases hopen : g.closer? c with
      | some closer =>
        have hin : hideFrom g (offset + c.utf8Size) n [closer] offset [c] text = some h := by
          rw [hideFrom.eq_def] at hh
          simpa only [hopen] using hh
        obtain ⟨s, rest, rfl, hs⟩ := exists_nested hin
        rw [hideFrom_group hopen hs] at hh
        obtain ⟨h', hrest, -⟩ := Option.map_eq_some_iff.1 hh
        rw [List.length_append, List.length_cons] at hlen
        obtain ⟨segs, hv, rfl⟩ := ih rest.length (by omega) hrest rfl
        exact ⟨.group c closer s :: segs, List.forall_mem_cons.2 ⟨⟨hopen, hs⟩, hv⟩,
          by simp [Segment.text]⟩
      | none =>
        cases hclose : g.isCloser c with
        | true =>
          rw [hideFrom.eq_def] at hh
          simp [hopen, hclose] at hh
        | false =>
          have hc := tracks_eq_false_iff.2 ⟨hopen, hclose⟩
          rw [hideFrom_char hc] at hh
          obtain ⟨h', hrest, -⟩ := Option.map_eq_some_iff.1 hh
          obtain ⟨segs, hv, rfl⟩ := ih text.length (by omega) hrest rfl
          exact ⟨.char c :: segs, List.forall_mem_cons.2 ⟨hc, hv⟩, rfl⟩

end Hidden

namespace Grouping

/-- A text has hidden groups when it is the text of segments. -/
theorem hide?_eq_some {text : List Char} {h : Hidden} : hide? g text = some h ↔
    ∃ segs, AllValidIn g segs ∧ text = texts segs ∧ h = ⟨covered 0 segs, Segment.groups 0 segs⟩ := by
  constructor
  · intro hh
    obtain ⟨segs, hv, rfl⟩ := Hidden.exists_segments hh
    rw [hide?, Hidden.hideFrom_texts hv] at hh
    exact ⟨segs, hv, rfl, (Option.some.inj hh).symm⟩
  · rintro ⟨segs, hv, rfl, rfl⟩
    exact Hidden.hideFrom_texts hv 0 0 0 []

/-- The groups of a text can be hidden exactly when its tracked brackets nest. -/
theorem isSome_hide? {text : List Char} : (hide? g text).isSome = true ↔ g.Nests text := by
  rw [Option.isSome_iff_exists]
  constructor
  · rintro ⟨h, hh⟩
    obtain ⟨segs, hv, rfl, -⟩ := hide?_eq_some.1 hh
    exact .of_texts hv
  · intro h
    obtain ⟨segs, hv, rfl⟩ := h.exists_segments
    exact ⟨_, hide?_eq_some.2 ⟨segs, hv, rfl, rfl⟩⟩

end Grouping

end Formula
