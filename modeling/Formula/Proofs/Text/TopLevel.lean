import Formula.Proofs.Text.Hiding
import Mathlib.Data.List.Pairwise

/-!
# Top-level groups

A group of a text is a pair of brackets that belong together, with tracked brackets that nest between them;
it is a top-level group when it lies in no other one. Hiding finds exactly these
(`Grouping.hide?_topLevel`). The reason is that groups never cross: a count of the brackets that are open is
never negative in a text that nests, and it is positive wherever a group is cut (`exists_enclosing`).
-/

set_option autoImplicit false

namespace Formula

open Segment

namespace Grouping

/-- A bracket and its closing one, with tracked brackets that nest between them. -/
def Encloses (g : Grouping) (w : List Char) : Prop :=
  ∃ opener closer inside, w = opener :: (inside ++ [closer]) ∧ g.closer? opener = some closer ∧
    g.Nests inside

/-- The token is a group of the text at its place. -/
structure IsGroup (g : Grouping) (text : List Char) (token : Token) : Prop where
  place : ∃ front back, text = front ++ token.text ++ back ∧ Text.byteSize front = token.index
  enclosed : g.Encloses token.text

/-- The token is a group of the text, and no other group of the text contains it. -/
structure IsTopLevel (g : Grouping) (text : List Char) (token : Token) : Prop where
  group : g.IsGroup text token
  maximal : ∀ outer, g.IsGroup text outer → outer.index ≤ token.index → token.stop ≤ outer.stop →
    outer = token

/-! ## Groups do not cross -/

/-- How many more groups are opened than closed. -/
def opened (g : Grouping) : List Char → Int
  | [] => 0
  | c :: cs => (if (g.closer? c).isSome then 1 else if g.isCloser c then -1 else 0) + g.opened cs

variable {g : Grouping} {s t u w front back rest : List Char} {o c : Char} {token : Token}

@[simp] theorem opened_nil : g.opened [] = 0 := rfl

theorem opened_append (s t : List Char) : g.opened (s ++ t) = g.opened s + g.opened t := by
  induction s with
  | nil => simp
  | cons c s ih => rw [List.cons_append, opened, opened, ih, Int.add_assoc]

theorem opened_untracked (hc : g.tracks c = false) (s : List Char) :
    g.opened (c :: s) = g.opened s := by
  obtain ⟨hopen, hclose⟩ := tracks_eq_false_iff.1 hc
  simp [opened, hopen, hclose]

theorem opened_opener (hoc : g.closer? o = some c) (s : List Char) :
    g.opened (o :: s) = 1 + g.opened s := by
  simp [opened, hoc]

theorem opened_closer (hoc : g.closer? o = some c) (s : List Char) :
    g.opened (c :: s) = -1 + g.opened s := by
  obtain ⟨hopen, hclose, -, -⟩ := closer_of_closer? hoc
  simp [opened, hopen, hclose]

theorem Nests.opened_eq_zero (hs : g.Nests s) : g.opened s = 0 := by
  induction hs with
  | nil => rfl
  | char hc _ ih => rw [opened_untracked hc, ih]
  | group hoc _ _ ihs iht =>
    rw [opened_opener hoc, opened_append, opened_closer hoc, ihs, iht]
    rfl

/-- No more groups are closed than were opened before. -/
theorem Nests.opened_nonneg (hs : g.Nests s) (h : t <+: s) : 0 ≤ g.opened t := by
  induction hs generalizing t with
  | nil =>
    rw [List.prefix_nil.1 h]
    exact Int.le_refl 0
  | char hc _ ih =>
    rcases List.prefix_cons_iff.1 h with rfl | ⟨t, rfl, ht⟩
    · exact Int.le_refl 0
    · rw [opened_untracked hc]
      exact ih ht
  | @group o c inside after hoc hinside _ ihs iht =>
    rcases List.prefix_cons_iff.1 h with rfl | ⟨t, rfl, r, ht⟩
    · exact Int.le_refl 0
    rw [opened_opener hoc]
    -- The prefix ends in the group, or after it.
    rcases List.append_eq_append_iff.1 ht with ⟨r, hr, -⟩ | ⟨t, rfl, hr⟩
    · have := ihs ⟨r, hr.symm⟩
      omega
    · rw [opened_append, hinside.opened_eq_zero]
      rcases List.prefix_cons_iff.1 ⟨r, hr.symm⟩ with rfl | ⟨t, rfl, hafter⟩
      · rw [opened_nil]
        decide
      · have := iht hafter
        rw [opened_closer hoc]
        omega

theorem Encloses.nests (hw : g.Encloses w) : g.Nests w := by
  obtain ⟨o, c, s, rfl, hoc, hs⟩ := hw
  exact .group hoc hs .nil

/-- A group that is cut apart is open where it is cut. -/
theorem Encloses.opened_pos (hw : g.Encloses w) (h : w = s ++ t) (hs : s ≠ []) (ht : t ≠ []) :
    0 < g.opened s := by
  obtain ⟨o, c, inside, rfl, hoc, hinside⟩ := hw
  rcases List.cons_eq_append_iff.1 h with ⟨rfl, -⟩ | ⟨s, rfl, hst⟩
  · exact absurd rfl hs
  have hprefix : s <+: inside := by
    rcases List.prefix_concat_iff.1 ⟨t, hst.symm⟩ with rfl | hprefix
    · exact absurd (List.append_right_eq_self.1 hst.symm) ht
    · exact hprefix
  have := hinside.opened_nonneg hprefix
  rw [opened_opener hoc]
  omega

/-- A group that does not begin after another one lies in it. -/
theorem Encloses.within (hu : g.Encloses u) (hw : g.Encloses w) (h : u ++ rest = front ++ (w ++ back)) :
    (∃ front', front = u ++ front' ∧ rest = front' ++ (w ++ back)) ∨
      front ++ w <+: u := by
  rcases List.append_eq_append_iff.1 h with hafter | ⟨s, hs, hwrest⟩
  · exact .inl hafter
  rcases List.append_eq_append_iff.1 hwrest with ⟨r, rfl, -⟩ | ⟨r, hr, hrest⟩
  · exact .inr ⟨r, by rw [hs, List.append_assoc]⟩
  rcases eq_or_ne s [] with rfl | hne
  · exact .inl ⟨[], by simpa using hs.symm, by simpa using hwrest.symm⟩
  rcases eq_or_ne r [] with rfl | hne'
  · exact .inr ⟨[], by rw [hr, hs, List.append_nil, List.append_nil]⟩
  -- Between the two ends the one group would be closed and the other open.
  have hopen := hw.opened_pos hr hne hne'
  have hfront := hu.nests.opened_nonneg ⟨s, hs.symm⟩
  have hzero := hu.nests.opened_eq_zero
  rw [hs, opened_append] at hzero
  omega

/-- Every group of a text lies in one of the groups that its segments are made of. -/
theorem exists_enclosing {segs : List Segment} (hv : AllValidIn g segs) (hw : g.Encloses w)
    (h : texts segs = front ++ (w ++ back)) (offset : Nat) :
    ∃ token ∈ groups offset segs, token.index ≤ offset + Text.byteSize front ∧
      offset + Text.byteSize (front ++ w) ≤ token.stop := by
  induction segs generalizing front offset with
  | nil =>
    obtain ⟨o, c, s, rfl, -⟩ := hw
    simp at h
  | cons seg segs ih =>
    have hseg := hv seg List.mem_cons_self
    -- Where the group begins after the segment, it lies in a later one.
    have hlater : ∀ front', front = seg.text ++ front' → texts segs = front' ++ (w ++ back) →
        ∃ token ∈ groups (offset + Text.byteSize seg.text) segs,
          token.index ≤ offset + Text.byteSize front ∧
          offset + Text.byteSize (front ++ w) ≤ token.stop := by
      rintro front' rfl h'
      rw [List.append_assoc, Text.byteSize_append, Text.byteSize_append, ← Nat.add_assoc,
        ← Nat.add_assoc]
      exact ih hv.tail h' _
    cases seg with
    | char d =>
      rcases List.cons_eq_append_iff.1 h with ⟨-, hstart⟩ | ⟨front', rfl, hrest⟩
      · obtain ⟨o, c, s, rfl, hoc, -⟩ := hw
        rw [ValidIn, ← (List.cons.inj hstart).1, tracks, hoc] at hseg
        cases hseg
      · exact hlater front' rfl hrest
    | group o c s =>
      rw [texts_cons] at h
      rcases Encloses.within ⟨o, c, s, rfl, hseg⟩ hw h with ⟨front', hfront, h'⟩ | ⟨r, hr⟩
      · obtain ⟨token, htoken, hin⟩ := hlater front' hfront h'
        exact ⟨token, List.mem_cons_of_mem _ htoken, hin⟩
      · refine ⟨_, List.mem_cons_self, Nat.le_add_right _ _, ?_⟩
        rw [Token.stop, Segment.text, ← hr, Text.byteSize_append (front ++ w)]
        dsimp only
        omega

/-! ## The groups that segments are made of -/

section

variable {segs : List Segment} {offset : Nat}

theorem isGroup_of_mem (hv : AllValidIn g segs) (h : token ∈ groups offset segs) :
    g.Encloses token.text ∧ ∃ front back, texts segs = front ++ token.text ++ back ∧
      offset + Text.byteSize front = token.index := by
  induction segs generalizing offset with
  | nil => cases h
  | cons seg segs ih =>
    have hseg := hv seg List.mem_cons_self
    -- A group of a later segment has this one in front of it.
    have hlater : token ∈ groups (offset + Text.byteSize seg.text) segs →
        g.Encloses token.text ∧ ∃ front back, texts (seg :: segs) = front ++ token.text ++ back ∧
          offset + Text.byteSize front = token.index := by
      intro h
      obtain ⟨hw, front, back, htext, hindex⟩ := ih hv.tail h
      refine ⟨hw, seg.text ++ front, back, ?_, ?_⟩
      · rw [texts_cons, htext, List.append_assoc, List.append_assoc, List.append_assoc]
      · rw [Text.byteSize_append, ← Nat.add_assoc, hindex]
    cases seg with
    | char d => exact hlater h
    | group o c s =>
      rcases List.mem_cons.1 h with rfl | h
      · exact ⟨⟨o, c, s, rfl, hseg⟩, [], texts segs, rfl, rfl⟩
      · exact hlater h

theorem offset_le_of_mem (h : token ∈ groups offset segs) : offset ≤ token.index := by
  induction segs generalizing offset with
  | nil => cases h
  | cons seg segs ih =>
    cases seg with
    | char d => exact (Nat.le_add_right _ _).trans (ih h)
    | group o c s =>
      rcases List.mem_cons.1 h with rfl | h
      · exact Nat.le_refl _
      · exact (Nat.le_add_right _ _).trans (ih h)

/-- The groups stand one after the other. -/
theorem pairwise_groups (segs : List Segment) (offset : Nat) :
    (groups offset segs).Pairwise fun a b => a.stop ≤ b.index := by
  induction segs generalizing offset with
  | nil => exact .nil
  | cons seg segs ih =>
    cases seg with
    | char d => exact ih _
    | group o c s => exact List.pairwise_cons.2 ⟨fun b hb => offset_le_of_mem hb, ih _⟩

theorem separated_of_mem {other : Token} (h : token ∈ groups offset segs)
    (hother : other ∈ groups offset segs) (hne : token ≠ other) :
    token.stop ≤ other.index ∨ other.stop ≤ token.index := by
  have hsep : (groups offset segs).Pairwise fun a b => a.stop ≤ b.index ∨ b.stop ≤ a.index :=
    (pairwise_groups segs offset).imp Or.inl
  have hsymm : Std.Symm fun a b : Token => a.stop ≤ b.index ∨ b.stop ≤ a.index :=
    ⟨fun _ _ => Or.symm⟩
  exact hsep.forall h hother hne

end

theorem Encloses.byteSize_pos (hw : g.Encloses w) : 0 < Text.byteSize w := by
  obtain ⟨o, c, s, rfl, -⟩ := hw
  exact Text.byteSize_pos (List.cons_ne_nil _ _)

/-- The bytes of the text from the index of a group to its end are the group. -/
theorem IsGroup.slice {text : List Char} (h : g.IsGroup text token) :
    (Text.before? token.stop text).bind (Text.from? token.index) = some token.text := by
  obtain ⟨front, back, rfl, hindex⟩ := h.place
  rw [Token.stop, ← hindex, ← Text.byteSize_append, Text.before?_append, Option.bind_some,
    Text.from?_append]

/-- Two groups at the same place are one. -/
theorem IsGroup.eq {text : List Char} {other : Token} (h : g.IsGroup text token)
    (h' : g.IsGroup text other) (hindex : other.index = token.index) (hstop : other.stop = token.stop) :
    other = token := by
  have htext : other.text = token.text := by
    have hslice := h'.slice
    rw [hstop, hindex, h.slice] at hslice
    exact (Option.some.inj hslice).symm
  obtain ⟨text, index⟩ := other
  cases htext
  cases hindex
  rfl

/-- The groups that segments are made of are the top-level groups of their text. -/
theorem mem_groups_iff {segs : List Segment} (hv : AllValidIn g segs) :
    token ∈ groups 0 segs ↔ g.IsTopLevel (texts segs) token := by
  have hgroup : ∀ {token}, token ∈ groups 0 segs → g.IsGroup (texts segs) token := by
    intro token h
    obtain ⟨hw, front, back, htext, hindex⟩ := isGroup_of_mem hv h
    exact ⟨⟨front, back, htext, by rw [← hindex, Nat.zero_add]⟩, hw⟩
  have houter : ∀ {token}, g.IsGroup (texts segs) token →
      ∃ outer ∈ groups 0 segs, outer.index ≤ token.index ∧ token.stop ≤ outer.stop := by
    intro token h
    obtain ⟨front, back, htext, hindex⟩ := h.place
    obtain ⟨outer, houter, hle, hstop⟩ :=
      exists_enclosing hv h.enclosed (htext.trans (List.append_assoc _ _ _)) 0
    rw [Nat.zero_add] at hle hstop
    refine ⟨outer, houter, hindex ▸ hle, ?_⟩
    rwa [Token.stop, ← hindex, ← Text.byteSize_append]
  constructor
  · intro h
    refine ⟨hgroup h, fun other hother hindex hstop => ?_⟩
    -- What contains the group lies in a group of the segments, which can be no other one.
    obtain ⟨outer, houter, hindex', hstop'⟩ := houter hother
    obtain rfl : token = outer := by
      by_contra hne
      have hpos := (hgroup h).enclosed.byteSize_pos
      have hsep := separated_of_mem h houter hne
      simp only [Token.stop] at *
      omega
    exact (hgroup h).eq hother (by omega) (by omega)
  · intro h
    obtain ⟨outer, houter, hindex, hstop⟩ := houter h.group
    exact h.maximal outer (hgroup houter) hindex hstop ▸ houter

/-- **Hiding finds the top-level groups.** It succeeds exactly on texts whose tracked brackets nest. The
groups are then those that lie in no other one, from left to right, and what stands for them in the hidden
text is told segment by segment: the `n`-th is replaced by its placeholder, and a character that is taken
for a part of one is escaped. -/
theorem hide?_topLevel (g : Grouping) (text : List Char) :
    ((hide? g text).isSome = true ↔ g.Nests text) ∧ ∀ h, hide? g text = some h →
      (∀ token, token ∈ h.groups ↔ g.IsTopLevel text token) ∧
      h.groups.Pairwise (fun a b => a.stop ≤ b.index) ∧
      (∀ token ∈ h.groups,
        (Text.before? token.stop text).bind (Text.from? token.index) = some token.text) ∧
      ∃ segs, AllValidIn g segs ∧ texts segs = text ∧ groups 0 segs = h.groups ∧
        covered 0 segs = h.text := by
  refine ⟨isSome_hide?, fun h hh => ?_⟩
  obtain ⟨segs, hv, rfl, rfl⟩ := hide?_eq_some.1 hh
  refine ⟨fun token => mem_groups_iff hv, pairwise_groups segs 0, fun token htoken => ?_, segs, hv,
    rfl, rfl, rfl⟩
  exact ((mem_groups_iff hv).1 htoken).group.slice

/-- Square brackets are characters where only parentheses are hidden. -/
theorem hide?_topLevel_escaped :
    hide? .parentheses ['[', '1', ']', '*', '(', '[', ')'] =
      some ⟨['\\', '[', '1', '\\', ']', '*', '[', '0', ']'], [⟨['(', '[', ')'], 4⟩]⟩ ∧
    Grouping.parentheses.IsTopLevel ['[', '1', ']', '*', '(', '[', ')'] ⟨['(', '[', ')'], 4⟩ :=
  have h : hide? .parentheses ['[', '1', ']', '*', '(', '[', ')'] =
      some ⟨['\\', '[', '1', '\\', ']', '*', '[', '0', ']'], [⟨['(', '[', ')'], 4⟩]⟩ := by decide
  ⟨h, (((hide?_topLevel _ _).2 _ h).1 _).1 List.mem_cons_self⟩

end Grouping

end Formula
