import Formula.Proofs.Text.Hiding

/-!
# Hiding is reversible

A hidden text may be cut at every byte where a character begins, but inside of a placeholder or between a
backslash and the character it escapes (`Hidden.CutsAt`). These are the cuts between segments
(`Hidden.cutsAt_iff`), so that the two sides of a cut are restored apart from each other, and the place of
the cut is mapped back to where they meet (`Hidden.hide?_reversible`).
-/

set_option autoImplicit false

namespace Formula

open Segment

/-- Whether a text ends between a backslash and the character it escapes. -/
def endsInEscape : List Char → Bool
  | [] => false
  | ['\\'] => true
  | '\\' :: _ :: cs => endsInEscape cs
  | _ :: cs => endsInEscape cs

/-- A cut of the hidden text at a byte, in no placeholder and in no escape. -/
structure Hidden.CutsAt (h : Hidden) (index : Nat) (front back : List Char) : Prop where
  split : Text.splitAt? index h.text = some (front, back)
  placeholders : ∀ before n after, h.text = before ++ placeholder n ++ after → n < h.groups.length →
    index ≤ Text.byteSize before ∨ Text.byteSize (before ++ placeholder n) ≤ index
  escapes : endsInEscape front = false

/-! ## Escapes -/

theorem endsInEscape_cons {c : Char} (hc : c ≠ '\\') (cs : List Char) :
    endsInEscape (c :: cs) = endsInEscape cs := by
  cases cs <;> simp [endsInEscape, hc]

theorem endsInEscape_append {s : List Char} (hs : '\\' ∉ s) (cs : List Char) :
    endsInEscape (s ++ cs) = endsInEscape cs := by
  induction s with
  | nil => rfl
  | cons c s ih =>
    rw [List.mem_cons, not_or] at hs
    rw [List.cons_append, endsInEscape_cons (Ne.symm hs.1), ih hs.2]

theorem backslash_not_mem_placeholder (n : Nat) : '\\' ∉ placeholder n := by
  rw [placeholder, List.mem_cons, List.mem_append, List.mem_singleton]
  rintro (h | h | h)
  · cases h
  · exact absurd (isDigit_toDigits n _ h) (by decide)
  · cases h

/-- What stands for a segment ends in no escape. -/
theorem endsInEscape_shown (n : Nat) (seg : Segment) (cs : List Char) :
    endsInEscape (seg.shown n ++ cs) = endsInEscape cs := by
  cases seg with
  | char c =>
    rw [shown]
    split
    · rfl
    · next hc => exact endsInEscape_cons (ne_of_not_isEscaped (Bool.not_eq_true _ ▸ hc)).2 cs
  | group o c s => exact endsInEscape_append (backslash_not_mem_placeholder n) cs

theorem endsInEscape_covered (n : Nat) (segs : List Segment) :
    endsInEscape (covered n segs) = false := by
  induction segs generalizing n with
  | nil => rfl
  | cons seg segs ih => rw [covered, endsInEscape_shown, ih]

/-! ## Placeholders -/

/-- No hidden text begins with what is left of a placeholder after its opening bracket. -/
theorem covered_ne_digits {n : Nat} {segs : List Segment} {ds after : List Char}
    (hds : ∀ d ∈ ds, d.isDigit = true) : covered n segs ≠ ds ++ ']' :: after := by
  intro h
  induction segs generalizing n ds with
  | nil => simp [covered] at h
  | cons seg segs ih =>
    -- What stands for the segment begins with a digit or with the bracket.
    have hhead : ∀ c cs, seg.shown n = c :: cs → c.isDigit = true ∨ c = ']' := by
      intro c cs hshown
      rw [covered, hshown, List.cons_append] at h
      rcases List.cons_eq_append_iff.1 h with ⟨-, hclose⟩ | ⟨ds', rfl, -⟩
      · exact .inr (List.cons.inj hclose).1.symm
      · exact .inl (hds c List.mem_cons_self)
    cases seg with
    | char c =>
      rw [shown] at hhead
      split at hhead
      · exact absurd (hhead _ _ rfl) (by decide)
      · next hc =>
        rcases hhead _ _ rfl with hdigit | rfl
        · cases ds with
          | nil =>
            rw [covered, shown, if_neg hc] at h
            exact hc (by rw [(List.cons.inj h).1]; rfl)
          | cons d ds =>
            rw [covered, shown, if_neg hc] at h
            exact ih (fun d hd => hds d (List.mem_cons_of_mem _ hd)) (List.cons.inj h).2
        · exact hc rfl
    | group o c s => exact absurd (hhead _ _ rfl) (by decide)

theorem placeholder_append_inj {m n : Nat} {s t : List Char}
    (h : placeholder m ++ s = placeholder n ++ t) : m = n := by
  have hm := placeholderNumber?_eq m s
  have hn := placeholderNumber?_eq n t
  simp only [placeholder, List.cons_append, List.append_assoc, List.nil_append, List.cons.injEq,
    true_and] at h
  rw [h, hn] at hm
  exact (congrArg Prod.fst (Option.some.inj hm)).symm

theorem bracket_not_mem_digits (n : Nat) : '[' ∉ Nat.toDigits 10 n ++ [']'] := by
  rw [List.mem_append, List.mem_singleton]
  rintro (h | h)
  · exact absurd (isDigit_toDigits n _ h) (by decide)
  · cases h

/-- A placeholder in the hidden text stands for a group. -/
theorem exists_group_of_placeholder {n m : Nat} {segs : List Segment} {before after : List Char}
    (h : covered n segs = before ++ (placeholder m ++ after)) :
    ∃ left o c s right, segs = left ++ group o c s :: right ∧ before = covered n left ∧
      m = n + count left := by
  induction segs generalizing n before with
  | nil => simp [covered, placeholder] at h
  | cons seg segs ih =>
    have hlater : ∀ before', before = seg.shown n ++ before' →
        covered (n + count [seg]) segs = before' ++ (placeholder m ++ after) →
        ∃ left o c s right, seg :: segs = left ++ group o c s :: right ∧ before = covered n left ∧
          m = n + count left := by
      rintro before' rfl hbefore
      obtain ⟨left, o, c, s, right, rfl, rfl, rfl⟩ := ih hbefore
      exact ⟨seg :: left, o, c, s, right, rfl, rfl, by rw [count_cons seg left, Nat.add_assoc]⟩
    rw [covered] at h
    rcases List.append_eq_append_iff.1 h with ⟨before', hbefore, hrest⟩ | ⟨r, hr, hrest⟩
    · exact hlater before' hbefore hrest
    cases r with
    | nil => exact hlater [] (by simpa using hr.symm) (by simpa using hrest.symm)
    | cons d r =>
      -- The placeholder begins in what stands for the segment.
      obtain rfl : '[' = d := (List.cons.inj hrest).1
      cases seg with
      | char c =>
        rw [shown] at hr
        split at hr
        · rcases List.cons_eq_append_iff.1 hr with ⟨-, hstart⟩ | ⟨before', -, hescape⟩
          · cases (List.cons.inj hstart).1
          · obtain ⟨-, hstart⟩ : before' = [] ∧ '[' :: r = [c] := by
              simpa using List.append_eq_singleton_iff.1 hescape.symm
            obtain rfl := (List.cons.inj hstart).2
            have hdigits : covered (n + count [char c]) segs = Nat.toDigits 10 m ++ ']' :: after := by
              simpa [placeholder] using (List.cons.inj hrest).2.symm
            exact absurd hdigits (covered_ne_digits (isDigit_toDigits m))
        · next hc =>
          obtain ⟨-, hstart⟩ : before = [] ∧ '[' :: r = [c] := by
            simpa using List.append_eq_singleton_iff.1 hr.symm
          exact absurd (by rw [← (List.cons.inj hstart).1]; rfl) hc
      | group o c s =>
        rcases List.cons_eq_append_iff.1 hr with ⟨rfl, -⟩ | ⟨before', -, hnumber⟩
        · exact ⟨[], o, c, s, segs, rfl, rfl, (placeholder_append_inj h).symm⟩
        · exact absurd (hnumber ▸ List.mem_append_right _ List.mem_cons_self) (bracket_not_mem_digits n)

/-! ## Cuts between segments -/

variable {h : Hidden} {segs : List Segment} {index n total : Nat} {front back : List Char}

/-- What stands for one segment can be cut apart only in an escape or in a placeholder. -/
theorem endsInEscape_or_placeholder {seg : Segment} (h : seg.shown n = front ++ back)
    (hfront : front ≠ []) (hback : back ≠ []) :
    endsInEscape front = true ∨ placeholder n = front ++ back ∧ count [seg] = 1 := by
  cases seg with
  | char c =>
    obtain ⟨d, front, rfl⟩ := List.exists_cons_of_ne_nil hfront
    rw [shown] at h
    split at h
    · obtain ⟨rfl, hrest⟩ := List.cons.inj h
      rcases List.append_eq_singleton_iff.1 hrest.symm with ⟨rfl, -⟩ | ⟨-, rfl⟩
      · exact .inl rfl
      · exact absurd rfl hback
    · exact absurd (List.append_eq_nil_iff.1 (List.cons.inj h).2.symm).2 hback
  | group o c s => exact .inr ⟨h, rfl⟩

/-- A cut in no placeholder and in no escape is between segments. -/
theorem exists_segments_of_cut (hsplit : covered n segs = front ++ back)
    (hcount : n + count segs ≤ total)
    (hplaceholders : ∀ before m after, covered n segs = before ++ placeholder m ++ after → m < total →
      Text.byteSize front ≤ Text.byteSize before ∨
        Text.byteSize (before ++ placeholder m) ≤ Text.byteSize front)
    (hescapes : endsInEscape front = false) :
    ∃ left right, segs = left ++ right ∧ front = covered n left := by
  induction segs generalizing n front with
  | nil => exact ⟨[], [], rfl, (List.append_eq_nil_iff.1 hsplit.symm).1⟩
  | cons seg segs ih =>
    rcases eq_or_ne front [] with rfl | hfront
    · exact ⟨[], seg :: segs, rfl, rfl⟩
    rw [count_cons, ← Nat.add_assoc] at hcount
    -- After the segment, the cut is one of the other segments.
    have hlater : ∀ front', front = seg.shown n ++ front' →
        covered (n + count [seg]) segs = front' ++ back →
        ∃ left right, seg :: segs = left ++ right ∧ front = covered n left := by
      rintro front' rfl hrest
      rw [endsInEscape_shown] at hescapes
      obtain ⟨left, right, rfl, rfl⟩ := ih hrest hcount (fun before m after hbefore hm => by
        have := hplaceholders (seg.shown n ++ before) m after (by simp [covered, hbefore]) hm
        simp only [Text.byteSize_append] at this ⊢
        omega) hescapes
      exact ⟨seg :: left, right, rfl, rfl⟩
    have hsplit' := hsplit
    rw [covered] at hsplit'
    rcases List.append_eq_append_iff.1 hsplit' with ⟨front', hfront', hrest⟩ | ⟨r, hr, hback⟩
    · exact hlater front' hfront' hrest
    rcases eq_or_ne r [] with rfl | hne
    · exact hlater [] (by simpa using hr.symm) hback.symm
    rcases endsInEscape_or_placeholder hr hfront hne with hcut | ⟨hcut, hone⟩
    · exact absurd hescapes (by rw [hcut]; decide)
    · have hshown : seg.shown n = placeholder n := hr.trans hcut.symm
      have hplace := hplaceholders [] n (covered (n + count [seg]) segs) (by rw [covered, hshown]; rfl)
        (by omega)
      rw [List.nil_append, hcut, Text.byteSize_append, Text.byteSize_nil] at hplace
      have := Text.byteSize_pos hfront
      have := Text.byteSize_pos hne
      omega

namespace Hidden

/-- The cuts of a hidden text are those between segments. -/
theorem cutsAt_iff (segs : List Segment) :
    CutsAt ⟨covered 0 segs, Segment.groups 0 segs⟩ index front back ↔
      ∃ left right, segs = left ++ right ∧ front = covered 0 left ∧
        back = covered (count left) right ∧ index = Text.byteSize front := by
  have hgroups : (Segment.groups 0 segs).length = count segs := by
    rw [count, ← map_text_groups 0, List.length_map]
  constructor
  · rintro ⟨hsplit, hplaceholders, hescapes⟩
    obtain ⟨htext, rfl⟩ := Text.splitAt?_eq_some.1 hsplit
    dsimp only at htext hplaceholders
    rw [hgroups] at hplaceholders
    obtain ⟨left, right, rfl, rfl⟩ :=
      exists_segments_of_cut htext (Nat.le_of_eq (Nat.zero_add _)) hplaceholders hescapes
    rw [covered_append, Nat.zero_add] at htext
    exact ⟨left, right, rfl, rfl, (List.append_cancel_left htext).symm, rfl⟩
  · rintro ⟨left, right, rfl, rfl, rfl, rfl⟩
    refine ⟨?_, ?_, endsInEscape_covered 0 left⟩
    · rw [covered_append, Nat.zero_add]
      exact Text.splitAt?_append _ _
    · intro before n after htext _
      obtain ⟨left', o, c, s, right', hsegs, rfl, rfl⟩ :=
        exists_group_of_placeholder (htext.trans (List.append_assoc _ _ _))
      -- The group comes after the cut, or before it.
      rcases List.append_eq_append_iff.1 hsegs with ⟨between, rfl, -⟩ | ⟨between, rfl, hright⟩
      · left
        rw [covered_append, Text.byteSize_append]
        omega
      · cases between with
        | nil =>
          left
          rw [List.append_nil]
        | cons seg between =>
          right
          obtain rfl := (List.cons.inj hright).1
          rw [covered_append, covered, Segment.shown, ← List.append_assoc,
            Text.byteSize_append _ (covered _ between)]
          exact Nat.le_add_right _ _

/-- The later of two cuts has the longer text in front of it. -/
theorem byteSize_texts_lt {left left' right right' : List Segment}
    (hsegs : left ++ right = left' ++ right')
    (hlt : Text.byteSize (covered 0 left) < Text.byteSize (covered 0 left')) :
    Text.byteSize (texts left) < Text.byteSize (texts left') := by
  rcases List.append_eq_append_iff.1 hsegs with ⟨between, rfl, -⟩ | ⟨between, rfl, -⟩
  · cases between with
    | nil => simp at hlt
    | cons seg between =>
      have htext : seg.text ≠ [] := by cases seg <;> exact List.cons_ne_nil _ _
      have := Text.byteSize_pos htext
      rw [texts_append, texts_cons, Text.byteSize_append, Text.byteSize_append]
      omega
  · rw [covered_append, Text.byteSize_append] at hlt
    omega

/-- **Hiding is reversible at every cut.** The hidden text is restored to the text, also in two parts; the
place of the cut is mapped back to where the parts meet, and later cuts to later places. -/
theorem hide?_reversible {g : Grouping} {text : List Char} (hh : hide? g text = some h) :
    h.restore h.text = text ∧
    (∀ index front back, h.CutsAt index front back →
      h.restore front ++ h.restore back = text ∧
      h.offset? index = some (Text.byteSize (h.restore front))) ∧
    ∀ index front back index' front' back', h.CutsAt index front back → h.CutsAt index' front' back' →
      index < index' → ∃ place place', h.offset? index = some place ∧ h.offset? index' = some place' ∧
        place < place' := by
  obtain ⟨segs, -, rfl, rfl⟩ := Grouping.hide?_eq_some.1 hh
  refine ⟨restore_covered (shows_all segs), ?_, ?_⟩
  · intro index front back hcut
    obtain ⟨left, right, rfl, rfl, rfl, rfl⟩ := (cutsAt_iff segs).1 hcut
    have hleft : Shows ⟨covered 0 (left ++ right), Segment.groups 0 (left ++ right)⟩ 0 left :=
      shows_hidden 0 [] right
    have hright : Shows ⟨covered 0 (left ++ right ++ []), Segment.groups 0 (left ++ right ++ [])⟩
        (count left) right := shows_hidden 0 left []
    rw [List.append_nil] at hright
    rw [restore_covered hleft, restore_covered hright, texts_append]
    exact ⟨rfl, offset?_hidden left right⟩
  · intro index front back index' front' back' hcut hcut' hlt
    obtain ⟨left, right, rfl, rfl, -, rfl⟩ := (cutsAt_iff segs).1 hcut
    obtain ⟨left', right', hsegs, rfl, -, rfl⟩ := (cutsAt_iff _).1 hcut'
    refine ⟨_, _, offset?_hidden left right, ?_, byteSize_texts_lt hsegs hlt⟩
    rw [hsegs]
    exact offset?_hidden left' right'

/-- A cut between an escaped bracket and a group. -/
theorem hide?_reversible_escaped :
    hide? .parentheses ['é', '[', '(', '1', ')'] =
      some ⟨['é', '\\', '[', '[', '0', ']'], [⟨['(', '1', ')'], 3⟩]⟩ ∧
    offset? ⟨['é', '\\', '[', '[', '0', ']'], [⟨['(', '1', ')'], 3⟩]⟩ 4 = some 3 := by
  have hh : hide? .parentheses ['é', '[', '(', '1', ')'] =
      some ⟨['é', '\\', '[', '[', '0', ']'], [⟨['(', '1', ')'], 3⟩]⟩ := by decide
  have hcut : CutsAt ⟨['é', '\\', '[', '[', '0', ']'], [⟨['(', '1', ')'], 3⟩]⟩ 4 ['é', '\\', '[']
      ['[', '0', ']'] :=
    (cutsAt_iff [.char 'é', .char '[', .group '(' ')' ['1']]).2
      ⟨[.char 'é', .char '['], [.group '(' ')' ['1']], rfl, by decide, by decide, by decide⟩
  exact ⟨hh, ((hide?_reversible hh).2.1 _ _ _ hcut).2⟩

end Hidden

end Formula
