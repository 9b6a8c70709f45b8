import Formula.Hidden
import Formula.Proofs.Text.Bytes
import Mathlib.Data.List.TakeWhile

/-!
# Segments of a text

A text is looked at as a list of segments: characters, and top-level groups. In the hidden text a group is
a placeholder, and a character stands for itself or behind a backslash (`Segment.covered`). Whichever
brackets are hidden, fragments of the hidden text are restored to the segments they stand for
(`Hidden.restore_covered`), and cuts between segments are mapped to cuts between segments
(`Hidden.offset?_hidden`).
-/

set_option autoImplicit false

namespace Formula

/-- A character or a top-level group of a text. -/
inductive Segment where
  | char (c : Char)
  | group (opener closer : Char) (inside : List Char)
  deriving DecidableEq

namespace Segment

/-- The text of a segment. -/
def text : Segment → List Char
  | char c => [c]
  | group o c s => o :: (s ++ [c])

/-- The text of a list of segments. -/
def texts (segs : List Segment) : List Char :=
  segs.flatMap text

/-- The texts of the groups. -/
def groupTexts : List Segment → List (List Char)
  | [] => []
  | char _ :: segs => groupTexts segs
  | group o c s :: segs => text (group o c s) :: groupTexts segs

/-- The number of groups. -/
def count (segs : List Segment) : Nat :=
  (groupTexts segs).length

/-- What stands for a character or for the `n`-th group in the hidden text. -/
def shown (n : Nat) : Segment → List Char
  | char c => if isEscaped c then ['\\', c] else [c]
  | group .. => placeholder n

/-- The hidden text of segments after `n` groups. -/
def covered : (n : Nat) → List Segment → List Char
  | _, [] => []
  | n, seg :: segs => seg.shown n ++ covered (n + count [seg]) segs

/-- The groups with their places; the segments start at byte `offset`. -/
def groups : (offset : Nat) → List Segment → List Token
  | _, [] => []
  | offset, char c :: segs => groups (offset + c.utf8Size) segs
  | offset, group o c s :: segs =>
    ⟨text (group o c s), offset⟩ :: groups (offset + Text.byteSize (text (group o c s))) segs

@[simp] theorem texts_nil : texts [] = [] := rfl

@[simp] theorem texts_cons (seg : Segment) (segs : List Segment) :
    texts (seg :: segs) = seg.text ++ texts segs := rfl

theorem texts_append (segs segs' : List Segment) :
    texts (segs ++ segs') = texts segs ++ texts segs' :=
  List.flatMap_append

theorem groupTexts_append (segs segs' : List Segment) :
    groupTexts (segs ++ segs') = groupTexts segs ++ groupTexts segs' := by
  induction segs with
  | nil => rfl
  | cons seg segs ih =>
    cases seg with
    | char c => exact ih
    | group o c s => exact congrArg _ ih

theorem count_append (segs segs' : List Segment) :
    count (segs ++ segs') = count segs + count segs' := by
  rw [count, groupTexts_append, List.length_append, count, count]

theorem count_cons (seg : Segment) (segs : List Segment) :
    count (seg :: segs) = count [seg] + count segs :=
  count_append [seg] segs

@[simp] theorem count_char (c : Char) : count [char c] = 0 := rfl

@[simp] theorem count_group (o c : Char) (s : List Char) : count [group o c s] = 1 := rfl

theorem covered_append (n : Nat) (segs segs' : List Segment) :
    covered n (segs ++ segs') = covered n segs ++ covered (n + count segs) segs' := by
  induction segs generalizing n with
  | nil => rfl
  | cons seg segs ih =>
    rw [List.cons_append, covered, covered, ih, count_cons seg segs, List.append_assoc, Nat.add_assoc]

theorem map_text_groups (offset : Nat) (segs : List Segment) :
    (groups offset segs).map Token.text = groupTexts segs := by
  induction segs generalizing offset with
  | nil => rfl
  | cons seg segs ih =>
    cases seg with
    | char c => exact ih _
    | group o c s => rw [groups, List.map_cons, ih, groupTexts]

end Segment

/-! ## Placeholders -/

theorem utf8Size_of_isDigit {c : Char} (h : c.isDigit = true) : c.utf8Size = 1 := by
  simp only [Char.isDigit, Bool.and_eq_true, decide_eq_true_eq] at h
  have hle : c.val ≤ 0x7f := UInt32.le_trans h.2 (by decide)
  simp [Char.utf8Size, hle]

theorem byteSize_of_digits {ds : List Char} (h : ∀ c ∈ ds, c.isDigit = true) :
    Text.byteSize ds = ds.length := by
  induction ds with
  | nil => rfl
  | cons c ds ih =>
    rw [Text.byteSize_cons, utf8Size_of_isDigit (h c List.mem_cons_self),
      ih fun d hd => h d (List.mem_cons_of_mem c hd), List.length_cons, Nat.add_comm]

theorem isDigit_toDigits (n : Nat) : ∀ c ∈ Nat.toDigits 10 n, c.isDigit = true :=
  fun _ hc => Nat.isDigit_of_mem_toDigits (by decide) (by decide) hc

theorem byteSize_placeholder (n : Nat) :
    Text.byteSize (placeholder n) = (Nat.toDigits 10 n).length + 2 := by
  rw [placeholder, Text.byteSize_cons, Text.byteSize_append, byteSize_of_digits (isDigit_toDigits n)]
  show 1 + ((Nat.toDigits 10 n).length + 1) = _
  omega

/-- A placeholder tells its number. -/
theorem placeholderNumber?_eq (n : Nat) (rest : List Char) :
    placeholderNumber? (Nat.toDigits 10 n ++ ']' :: rest) =
      some (n, (Nat.toDigits 10 n).length + 1) := by
  have hdigit := isDigit_toDigits n
  have hvalue : (Nat.toDigits 10 n).foldl (fun n d => 10 * n + (d.toNat - '0'.toNat)) 0 = n :=
    Nat.ofDigitChars_ten_toDigits
  have htake : (Nat.toDigits 10 n ++ ']' :: rest).takeWhile (fun c => decide (c ≠ ']')) =
      Nat.toDigits 10 n := by
    rw [List.takeWhile_append_of_pos, List.takeWhile_cons_of_neg (by simp), List.append_nil]
    intro c hc
    have := hdigit c hc
    rw [decide_eq_true_eq]
    rintro rfl
    exact absurd this (by decide)
  rw [placeholderNumber?, htake]
  split
  · next hplus =>
    exact absurd (hdigit '+' (by rw [hplus]; exact List.mem_cons_self)) (by decide)
  · refine (if_pos ?_).trans (by rw [hvalue])
    have hne : Nat.toDigits 10 n ≠ [] := Nat.toDigits_ne_nil
    have hall : (Nat.toDigits 10 n).all Char.isDigit = true := List.all_eq_true.2 hdigit
    simp [hne, hall]

theorem ne_of_not_isEscaped {c : Char} (h : isEscaped c = false) : c ≠ '[' ∧ c ≠ '\\' := by
  simp only [isEscaped, Bool.or_eq_false_iff, decide_eq_false_iff_not] at h
  exact ⟨h.1.1, h.2⟩

theorem utf8Size_of_isEscaped {c : Char} (h : isEscaped c = true) : c.utf8Size = 1 := by
  simp only [isEscaped, Bool.or_eq_true, decide_eq_true_eq] at h
  rcases h with (rfl | rfl) | rfl <;> rfl

open Segment

namespace Hidden

variable {n : Nat} {h : Hidden} {seg : Segment} {segs : List Segment}

/-- The groups of the segments are the hidden ones from the `n`-th on. -/
def Shows (h : Hidden) (n : Nat) (segs : List Segment) : Prop :=
  ∃ more, (h.groups.drop n).map Token.text = groupTexts segs ++ more

theorem Shows.head (hs : h.Shows n (seg :: segs)) : h.Shows n [seg] := by
  obtain ⟨more, hmore⟩ := hs
  have := groupTexts_append [seg] segs
  exact ⟨groupTexts segs ++ more, by rw [hmore, ← List.append_assoc, ← this]; rfl⟩

theorem Shows.tail (hs : h.Shows n (seg :: segs)) : h.Shows (n + count [seg]) segs := by
  obtain ⟨more, hmore⟩ := hs
  refine ⟨more, ?_⟩
  have hsplit : groupTexts (seg :: segs) = groupTexts [seg] ++ groupTexts segs :=
    groupTexts_append [seg] segs
  rw [← List.drop_drop, List.map_drop, hmore, hsplit, List.append_assoc, count, List.drop_left]

/-- The hidden text of a list of segments shows every part of it. -/
theorem shows_hidden (offset : Nat) (front back : List Segment) :
    Shows ⟨covered 0 (front ++ segs ++ back), Segment.groups offset (front ++ segs ++ back)⟩
      (count front) segs := by
  refine ⟨groupTexts back, ?_⟩
  rw [List.map_drop, map_text_groups, groupTexts_append, groupTexts_append, List.append_assoc, count,
    List.drop_left]

theorem shows_all (segs : List Segment) :
    Shows ⟨covered 0 segs, Segment.groups 0 segs⟩ 0 segs := by
  have h : Shows ⟨covered 0 ([] ++ segs ++ []), Segment.groups 0 ([] ++ segs ++ [])⟩ 0 segs :=
    shows_hidden 0 [] []
  rwa [List.nil_append, List.append_nil] at h

theorem groupAt?_placeholder {o c : Char} {s : List Char} (hs : h.Shows n [.group o c s])
    (rest : List Char) : ∃ token, token.text = (Segment.group o c s).text ∧
      h.groupAt? (Nat.toDigits 10 n ++ ']' :: rest) =
        some (token, (Nat.toDigits 10 n).length + 1) := by
  obtain ⟨more, hmore⟩ := hs
  cases hdrop : h.groups.drop n with
  | nil =>
    rw [hdrop] at hmore
    cases hmore
  | cons token tokens =>
    rw [hdrop] at hmore
    refine ⟨token, (List.cons.inj hmore).1, ?_⟩
    have hget : h.groups[n]? = some token := by
      rw [← List.head?_drop, hdrop]
      rfl
    rw [groupAt?, placeholderNumber?_eq]
    simp [hget]

/-! ## Restoring fragments -/

theorem restoreFrom_skip (s rest : List Char) :
    h.restoreFrom s.length (s ++ rest) = h.restoreFrom 0 rest := by
  induction s with
  | nil => rfl
  | cons c s ih => rw [List.cons_append, List.length_cons, restoreFrom, ih]

theorem restoreFrom_bracket (cs : List Char) :
    h.restoreFrom 0 ('[' :: cs) = match h.groupAt? cs with
      | some (token, width) => token.text ++ h.restoreFrom width cs
      | none => '[' :: h.restoreFrom 0 cs := by
  cases cs <;> rfl

theorem restoreFrom_segment (hs : h.Shows n [seg]) (rest : List Char) :
    h.restoreFrom 0 (seg.shown n ++ rest) = seg.text ++ h.restoreFrom 0 rest := by
  cases seg with
  | char c =>
    rw [Segment.shown]
    split
    · rfl
    · next hc =>
      obtain ⟨hbracket, hescape⟩ := ne_of_not_isEscaped (Bool.not_eq_true _ ▸ hc)
      rw [List.singleton_append, restoreFrom.eq_def]
      simp [hbracket, hescape, Segment.text]
  | group o c s =>
    obtain ⟨token, htoken, hgroup⟩ := groupAt?_placeholder hs rest
    have hskip : h.restoreFrom ((Nat.toDigits 10 n).length + 1) (Nat.toDigits 10 n ++ ']' :: rest) =
        h.restoreFrom 0 rest := by
      simpa using restoreFrom_skip (h := h) (Nat.toDigits 10 n ++ [']']) rest
    simp only [Segment.shown, placeholder, List.cons_append, List.append_assoc, List.nil_append]
    rw [restoreFrom_bracket, hgroup]
    simp only [hskip, htoken]

/-- Segments of the hidden text are restored to those of the text. -/
theorem restore_covered (hs : h.Shows n segs) : h.restore (covered n segs) = texts segs := by
  rw [restore]
  induction segs generalizing n with
  | nil => rw [covered, restoreFrom, texts_nil]
  | cons seg segs ih => rw [covered, restoreFrom_segment hs.head, ih hs.tail, texts_cons]

/-- Text without brackets and backslashes stands for itself. -/
theorem restore_eq_self {w : List Char} (hw : ∀ c ∈ w, isEscaped c = false) : h.restore w = w := by
  rw [restore]
  induction w with
  | nil => rw [restoreFrom]
  | cons c w ih =>
    have hc := hw c List.mem_cons_self
    simp only [isEscaped, Bool.or_eq_false_iff, decide_eq_false_iff_not] at hc
    rw [restoreFrom.eq_def]
    simp [hc.1.1, hc.2, ih fun d hd => hw d (List.mem_cons_of_mem c hd)]

/-! ## Mapping cuts back -/

section

variable {index position result : Nat} {rest : List Char}

theorem offsetFrom_skip (s rest : List Char) :
    h.offsetFrom index s.length position result (s ++ rest) =
      h.offsetFrom index 0 (position + Text.byteSize s) result rest := by
  induction s generalizing position with
  | nil => rfl
  | cons c s ih =>
    rw [List.cons_append, List.length_cons, offsetFrom, ih, Text.byteSize_cons, Nat.add_assoc]

theorem offsetFrom_bracket (cs : List Char) (hlt : position < index) :
    h.offsetFrom index 0 position result ('[' :: cs) = match h.groupAt? cs with
      | some (token, width) =>
        if result < width + 1 then none
        else
          h.offsetFrom index width (position + 1)
            (result - (width + 1) + Text.byteSize token.text) cs
      | none => h.offsetFrom index 0 (position + 1) result cs := by
  rw [offsetFrom, if_neg (by omega)]
  rfl

/-- Passing a segment, the result changes by the difference in length. -/
theorem offsetFrom_segment (hs : h.Shows n [seg])
    (hindex : position + Text.byteSize (seg.shown n) ≤ index)
    (hresult : Text.byteSize (seg.shown n) ≤ result) :
    h.offsetFrom index 0 position result (seg.shown n ++ rest) =
      h.offsetFrom index 0 (position + Text.byteSize (seg.shown n))
        (result - Text.byteSize (seg.shown n) + Text.byteSize seg.text) rest := by
  cases seg with
  | char c =>
    have hsize : Text.byteSize [c] = c.utf8Size := Nat.add_zero _
    have hpos := c.utf8Size_pos
    by_cases hc : isEscaped c = true
    · have hescaped : Text.byteSize ['\\', c] = c.utf8Size + 1 := by
        rw [Text.byteSize_cons, hsize, Nat.add_comm]
        rfl
      have hone := utf8Size_of_isEscaped hc
      rw [Segment.shown, if_pos hc, hescaped] at hindex hresult ⊢
      rw [List.cons_append, offsetFrom, if_neg (by omega), if_pos rfl, if_neg (by omega),
        List.cons_append, offsetFrom, List.nil_append, Segment.text, hsize]
      congr 1 <;> omega
    · obtain ⟨hbracket, hescape⟩ := ne_of_not_isEscaped (Bool.not_eq_true _ ▸ hc)
      rw [Segment.shown, if_neg hc, hsize] at hindex hresult ⊢
      rw [Segment.text, hsize, List.singleton_append, offsetFrom, if_neg (by omega), if_neg hescape,
        if_neg hbracket]
      congr 1
      omega
  | group o c s =>
    obtain ⟨token, htoken, hgroup⟩ := groupAt?_placeholder hs rest
    have hsize := byteSize_placeholder n
    have hdigits : Text.byteSize (Nat.toDigits 10 n ++ [']']) = (Nat.toDigits 10 n).length + 1 := by
      rw [Text.byteSize_append, byteSize_of_digits (isDigit_toDigits n)]
      rfl
    have hskip : ∀ position' result', h.offsetFrom index ((Nat.toDigits 10 n).length + 1) position'
        result' (Nat.toDigits 10 n ++ ']' :: rest) =
        h.offsetFrom index 0 (position' + ((Nat.toDigits 10 n).length + 1)) result' rest := by
      intro position' result'
      have hlen : (Nat.toDigits 10 n).length + 1 = (Nat.toDigits 10 n ++ [']']).length := by simp
      rw [← List.singleton_append, ← List.append_assoc, hlen, offsetFrom_skip, hdigits, ← hlen]
    have hshown : placeholder n ++ rest = '[' :: (Nat.toDigits 10 n ++ ']' :: rest) := by
      simp [placeholder]
    rw [Segment.shown, hsize] at hindex hresult ⊢
    rw [hshown, offsetFrom_bracket _ (by omega), hgroup]
    dsimp only
    rw [if_neg (by omega), hskip, htoken]
    congr 1
    omega

/-- A cut after some segments of the hidden text is mapped to the cut after them. -/
theorem offsetFrom_hidden (hs : h.Shows n segs)
    (hindex : position + Text.byteSize (covered n segs) = index)
    (hresult : Text.byteSize (covered n segs) ≤ result) :
    h.offsetFrom index 0 position result (covered n segs ++ rest) =
      some (result - Text.byteSize (covered n segs) + Text.byteSize (texts segs)) := by
  induction segs generalizing n position result with
  | nil =>
    have hle : index ≤ position := by
      rw [covered, Text.byteSize_nil] at hindex
      omega
    rw [covered, List.nil_append]
    cases rest with
    | nil => simp [offsetFrom]
    | cons c rest =>
      rw [offsetFrom, if_pos hle]
      simp
  | cons seg segs ih =>
    rw [covered, Text.byteSize_append] at *
    rw [List.append_assoc, offsetFrom_segment hs.head (by omega) (by omega),
      ih hs.tail (by omega) (by omega), texts_cons, Text.byteSize_append]
    congr 1
    omega

end

theorem offset?_hidden (front back : List Segment) :
    offset? ⟨covered 0 (front ++ back), Segment.groups 0 (front ++ back)⟩
      (Text.byteSize (covered 0 front)) = some (Text.byteSize (texts front)) := by
  have hs : Shows ⟨covered 0 (front ++ back), Segment.groups 0 (front ++ back)⟩ 0 front :=
    shows_hidden 0 [] back
  rw [offset?, covered_append, offsetFrom_hidden (by rw [← covered_append]; exact hs)
    (Nat.zero_add _) (Nat.le_refl _), Nat.sub_self, Nat.zero_add]

end Hidden

end Formula
