import Formula.Hidden
import Formula.Proofs.Text.Bytes

/-!
# Spans of a text

A span is a part of a text between two cuts, together with what is before and after it. It is determined by
the two bytes (`Span.ext_of_eq`), and two cuts in their order have a span between them (`exists_span`). A
search for the best of the spans with a property is characterised by what it finds once the best one is
unique (`Span.find_iff`).
-/

set_option autoImplicit false

namespace Formula

/-- A part of a text between two cuts. -/
structure Span (text : List Char) where
  front : List Char
  inside : List Char
  back : List Char
  eq_text : front ++ inside ++ back = text

namespace Span

variable {text : List Char}

/-- The byte at which a span starts. -/
def start (s : Span text) : Nat :=
  Text.byteSize s.front

/-- The byte just after a span. -/
def stop (s : Span text) : Nat :=
  Text.byteSize (s.front ++ s.inside)

def token (s : Span text) : Token :=
  ⟨s.inside, s.start⟩

/-- Of the spans with a property, the one that stops last, and of those the one that starts first. -/
def IsLast (P : Span text → Prop) (s : Span text) : Prop :=
  P s ∧ ∀ t, P t → t.stop < s.stop ∨ t.stop = s.stop ∧ s.start ≤ t.start

/-- Of the spans with a property, one that starts first. -/
def IsFirst (P : Span text → Prop) (s : Span text) : Prop :=
  P s ∧ ∀ t, P t → s.start ≤ t.start

variable {s t : Span text} {P : Span text → Prop}

/-! ## Bytes and characters -/

theorem start_le_iff : s.start ≤ t.start ↔ s.front.length ≤ t.front.length :=
  Text.byteSize_le_iff ⟨s.inside ++ s.back, by rw [← List.append_assoc, s.eq_text]⟩
    ⟨t.inside ++ t.back, by rw [← List.append_assoc, t.eq_text]⟩

theorem stop_le_iff : s.stop ≤ t.stop ↔ t.back.length ≤ s.back.length := by
  have hs := congrArg List.length s.eq_text
  have ht := congrArg List.length t.eq_text
  rw [stop, stop, Text.byteSize_le_iff ⟨s.back, s.eq_text⟩ ⟨t.back, t.eq_text⟩]
  rw [List.length_append] at hs ht
  omega

theorem length_front_eq (h : s.start = t.start) : s.front.length = t.front.length :=
  Nat.le_antisymm (start_le_iff.1 (Nat.le_of_eq h)) (start_le_iff.1 (Nat.le_of_eq h.symm))

theorem length_back_eq (h : s.stop = t.stop) : s.back.length = t.back.length :=
  Nat.le_antisymm (stop_le_iff.1 (Nat.le_of_eq h.symm)) (stop_le_iff.1 (Nat.le_of_eq h))

theorem stop_eq (s : Span text) : s.stop = s.start + Text.byteSize s.inside :=
  Text.byteSize_append _ _

theorem start_lt_stop : s.start < s.stop ↔ s.inside ≠ [] := by
  rw [stop_eq]
  constructor
  · intro h hnil
    rw [hnil, Text.byteSize_nil] at h
    omega
  · intro h
    have := Text.byteSize_pos h
    omega

theorem stop_le (s : Span text) : s.stop ≤ Text.byteSize text := by
  have h := congrArg Text.byteSize s.eq_text
  rw [Text.byteSize_append] at h
  exact h ▸ Nat.le_add_right ..

/-- A span is determined by where it starts and stops. -/
theorem ext_of_eq (hstart : s.start = t.start) (hstop : s.stop = t.stop) : s = t := by
  have hfront := length_front_eq hstart
  have hback := length_back_eq hstop
  obtain ⟨front, inside, back, hs⟩ := s
  obtain ⟨front', inside', back', ht⟩ := t
  obtain ⟨hinit, rfl⟩ := List.append_inj' (hs.trans ht.symm) hback
  obtain ⟨rfl, rfl⟩ := List.append_inj hinit hfront
  rfl

/-! ## The best span -/

theorem IsLast.unique (hs : s.IsLast P) (ht : t.IsLast P) : s = t := by
  have h1 := hs.2 t ht.1
  have h2 := ht.2 s hs.1
  exact ext_of_eq (by omega) (by omega)

theorem IsFirst.start_eq (hs : s.IsFirst P) (ht : t.IsFirst P) : s.start = t.start :=
  Nat.le_antisymm (hs.2 t ht.1) (ht.2 s hs.1)

/-- A search that finds the best span, and nothing only where there is none, is determined by that. -/
theorem find_iff {find : Option Token} {Best : Span text → Prop} (hbest : ∀ s, Best s → P s)
    (hunique : ∀ s t, Best s → Best t → s = t)
    (hsome : ∀ token, find = some token → ∃ s, Best s ∧ s.token = token)
    (hnone : find = none → ∀ s, ¬ P s) :
    (∀ token, find = some token ↔ ∃ s, Best s ∧ s.token = token) ∧ (find = none ↔ ∀ s, ¬ P s) := by
  refine ⟨fun token => ⟨hsome token, ?_⟩, hnone, fun h => ?_⟩
  · rintro ⟨s, hs, rfl⟩
    cases hfind : find with
    | none => exact absurd (hbest s hs) (hnone hfind s)
    | some found =>
      obtain ⟨t, ht, rfl⟩ := hsome found hfind
      rw [hunique s t hs ht]
  · cases hfind : find with
    | none => rfl
    | some found =>
      obtain ⟨t, ht, -⟩ := hsome found hfind
      exact absurd (hbest t ht) (h t)

/-! ## Slices -/

theorem before?_start (s : Span text) : Text.before? s.start text = some s.front := by
  have h := Text.before?_append s.front (s.inside ++ s.back)
  rwa [← List.append_assoc, s.eq_text] at h

theorem before?_stop (s : Span text) : Text.before? s.stop text = some (s.front ++ s.inside) := by
  have h := Text.before?_append (s.front ++ s.inside) s.back
  rwa [s.eq_text] at h

theorem from?_start (s : Span text) : Text.from? s.start text = some (s.inside ++ s.back) := by
  have h := Text.from?_append s.front (s.inside ++ s.back)
  rwa [← List.append_assoc, s.eq_text] at h

theorem from?_stop (s : Span text) : Text.from? s.stop text = some s.back := by
  have h := Text.from?_append (s.front ++ s.inside) s.back
  rwa [s.eq_text] at h

theorem slice? (s : Span text) : Text.slice? s.start s.stop text = some s.inside := by
  rw [Text.slice?, before?_stop, Option.bind_some]
  exact Text.from?_append s.front s.inside

end Span

/-! ## Cuts -/

namespace Text

variable {text : List Char} {low high n : Nat}

theorem isCut_iff : isCut text n = true ↔ ∃ front back, front ++ back = text ∧ byteSize front = n := by
  rw [isCut, Option.isSome_iff_exists]
  constructor
  · rintro ⟨⟨front, back⟩, h⟩
    obtain ⟨rfl, rfl⟩ := splitAt?_eq_some.1 h
    exact ⟨front, back, rfl, rfl⟩
  · rintro ⟨front, back, rfl, rfl⟩
    exact ⟨_, splitAt?_append front back⟩

theorem mem_cuts : n ∈ cuts low high text ↔ low ≤ n ∧ n < high ∧ isCut text n = true := by
  rw [cuts, List.mem_filter, List.mem_range'_1, ← and_assoc]
  refine and_congr_left fun _ => ?_
  omega

theorem pairwise_cuts (low high : Nat) (text : List Char) : (cuts low high text).Pairwise (· < ·) :=
  List.Pairwise.filter _ List.pairwise_lt_range'

/-- Between two cuts in their order there is a span. -/
theorem exists_span {start stop : Nat} (hstart : isCut text start = true) (hstop : isCut text stop = true)
    (hle : start ≤ stop) : ∃ s : Span text, s.start = start ∧ s.stop = stop := by
  obtain ⟨front, rest, hfront, rfl⟩ := isCut_iff.1 hstart
  obtain ⟨init, back, hinit, rfl⟩ := isCut_iff.1 hstop
  have hlen := (byteSize_le_iff ⟨rest, hfront⟩ ⟨back, hinit⟩).1 hle
  obtain ⟨inside, rfl⟩ := List.prefix_of_prefix_length_le ⟨rest, hfront⟩ ⟨back, hinit⟩ hlen
  exact ⟨⟨front, inside, back, hinit⟩, rfl, rfl⟩

theorem isCut_start (s : Span text) : isCut text s.start = true :=
  isCut_iff.2 ⟨s.front, s.inside ++ s.back, by rw [← List.append_assoc, s.eq_text], rfl⟩

theorem isCut_stop (s : Span text) : isCut text s.stop = true :=
  isCut_iff.2 ⟨s.front ++ s.inside, s.back, s.eq_text, rfl⟩

end Text

end Formula
