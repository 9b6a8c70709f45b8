import Formula.Proofs.Pattern.Search
import Mathlib.Computability.Language

/-!
# The language of a pattern

What a pattern without assertions matches does not depend on the neighbours: the words of its language
(`accepts_iff_mem_lang`). A pattern without repetitions has finitely many (`mem_lang_iff_mem_words`).

The reversed pattern matches the reversed texts (`occursIn_reverse`), with assertions too.
-/

set_option autoImplicit false

namespace Formula

open scoped Computability

/-- The words of one character from a set. -/
def CharSet.lang (s : CharSet) : Language Char :=
  {w | ∃ c, s.contains c = true ∧ w = [c]}

namespace Pattern

/-- Whether a pattern is without assertions. -/
def isAnchorFree : Pattern → Bool
  | .assert _ => false
  | .seq p q | .alt p q => p.isAnchorFree && q.isAnchorFree
  | .plus _ p => p.isAnchorFree
  | _ => true

/-- Whether a pattern is without marks. -/
def isMarkFree : Pattern → Bool
  | .mark _ => false
  | .seq p q | .alt p q => p.isMarkFree && q.isMarkFree
  | .plus _ p => p.isMarkFree
  | _ => true

/-- The words of a pattern. Assertions and marks count as empty. -/
def lang : Pattern → Language Char
  | .empty => 1
  | .set s => s.lang
  | .assert _ => 1
  | .mark _ => 1
  | .seq p q => p.lang * q.lang
  | .alt p q => p.lang + q.lang
  | .plus _ p => p.lang * p.lang∗

section

variable {p q : Pattern} {b a : Option Char} {i : Nat} {r : List Char} {l : List (Mark × Nat)}

theorem accepts_seq : (seq p q).Accepts b r a ↔
    ∃ s t, r = s ++ t ∧ p.Accepts b s (headOr t a) ∧ q.Accepts (lastOr b s) t a := by
  constructor
  · rintro ⟨i, l, h⟩
    obtain ⟨s, t, k, m, rfl, rfl, hs, ht⟩ := matches_seq.1 h
    exact ⟨s, t, rfl, ⟨_, _, hs⟩, _, _, ht⟩
  · rintro ⟨s, t, rfl, ⟨i, k, hs⟩, j, m, ht⟩
    obtain ⟨m', ht'⟩ := ht.shift (i + Text.byteSize s)
    exact ⟨i, k ++ m', .seq hs ht'⟩

theorem accepts_alt : (alt p q).Accepts b r a ↔ p.Accepts b r a ∨ q.Accepts b r a := by
  simp only [Accepts, matches_alt, exists_or]

theorem accepts_plus {greedy : Bool} : (plus greedy p).Accepts b r a ↔ p.Accepts b r a ∨
    ∃ s t, s ≠ [] ∧ t ≠ [] ∧ r = s ++ t ∧ p.Accepts b s (headOr t a) ∧
      (plus greedy p).Accepts (lastOr b s) t a := by
  constructor
  · rintro ⟨i, l, h⟩
    rcases matches_plus.1 h with h | ⟨s, t, k, m, hs, ht, rfl, rfl, h, h'⟩
    · exact .inl ⟨i, l, h⟩
    · exact .inr ⟨s, t, hs, ht, rfl, ⟨_, _, h⟩, _, _, h'⟩
  · rintro (⟨i, l, h⟩ | ⟨s, t, hs, ht, rfl, ⟨i, k, h⟩, j, m, h'⟩)
    · exact ⟨i, l, .plusOne h⟩
    · obtain ⟨m', h'⟩ := h'.shift (i + Text.byteSize s)
      exact ⟨i, k ++ m', .plusMore hs ht h h'⟩

theorem accepts_plus_of_words {greedy : Bool} {s : List Char} {words : List (List Char)}
    (hp : ∀ {b s a}, s ∈ p.lang → p.Accepts b s a) (hs : s ∈ p.lang)
    (hw : ∀ w ∈ words, w ∈ p.lang ∧ w ≠ []) :
    (plus greedy p).Accepts b (s ++ words.flatten) a := by
  induction words generalizing b s with
  | nil =>
    rw [List.flatten_nil, List.append_nil]
    exact accepts_plus.2 (.inl (hp hs))
  | cons w words ih =>
    obtain ⟨hw1, hne⟩ := hw w List.mem_cons_self
    have hrest := fun {b} => ih (b := b) hw1 fun v hv => hw v (List.mem_cons_of_mem _ hv)
    by_cases hs0 : s = []
    · subst hs0
      exact hrest
    · exact accepts_plus.2 (.inr ⟨s, _, hs0, by simp [hne], rfl, hp hs, hrest⟩)

/-- A repetition matches the words of its language, if its round does. The induction is on the text: a round
that others follow consumes some of it. -/
theorem accepts_plus_iff_mem_lang {greedy : Bool}
    (hround : ∀ {b r a}, p.Accepts b r a ↔ r ∈ p.lang) :
    (plus greedy p).Accepts b r a ↔ r ∈ (plus greedy p).lang := by
  constructor
  · intro h
    induction hk : r.length using Nat.strongRecOn generalizing r b with
    | ind k ih =>
      rcases accepts_plus.1 h with h | ⟨u, t, hu, -, rfl, hfirst, hrest⟩
      · exact ⟨r, hround.1 h, [], Language.nil_mem_kstar _, List.append_nil r⟩
      · have hlt : t.length < k := by
          rw [← hk, List.length_append]
          have := List.length_pos_iff.2 hu
          omega
        have ht : t ∈ p.lang * p.lang∗ := ih t.length hlt hrest rfl
        refine ⟨u, hround.1 hfirst, t, ?_, rfl⟩
        rw [← Language.one_add_self_mul_kstar_eq_kstar]
        exact .inr ht
  · rintro ⟨u, hu, v, hv, rfl⟩
    obtain ⟨words, rfl, hwords⟩ := Language.mem_kstar_iff_exists_nonempty.1 hv
    exact accepts_plus_of_words hround.2 hu hwords

/-- A pattern without assertions matches the words of its language, wherever they stand. -/
theorem accepts_iff_mem_lang (h : p.isAnchorFree = true) : p.Accepts b r a ↔ r ∈ p.lang := by
  induction p generalizing b r a with
  | empty =>
    constructor
    · rintro ⟨i, l, ⟨⟩⟩
      exact rfl
    · rintro ⟨⟩
      exact ⟨0, _, .empty⟩
  | set x =>
    constructor
    · rintro ⟨i, l, _ | hx⟩
      exact ⟨_, hx, rfl⟩
    · rintro ⟨c, hx, rfl⟩
      exact ⟨0, _, .set hx⟩
  | assert x => cases h
  | mark x =>
    constructor
    · rintro ⟨i, l, _ | _ | _ | _⟩
      exact rfl
    · rintro ⟨⟩
      exact ⟨0, _, .mark⟩
  | seq p q ihp ihq =>
    rw [isAnchorFree, Bool.and_eq_true] at h
    simp only [accepts_seq, ihp h.1, ihq h.2, lang, Language.mem_mul]
    constructor
    · rintro ⟨s, t, rfl, hs, ht⟩
      exact ⟨s, hs, t, ht, rfl⟩
    · rintro ⟨s, hs, t, ht, rfl⟩
      exact ⟨s, t, rfl, hs, ht⟩
  | alt p q ihp ihq =>
    rw [isAnchorFree, Bool.and_eq_true] at h
    rw [accepts_alt, ihp h.1, ihq h.2, lang, Language.mem_add]
  | plus greedy p ih => exact accepts_plus_iff_mem_lang (ih h)

/-- A match of a pattern without marks passes none. -/
theorem Matches.marks_eq_nil (h : Matches p b i r a l) (hp : p.isMarkFree = true) : l = [] := by
  induction h with
  | mark => cases hp
  | seq _ _ ihp ihq =>
    rw [isMarkFree, Bool.and_eq_true] at hp
    rw [ihp hp.1, ihq hp.2, List.append_nil]
  | altLeft _ ih =>
    rw [isMarkFree, Bool.and_eq_true] at hp
    exact ih hp.1
  | altRight _ ih =>
    rw [isMarkFree, Bool.and_eq_true] at hp
    exact ih hp.2
  | plusOne _ ih => exact ih hp
  | plusMore _ _ _ _ ihp ihq => rw [ihp hp, ihq hp, List.append_nil]
  | _ => rfl

/-- The matches of a plain pattern: the words of its language, without marks. -/
theorem matches_iff_mem_lang (ha : p.isAnchorFree = true) (hm : p.isMarkFree = true) :
    Matches p b i r a l ↔ r ∈ p.lang ∧ l = [] := by
  constructor
  · intro h
    exact ⟨(accepts_iff_mem_lang ha).1 ⟨_, _, h⟩, h.marks_eq_nil hm⟩
  · rintro ⟨hr, rfl⟩
    obtain ⟨j, l, h⟩ := (accepts_iff_mem_lang (b := b) (a := a) ha).2 hr
    obtain ⟨l', h'⟩ := h.shift i
    rwa [h'.marks_eq_nil hm] at h'

end

/-! ## Finite languages -/

end Pattern

/-- The members of a set that is written as a list of characters. -/
def CharSet.members? : CharSet → Option (List Char)
  | .range low high => if low = high then some [low] else none
  | .union s t => s.members?.bind fun cs => t.members?.map (cs ++ ·)
  | _ => none

theorem CharSet.contains_iff_mem {s : CharSet} {cs : List Char} (h : s.members? = some cs) {c : Char} :
    s.contains c = true ↔ c ∈ cs := by
  induction s generalizing cs with
  | range low high =>
    rw [members?] at h
    split at h
    · next hl =>
      subst hl
      cases h
      rw [contains, Bool.and_eq_true, decide_eq_true_eq, decide_eq_true_eq, List.mem_singleton]
      constructor
      · exact fun h => Char.le_antisymm h.2 h.1
      · rintro rfl
        exact ⟨Char.le_refl c, Char.le_refl c⟩
    · cases h
  | union s t ihs iht =>
    obtain ⟨cs, hs, h⟩ := Option.bind_eq_some_iff.1 h
    obtain ⟨ds, ht, rfl⟩ := Option.map_eq_some_iff.1 h
    rw [contains, Bool.or_eq_true, ihs hs, iht ht, List.mem_append]
  | _ => cases h

namespace Pattern

/-- The words of a pattern whose language is finite for want of repetitions. -/
def words? : Pattern → Option (List (List Char))
  | .empty => some [[]]
  | .set s => s.members?.map fun cs => cs.map ([·])
  | .assert _ => none
  | .mark _ => none
  | .seq p q => p.words?.bind fun vs => q.words?.map fun ws => vs.flatMap fun v => ws.map (v ++ ·)
  | .alt p q => p.words?.bind fun vs => q.words?.map (vs ++ ·)
  | .plus _ _ => none

theorem mem_lang_iff_mem_words {p : Pattern} {ws : List (List Char)} (h : p.words? = some ws)
    {s : List Char} : s ∈ p.lang ↔ s ∈ ws := by
  induction p generalizing ws s with
  | empty =>
    cases h
    simp [lang]
  | set x =>
    obtain ⟨cs, hcs, rfl⟩ := Option.map_eq_some_iff.1 h
    simp only [List.mem_map, ← CharSet.contains_iff_mem hcs, eq_comm (b := s)]
    rfl
  | seq p q ihp ihq =>
    obtain ⟨vs, hp, h⟩ := Option.bind_eq_some_iff.1 h
    obtain ⟨ws, hq, rfl⟩ := Option.map_eq_some_iff.1 h
    simp [lang, Language.mem_mul, ihp hp, ihq hq]
  | alt p q ihp ihq =>
    obtain ⟨vs, hp, h⟩ := Option.bind_eq_some_iff.1 h
    obtain ⟨ws, hq, rfl⟩ := Option.map_eq_some_iff.1 h
    rw [lang, Language.mem_add, ihp hp, ihq hq, List.mem_append]
  | _ => cases h

/-! ## Reversed patterns -/

section

variable {p q : Pattern} {b a : Option Char} {r : List Char}

/-- A repetition may be taken apart at its last round as well. -/
theorem accepts_plus_append {greedy : Bool} {s t : List Char} (hs : s ≠ []) (ht : t ≠ [])
    (h : (plus greedy p).Accepts b s (headOr t a)) (h' : p.Accepts (lastOr b s) t a) :
    (plus greedy p).Accepts b (s ++ t) a := by
  induction hk : s.length using Nat.strongRecOn generalizing s b with
  | ind k ih =>
    rcases accepts_plus.1 h with h | ⟨u, v, hu, hv, rfl, h, hrest⟩
    · exact accepts_plus.2 (.inr ⟨s, t, hs, ht, rfl, h, accepts_plus.2 (.inl h')⟩)
    · have hlt : v.length < k := by
        rw [← hk, List.length_append]
        have := List.length_pos_iff.2 hu
        omega
      rw [lastOr_append] at h'
      have := ih v.length hlt hv hrest h' rfl
      rw [List.append_assoc]
      refine accepts_plus.2 (.inr ⟨u, v ++ t, hu, by simp [hv], rfl, ?_, this⟩)
      rwa [headOr_append]

theorem headOr_reverse (s : List Char) (a : Option Char) : headOr s.reverse a = lastOr a s := by
  simp [headOr, lastOr]

theorem lastOr_reverse (b : Option Char) (s : List Char) : lastOr b s.reverse = headOr s b := by
  simp [headOr, lastOr]

theorem reverse_reverse (p : Pattern) : p.reverse.reverse = p := by
  induction p with
  | assert x => cases x <;> rfl
  | seq p q ihp ihq | alt p q ihp ihq => rw [reverse, reverse, ihp, ihq]
  | plus g p ih => rw [reverse, reverse, ih]
  | _ => rfl

theorem holds_reverse (x : Assertion) (b a : Option Char) :
    x.reverse.holds b a = x.holds a b := by
  cases x <;> simp [Assertion.holds, Assertion.reverse, Bool.beq_comm, Bool.and_comm, bne_comm]

theorem Accepts.reverse (h : p.Accepts b r a) : p.reverse.Accepts a r.reverse b := by
  induction p generalizing b r a with
  | empty =>
    obtain ⟨i, l, ⟨⟩⟩ := h
    exact ⟨0, _, .empty⟩
  | set x =>
    obtain ⟨i, l, _ | hx⟩ := h
    exact ⟨0, _, .set hx⟩
  | assert x =>
    obtain ⟨i, l, _ | _ | hx⟩ := h
    exact ⟨0, _, .assert (by rwa [holds_reverse])⟩
  | mark x =>
    obtain ⟨i, l, _ | _ | _ | _⟩ := h
    exact ⟨0, _, .mark⟩
  | seq p q ihp ihq =>
    obtain ⟨s, t, rfl, hs, ht⟩ := accepts_seq.1 h
    refine accepts_seq.2 ⟨t.reverse, s.reverse, List.reverse_append, ?_, ?_⟩
    · rw [headOr_reverse]
      exact ihq ht
    · rw [lastOr_reverse]
      exact ihp hs
  | alt p q ihp ihq => exact accepts_alt.2 ((accepts_alt.1 h).imp ihp ihq)
  | plus g p ih =>
    induction hk : r.length using Nat.strongRecOn generalizing r b with
    | ind k ihk =>
      rcases accepts_plus.1 h with h | ⟨u, v, hu, hv, rfl, h, hrest⟩
      · exact accepts_plus.2 (.inl (ih h))
      · have hlt : v.length < k := by
          rw [← hk, List.length_append]
          have := List.length_pos_iff.2 hu
          omega
        rw [List.reverse_append]
        refine accepts_plus_append (by simp [hv]) (by simp [hu]) ?_ ?_
        · rw [headOr_reverse]
          exact ihk v.length hlt hrest rfl
        · rw [lastOr_reverse]
          exact ih h

theorem accepts_reverse : p.reverse.Accepts b r a ↔ p.Accepts a r.reverse b := by
  constructor
  · intro h
    have := h.reverse
    rwa [reverse_reverse] at this
  · intro h
    have := h.reverse
    rwa [List.reverse_reverse] at this

/-- The reversed pattern occurs in the reversed texts. -/
theorem occursIn_reverse {text : List Char} : p.reverse.OccursIn text ↔ p.OccursIn text.reverse := by
  constructor
  · rintro ⟨u, v, r, rfl, h⟩
    refine ⟨r.reverse, v.reverse, u.reverse, by simp, ?_⟩
    rw [lastOr_reverse, headOr_reverse]
    exact accepts_reverse.1 h
  · rintro ⟨u, v, r, ht, h⟩
    refine ⟨r.reverse, v.reverse, u.reverse, ?_, ?_⟩
    · rw [← List.reverse_reverse text, ht]
      simp
    · rw [lastOr_reverse, headOr_reverse, accepts_reverse, List.reverse_reverse]
      exact h

end

end Pattern

end Formula
