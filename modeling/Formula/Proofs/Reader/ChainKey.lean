import Formula.Proofs.Reader.Chain
import Formula.Reader.Key

/-!
# Keys of chains

The key of words with operators between them tells the words and the operators: blanks are kept beside
the infinity sign only, but no operator is taken for a part of a word and no character of a word for one
of an operator (`spaced_eq_of_cacheKey`).
-/

set_option autoImplicit false

namespace Formula

open Lexeme

/-- Words with operators between them, with single spaces. -/
def spaced (w : List Char) : List (List Char × List Char) → List Char
  | [] => w
  | (s, w') :: rest => w ++ ' ' :: (s ++ ' ' :: spaced w' rest)

/-- What is left of a blank between two characters. -/
def keptBlank (c d : Char) : List Char :=
  if keepsApart c d then [' '] else []

/-- The first character of a text. -/
def headChar (text : List Char) : Char :=
  text.headD ' '

/-- The last character of a text. -/
def lastChar (text : List Char) : Char :=
  text.getLastD ' '

/-- The key of words with operators between them. -/
def spacedKey (w : List Char) : List (List Char × List Char) → List Char
  | [] => w
  | (s, w') :: rest => w ++ (keptBlank (lastChar w) (headChar s) ++
      (s ++ (keptBlank (lastChar s) (headChar w') ++ spacedKey w' rest)))

/-! ## The key is what is left -/

section

variable {w z y rest : List Char} {last : Option Char} {gap : Bool}

theorem keyFrom_none (gap : Bool) (text : List Char) :
    keyFrom none gap text = keyFrom none false text := by
  induction text generalizing gap with
  | nil => rfl
  | cons c cs ih =>
    rw [keyFrom, keyFrom]
    split
    · rfl
    · simp

theorem keyFrom_blank (hz : Blank z) : keyFrom none gap (z ++ rest) = keyFrom none false rest := by
  induction z generalizing gap with
  | nil => exact keyFrom_none gap rest
  | cons c z ih =>
    rw [List.cons_append, keyFrom, if_pos (hz c List.mem_cons_self)]
    exact ih fun d hd => hz d (List.mem_cons_of_mem _ hd)

theorem keyFrom_end (hy : Blank y) : keyFrom last gap y = [] := by
  induction y generalizing gap with
  | nil => rfl
  | cons c y ih =>
    rw [keyFrom, if_pos (hy c List.mem_cons_self)]
    exact ih fun d hd => hy d (List.mem_cons_of_mem _ hd)

/-- A text without blanks is kept. -/
theorem keyFrom_append (hne : w ≠ []) (hw : ∀ c ∈ w, Text.isBlank c = false) :
    keyFrom last false (w ++ rest) = w ++ keyFrom (some (lastChar w)) false rest := by
  induction w generalizing last with
  | nil => exact absurd rfl hne
  | cons c w ih =>
    rw [List.cons_append, keyFrom, hw c List.mem_cons_self]
    cases w with
    | nil => rfl
    | cons d w =>
      have hih := @ih (some c) (List.cons_ne_nil d w)
        fun d hd => hw d (List.mem_cons_of_mem _ hd)
      simp only [Bool.false_and, Bool.false_eq_true, if_false]
      rw [hih]
      rfl

/-- Of a space, what is left stands in front of the rest's own key. -/
theorem keyFrom_space {c d : Char} (hd : Text.isBlank d = false) :
    keyFrom (some c) false (' ' :: d :: rest) = keptBlank c d ++ keyFrom none false (d :: rest) := by
  rw [keyFrom, if_pos Text.isBlank_space, keyFrom, keyFrom, hd, keptBlank]
  simp only [Bool.false_eq_true, if_false, Bool.false_and, Bool.true_and, Option.any_some]
  split
  · rfl
  · rfl

end

/-- Words with operators between them. -/
structure Spaced (w : List Char) (rest : List (List Char × List Char)) : Prop where
  first : IsWord w
  rest : ∀ p ∈ rest, p.1 ∈ separators ∧ IsWord p.2

theorem Spaced.tail {w s w' : List Char} {rest : List (List Char × List Char)}
    (h : Spaced w ((s, w') :: rest)) : s ∈ separators ∧ Spaced w' rest :=
  have hhead := h.rest (s, w') List.mem_cons_self
  ⟨hhead.1, hhead.2, fun p hp => h.rest p (List.mem_cons_of_mem _ hp)⟩

section

variable {w : List Char} {rest : List (List Char × List Char)}

theorem IsWord.shape (hw : IsWord w) : CoreShape w := coreShape_of_mem hw.mem_core

theorem IsWord.ne_nil (hw : IsWord w) : w ≠ [] := by
  obtain ⟨c, r, rfl, -⟩ := (IsWord.shape hw).head
  exact List.cons_ne_nil c r

theorem exists_spaced (w : List Char) (rest : List (List Char × List Char)) :
    ∃ r, spaced w rest = w ++ r := by
  cases rest with
  | nil => exact ⟨[], (List.append_nil w).symm⟩
  | cons p rest => exact ⟨_, rfl⟩

theorem keyFrom_spaced (h : Spaced w rest) {last : Option Char} {y : List Char} (hy : Blank y) :
    keyFrom last false (spaced w rest ++ y) = spacedKey w rest := by
  induction rest generalizing w last with
  | nil =>
    rw [spaced, spacedKey, keyFrom_append (IsWord.ne_nil h.first) fun c => (IsWord.shape h.first).not_isBlank,
      keyFrom_end hy, List.append_nil]
  | cons p rest ih =>
    obtain ⟨s, w'⟩ := p
    obtain ⟨hs, htail⟩ := h.tail
    have hsne := separator_ne_nil hs
    have hsblank : ∀ c ∈ s, Text.isBlank c = false :=
      fun c hc => isBlank_of_operator (operatorChar_of_separator hs c hc)
    obtain ⟨d, s', hsd⟩ := List.exists_cons_of_ne_nil hsne
    obtain ⟨e, r, hwe⟩ := List.exists_cons_of_ne_nil (IsWord.ne_nil htail.first)
    obtain ⟨q, hq⟩ := exists_spaced w' rest
    have htext : spaced w ((s, w') :: rest) ++ y = w ++ ' ' :: (s ++ ' ' :: (spaced w' rest ++ y)) := by
      simp [spaced]
    rw [htext, keyFrom_append (IsWord.ne_nil h.first) fun c => (IsWord.shape h.first).not_isBlank]
    have hspace : keyFrom (some (lastChar w)) false (' ' :: (s ++ ' ' :: (spaced w' rest ++ y))) =
        keptBlank (lastChar w) (headChar s) ++
          keyFrom none false (s ++ ' ' :: (spaced w' rest ++ y)) := by
      rw [hsd]
      exact keyFrom_space (hsblank d (by rw [hsd]; exact List.mem_cons_self))
    have hspace' : keyFrom (some (lastChar s)) false (' ' :: (spaced w' rest ++ y)) =
        keptBlank (lastChar s) (headChar w') ++ keyFrom none false (spaced w' rest ++ y) := by
      rw [hq, hwe, List.cons_append, List.cons_append]
      exact keyFrom_space ((IsWord.shape htail.first).not_isBlank (by rw [hwe]; exact List.mem_cons_self))
    rw [hspace, keyFrom_append hsne hsblank, hspace', ih htail, spacedKey]

/-! ## Reading the key -/

/-- What follows a word in a key: nothing, a blank or an operator. -/
def EndsWord (text : List Char) : Prop :=
  ∀ c, text.head? = some c → c = ' ' ∨ c ∈ operatorChars

/-- A word is no beginning of another before the end of a word. -/
theorem word_prefix {w w' u r : List Char} (hw : IsWord w) (hw' : IsWord w') (h : w' = w ++ u)
    (hr : EndsWord (u ++ r)) : u = [] := by
  cases u with
  | nil => rfl
  | cons c u =>
    rcases hr c rfl with rfl | hc
    · exfalso
      have := (IsWord.shape hw').not_isBlank (c := ' ') (by rw [h]; simp)
      rw [Text.isBlank_space] at this
      cases this
    · -- An operator in a word is the sign of an exponent, but no word ends before it.
      exfalso
      obtain ⟨m, e, rfl, hm, hdigits, he, -⟩ := (IsWord.shape hw').sign h hc
      refine NameShape.head_not_digitOrPoint (m := m) (r := [e]) ?_ hm hdigits
      exact (IsWord.shape hw).name_of_last rfl he

/-- A word ends where the other does. -/
theorem word_unique {w w' r r' : List Char} (hw : IsWord w) (hw' : IsWord w') (hr : EndsWord r)
    (hr' : EndsWord r') (h : w ++ r = w' ++ r') : w = w' ∧ r = r' := by
  rcases List.append_eq_append_iff.1 h with ⟨u, hu, ht⟩ | ⟨u, hu, ht⟩
  · have := word_prefix hw hw' hu (by rw [← ht]; exact hr)
    subst this
    exact ⟨by simpa using hu.symm, by simpa using ht⟩
  · have := word_prefix hw' hw hu (by rw [← ht]; exact hr')
    subst this
    exact ⟨by simpa using hu, by simpa using ht.symm⟩

/-- An operator ends where the other does. -/
theorem operator_unique {s s' r r' : List Char} (hs : s ∈ separators) (hs' : s' ∈ separators)
    (hr : ∀ c, r.head? = some c → c ∉ operatorChars) (hr' : ∀ c, r'.head? = some c → c ∉ operatorChars)
    (h : s ++ r = s' ++ r') : s = s' ∧ r = r' := by
  have htake : ∀ {s r : List Char}, s ∈ separators → (∀ c, r.head? = some c → c ∉ operatorChars) →
      (s ++ r).takeWhile (· ∈ operatorChars) = s := fun hs hr =>
    Text.takeWhile_append (fun c hc => by simpa using operatorChar_of_separator hs c hc)
      fun c hc => by simpa using hr c hc
  have heq : s = s' := by rw [← htake hs hr, h, htake hs' hr']
  subst heq
  exact ⟨rfl, List.append_cancel_left h⟩

theorem keptBlank_eq (c d : Char) : keptBlank c d = [] ∨ keptBlank c d = [' '] := by
  rw [keptBlank]
  split
  · exact .inr rfl
  · exact .inl rfl

set_option maxRecDepth 20000 in
theorem joinClass_separator {s : List Char} (hs : s ∈ separators) :
    JoinClass.of (headChar s) = .symbol := by
  have hall : ∀ s ∈ separators, JoinClass.of (headChar s) = .symbol := by decide
  exact hall s hs

/-- What is left of a blank before an operator depends on what is before it only. -/
theorem keptBlank_separator {s s' : List Char} (hs : s ∈ separators) (hs' : s' ∈ separators) (c : Char) :
    keptBlank c (headChar s) = keptBlank c (headChar s') := by
  rw [keptBlank, keptBlank, keepsApart, keepsApart, joinClass_separator hs, joinClass_separator hs']

theorem exists_spacedKey (w : List Char) (rest : List (List Char × List Char)) :
    ∃ r, spacedKey w rest = w ++ r := by
  cases rest with
  | nil => exact ⟨[], (List.append_nil w).symm⟩
  | cons p rest => exact ⟨_, rfl⟩

theorem startsCore_of_spacedKey (h : Spaced w rest) :
    ∀ c, (spacedKey w rest).head? = some c → startsCore c = true := by
  intro c hc
  obtain ⟨d, r, rfl, hd⟩ := (IsWord.shape h.first).head
  obtain ⟨q, hq⟩ := exists_spacedKey (d :: r) rest
  rw [hq] at hc
  rw [← Option.some.inj hc]
  exact hd

theorem endsWord_operator {s r : List Char} (hs : s ∈ separators) (c d : Char) :
    EndsWord (keptBlank c d ++ (s ++ r)) := by
  intro e he
  rcases keptBlank_eq c d with h | h
  · rw [h] at he
    obtain ⟨a, s, rfl⟩ := List.exists_cons_of_ne_nil (separator_ne_nil hs)
    rw [← Option.some.inj he]
    exact .inr (operatorChar_of_separator hs a List.mem_cons_self)
  · rw [h] at he
    exact .inl (Option.some.inj he).symm

/-- What is left of a blank stands apart from the word behind it. -/
theorem keptBlank_unique {w' : List Char} {rest' : List (List Char × List Char)} {a b c d : Char}
    (h : Spaced w rest) (h' : Spaced w' rest')
    (hkey : keptBlank a b ++ spacedKey w rest = keptBlank c d ++ spacedKey w' rest') :
    spacedKey w rest = spacedKey w' rest' := by
  have hnot : ∀ {w : List Char} {rest : List (List Char × List Char)} {r : List Char},
      Spaced w rest → spacedKey w rest ≠ ' ' :: r := by
    intro w rest r h hr
    have := startsCore_of_spacedKey h ' ' (by rw [hr]; rfl)
    rw [startsCore_of_isBlank Text.isBlank_space] at this
    cases this
  rcases keptBlank_eq a b with hab | hab <;> rcases keptBlank_eq c d with hcd | hcd <;>
    rw [hab, hcd] at hkey
  · exact hkey
  · exact absurd hkey (hnot h)
  · exact absurd hkey.symm (hnot h')
  · exact List.append_cancel_left hkey

theorem not_operator_of_keptBlank (h : Spaced w rest) (c d : Char) :
    ∀ e, (keptBlank c d ++ spacedKey w rest).head? = some e → e ∉ operatorChars := by
  intro e he hop
  rcases keptBlank_eq c d with hcd | hcd
  · rw [hcd] at he
    have := startsCore_of_spacedKey h e he
    rw [startsCore_of_operator hop] at this
    cases this
  · rw [hcd] at he
    rw [← Option.some.inj he] at hop
    exact absurd hop (by decide)

/-- The key tells the words and the operators. -/
theorem spaced_eq_of_spacedKey {w' : List Char} {rest' : List (List Char × List Char)}
    (h : Spaced w rest) (h' : Spaced w' rest') (hkey : spacedKey w rest = spacedKey w' rest') :
    spaced w rest = spaced w' rest' := by
  have hnil : EndsWord [] := fun c hc => by cases hc
  induction rest generalizing w w' rest' with
  | nil =>
    cases rest' with
    | nil => exact hkey
    | cons p rest' =>
      obtain ⟨s, w₂⟩ := p
      obtain ⟨hs, -⟩ := h'.tail
      rw [spacedKey, spacedKey, ← List.append_nil w] at hkey
      obtain ⟨-, hr⟩ := word_unique h.first h'.first hnil (endsWord_operator hs _ _) hkey
      exact absurd hr.symm (by simp [separator_ne_nil hs])
  | cons p rest ih =>
    obtain ⟨s, w₁⟩ := p
    obtain ⟨hs, htail⟩ := h.tail
    cases rest' with
    | nil =>
      rw [spacedKey, spacedKey, ← List.append_nil w'] at hkey
      obtain ⟨-, hr⟩ := word_unique h.first h'.first (endsWord_operator hs _ _) hnil hkey
      exact absurd hr (by simp [separator_ne_nil hs])
    | cons p rest' =>
      obtain ⟨s', w₂⟩ := p
      obtain ⟨hs', htail'⟩ := h'.tail
      rw [spacedKey, spacedKey] at hkey
      obtain ⟨rfl, hr⟩ := word_unique h.first h'.first (endsWord_operator hs _ _)
        (endsWord_operator hs' _ _) hkey
      rw [keptBlank_separator hs hs'] at hr
      obtain ⟨rfl, hr⟩ := operator_unique hs hs' (not_operator_of_keptBlank htail _ _)
        (not_operator_of_keptBlank htail' _ _) (List.append_cancel_left hr)
      rw [spaced, spaced, ih htail htail' (keptBlank_unique htail htail' hr)]

/-- Chains of words between blanks that have the same key are the same. -/
theorem spaced_eq_of_cacheKey {w' z y z' y' : List Char} {rest' : List (List Char × List Char)}
    (h : Spaced w rest) (h' : Spaced w' rest') (hz : Blank z) (hy : Blank y) (hz' : Blank z')
    (hy' : Blank y') (hkey : cacheKey (z ++ spaced w rest ++ y) = cacheKey (z' ++ spaced w' rest' ++ y')) :
    spaced w rest = spaced w' rest' := by
  have hkeys := String.ofList_injective hkey
  rw [List.append_assoc, List.append_assoc, keyFrom_blank hz, keyFrom_blank hz', keyFrom_spaced h hy,
    keyFrom_spaced h' hy'] at hkeys
  exact spaced_eq_of_spacedKey h h' hkeys

end

end Formula
