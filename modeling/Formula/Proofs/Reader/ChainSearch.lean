import Formula.Proofs.Reader.Chain

/-!
# Which operator of a chain is found

In a chain the search for assignments finds the first equals sign (`find?_assignment`), and the search
for the operators of one precedence finds the last of them, provided that no operator of the chain
binds more loosely (`find?_level`). A search whose operators all bind more loosely than those of the
chain finds nothing (`find?_level_eq_none`).
-/

set_option autoImplicit false

namespace Formula

open Lexeme

/-- The precedence of a separator; an equals sign binds most loosely. -/
def level (s : List Char) : Nat :=
  ((BinaryOperator.ofSymbol? s).map BinaryOperator.precedence).getD 0

theorem level_cases {s : List Char} (hs : s ∈ separators) :
    (s = ['='] ∧ level s = 0) ∨ (s ≠ ['='] ∧ 0 < level s ∧ level s ≤ 8) := by
  have hall : separators.all (fun s => (s = ['='] ∧ level s = 0) ∨
      (s ≠ ['='] ∧ 0 < level s ∧ level s ≤ 8)) = true := by decide
  simpa using List.all_eq_true.1 hall s hs

theorem isAnchorFree_level : levelPatterns.all Pattern.isAnchorFree = true := by decide

/-- The patterns of the default grammar tell the precedences of the operators. -/
theorem mem_lang_level {i : Nat} (hi : i < levelPatterns.length) {s : List Char} :
    s ∈ levelPatterns[i].lang ↔ s ∈ separators ∧ level s = i + 1 := by
  have hall : (List.range 8).all (fun i => match (levelPatterns[i]?).bind Pattern.words? with
      | none => false
      | some ws => ws.all (fun s => s ∈ separators ∧ level s = i + 1) &&
        separators.all fun s => level s = i + 1 → s ∈ ws) = true := by decide
  have h := List.all_eq_true.1 hall i (List.mem_range.2 hi)
  rw [List.getElem?_eq_getElem hi, Option.bind_some] at h
  split at h
  · cases h
  · next ws hws =>
    rw [Bool.and_eq_true, List.all_eq_true, List.all_eq_true] at h
    rw [Pattern.mem_lang_iff_mem_words hws]
    constructor
    · intro hs
      simpa using h.1 s hs
    · rintro ⟨hs, hl⟩
      have := h.2 s hs
      rw [decide_eq_true_eq] at this
      exact this hl

/-! ## Operators of a chain have operands on both sides -/

variable {z t : List Char} {l : Leaf} {links : Links}

theorem exists_last_leaf (z : List Char) (l : Leaf) (links : Links) (hz : EdgeBefore z) :
    ∃ (u : List Char) (l' : Leaf), z ++ chainText l links = u ++ l'.text ∧ EdgeBefore u := by
  induction links generalizing z l with
  | nil => exact ⟨z, l, by rw [chainText_nil], hz⟩
  | cons p links ih =>
    obtain ⟨s, l'⟩ := p
    obtain ⟨u, l₂, hu, hedge⟩ := ih (z ++ l.text ++ ' ' :: (s ++ [' '])) l' (by
      intro c hc
      have hc : ' ' = c := by simpa [List.getLast?_cons] using hc
      rw [← hc]
      exact isEdge_of_isBlank Text.isBlank_space)
    exact ⟨u, l₂, by rw [← hu, chainText_cons]; simp, hedge⟩

theorem endsWith_chain (l : Leaf) (links : Links) (hz : EdgeBefore z) (ht : Blank t) :
    operandAtEnd.OccursIn (z ++ chainText l links ++ t) := by
  obtain ⟨u, l', hu, hedge⟩ := exists_last_leaf z l links hz
  exact endsWithOperand_iff.2 ⟨u, l'.text, t, by rw [hu], hedge, l'.text_mem_operand, ht⟩

theorem startsWith_chain (l : Leaf) (links : Links) (hz : Blank z) (ht : Blank t) :
    operandAtStart.OccursIn (z ++ chainText l links ++ t) := by
  refine startsWithOperand_iff.2 ⟨z, l.text, links.text ++ t, by simp [chainText], hz,
    l.text_mem_operand, ?_⟩
  intro c hc
  cases links with
  | nil => exact isEdge_of_isBlank (ht c (List.mem_of_head? hc))
  | cons p links =>
    obtain ⟨s, l'⟩ := p
    rw [Links.text_cons] at hc
    cases hc
    exact isEdge_of_isBlank Text.isBlank_space

theorem edgeBefore_of_blank (hz : Blank z) : EdgeBefore z :=
  fun c hc => isEdge_of_isBlank (hz c (List.mem_of_getLast? hc))

theorem blank_space : Blank [' '] := by
  simp [Blank, Text.isBlank_space]

/-- A blank text does not end with an operand. -/
theorem not_endsWith_blank (hz : Blank z) : ¬ operandAtEnd.OccursIn z := by
  intro h
  obtain ⟨d, hd, -⟩ := endsCore_of_endsWith h
  rw [← List.nil_append z, coreEnd?_append hz] at hd
  cases hd

section

variable {p : OperatorPatterns} (hl : p.left = operandAtEnd) (hr : p.right = operandAtStart)

include hl hr

/-- A separator fits where its operator is searched for. -/
theorem fits_separator {before after : Links} {s : List Char} {l' : Leaf} (hz : Blank z)
    (ht : Blank t) (hs : s ∈ separators) (hmem : s ∈ p.symbol.lang)
    (hadmits : p.notPrecededBy ≠ some ' ') :
    p.Fits (z ++ chainText l before ++ [' ']) s (' ' :: chainText l' after ++ t) where
  ne_nil := separator_ne_nil hs
  mem_lang := hmem
  admits := by
    simp only [OperatorSearch.admits, OperatorPatterns.search, List.reverse_append,
      List.reverse_singleton, List.singleton_append]
    split
    · next c d r hc hd =>
      injection hd with hd
      subst hd
      rw [hc] at hadmits
      simpa using hadmits
    · rfl
  left := by
    rw [hl]
    exact endsWith_chain l before (edgeBefore_of_blank hz) blank_space
  right := by
    rw [hr]
    exact startsWith_chain (z := [' ']) l' after blank_space ht

/-- What fits in a chain is one of the splits. -/
theorem split_of_fits (hz : Blank z) (ht : Blank t) (hlinks : links.Valid) {x s y : List Char}
    (hs : s ∈ separators) (h : z ++ chainText l links ++ t = x ++ s ++ y) (hfits : p.Fits x s y) :
    Split z l links t x s y := by
  have hleft := hfits.left
  have hright := hfits.right
  rw [hl] at hleft
  rw [hr] at hright
  obtain ⟨c, s', rfl⟩ := List.exists_cons_of_ne_nil (separator_ne_nil hs)
  rw [List.append_assoc, List.append_assoc] at h
  rcases append_cons_cases h with ⟨b, rfl, -⟩ | ⟨x', rfl, hx'⟩
  · have hb := hz c (by simp)
    rw [isBlank_of_operator (operatorChar_of_separator hs c List.mem_cons_self)] at hb
    cases hb
  · exact split_cases (not_endsWith_blank hz) (fun c hc => hz c (List.mem_of_getLast? hc)) ht hlinks hs
      (by rw [hx']; simp) hleft hright

end

/-! ## The last operator of a precedence, and the first equals sign -/

/-- The separators of a precedence are not lost when the last of them is found: every other place of
one lies before it. -/
theorem suffix_of_last {before after before' after' : Links} {q q' : List Char × Leaf}
    (h : before ++ q :: after = before' ++ q' :: after') (hlast : q' ∉ after) :
    (before = before' ∧ q = q' ∧ after = after') ∨ ∃ c, after' = c ++ q :: after := by
  rcases List.append_eq_append_iff.1 h with ⟨c, hb, hq⟩ | ⟨c, hb, hq⟩
  · cases c with
    | nil =>
      injection hq with h1 h2
      exact .inl ⟨by simpa using hb.symm, h1, h2⟩
    | cons d c =>
      injection hq with h1 h2
      exact absurd (by rw [h2]; simp) hlast
  · cases c with
    | nil =>
      injection hq with h1 h2
      exact .inl ⟨by simpa using hb, h1.symm, h2.symm⟩
    | cons d c =>
      injection hq with h1 h2
      subst h1
      exact .inr ⟨c, h2⟩

theorem length_chainText_lt (l l' : Leaf) (c after : Links) (s : List Char) :
    (chainText l' after).length < (chainText l (c ++ (s, l') :: after)).length := by
  rw [chainText_append]
  simp only [List.length_append, List.length_cons]
  omega

theorem level_sign {s : List Char} (hs : s ∈ [['+'], ['-']]) : level s = 6 := by
  have hall : [['+'], ['-']].all (fun s => level s = 6) = true := by decide
  simpa using List.all_eq_true.1 hall s hs

theorem level_behind {s : List Char} (hs : s ∈ [['+'], ['-'], ['%']]) :
    level s = 6 ∨ level s = 7 := by
  have hall : [['+'], ['-'], ['%']].all (fun s => level s = 6 ∨ level s = 7) = true := by
    decide
  simpa using List.all_eq_true.1 hall s hs

/-- A search for operators that bind more loosely than all of a chain finds nothing. -/
theorem find?_level_eq_none {i : Nat} (hi : i < levelPatterns.length) (hz : Blank z) (ht : Blank t)
    (hlinks : links.Valid) (hlevels : ∀ p ∈ links, level p.1 = 0 ∨ i + 1 < level p.1) :
    (operatorPatterns levelPatterns[i]).search.find? (z ++ chainText l links ++ t) = none := by
  have hfree : levelPatterns[i].isAnchorFree = true :=
    List.all_eq_true.1 isAnchorFree_level _ (List.getElem_mem hi)
  cases hfind : (operatorPatterns levelPatterns[i]).search.find? (z ++ chainText l links ++ t) with
  | none => rfl
  | some token =>
    exfalso
    obtain ⟨front, s, back, htext, -, hfits, -⟩ := OperatorPatterns.find?_backward rfl hfree hfind
    obtain ⟨hs, hlevel⟩ := (mem_lang_level hi).1 hfits.mem_lang
    cases split_of_fits rfl rfl hz ht hlinks hs htext hfits with
    | separator heq =>
      have := hlevels _ (by rw [heq]; exact List.mem_append_right _ List.mem_cons_self)
      dsimp only at this
      omega
    | sign heq hsign hmem =>
      have := hlevels _ (by rw [heq]; exact List.mem_append_right _ List.mem_cons_self)
      have := level_sign hsign
      have := level_behind hmem
      dsimp only at *
      omega

/-- The search for the operators of the loosest precedence in a chain finds the last of them. -/
theorem find?_level {i : Nat} (hi : i < levelPatterns.length) (hz : Blank z) (ht : Blank t)
    {before after : Links} {s : List Char} {l' : Leaf} (heq : links = before ++ (s, l') :: after)
    (hlinks : links.Valid) (hlevels : ∀ p ∈ links, i + 1 ≤ level p.1) (hs : level s = i + 1)
    (hlast : ∀ p ∈ after, i + 1 < level p.1) :
    (operatorPatterns levelPatterns[i]).search.find? (z ++ chainText l links ++ t) =
      some ⟨s, Text.byteSize (z ++ chainText l before ++ [' '])⟩ := by
  have hfree : levelPatterns[i].isAnchorFree = true :=
    List.all_eq_true.1 isAnchorFree_level _ (List.getElem_mem hi)
  have hmem : s ∈ separators := hlinks (s, l') (by rw [heq]; simp)
  have htext : z ++ chainText l links ++ t =
      z ++ chainText l before ++ [' '] ++ s ++ (' ' :: chainText l' after ++ t) := by
    rw [heq, chainText_append]
    simp
  refine OperatorPatterns.find?_backward_eq_some rfl hfree htext
    (fits_separator rfl rfl hz ht hmem ((mem_lang_level hi).2 ⟨hmem, hs⟩) (by simp [operatorPatterns]))
    ?_
  intro front' s' back' htext' hfits
  obtain ⟨hs', hlevel'⟩ := (mem_lang_level hi).1 hfits.mem_lang
  -- Wherever a split is, the link that it belongs to is this one or an earlier one.
  have hlater : ∀ {q : List Char × Leaf} {before' after' : Links},
      links = before' ++ q :: after' → level q.1 = i + 1 →
      (before = before' ∧ (s, l') = q ∧ after = after') ∨ ∃ c, after' = c ++ (s, l') :: after := by
    intro q before' after' hq hlevel
    refine suffix_of_last (heq.symm.trans hq) fun hmem => ?_
    have := hlast q hmem
    omega
  cases split_of_fits rfl rfl hz ht hlinks hs' htext' hfits with
  | @separator before' after' s' l₂ heq' =>
    rcases hlater heq' hlevel' with ⟨rfl, hq, rfl⟩ | ⟨c, rfl⟩
    · cases hq
      exact .inr ⟨rfl, Nat.le_refl _⟩
    · refine .inl ?_
      have := length_chainText_lt l₂ l' c after s
      simp only [List.length_append, List.length_cons]
      omega
  | @sign before' after' x s' y sign l₂ heq' hsign hmem' hlen =>
    refine .inl (Nat.lt_of_le_of_lt ?_ hlen)
    have hsix := level_sign hsign
    have hle := hlevels (sign, l₂) (by rw [heq']; simp)
    have := level_behind hmem'
    rcases hlater heq' (by dsimp only at *; omega) with ⟨rfl, hq, rfl⟩ | ⟨c, rfl⟩
    · cases hq
      exact Nat.le_refl _
    · have := length_chainText_lt l₂ l' c after s
      simp only [List.cons_append, List.length_append, List.length_cons]
      omega

theorem isAnchorFree_assignment : assignmentPatterns.symbol.isAnchorFree = true := rfl

/-- A chain without equals signs is no assignment. -/
theorem find?_assignment_eq_none (hz : Blank z) (ht : Blank t) (hlinks : links.Valid)
    (hlevels : ∀ p ∈ links, level p.1 ≠ 0) :
    assignmentPatterns.search.find? (z ++ chainText l links ++ t) = none := by
  cases hfind : assignmentPatterns.search.find? (z ++ chainText l links ++ t) with
  | none => rfl
  | some token =>
    exfalso
    obtain ⟨front, s, back, htext, -, hfits, -⟩ :=
      OperatorPatterns.find?_forward rfl isAnchorFree_assignment hfind
    have hs : s = ['='] := mem_char.1 hfits.mem_lang
    subst hs
    cases split_of_fits rfl rfl hz ht hlinks (by decide) htext hfits with
    | separator heq => exact hlevels _ (by rw [heq]; exact List.mem_append_right _ List.mem_cons_self) rfl
    | sign _ _ hmem => exact absurd hmem (by decide)

/-- The search for assignments finds the first equals sign. -/
theorem find?_assignment (hz : Blank z) (ht : Blank t) {before after : Links} {l' : Leaf}
    (heq : links = before ++ (['='], l') :: after) (hlinks : links.Valid)
    (hfirst : ∀ p ∈ before, level p.1 ≠ 0) :
    assignmentPatterns.search.find? (z ++ chainText l links ++ t) =
      some ⟨['='], Text.byteSize (z ++ chainText l before ++ [' '])⟩ := by
  have htext : z ++ chainText l links ++ t =
      z ++ chainText l before ++ [' '] ++ ['='] ++ (' ' :: chainText l' after ++ t) := by
    rw [heq, chainText_append]
    simp
  refine OperatorPatterns.find?_forward_eq_some rfl isAnchorFree_assignment htext
    (fits_separator rfl rfl hz ht (by decide) (mem_char.2 rfl) (by simp [assignmentPatterns])) ?_ ?_
  · intro w' back' _ _ hw'
    rw [mem_char.1 hw']
  · intro front' s' back' htext hfits
    have hs' : s' = ['='] := mem_char.1 hfits.mem_lang
    subst hs'
    cases split_of_fits rfl rfl hz ht hlinks (by decide) htext hfits with
    | @separator before' after' _ l₂ heq' =>
      rcases List.append_eq_append_iff.1 (heq.symm.trans heq') with ⟨c, rfl, -⟩ | ⟨c, rfl, hq⟩
      · simp [chainText, Links.text_append]
      · cases c with
        | nil => simp
        | cons q c =>
          injection hq with h1
          subst h1
          exact absurd rfl (hfirst (['='], l₂) (by simp))
    | sign _ _ hmem => exact absurd hmem (by decide)

end Formula
