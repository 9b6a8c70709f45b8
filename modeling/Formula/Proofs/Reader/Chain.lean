import Formula.Proofs.Grammar.OperandSearch

/-!
# Chains of operands and operators

A chain is written with single spaces: operands, each with at most one unary operator on either side,
and between them binary operators or equals signs (`chainText`). `split_cases` lists all the places
where an operator with operands on both sides can be found in such a text: the operators themselves,
and signs of unary operators behind an operand which a plus or minus sign follows. It goes along the
chain: such a place lies in the first leaf (`split_first`), in the separator after it (`split_link`) or
behind, and there is none in the last leaf (`no_split_last`).
-/

set_option autoImplicit false

namespace Formula

open Lexeme
open scoped Computability

/-- What stands between the operators of a chain: an operand with at most one unary operator in front
and at most one behind. -/
structure Leaf where
  front : List Char
  core : List Char
  back : List Char
  front_mem : front ∈ [] :: frontWords
  core_mem : core ∈ Lexeme.core.lang
  back_mem : back ∈ [] :: backWords

/-- The text of a leaf. -/
def Leaf.text (l : Leaf) : List Char :=
  l.front ++ l.core ++ l.back

/-- What a chain has between its operands: the spellings of the binary operators and the equals
sign. -/
def separators : List (List Char) :=
  [['|', '|'], ['∨'], ['⊕'], ['&', '&'], ['∧'], ['=', '='], ['!', '='], ['<', '>'], ['≠'], ['<', '='],
   ['>', '='], ['<'], ['>'], ['≤'], ['≥'], ['+'], ['-'], ['%', '%'], ['/', '/'], ['*'], ['×'], ['/'],
   ['÷'], ['%'], ['^'], ['=']]

/-- The separators of a chain, each with the leaf after it. -/
abbrev Links := List (List Char × Leaf)

/-- A chain after its first leaf. -/
def Links.text (links : Links) : List Char :=
  links.flatMap fun (s, l) => ' ' :: (s ++ ' ' :: l.text)

/-- The text of a chain. -/
def chainText (l : Leaf) (links : Links) : List Char :=
  l.text ++ links.text

/-- The links of a chain stand for separators. -/
def Links.Valid (links : Links) : Prop :=
  ∀ p ∈ links, p.1 ∈ separators

/-! ## Leaves and separators -/

theorem separator_ne_nil {s : List Char} (h : s ∈ separators) : s ≠ [] := by
  have hall : separators.all (fun s => s ≠ []) = true := by decide
  simpa using List.all_eq_true.1 hall s h

theorem operatorChar_of_separator {s : List Char} (h : s ∈ separators) :
    ∀ c ∈ s, c ∈ operatorChars := by
  have hall : separators.all (fun s => s.all (· ∈ operatorChars)) = true := by decide
  simpa using List.all_eq_true.1 hall s h

theorem space_not_mem_separator {s : List Char} (h : s ∈ separators) : ' ' ∉ s :=
  fun hs => absurd (operatorChar_of_separator h _ hs) (by decide)

theorem operatorChar_of_front {l : Leaf} : ∀ c ∈ l.front, c ∈ operatorChars := by
  have hall : ([] :: frontWords).all (fun s => s.all (· ∈ operatorChars)) = true := by decide
  simpa using List.all_eq_true.1 hall l.front l.front_mem

theorem operatorChar_of_back {l : Leaf} : ∀ c ∈ l.back, c ∈ operatorChars := by
  have hall : ([] :: backWords).all (fun s => s.all (· ∈ operatorChars)) = true := by decide
  simpa using List.all_eq_true.1 hall l.back l.back_mem

theorem Leaf.text_mem_operand (l : Leaf) : l.text ∈ operand.lang := by
  refine lang_operand.2 ⟨l.front, l.core, l.back, rfl, ?_, l.core_mem, ?_⟩
  · have h := l.front_mem
    rw [List.mem_cons] at h
    rcases h with h | h
    · rw [h]
      exact Language.nil_mem_kstar _
    · refine Language.mem_kstar.2 ⟨[l.front], by simp, ?_⟩
      intro y hy
      rw [List.mem_singleton.1 hy]
      exact ⟨l.front, lang_frontOperator.2 h, [], mem_blanks.2 (by simp), List.append_nil _⟩
  · have h := l.back_mem
    rw [List.mem_cons] at h
    rcases h with h | h
    · rw [h]
      exact Language.nil_mem_kstar _
    · refine Language.mem_kstar.2 ⟨[l.back], by simp, ?_⟩
      intro y hy
      rw [List.mem_singleton.1 hy]
      exact lang_backOperator.2 h

theorem Leaf.text_ne_nil (l : Leaf) : l.text ≠ [] := by
  obtain ⟨c, rest, hc, -⟩ := (coreShape_of_mem l.core_mem).head
  simp [Leaf.text, hc]

theorem Leaf.not_isBlank (l : Leaf) : ∀ c ∈ l.text, Text.isBlank c = false := by
  intro c hc
  simp only [Leaf.text, List.mem_append] at hc
  rcases hc with (hc | hc) | hc
  · exact isBlank_of_operator (operatorChar_of_front c hc)
  · exact (coreShape_of_mem l.core_mem).not_isBlank hc
  · exact isBlank_of_operator (operatorChar_of_back c hc)

@[simp] theorem Links.text_cons (s : List Char) (l : Leaf) (links : Links) :
    Links.text ((s, l) :: links) = ' ' :: (s ++ ' ' :: chainText l links) := by
  simp [Links.text, chainText]

theorem Links.text_append (links links' : Links) :
    Links.text (links ++ links') = Links.text links ++ Links.text links' := by
  simp [Links.text]

@[simp] theorem chainText_nil (l : Leaf) : chainText l [] = l.text := List.append_nil _

theorem chainText_cons (l : Leaf) (s : List Char) (l' : Leaf) (links : Links) :
    chainText l ((s, l') :: links) = l.text ++ ' ' :: (s ++ ' ' :: chainText l' links) := by
  rw [chainText, Links.text_cons]

theorem chainText_append (l : Leaf) (links : Links) (s : List Char) (l' : Leaf) (links' : Links) :
    chainText l (links ++ (s, l') :: links') =
      chainText l links ++ ' ' :: (s ++ ' ' :: chainText l' links') := by
  simp [chainText, Links.text_append]

/-! ## Pieces of a text -/

/-- A piece without the first character of the second part lies in the first part or in the second. -/
theorem append_cases {x s y w t : List Char} (h : x ++ s ++ y = w ++ t)
    (ht : ∀ c, t.head? = some c → c ∉ s) : (∃ y', w = x ++ s ++ y' ∧ y = y' ++ t) ∨
    ∃ x', x = w ++ x' ∧ t = x' ++ s ++ y := by
  rcases List.append_eq_append_iff.1 h with ⟨y', hw, hy⟩ | ⟨r, hxs, ht'⟩
  · exact .inl ⟨y', hw, hy⟩
  · rcases List.append_eq_append_iff.1 hxs with ⟨s', hw, hs'⟩ | ⟨x', hx, hr⟩
    · -- The piece begins in the first part, so it has to end there.
      cases r with
      | nil =>
        rw [List.append_nil] at hs'
        exact .inl ⟨[], by rw [hw, hs', List.append_nil], by simpa using ht'.symm⟩
      | cons c r =>
        refine absurd ?_ (ht c (by rw [ht']; rfl))
        rw [hs']
        simp
    · exact .inr ⟨x', hx, by rw [ht', hr]⟩

/-- A character of a text lies in the first part or in the second. -/
theorem append_cons_cases {p r x t : List Char} {c : Char} (h : p ++ r = x ++ c :: t) :
    (∃ b, p = x ++ c :: b ∧ t = b ++ r) ∨ ∃ x', x = p ++ x' ∧ r = x' ++ c :: t := by
  rcases List.append_eq_append_iff.1 h with ⟨x', hx, hr⟩ | ⟨b, hp, hct⟩
  · exact .inr ⟨x', hx, hr⟩
  · cases b with
    | nil => exact .inr ⟨[], by simpa using hp.symm, hct.symm⟩
    | cons d b =>
      injection hct with hd ht
      subst hd
      exact .inl ⟨b, hp, ht⟩

/-! ## Operators inside a leaf -/

theorem back_length_le (l : Leaf) : l.back.length ≤ 2 := by
  have hall : ([] :: backWords).all (fun q : List Char => q.length ≤ 2) = true := by decide
  simpa using List.all_eq_true.1 hall l.back l.back_mem

/-- A separator inside the operator behind a leaf. -/
theorem split_back {l : Leaf} {x s y : List Char} (hs : s ∈ separators) (ht : l.back = x ++ s ++ y) :
    (x = [] ∧ s ∈ [['+'], ['-'], ['%']]) ∨ x = ['+'] ∨ x = ['-'] := by
  have hall : ([] :: backWords).all (fun q : List Char =>
      (List.range 3).all fun i => (List.range 3).all fun j => (q.drop i).take j ∈ separators →
        (i = 0 ∧ q.take j ∈ [['+'], ['-'], ['%']]) ∨ q.take i = ['+'] ∨ q.take i = ['-']) = true := by
    decide
  have hlen := back_length_le l
  rw [ht, List.append_assoc, List.length_append, List.length_append] at hlen
  have := List.all_eq_true.1 (List.all_eq_true.1 (List.all_eq_true.1 hall l.back l.back_mem) x.length
    (List.mem_range.2 (by omega))) s.length (List.mem_range.2 (by omega))
  rw [ht, List.append_assoc, List.drop_left, List.take_left, List.take_left, decide_eq_true_eq] at this
  rcases this hs with ⟨hx, hmem⟩ | h
  · have hx := List.length_eq_zero_iff.1 hx
    subst hx
    exact .inl ⟨rfl, by simpa using hmem⟩
  · exact .inr h

/-- No operand ends before a sign inside the operand of a leaf: that is the sign of an exponent. -/
theorem not_endsWith_core {l : Leaf} {z a b : List Char} {c : Char}
    (hblank : ∀ c, z.getLast? = some c → Text.isBlank c = true) (hcore : l.core = a ++ c :: b)
    (hop : c ∈ operatorChars) : ¬ operandAtEnd.OccursIn (z ++ (l.front ++ a)) := by
  obtain ⟨m, e, rfl, hm, hmall, he, -⟩ := (coreShape_of_mem l.core_mem).sign hcore hop
  intro hx
  have hx : operandAtEnd.OccursIn (z ++ l.front ++ m ++ [e]) := by simpa using hx
  refine not_endsWith_exponent hm hmall he (fun d hd => ?_) hx
  -- Before the digits there is blank space or an operator, but no name.
  rw [← Bool.not_eq_true]
  intro hname
  have hchar := isCoreChar_of_isNamePart hname
  rcases List.eq_nil_or_concat l.front with hf | ⟨f, g, hf⟩
  · rw [hf, List.append_nil] at hd
    rw [isCoreChar_of_isBlank (hblank d hd)] at hchar
    cases hchar
  · have hdg : g = d := by simpa [hf] using hd
    rw [isCoreChar_of_operator (operatorChar_of_front (l := l) d (by simp [hf, hdg]))] at hchar
    cases hchar

/-- No operand ends behind the first half of a double operator. -/
theorem not_endsWith_half_back {l : Leaf} {z : List Char} {a : Char} (ha : a = '+' ∨ a = '-') :
    ¬ operandAtEnd.OccursIn (z ++ (l.front ++ l.core) ++ [a]) := by
  refine not_endsWith_half ha ?_
  obtain ⟨w, d, hd, hend⟩ := (coreShape_of_mem l.core_mem).last
  rw [hd, ← List.append_assoc, ← List.append_assoc, List.getLast?_concat]
  intro h
  have hop : a ∈ operatorChars := by rcases ha with rfl | rfl <;> decide
  rw [Option.some.inj h, endsCore_of_operator hop] at hend
  cases hend

/-- An operator inside a leaf has an operand before it only where it is the first sign of the operator
behind. -/
theorem split_leaf {l : Leaf} {z x s y : List Char} (hz : ¬ operandAtEnd.OccursIn z)
    (hblank : ∀ c, z.getLast? = some c → Text.isBlank c = true) (hs : s ∈ separators)
    (ht : l.text = x ++ s ++ y) (hx : operandAtEnd.OccursIn (z ++ x)) :
    x = l.front ++ l.core ∧ l.back = s ++ y ∧ s ∈ [['+'], ['-'], ['%']] := by
  obtain ⟨c, s', rfl⟩ := List.exists_cons_of_ne_nil (separator_ne_nil hs)
  have hop := operatorChar_of_separator hs c List.mem_cons_self
  rw [Leaf.text, List.append_assoc, List.append_assoc] at ht
  rcases append_cons_cases ht with ⟨f, hf, -⟩ | ⟨x', rfl, ht'⟩
  · -- In the operator in front there is only blank space before it.
    exfalso
    cases x with
    | nil => exact hz (by simpa using hx)
    | cons d x =>
      refine not_endsWith_symbols (List.cons_ne_nil d x) (fun e he => ?_)
        Blank.nil hblank (by simpa using hx)
      exact operatorChar_of_front e (by rw [hf]; exact List.mem_append_left _ he)
  · rcases append_cons_cases ht' with ⟨r, hcore, -⟩ | ⟨x'', rfl, hback⟩
    · exact absurd hx (not_endsWith_core hblank hcore hop)
    · have hback : l.back = x'' ++ (c :: s') ++ y := by simpa using hback
      rcases split_back hs hback with ⟨rfl, hmem⟩ | rfl | rfl
      · exact ⟨by simp, by simpa using hback, hmem⟩
      · exact absurd (by simpa using hx) (not_endsWith_half_back (l := l) (z := z) (.inl rfl))
      · exact absurd (by simpa using hx) (not_endsWith_half_back (l := l) (z := z) (.inr rfl))

/-! ## Operators in a chain -/

/-- A place in a chain at which a search finds an operator with operands on both sides: one of the
separators, or a sign of the operator behind a leaf before a plus or minus. -/
inductive Split (z : List Char) (l : Leaf) (links : Links) (t : List Char) :
    List Char → List Char → List Char → Prop
  | separator {before after : Links} {s : List Char} {l' : Leaf} :
      links = before ++ (s, l') :: after →
      Split z l links t (z ++ chainText l before ++ [' ']) s (' ' :: chainText l' after ++ t)
  | sign {before after : Links} {x s y sign : List Char} {l' : Leaf} :
      links = before ++ (sign, l') :: after → sign ∈ [['+'], ['-']] → s ∈ [['+'], ['-'], ['%']] →
      (' ' :: (chainText l' after ++ t)).length < y.length → Split z l links t x s y

theorem startsCore_of_mem {s : List Char} (hs : s ∈ separators) :
    ∀ c ∈ s, startsCore c = false :=
  fun c hc => startsCore_of_operator (operatorChar_of_separator hs c hc)

/-- A separator all of whose characters may stand in front of an operand. -/
theorem sign_of_fronts {s : List Char} (hs : s ∈ separators)
    (h : ∀ c ∈ s, isFront c = true ∨ Text.isBlank c = true) : s ∈ [['+'], ['-']] := by
  have hall : separators.all (fun s => s.all (fun c => isFront c || Text.isBlank c) →
      s ∈ [['+'], ['-']]) = true := by decide
  have := List.all_eq_true.1 hall s hs
  rw [decide_eq_true_eq] at this
  exact this (by simpa using h)

/-- What is left of a separator is not in front of an operand. -/
theorem split_separator {s y f r : List Char} (hs : s ∈ separators) (hf : f ∈ separators)
    (ht : f = s ++ y) (hy : operandAtStart.OccursIn (y ++ ' ' :: r)) : y = [] := by
  have hall : separators.all (fun f => (f.drop 1).all fun c => !isFront c && !Text.isBlank c) = true := by
    decide
  rcases y with _ | ⟨c, y⟩
  · rfl
  · have hrest := List.all_eq_true.1 hall f hf
    have hmem : ∀ d ∈ c :: y, d ∈ f.drop 1 := by
      obtain ⟨a, s, rfl⟩ := List.exists_cons_of_ne_nil (separator_ne_nil hs)
      intro d hd
      rw [ht]
      simp only [List.cons_append, List.drop_succ_cons, List.drop_zero]
      exact List.mem_append_right _ hd
    have hfront := front_of_startsWith (f := c :: y) hy fun d hd =>
      startsCore_of_mem hf d (List.mem_of_mem_drop (hmem d hd))
    have hc := List.all_eq_true.1 hrest c (hmem c List.mem_cons_self)
    rcases hfront c List.mem_cons_self with h | h <;> simp [h] at hc

/-- What a chain with one more leaf in front adds to a split. -/
theorem Split.cons {z t x s y f : List Char} {l l' : Leaf} {links : Links}
    (h : Split (z ++ l.text ++ ' ' :: (f ++ [' '])) l' links t x s y) :
    Split z l ((f, l') :: links) t x s y := by
  cases h with
  | @separator before after s l₂ hlinks =>
    have hx : z ++ l.text ++ ' ' :: (f ++ [' ']) ++ chainText l' before ++ [' '] =
        z ++ chainText l ((f, l') :: before) ++ [' '] := by
      simp [chainText_cons]
    rw [hx]
    exact .separator (by rw [hlinks]; rfl)
  | @sign before after x s y sign l₂ hlinks hsign hs hlen =>
    have hlinks : (f, l') :: links = ((f, l') :: before) ++ (sign, l₂) :: after := by
      rw [hlinks]
      rfl
    exact .sign hlinks hsign hs hlen

theorem head_not_mem_separator {s t : List Char} (hs : s ∈ separators)
    (ht : ∀ c, t.head? = some c → Text.isBlank c = true) : ∀ c, t.head? = some c → c ∉ s := by
  intro c hc hmem
  have hb := ht c hc
  rw [isBlank_of_operator (operatorChar_of_separator hs c hmem)] at hb
  cases hb

theorem isBlank_head_space {r : List Char} :
    ∀ c, (' ' :: r).head? = some c → Text.isBlank c = true := by
  intro c hc
  cases hc
  exact Text.isBlank_space

theorem isBlank_head_of_blank {t : List Char} (ht : Blank t) :
    ∀ c, t.head? = some c → Text.isBlank c = true :=
  fun c hc => ht c (List.mem_of_head? hc)

/-- A separator is not at the start of blank space, but behind its first character. -/
theorem behind_space {s u r y : List Char} (hs : s ∈ separators) (h : ' ' :: r = u ++ s ++ y) :
    ∃ u', u = ' ' :: u' ∧ r = u' ++ s ++ y := by
  obtain ⟨c, s', rfl⟩ := List.exists_cons_of_ne_nil (separator_ne_nil hs)
  cases u with
  | nil =>
    injection h with hc
    exact absurd (by rw [hc]; exact List.mem_cons_self) (space_not_mem_separator hs)
  | cons d u =>
    injection h with hd hr
    exact ⟨u, by rw [hd], hr⟩

section
variable {z t x s y : List Char} {l : Leaf}

/-- What stands behind a separator inside a leaf are operator characters. -/
theorem startsCore_behind (hl : l.back = s ++ y) : ∀ c ∈ y, startsCore c = false :=
  fun c hc => startsCore_of_operator
    (operatorChar_of_back c (by rw [hl]; exact List.mem_append_right _ hc))

/-- There is no operator with operands on both sides in the last leaf, nor in the blank space behind. -/
theorem no_split_last (hz : ¬ operandAtEnd.OccursIn z)
    (hblank : ∀ c, z.getLast? = some c → Text.isBlank c = true) (ht : Blank t) (hs : s ∈ separators)
    (h : x ++ s ++ y = l.text ++ t) (hx : operandAtEnd.OccursIn (z ++ x)) :
    ¬ operandAtStart.OccursIn y := by
  intro hy
  rcases append_cases h (head_not_mem_separator hs (isBlank_head_of_blank ht)) with ⟨y', hl, rfl⟩ | ⟨x', -, hx'⟩
  · -- Nothing but blanks follows.
    obtain ⟨-, hback, -⟩ := split_leaf hz hblank hs hl hx
    obtain ⟨f, d, r, hfd, -, hd⟩ := exists_of_startsWith hy
    have hmem : d ∈ y' ++ t := by simp [hfd]
    rcases List.mem_append.1 hmem with hmem | hmem
    · rw [startsCore_behind hback d hmem] at hd
      cases hd
    · rw [startsCore_of_isBlank (ht d hmem)] at hd
      cases hd
  · obtain ⟨c, s', rfl⟩ := List.exists_cons_of_ne_nil (separator_ne_nil hs)
    have hb := ht c (by simp [hx'])
    rw [isBlank_of_operator (operatorChar_of_separator hs c List.mem_cons_self)] at hb
    cases hb

/-- In a leaf before a separator it is the sign of the operator behind, and the separator is a sign too. -/
theorem split_first {f r : List Char} (hz : ¬ operandAtEnd.OccursIn z)
    (hblank : ∀ c, z.getLast? = some c → Text.isBlank c = true) (hs : s ∈ separators)
    (hf : f ∈ separators) (hl : l.text = x ++ s ++ y) (hx : operandAtEnd.OccursIn (z ++ x))
    (hy : operandAtStart.OccursIn (y ++ ' ' :: (f ++ r))) :
    f ∈ [['+'], ['-']] ∧ s ∈ [['+'], ['-'], ['%']] := by
  obtain ⟨-, hback, hsign⟩ := split_leaf hz hblank hs hl hx
  have hy : operandAtStart.OccursIn ((y ++ ' ' :: f) ++ r) := by simpa using hy
  have hfront := front_of_startsWith hy fun c hc => by
    rcases List.mem_append.1 hc with hc | hc
    · exact startsCore_behind hback c hc
    · rcases List.mem_cons.1 hc with rfl | hc
      · exact startsCore_of_isBlank Text.isBlank_space
      · exact startsCore_of_mem hf c hc
  exact ⟨sign_of_fronts hf fun c hc => hfront c (by simp [hc]), hsign⟩

/-- Within a separator it is the whole separator. -/
theorem split_link {f r : List Char} (hs : s ∈ separators) (hf : f ∈ separators) (hfs : f = x ++ s ++ y)
    (hx : operandAtEnd.OccursIn (z ++ ' ' :: x)) (hy : operandAtStart.OccursIn (y ++ ' ' :: r)) :
    x = [] ∧ s = f ∧ y = [] := by
  cases x with
  | nil =>
    rw [List.nil_append] at hfs
    have hy := split_separator hs hf hfs hy
    exact ⟨rfl, by rw [hfs, hy, List.append_nil], hy⟩
  | cons c x =>
    have hx : operandAtEnd.OccursIn (z ++ [' '] ++ c :: x ++ []) := by simpa using hx
    refine absurd hx (not_endsWith_symbols (List.cons_ne_nil c x) (fun d hd => ?_) Blank.nil ?_)
    · refine operatorChar_of_separator hf d ?_
      rw [hfs]
      exact List.mem_append_left _ (List.mem_append_left _ hd)
    · simp [Text.isBlank_space]

end

/-- The places in a chain where a search finds an operator with operands on both sides. -/
theorem split_cases {z t x s y : List Char} {l : Leaf} {links : Links}
    (hz : ¬ operandAtEnd.OccursIn z) (hblank : ∀ c, z.getLast? = some c → Text.isBlank c = true)
    (ht : Blank t) (hlinks : links.Valid) (hs : s ∈ separators)
    (h : x ++ s ++ y = chainText l links ++ t) (hx : operandAtEnd.OccursIn (z ++ x))
    (hy : operandAtStart.OccursIn y) : Split z l links t (z ++ x) s y := by
  induction links generalizing z l x with
  | nil =>
    rw [chainText_nil] at h
    exact absurd hy (no_split_last hz hblank ht hs h hx)
  | cons p links ih =>
    obtain ⟨f, l'⟩ := p
    have hf : f ∈ separators := hlinks (f, l') List.mem_cons_self
    have hfirst : (f, l') :: links = [] ++ (f, l') :: links := rfl
    have h : x ++ s ++ y = l.text ++ ' ' :: (f ++ ' ' :: (chainText l' links ++ t)) := by
      rw [h, chainText_cons]
      simp
    rcases append_cases h (head_not_mem_separator hs isBlank_head_space) with
      ⟨y', hl, rfl⟩ | ⟨x', rfl, hx'⟩
    · -- In the first leaf.
      obtain ⟨hsign, hs⟩ := split_first hz hblank hs hf hl hx hy
      refine .sign hfirst hsign hs ?_
      simp only [List.length_append, List.length_cons]
      omega
    · obtain ⟨x₂, rfl, h₂⟩ := behind_space hs hx'
      rcases append_cases h₂.symm (head_not_mem_separator hs isBlank_head_space) with
        ⟨y', hfs, rfl⟩ | ⟨x₃, rfl, h₃⟩
      · -- In the separator after it.
        obtain ⟨rfl, rfl, rfl⟩ := split_link (z := z ++ l.text) hs hf hfs (by simpa using hx) hy
        simpa using Split.separator (z := z) (l := l) (t := t) hfirst
      · -- Behind it.
        obtain ⟨x₄, rfl, h₄⟩ := behind_space hs h₃
        have hz' : ¬ operandAtEnd.OccursIn (z ++ l.text ++ ' ' :: (f ++ [' '])) := by
          have hnot : ¬ operandAtEnd.OccursIn (z ++ l.text ++ [' '] ++ f ++ [' ']) :=
            not_endsWith_symbols (separator_ne_nil hf) (operatorChar_of_separator hf)
              (by simp [Blank, Text.isBlank_space]) (by simp [Text.isBlank_space])
          simpa using hnot
        have hblank' : ∀ c, (z ++ l.text ++ ' ' :: (f ++ [' '])).getLast? = some c →
            Text.isBlank c = true := by
          simp [List.getLast?_cons, Text.isBlank_space]
        have hsplit := ih hz' hblank' (fun p hp => hlinks p (List.mem_cons_of_mem _ hp)) h₄.symm
          (by simpa using hx)
        have hx₄ : z ++ l.text ++ ' ' :: (f ++ [' ']) ++ x₄ = z ++ (l.text ++ ' ' :: (f ++ ' ' :: x₄)) := by
          simp
        rw [hx₄] at hsplit
        exact hsplit.cons

end Formula
