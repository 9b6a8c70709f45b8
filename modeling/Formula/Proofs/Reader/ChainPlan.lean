import Formula.Proofs.Reader.ChainSelect

/-!
# What is planned for a chain with groups

The operands of a chain may hold groups: in the text they are whole, in the hidden text placeholders
(`GroupedLeaf`). The hidden text of a chain is a chain (`covered_chainSegs`), and as there is an operator
in it, no rule for groups applies to the text itself (`noGroup_texts`). So what is planned for the text
is what the hidden chain is split at (`plan_of_operator`): its first equals sign (`plan_assignment`), else
the last of its loosest operators (`plan_binary`), else the operator in front of a leaf (`plan_before`),
else that behind it (`plan_after`).
-/

set_option autoImplicit false

namespace Formula

open Lexeme

/-! ## Characters of a chain -/

/-- The characters that chains are written with. -/
def isChainChar (c : Char) : Bool :=
  c = ' ' || operatorChars.contains c || isCoreChar c

theorem isChainChar_of_operator {c : Char} (h : c ∈ operatorChars) : isChainChar c = true := by
  simp [isChainChar, h]

theorem isChainChar_of_core {w : List Char} (hw : w ∈ Lexeme.core.lang) :
    ∀ c ∈ w, isChainChar c = true := by
  intro c hc
  rcases (coreShape_of_mem hw).cases_sign with hall | ⟨m, e, s, d, rfl, -, hm, he, hs, hd⟩
  · simp [isChainChar, hall c hc]
  · simp only [List.mem_append, List.mem_cons] at hc
    rcases hc with hc | rfl | rfl | hc
    · simp [isChainChar, isCoreChar_of_isDigitOrPoint (hm c hc)]
    · simp [isChainChar, isCoreChar_e he]
    · refine isChainChar_of_operator ?_
      rcases hs with rfl | rfl <;> decide
    · simp [isChainChar, hd c hc]

theorem Leaf.isChainChar (l : Leaf) : ∀ c ∈ l.text, Formula.isChainChar c = true := by
  intro c hc
  simp only [Leaf.text, List.mem_append] at hc
  rcases hc with (hc | hc) | hc
  · exact isChainChar_of_operator (operatorChar_of_front c hc)
  · exact isChainChar_of_core l.core_mem c hc
  · exact isChainChar_of_operator (operatorChar_of_back c hc)

theorem isChainChar_of_chain {l : Leaf} {links : Links} (hlinks : links.Valid) :
    ∀ c ∈ chainText l links, isChainChar c = true := by
  induction links generalizing l with
  | nil =>
    rw [chainText_nil]
    exact l.isChainChar
  | cons p links ih =>
    obtain ⟨s, l'⟩ := p
    intro c hc
    simp only [chainText_cons, List.mem_append, List.mem_cons] at hc
    rcases hc with hc | rfl | hc | rfl | hc
    · exact l.isChainChar c hc
    · rfl
    · exact isChainChar_of_operator (operatorChar_of_separator (hlinks (s, l') List.mem_cons_self) c hc)
    · rfl
    · exact ih (fun p hp => hlinks p (List.mem_cons_of_mem _ hp)) c hc

/-! ## Chains with groups -/

/-- A leaf whose core may hold groups. -/
structure GroupedLeaf where
  front : List Char
  core : List Segment
  back : List Char
  front_mem : front ∈ [] :: frontWords
  core_mem : ∀ n, Segment.covered n core ∈ Lexeme.core.lang
  back_mem : back ∈ [] :: backWords
  valid : Segment.AllValid core

/-- The separators of a chain with groups, each with the leaf after it. -/
abbrev GroupedLinks := List (List Char × GroupedLeaf)

/-- The links stand for separators. -/
def GroupedLinks.Valid (links : GroupedLinks) : Prop :=
  ∀ p ∈ links, p.1 ∈ separators

namespace GroupedLeaf

/-- The segments of a leaf. -/
def segs (l : GroupedLeaf) : List Segment :=
  l.front.map .char ++ l.core ++ l.back.map .char

/-- The leaf with its groups hidden, behind `n` other groups. -/
def hidden (l : GroupedLeaf) (n : Nat) : Leaf :=
  ⟨l.front, Segment.covered n l.core, l.back, l.front_mem, l.core_mem n, l.back_mem⟩

end GroupedLeaf

/-- The segments of a chain. -/
def chainSegs (l : GroupedLeaf) : GroupedLinks → List Segment
  | [] => l.segs
  | (s, l') :: links => l.segs ++ .char ' ' :: (s.map .char ++ .char ' ' :: chainSegs l' links)

/-- The links with their groups hidden, behind `n` other groups. -/
def GroupedLinks.hidden : GroupedLinks → (n : Nat) → Links
  | [], _ => []
  | (s, l) :: links, n => (s, l.hidden n) :: GroupedLinks.hidden links (n + Segment.count l.core)

/-- The text of a chain with groups. -/
def groupedText (l : GroupedLeaf) (links : GroupedLinks) : List Char :=
  Segment.texts (chainSegs l links)

theorem chainSegs_append (l : GroupedLeaf) (links : GroupedLinks) (s : List Char) (l' : GroupedLeaf)
    (links' : GroupedLinks) : chainSegs l (links ++ (s, l') :: links') =
      chainSegs l links ++ .char ' ' :: (s.map .char ++ .char ' ' :: chainSegs l' links') := by
  induction links generalizing l with
  | nil => rfl
  | cons p links ih => simp [chainSegs, ih]

theorem groupedText_append (l : GroupedLeaf) (links : GroupedLinks) (s : List Char) (l' : GroupedLeaf)
    (links' : GroupedLinks) : groupedText l (links ++ (s, l') :: links') =
      groupedText l links ++ ' ' :: (s ++ ' ' :: groupedText l' links') := by
  simp [groupedText, chainSegs_append, Segment.texts_append, Segment.text]

theorem count_segs (l : GroupedLeaf) : Segment.count l.segs = Segment.count l.core := by
  simp [GroupedLeaf.segs, Segment.count_append]

theorem GroupedLinks.hidden_append (links : GroupedLinks) (l' : GroupedLeaf) (s : List Char)
    (links' : GroupedLinks) (n : Nat) : ∃ m m',
      GroupedLinks.hidden (links ++ (s, l') :: links') n =
        GroupedLinks.hidden links n ++ (s, l'.hidden m) :: GroupedLinks.hidden links' m' := by
  induction links generalizing n with
  | nil => exact ⟨_, _, rfl⟩
  | cons p links ih =>
    obtain ⟨m, m', h⟩ := ih (n + Segment.count p.2.core)
    exact ⟨m, m', by simp [GroupedLinks.hidden, h]⟩

theorem GroupedLinks.exists_of_mem_hidden {links : GroupedLinks} {n : Nat} {p : List Char × Leaf}
    (h : p ∈ GroupedLinks.hidden links n) : ∃ q ∈ links, q.1 = p.1 := by
  induction links generalizing n with
  | nil => cases h
  | cons q links ih =>
    rw [GroupedLinks.hidden, List.mem_cons] at h
    rcases h with rfl | h
    · exact ⟨q, List.mem_cons_self, rfl⟩
    · obtain ⟨r, hr, heq⟩ := ih h
      exact ⟨r, List.mem_cons_of_mem _ hr, heq⟩

theorem GroupedLinks.Valid.hidden {links : GroupedLinks} (h : links.Valid) (n : Nat) :
    Links.Valid (GroupedLinks.hidden links n) := by
  intro p hp
  obtain ⟨q, hq, heq⟩ := GroupedLinks.exists_of_mem_hidden hp
  rw [← heq]
  exact h q hq

/-! ### Hiding the groups -/

theorem covered_map_char {w : List Char} (hw : ∀ c ∈ w, isEscaped c = false) (n : Nat) :
    Segment.covered n (w.map .char) = w := by
  induction w with
  | nil => rfl
  | cons c w ih =>
    rw [List.map_cons, Segment.covered, Segment.count_char, Nat.add_zero,
      ih fun d hd => hw d (List.mem_cons_of_mem _ hd), Segment.shown, hw c List.mem_cons_self]
    rfl

theorem isEscaped_of_isBlank {c : Char} (h : Text.isBlank c = true) : isEscaped c = false := by
  simpa using Text.forall_blank (f := fun c => !isEscaped c) (by decide) h

theorem covered_segs (l : GroupedLeaf) (n : Nat) : Segment.covered n l.segs = (l.hidden n).text := by
  have hfront : ∀ c ∈ l.front, c ∈ operatorChars := operatorChar_of_front (l := l.hidden 0)
  have hback : ∀ c ∈ l.back, c ∈ operatorChars := operatorChar_of_back (l := l.hidden 0)
  rw [GroupedLeaf.segs, Segment.covered_append, Segment.covered_append, Segment.count_map_char,
    covered_map_char fun c hc => isEscaped_of_operator (hfront c hc),
    covered_map_char fun c hc => isEscaped_of_operator (hback c hc)]
  rfl

/-- The hidden text of a chain is a chain. -/
theorem covered_chainSegs {links : GroupedLinks} (hlinks : links.Valid) (l : GroupedLeaf) (n : Nat) :
    Segment.covered n (chainSegs l links) =
      chainText (l.hidden n) (GroupedLinks.hidden links (n + Segment.count l.core)) := by
  induction links generalizing l n with
  | nil =>
    rw [chainSegs, covered_segs, GroupedLinks.hidden, chainText_nil]
  | cons p links ih =>
    obtain ⟨s, l'⟩ := p
    have hs : s ∈ separators := hlinks (s, l') List.mem_cons_self
    have hspace : ∀ segs n, Segment.covered n (.char ' ' :: segs) = ' ' :: Segment.covered n segs :=
      fun segs n => rfl
    rw [chainSegs, Segment.covered_append, hspace, Segment.covered_append, hspace,
      covered_map_char fun c hc => isEscaped_of_operator (operatorChar_of_separator hs c hc),
      Segment.count_map_char, count_segs, covered_segs, Nat.add_zero,
      ih (fun p hp => hlinks p (List.mem_cons_of_mem _ hp)), GroupedLinks.hidden, chainText_cons]

theorem allValid_map_char {w : List Char} (hw : ∀ c ∈ w, isBracket c = false) :
    Segment.AllValid (w.map .char) := by
  intro seg hseg
  obtain ⟨c, hc, rfl⟩ := List.mem_map.1 hseg
  exact hw c hc

theorem allValid_append {segs segs' : List Segment} (h : Segment.AllValid segs)
    (h' : Segment.AllValid segs') : Segment.AllValid (segs ++ segs') := by
  intro seg hseg
  rcases List.mem_append.1 hseg with hseg | hseg
  · exact h seg hseg
  · exact h' seg hseg

theorem allValid_segs (l : GroupedLeaf) : Segment.AllValid l.segs := by
  have hfront : ∀ c ∈ l.front, c ∈ operatorChars := operatorChar_of_front (l := l.hidden 0)
  have hback : ∀ c ∈ l.back, c ∈ operatorChars := operatorChar_of_back (l := l.hidden 0)
  exact allValid_append
    (allValid_append (allValid_map_char fun c hc => isBracket_of_operator (hfront c hc)) l.valid)
    (allValid_map_char fun c hc => isBracket_of_operator (hback c hc))

theorem allValid_chainSegs {links : GroupedLinks} (hlinks : links.Valid) (l : GroupedLeaf) :
    Segment.AllValid (chainSegs l links) := by
  induction links generalizing l with
  | nil => exact allValid_segs l
  | cons p links ih =>
    obtain ⟨s, l'⟩ := p
    have hs : s ∈ separators := hlinks (s, l') List.mem_cons_self
    have hspace : Segment.AllValid [.char ' '] := allValid_map_char (w := [' ']) (by simp [isBracket])
    have hsep : Segment.AllValid (s.map .char) :=
      allValid_map_char fun c hc => isBracket_of_operator (operatorChar_of_separator hs c hc)
    have hrest := ih (fun p hp => hlinks p (List.mem_cons_of_mem _ hp)) l'
    exact allValid_append (allValid_segs l)
      (allValid_append hspace (allValid_append hsep (allValid_append hspace hrest)))

/-! ## Rules for groups -/

section

variable {segs segs' : List Segment}

/-- The hidden text does not depend on how a text was put together. -/
theorem covered_unique (hv : Segment.AllValid segs) (hv' : Segment.AllValid segs')
    (h : Segment.texts segs = Segment.texts segs') :
    Segment.covered 0 segs = Segment.covered 0 segs' := by
  have hhide := hide?_eq_some.2 ⟨segs, hv, rfl, rfl⟩
  have hhide' := hide?_eq_some.2 ⟨segs', hv', h, rfl⟩
  exact congrArg Hidden.text (Option.some.inj (hhide.symm.trans hhide'))

/-- Characters in front of a group that are no operators. -/
def isCalm (c : Char) : Bool :=
  !isBracket c && !isEscaped c && !operatorChars.contains c

theorem isCalm_of_isBlank {c : Char} (h : Text.isBlank c = true) : isCalm c = true :=
  Text.forall_blank (by decide) h

theorem isCalm_of_name {w : List Char} (hw : w ∈ name.lang) : ∀ c ∈ w, isCalm c = true := by
  intro c hc
  have hop : c ∉ operatorChars := by
    intro hop
    have hcore := isCoreChar_of_isNamePart ((nameShape_of_mem hw).all c hc)
    rw [isCoreChar_of_operator hop] at hcore
    cases hcore
  simp [isCalm, IsWord.not_isBracket (.inl hw) c hc, IsWord.not_isEscaped (.inl hw) c hc, hop]

/-- In a text that is nothing but a group behind calm characters, no operator is left when the group is
hidden. -/
theorem not_operator_of_group {x s y : List Char} {o c : Char} (hv : Segment.AllValid segs)
    (hoc : Grouping.brackets.closer? o = some c) (hx : ∀ d ∈ x, isCalm d = true) (hs : Nested s)
    (hy : Blank y) (h : Segment.texts segs = x ++ (o :: (s ++ [c])) ++ y) :
    ∀ d ∈ Segment.covered 0 segs, d ∉ operatorChars := by
  have hcalm : ∀ {d : Char}, isCalm d = true →
      isBracket d = false ∧ isEscaped d = false ∧ d ∉ operatorChars := by
    intro d hd
    simpa [isCalm, and_assoc] using hd
  have hy : ∀ d ∈ y, isCalm d = true := fun d hd => isCalm_of_isBlank (hy d hd)
  have hv' : Segment.AllValid (x.map .char ++ [.group o c s] ++ y.map .char) := by
    refine allValid_append (allValid_append (allValid_map_char fun d hd => (hcalm (hx d hd)).1) ?_)
      (allValid_map_char fun d hd => (hcalm (hy d hd)).1)
    intro seg hseg
    rw [List.mem_singleton.1 hseg]
    exact ⟨hoc, hs⟩
  have htexts : Segment.texts segs =
      Segment.texts (x.map .char ++ [.group o c s] ++ y.map .char) := by
    rw [h]
    simp [Segment.texts_append, Segment.text]
  have hcovered : Segment.covered 0 segs = x ++ placeholder 0 ++ y := by
    rw [covered_unique hv hv' htexts, Segment.covered_append, Segment.covered_append,
      covered_map_char fun d hd => (hcalm (hx d hd)).2.1,
      covered_map_char fun d hd => (hcalm (hy d hd)).2.1, Segment.count_map_char]
    simp [Segment.covered, Segment.shown]
  intro d hd
  rw [hcovered, List.mem_append, List.mem_append] at hd
  rcases hd with (hd | hd) | hd
  · exact (hcalm (hx d hd)).2.2
  · have hall : (placeholder 0).all (fun d => !operatorChars.contains d) = true := by decide
    simpa using List.all_eq_true.1 hall d hd
  · exact (hcalm (hy d hd)).2.2

/-- With an operator beside its groups, a text is no single group and no call. -/
theorem noGroup_texts (hv : Segment.AllValid segs) {d : Char} (hd : d ∈ Segment.covered 0 segs)
    (hop : d ∈ operatorChars) : NoGroup false (Segment.texts segs) := by
  have hblank : ∀ {z : List Char}, Blank z → ∀ c ∈ z, isCalm c = true :=
    fun hz c hc => isCalm_of_isBlank (hz c hc)
  refine ⟨?_, ?_, ?_, ?_, fun h => by cases h⟩
  · cases hfind : findCall? (.of callee) (Segment.texts segs) with
    | none => rfl
    | some token =>
      obtain ⟨x, w, z, s, y, ht, -, hx, hw, hz, hs, hy⟩ := findCall?_eq_some hfind
      refine absurd hop (not_operator_of_group (x := x ++ w ++ z) (o := '(') hv rfl ?_ hs hy ?_ d hd)
      · simp only [List.mem_append]
        rintro c ((hc | hc) | hc)
        · exact hblank hx c hc
        · exact isCalm_of_name hw c hc
        · exact hblank hz c hc
      · rw [ht]
        simp
  · cases hfind : findTuple? (Segment.texts segs) with
    | none => rfl
    | some token =>
      obtain ⟨z, s, y, ht, -, hz, hs, hy, -⟩ := findTuple?_eq_some hfind
      exact absurd hop (not_operator_of_group hv rfl (hblank hz) hs hy ht d hd)
  · cases hfind : enclosedGroup? '(' (Segment.texts segs) with
    | none => rfl
    | some token =>
      obtain ⟨z, s, y, hz, hs, hy, ht, -⟩ := enclosedGroup?_eq_some rfl hfind
      exact absurd hop (not_operator_of_group hv rfl (hblank hz) hs hy ht d hd)
  · cases hfind : enclosedGroup? '[' (Segment.texts segs) with
    | none => rfl
    | some token =>
      obtain ⟨z, s, y, hz, hs, hy, ht, -⟩ := enclosedGroup?_eq_some rfl hfind
      exact absurd hop (not_operator_of_group hv rfl (hblank hz) hs hy ht d hd)

/-- Nor is it one when its groups are hidden. -/
theorem noGroup_covered (hv : Segment.AllValid segs) (h : NoGroup false (Segment.texts segs)) :
    NoGroup false (Segment.covered 0 segs) := by
  have hno : '(' ∉ Segment.covered 0 segs := Segment.not_mem_covered hv (.inl rfl)
  refine ⟨?_, ?_, ?_, ?_, fun h => by cases h⟩
  · cases hfind : findCall? (.of callee) (Segment.covered 0 segs) with
    | none => rfl
    | some token =>
      obtain ⟨x, w, z, s, y, ht, -⟩ := findCall?_eq_some hfind
      exact absurd (by rw [ht]; simp) hno
  · cases hfind : findTuple? (Segment.covered 0 segs) with
    | none => rfl
    | some token =>
      obtain ⟨z, s, y, ht, -⟩ := findTuple?_eq_some hfind
      exact absurd (by rw [ht]; simp) hno
  · cases hfind : enclosedGroup? '(' (Segment.covered 0 segs) with
    | none => rfl
    | some token =>
      obtain ⟨z, s, y, -, -, -, ht, -⟩ := enclosedGroup?_eq_some rfl hfind
      exact absurd (by rw [ht]; simp) hno
  · cases hfind : enclosedGroup? '[' (Segment.covered 0 segs) with
    | none => rfl
    | some token =>
      obtain ⟨o, c, hoc, hsome⟩ := exists_group_of_covered hv hfind
      rcases closer_cases hoc with ⟨rfl, -⟩ | ⟨rfl, -⟩
      · rw [h.parentheses] at hsome
        cases hsome
      · rw [h.vector] at hsome
        cases hsome

/-- Where no rule for groups applies to a text with brackets, its groups are hidden. -/
theorem NoGroup.select_around {text : List Char} (h : NoGroup false text) {c : Char} (hc : c ∈ text)
    (hbracket : isBracket c = true) :
    ∃ token, (attempts true text).findSome? id = some (.aroundGroups, token) := by
  obtain ⟨u, r, rfl⟩ := List.append_of_mem hc
  have hocc : (matched (anyOf '(' [')', '[', ']'])).OccursIn (u ++ c :: r) :=
    ⟨u, [c], r, by simp, 0, _, (Pattern.matches_group rfl rfl).2
      ⟨mem_anyOf.2 ⟨c, bracket_cases hbracket, rfl⟩, rfl⟩⟩
  obtain ⟨token, htoken⟩ := exists_find?_pattern (names_matched rfl rfl) hocc
  exact ⟨token, by simp [attempts, h.call, h.tuple, h.parentheses, h.vector, htoken]⟩

end

/-! ## Plans -/

section

variable {segs : List Segment}

/-- Without brackets and backslashes, hiding changes nothing. -/
theorem covered_eq_texts {n : Nat} (hv : Segment.AllValid segs)
    (h : ∀ c ∈ Segment.texts segs, isBracket c = false)
    (hbackslash : '\\' ∉ Segment.covered n segs) : Segment.covered n segs = Segment.texts segs := by
  induction segs generalizing n with
  | nil => rfl
  | cons seg segs ih =>
    rw [Segment.covered, List.mem_append, not_or] at hbackslash
    rw [Segment.covered, Segment.texts_cons,
      ih hv.tail (fun c hc => h c (List.mem_append_right _ hc)) hbackslash.2]
    have hseg : ∀ c ∈ seg.text, isBracket c = false := fun c hc => h c (List.mem_append_left _ hc)
    cases seg with
    | group o c s =>
      have ho := hseg o List.mem_cons_self
      rcases closer_cases (hv (.group o c s) List.mem_cons_self).1 with ⟨rfl, -⟩ | ⟨rfl, -⟩
      · cases ho
      · cases ho
    | char c =>
      have hc : isEscaped c = false := by
        rw [isEscaped_of_not_isBracket (hseg c List.mem_cons_self), decide_eq_false_iff_not]
        rintro rfl
        exact hbackslash.1 List.mem_cons_self
      rw [Segment.shown, hc]
      rfl

/-- In a text with brackets that is not one group, what is planned is what the hidden text is split at. -/
theorem plan_of_hidden {front back : List Segment} {w : List Char} {builder : Builder}
    (hv : Segment.AllValid segs) (hsegs : segs = front ++ w.map .char ++ back)
    (hw : ∀ c ∈ w, c ∈ operatorChars) (hno : NoGroup false (Segment.texts segs))
    (hbracket : ∃ c ∈ Segment.texts segs, isBracket c = true)
    (h : (attempts false (Segment.covered 0 segs)).findSome? id =
      some (builder, ⟨w, Text.byteSize (Segment.covered 0 front)⟩)) :
    Grammar.default.plan (Segment.texts segs) =
      .ok (builder, ⟨w, Text.byteSize (Segment.texts front)⟩) := by
  obtain ⟨c, hc, hbracket⟩ := hbracket
  obtain ⟨token, htoken⟩ := hno.select_around hc hbracket
  have hhide := hide?_eq_some.2 ⟨segs, hv, rfl, rfl⟩
  have hindex := offset?_hiddenOf front back w
  rw [← hsegs, hiddenOf] at hindex
  rw [Grammar.plan, select?_all, htoken]
  dsimp only
  rw [hhide]
  dsimp only
  rw [select?_hidden, h]
  dsimp only
  rw [hindex]
  dsimp only
  rw [restore_operator _ hw]

/-- What is planned is what the hidden text is split at. -/
theorem plan_of_operator {front back : List Segment} {w : List Char} {builder : Builder}
    (hv : Segment.AllValid segs) (hsegs : segs = front ++ w.map .char ++ back) (hne : w ≠ [])
    (hw : ∀ c ∈ w, c ∈ operatorChars) (hbackslash : '\\' ∉ Segment.covered 0 segs)
    (hb : builder ≠ .aroundGroups)
    (h : ∀ around, NoGroup around (Segment.covered 0 segs) →
      (attempts around (Segment.covered 0 segs)).findSome? id =
        some (builder, ⟨w, Text.byteSize (Segment.covered 0 front)⟩)) :
    Grammar.default.plan (Segment.texts segs) =
      .ok (builder, ⟨w, Text.byteSize (Segment.texts front)⟩) := by
  obtain ⟨d, w', hd⟩ := List.exists_cons_of_ne_nil hne
  have hop : d ∈ operatorChars := hw d (by rw [hd]; exact List.mem_cons_self)
  have hcovered : d ∈ Segment.covered 0 segs := by
    rw [hsegs, Segment.covered_append, Segment.covered_append,
      covered_map_char fun c hc => isEscaped_of_operator (hw c hc), hd]
    simp
  have hno := noGroup_texts hv hcovered hop
  by_cases hbracket : ∃ c ∈ Segment.texts segs, isBracket c = true
  · exact plan_of_hidden hv hsegs hw hno hbracket (h false (noGroup_covered hv hno))
  · have hfree : ∀ c ∈ Segment.texts segs, isBracket c = false := by
      intro c hc
      rw [← Bool.not_eq_true]
      exact fun hbr => hbracket ⟨c, hc, hbr⟩
    -- Without brackets nothing is hidden.
    have hcovered := covered_eq_texts hv hfree hbackslash
    have hfront : Segment.covered 0 front = Segment.texts front := by
      rw [hsegs, List.append_assoc] at hv hfree hbackslash
      rw [Segment.texts_append] at hfree
      rw [Segment.covered_append, List.mem_append, not_or] at hbackslash
      exact covered_eq_texts (fun seg hseg => hv seg (List.mem_append_left _ hseg))
        (fun c hc => hfree c (List.mem_append_left _ hc)) hbackslash.1
    have hselect := h true (by rw [hcovered]; exact noGroup_of_not_isBracket hfree)
    rw [hcovered, hfront] at hselect
    rw [Grammar.plan, select?_all, hselect]
    cases builder with
    | aroundGroups => exact absurd rfl hb
    | _ => rfl

end

section

variable {z y : List Char} {l : GroupedLeaf} {links : GroupedLinks}

/-- The hidden text of a chain between blanks. -/
theorem covered_padded (hz : Blank z) (hy : Blank y) (hlinks : links.Valid) :
    Segment.covered 0 (z.map .char ++ chainSegs l links ++ y.map .char) =
      z ++ chainText (l.hidden 0) (GroupedLinks.hidden links (Segment.count l.core)) ++ y := by
  rw [Segment.covered_append, Segment.covered_append, Segment.count_map_char,
    covered_map_char fun c hc => isEscaped_of_isBlank (hz c hc),
    covered_map_char fun c hc => isEscaped_of_isBlank (hy c hc), covered_chainSegs hlinks]
  simp

theorem allValid_padded (hz : Blank z) (hy : Blank y) (hlinks : links.Valid) :
    Segment.AllValid (z.map .char ++ chainSegs l links ++ y.map .char) :=
  allValid_append
    (allValid_append (allValid_map_char fun c hc => isBracket_of_isBlank (hz c hc))
      (allValid_chainSegs hlinks l))
    (allValid_map_char fun c hc => isBracket_of_isBlank (hy c hc))

theorem texts_padded : Segment.texts (z.map .char ++ chainSegs l links ++ y.map .char) =
    z ++ groupedText l links ++ y := by
  rw [Segment.texts_append, Segment.texts_append, Segment.texts_map_char, Segment.texts_map_char,
    groupedText]

/-- What is planned for a chain between blanks is what its hidden text is split at. -/
theorem plan_chain {front back : List Segment} {w : List Char} {builder : Builder} (hz : Blank z)
    (hy : Blank y) (hlinks : links.Valid)
    (hsegs : z.map .char ++ chainSegs l links ++ y.map .char = front ++ w.map .char ++ back)
    (hne : w ≠ []) (hw : ∀ c ∈ w, c ∈ operatorChars) (hb : builder ≠ .aroundGroups)
    (h : ∀ (around : Bool) (text : List Char),
      text = z ++ chainText (l.hidden 0) (GroupedLinks.hidden links (Segment.count l.core)) ++ y →
      NoGroup around text → (attempts around text).findSome? id =
        some (builder, ⟨w, Text.byteSize (Segment.covered 0 front)⟩)) :
    Grammar.default.plan (z ++ groupedText l links ++ y) =
      .ok (builder, ⟨w, Text.byteSize (Segment.texts front)⟩) := by
  have hcovered := covered_padded (l := l) hz hy hlinks
  have hbackslash : '\\' ∉ Segment.covered 0 (z.map .char ++ chainSegs l links ++ y.map .char) := by
    rw [hcovered, List.mem_append, List.mem_append]
    rintro ((hc | hc) | hc)
    · exact absurd (hz _ hc) (by decide)
    · exact absurd (isChainChar_of_chain (hlinks.hidden _) _ hc) (by decide)
    · exact absurd (hy _ hc) (by decide)
  rw [← texts_padded]
  exact plan_of_operator (allValid_padded hz hy hlinks) hsegs hne hw hbackslash hb
    fun around hno => h around _ hcovered hno

/-- What is planned for a chain is the separator that its hidden chain is split at. -/
theorem plan_separator {before after : GroupedLinks} {s : List Char} {l' : GroupedLeaf}
    {builder : Builder} (hz : Blank z) (hy : Blank y) (heq : links = before ++ (s, l') :: after)
    (hlinks : links.Valid) (hb : builder ≠ .aroundGroups)
    (h : ∀ (around : Bool) (lh : Leaf) (front : Links) (lh' : Leaf) (back : Links),
      (∀ p ∈ front, ∃ q ∈ before, q.1 = p.1) → (∀ p ∈ back, ∃ q ∈ after, q.1 = p.1) →
      NoGroup around (z ++ chainText lh (front ++ (s, lh') :: back) ++ y) →
      (attempts around (z ++ chainText lh (front ++ (s, lh') :: back) ++ y)).findSome? id =
        some (builder, ⟨s, Text.byteSize (z ++ chainText lh front ++ [' '])⟩)) :
    Grammar.default.plan (z ++ groupedText l links ++ y) =
      .ok (builder, ⟨s, Text.byteSize (z ++ groupedText l before ++ [' '])⟩) := by
  have hs : s ∈ separators := hlinks (s, l') (by rw [heq]; simp)
  have hbefore : before.Valid := fun p hp => hlinks p (by rw [heq]; simp [hp])
  have hsegs : z.map .char ++ chainSegs l links ++ y.map .char =
      (z.map .char ++ chainSegs l before ++ [' '].map .char) ++ s.map .char ++
        (.char ' ' :: (chainSegs l' after ++ y.map .char)) := by
    rw [heq, chainSegs_append]
    simp
  have htexts : Segment.texts (z.map .char ++ chainSegs l before ++ [' '].map .char) =
      z ++ groupedText l before ++ [' '] := texts_padded
  rw [← htexts]
  refine plan_chain hz hy hlinks hsegs (separator_ne_nil hs) (operatorChar_of_separator hs) hb
    fun around text htext hno => ?_
  obtain ⟨m, m', hhidden⟩ := GroupedLinks.hidden_append before l' s after (Segment.count l.core)
  rw [heq, hhidden] at htext
  rw [htext] at hno ⊢
  rw [covered_padded hz blank_space hbefore]
  exact h around _ _ _ _ (fun p hp => GroupedLinks.exists_of_mem_hidden hp)
    (fun p hp => GroupedLinks.exists_of_mem_hidden hp) hno

theorem valid_of_hidden {before after : GroupedLinks} {front back : Links} {s : List Char} {lh : Leaf}
    (hbefore : before.Valid) (hafter : after.Valid) (hs : s ∈ separators)
    (hfront : ∀ p ∈ front, ∃ q ∈ before, q.1 = p.1) (hback : ∀ p ∈ back, ∃ q ∈ after, q.1 = p.1) :
    Links.Valid (front ++ (s, lh) :: back) := by
  intro p hp
  rw [List.mem_append, List.mem_cons] at hp
  rcases hp with hp | rfl | hp
  · obtain ⟨q, hq, hqp⟩ := hfront p hp
    rw [← hqp]
    exact hbefore q hq
  · exact hs
  · obtain ⟨q, hq, hqp⟩ := hback p hp
    rw [← hqp]
    exact hafter q hq

/-- A chain is split at its first equals sign. -/
theorem plan_assignment (hz : Blank z) (hy : Blank y) {before after : GroupedLinks} {l' : GroupedLeaf}
    (heq : links = before ++ (['='], l') :: after) (hlinks : links.Valid)
    (hfirst : ∀ p ∈ before, level p.1 ≠ 0) :
    Grammar.default.plan (z ++ groupedText l links ++ y) =
      .ok (.assignment, ⟨['='], Text.byteSize (z ++ groupedText l before ++ [' '])⟩) := by
  have hbefore : before.Valid := fun p hp => hlinks p (by rw [heq]; simp [hp])
  have hafter : after.Valid := fun p hp => hlinks p (by rw [heq]; simp [hp])
  have hs : ['='] ∈ separators := hlinks (['='], l') (by rw [heq]; simp)
  refine plan_separator hz hy heq hlinks (by simp) fun around lh front lh' back hfront hback hno => ?_
  refine select_assignment hz hy rfl (valid_of_hidden hbefore hafter hs hfront hback)
    (fun p hp => ?_) hno
  obtain ⟨q, hq, hqp⟩ := hfront p hp
  rw [← hqp]
  exact hfirst q hq

/-- A chain without equals signs is split at the last of its loosest operators. -/
theorem plan_binary (hz : Blank z) (hy : Blank y) {before after : GroupedLinks} {s : List Char}
    {l' : GroupedLeaf} (heq : links = before ++ (s, l') :: after) (hlinks : links.Valid)
    (hpos : 0 < level s) (hlevels : ∀ p ∈ before, level s ≤ level p.1)
    (hlast : ∀ p ∈ after, level s < level p.1) :
    Grammar.default.plan (z ++ groupedText l links ++ y) =
      .ok (.binary, ⟨s, Text.byteSize (z ++ groupedText l before ++ [' '])⟩) := by
  have hbefore : before.Valid := fun p hp => hlinks p (by rw [heq]; simp [hp])
  have hafter : after.Valid := fun p hp => hlinks p (by rw [heq]; simp [hp])
  have hs : s ∈ separators := hlinks (s, l') (by rw [heq]; simp)
  refine plan_separator hz hy heq hlinks (by simp) fun around lh front lh' back hfront hback hno => ?_
  have hbacks : ∀ p ∈ back, level s < level p.1 := by
    intro p hp
    obtain ⟨q, hq, hqp⟩ := hback p hp
    rw [← hqp]
    exact hlast q hq
  refine select_binary hz hy rfl (valid_of_hidden hbefore hafter hs hfront hback) hpos
    (fun p hp => ?_) hbacks hno
  rw [List.mem_append, List.mem_cons] at hp
  rcases hp with hp | rfl | hp
  · obtain ⟨q, hq, hqp⟩ := hfront p hp
    rw [← hqp]
    exact hlevels q hq
  · exact Nat.le_refl _
  · exact Nat.le_of_lt (hbacks p hp)

/-! ### Leaves -/

theorem groupedText_nil (l : GroupedLeaf) :
    groupedText l [] = l.front ++ Segment.texts l.core ++ l.back := by
  simp [groupedText, chainSegs, GroupedLeaf.segs, Segment.texts_append]

/-- What is planned for a leaf is what its hidden text is split at. -/
theorem plan_leaf {front back : List Segment} {w : List Char} {builder : Builder} (hz : Blank z)
    (hy : Blank y) (hsegs : z.map .char ++ l.segs ++ y.map .char = front ++ w.map .char ++ back)
    (hne : w ≠ []) (hw : ∀ c ∈ w, c ∈ operatorChars) (hb : builder ≠ .aroundGroups)
    (h : ∀ around, NoGroup around (z ++ (l.hidden 0).text ++ y) →
      (attempts around (z ++ (l.hidden 0).text ++ y)).findSome? id =
        some (builder, ⟨w, Text.byteSize (Segment.covered 0 front)⟩)) :
    Grammar.default.plan (z ++ groupedText l [] ++ y) =
      .ok (builder, ⟨w, Text.byteSize (Segment.texts front)⟩) := by
  refine plan_chain hz hy (fun p hp => by cases hp) hsegs hne hw hb fun around text htext hno => ?_
  rw [GroupedLinks.hidden, chainText_nil] at htext
  rw [htext] at hno ⊢
  exact h around hno

/-- A leaf is split behind the operator in front of it. -/
theorem plan_before (hz : Blank z) (hy : Blank y) (hfront : l.front ≠ []) :
    Grammar.default.plan (z ++ groupedText l [] ++ y) =
      .ok (.before, ⟨l.front, Text.byteSize z⟩) := by
  have hops : ∀ c ∈ l.front, c ∈ operatorChars := operatorChar_of_front (l := l.hidden 0)
  have hsegs : z.map .char ++ l.segs ++ y.map .char =
      z.map .char ++ l.front.map .char ++ (l.core ++ l.back.map .char ++ y.map .char) := by
    simp [GroupedLeaf.segs]
  have hcovered : Segment.covered 0 (z.map .char) = z :=
    covered_map_char (fun c hc => isEscaped_of_isBlank (hz c hc)) 0
  have hplan : Grammar.default.plan (z ++ groupedText l [] ++ y) =
      .ok (.before, ⟨l.front, Text.byteSize (Segment.texts (z.map .char))⟩) :=
    plan_leaf hz hy hsegs hfront hops (by simp) fun around hno => by
      rw [hcovered]
      exact select_before hz hy hfront hno
  rwa [Segment.texts_map_char] at hplan

/-- A leaf without an operator in front is split before the operator behind it. -/
theorem plan_after (hz : Blank z) (hy : Blank y) (hfront : l.front = []) (hback : l.back ≠ []) :
    Grammar.default.plan (z ++ groupedText l [] ++ y) =
      .ok (.after, ⟨l.back, Text.byteSize (z ++ Segment.texts l.core)⟩) := by
  have hops : ∀ c ∈ l.back, c ∈ operatorChars := operatorChar_of_back (l := l.hidden 0)
  have hsegs : z.map .char ++ l.segs ++ y.map .char =
      (z.map .char ++ l.core) ++ l.back.map .char ++ y.map .char := by
    simp [GroupedLeaf.segs, hfront]
  have hcovered : Segment.covered 0 (z.map .char ++ l.core) = z ++ (l.hidden 0).core := by
    rw [Segment.covered_append, covered_map_char fun c hc => isEscaped_of_isBlank (hz c hc),
      Segment.count_map_char]
    rfl
  have hplan : Grammar.default.plan (z ++ groupedText l [] ++ y) =
      .ok (.after, ⟨l.back, Text.byteSize (Segment.texts (z.map .char ++ l.core))⟩) :=
    plan_leaf hz hy hsegs hback hops (by simp) fun around hno => by
      rw [hcovered]
      exact select_after hz hy hfront hback hno
  rwa [Segment.texts_append, Segment.texts_map_char] at hplan

/-! ### Words -/

variable {w : List Char}

theorem covered_word_mem_core (hw : IsWord w) (n : Nat) :
    Segment.covered n (w.map .char) ∈ Lexeme.core.lang := by
  rw [covered_map_char (IsWord.not_isEscaped hw)]
  exact hw.mem_core

theorem allValid_word (hw : IsWord w) : Segment.AllValid (w.map .char) :=
  allValid_map_char (IsWord.not_isBracket hw)

theorem nil_mem_fronts : [] ∈ [] :: frontWords :=
  List.mem_cons_self

theorem nil_mem_backs : [] ∈ [] :: backWords :=
  List.mem_cons_self

/-- A leaf that is a word without operators. -/
def GroupedLeaf.ofWord (hw : IsWord w) : GroupedLeaf where
  front := []
  core := w.map .char
  back := []
  front_mem := nil_mem_fronts
  core_mem := covered_word_mem_core hw
  back_mem := nil_mem_backs
  valid := allValid_word hw

@[simp] theorem groupedText_ofWord (hw : IsWord w) : groupedText (.ofWord hw) [] = w := by
  simp [groupedText_nil, GroupedLeaf.ofWord]

theorem noGroup_word (hz : Blank z) (hy : Blank y) (hw : IsWord w) : NoGroup true (z ++ w ++ y) := by
  refine noGroup_of_not_isBracket fun c hc => ?_
  rw [List.mem_append, List.mem_append] at hc
  rcases hc with (hc | hc) | hc
  · exact isBracket_of_isBlank (hz c hc)
  · exact IsWord.not_isBracket hw c hc
  · exact isBracket_of_isBlank (hy c hc)

theorem plan_constant (hz : Blank z) (hy : Blank y) (hw : w ∈ constant.lang) :
    Grammar.default.plan (z ++ w ++ y) = .ok (.constant, ⟨w, Text.byteSize z⟩) := by
  rw [Grammar.plan, select?_all, select_constant hz hy hw (noGroup_word hz hy (.inr (.inl hw)))]

theorem plan_variable (hz : Blank z) (hy : Blank y) (hw : w ∈ name.lang) (hnot : w ∉ constant.lang) :
    Grammar.default.plan (z ++ w ++ y) = .ok (.variable, ⟨w, Text.byteSize z⟩) := by
  rw [Grammar.plan, select?_all, select_variable hz hy hw hnot (noGroup_word hz hy (.inl hw))]

theorem plan_number (hz : Blank z) (hy : Blank y) (hw : w ∈ number.lang) :
    Grammar.default.plan (z ++ w ++ y) = .ok (.number, ⟨w, Text.byteSize z⟩) := by
  rw [Grammar.plan, select?_all, select_number hz hy hw (noGroup_word hz hy (.inr (.inr hw)))]

end

end Formula
