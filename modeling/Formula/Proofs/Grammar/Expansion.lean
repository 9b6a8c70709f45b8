import Formula.Grammar.Basic
import Mathlib.Data.List.Nodup
import Mathlib.Data.List.TakeWhile
import Mathlib.Logic.Relation

/-!
# Expansion of references

A pattern mentions a name where the name stands in it between braces (`Mentions`), and so leads to the
pattern of the rule with that name (`LeadsTo`). It has an expansion exactly when all names that are mentioned
on the way lead on and no chain of references is too long (`isSome_expandWithin_iff`); so it has none when
it leads into a cycle. In an expansion no name is mentioned (`not_mentions_expandWithin`): a reference
cannot begin in one piece of the expansion and end in another, as parentheses stand between them. The
main statement is `Grammar.expand?_references`.
-/

set_option autoImplicit false

namespace Formula

/-! ## Mentioned names -/

/-- Names that can be referred to: an ASCII letter or underscore, and more word characters. -/
def IsReferable (name : List Char) : Prop :=
  ∃ c rest, name = c :: rest ∧ (c.isAlpha = true ∨ c = '_') ∧ ∀ d ∈ rest, Text.isWordChar d = true

/-- A name stands in a pattern between braces. -/
def Mentions (pattern name : List Char) : Prop :=
  IsReferable name ∧ '\x7b' :: (name ++ ['\x7d']) <:+: pattern

section

variable {name cs : List Char}

theorem IsReferable.isWordChar (h : IsReferable name) : ∀ c ∈ name, Text.isWordChar c = true := by
  obtain ⟨c, rest, rfl, hc, hrest⟩ := h
  refine List.forall_mem_cons.2 ⟨?_, hrest⟩
  rcases hc with hc | rfl
  · simp [Text.isWordChar, Char.isAlphanum, hc]
  · decide

theorem IsReferable.not_mem (h : IsReferable name) {c : Char} (hc : Text.isWordChar c = false) :
    c ∉ name := by
  intro hmem
  rw [h.isWordChar c hmem] at hc
  cases hc

/-- After an opening brace the name of a reference is read up to a closing one. -/
theorem referenceName?_eq_some : PatternPiece.referenceName? cs = some name ↔
    IsReferable name ∧ ∃ rest, cs = name ++ '\x7d' :: rest := by
  constructor
  · intro h
    rw [PatternPiece.referenceName?] at h
    split at h
    · next c w rest htake hdrop =>
      split at h
      · next hc =>
        cases h
        have hword : ∀ d ∈ c :: w, Text.isWordChar d = true := by
          rw [← htake]
          exact fun d hd => List.mem_takeWhile_imp hd
        refine ⟨⟨c, w, rfl, by simpa using hc, fun d hd => hword d (List.mem_cons_of_mem c hd)⟩, rest, ?_⟩
        rw [← htake, ← hdrop, List.takeWhile_append_dropWhile]
      · cases h
    · cases h
  · rintro ⟨hname, rest, rfl⟩
    have hbrace : Text.isWordChar '\x7d' = false := by decide
    have htake : (name ++ '\x7d' :: rest).takeWhile Text.isWordChar = name := by
      rw [List.takeWhile_append_of_pos hname.isWordChar, List.takeWhile_cons_of_neg (by simp [hbrace]),
        List.append_nil]
    have hdrop : (name ++ '\x7d' :: rest).dropWhile Text.isWordChar = '\x7d' :: rest := by
      rw [List.dropWhile_append_of_pos hname.isWordChar, List.dropWhile_cons_of_neg (by simp [hbrace])]
    obtain ⟨c, w, rfl, hc, -⟩ := hname
    rw [PatternPiece.referenceName?, htake, hdrop]
    exact if_pos (by simpa using hc)

theorem mentions_cons {c : Char} : Mentions (c :: cs) name ↔
    (c = '\x7b' ∧ PatternPiece.referenceName? cs = some name) ∨ Mentions cs name := by
  rw [Mentions, Mentions, List.infix_cons_iff, referenceName?_eq_some, and_or_left]
  refine or_congr_left ?_
  constructor
  · rintro ⟨hname, rest, h⟩
    injection h with hc hcs
    exact ⟨hc.symm, hname, rest, by rw [← hcs]; simp⟩
  · rintro ⟨rfl, hname, rest, rfl⟩
    exact ⟨hname, rest, by simp⟩

theorem not_mentions_nil : ¬ Mentions [] name := by
  rintro ⟨-, h⟩
  exact absurd (List.infix_nil.1 h) (List.cons_ne_nil _ _)

/-- What holds no opening brace mentions nothing. -/
theorem mentions_append {w : List Char} (hw : '\x7b' ∉ w) :
    Mentions (w ++ cs) name ↔ Mentions cs name := by
  induction w with
  | nil => rfl
  | cons c w ih =>
    rw [List.mem_cons, not_or] at hw
    rw [List.cons_append, mentions_cons, ih hw.2]
    exact or_iff_right fun h => hw.1 h.1.symm

end

/-! ## Pieces of a pattern -/

namespace PatternPiece

theorem reference_mem_ofChars {pattern name : List Char} {skip : Nat} :
    .reference name ∈ ofChars skip pattern ↔ Mentions (pattern.drop skip) name := by
  induction pattern generalizing skip with
  | nil =>
    rw [List.drop_nil]
    cases skip <;> simp [ofChars, not_mentions_nil]
  | cons c cs ih =>
    cases skip with
    | succ skip => rw [ofChars, ih, List.drop_succ_cons]
    | zero =>
      rw [ofChars, List.drop_zero, mentions_cons]
      split
      · next hc =>
        cases href : referenceName? cs with
        | none => simp [ih, hc]
        | some n =>
          obtain ⟨hn, rest, rfl⟩ := referenceName?_eq_some.1 href
          have hbrace : '\x7b' ∉ n ++ ['\x7d'] := by
            simpa using hn.not_mem (by decide)
          have hdrop : (n ++ '\x7d' :: rest).drop (n.length + 1) = rest := by simp
          have hrest : Mentions (n ++ ['\x7d'] ++ rest) name ↔ Mentions rest name :=
            mentions_append hbrace
          rw [List.append_assoc, List.singleton_append] at hrest
          rw [List.mem_cons, ih, hdrop, hrest, PatternPiece.reference.injEq, Option.some.injEq]
          simp [hc, eq_comm]
      · next hc => simp [ih, hc]

/-- A pattern that mentions no name is cut into its characters. -/
theorem ofChars_eq_map {pattern : List Char} (h : ∀ name, ¬ Mentions pattern name) :
    ofChars 0 pattern = pattern.map .char := by
  induction pattern with
  | nil => rfl
  | cons c cs ih =>
    have ih := ih fun name hcs => h name (mentions_cons.2 (.inr hcs))
    rw [ofChars, ih]
    split
    · next hc =>
      split
      · next n hn => exact absurd (mentions_cons.2 (.inl ⟨hc, hn⟩)) (h n)
      · rfl
    · rfl

end PatternPiece

/-! ## Expansion by pieces -/

/-- What is put in the place of a piece. -/
def expandPiece (rules : List Rule) (levels : Nat) : PatternPiece → Option (List Char)
  | .char c => some [c]
  | .reference name =>
    match (Rule.named? rules (String.ofList name)).bind Rule.pattern with
    | none => none
    | some p => (expandWithin rules levels p.toList).map fun e => "(?:".toList ++ e ++ [')']

/-- Expands the pieces of a pattern. -/
def expandPieces (rules : List Rule) (levels : Nat) (pieces : List PatternPiece) :
    Option (List Char) :=
  (pieces.mapM (expandPiece rules levels)).map List.flatten

theorem expandWithin_succ (rules : List Rule) (levels : Nat) (pattern : List Char) :
    expandWithin rules (levels + 1) pattern =
      expandPieces rules levels (PatternPiece.ofChars 0 pattern) := by
  rw [expandWithin, expandPieces]
  congr 2

theorem expandPieces_nil (rules : List Rule) (levels : Nat) :
    expandPieces rules levels [] = some [] := rfl

theorem expandPieces_cons_eq_some {rules : List Rule} {levels : Nat} {piece : PatternPiece}
    {pieces : List PatternPiece} {q : List Char} :
    expandPieces rules levels (piece :: pieces) = some q ↔
      ∃ e r, expandPiece rules levels piece = some e ∧ expandPieces rules levels pieces = some r ∧
        q = e ++ r := by
  simp only [expandPieces, List.mapM_cons]
  cases expandPiece rules levels piece <;> cases pieces.mapM (expandPiece rules levels) <;>
    simp [eq_comm]

theorem expandPieces_map_char (rules : List Rule) (levels : Nat) (cs : List Char) :
    expandPieces rules levels (cs.map .char) = some cs := by
  induction cs with
  | nil => rfl
  | cons c cs ih =>
    rw [List.map_cons, expandPieces_cons_eq_some]
    exact ⟨[c], cs, rfl, ih, rfl⟩

/-- A pattern that mentions no name is its own expansion. -/
theorem expandWithin_of_not_mentions (rules : List Rule) (levels : Nat) {pattern : List Char}
    (h : ∀ name, ¬ Mentions pattern name) :
    expandWithin rules (levels + 1) pattern = some pattern := by
  rw [expandWithin_succ, PatternPiece.ofChars_eq_map h, expandPieces_map_char]

theorem isSome_expandPieces {rules : List Rule} {levels : Nat} {pieces : List PatternPiece} :
    (expandPieces rules levels pieces).isSome ↔
      ∀ name, .reference name ∈ pieces → (expandPiece rules levels (.reference name)).isSome := by
  induction pieces with
  | nil => simp [expandPieces_nil]
  | cons piece pieces ih =>
    have hcons : (expandPieces rules levels (piece :: pieces)).isSome ↔
        (expandPiece rules levels piece).isSome ∧ (expandPieces rules levels pieces).isSome := by
      simp only [Option.isSome_iff_exists, expandPieces_cons_eq_some]
      exact ⟨fun ⟨_, e, r, he, hr, _⟩ => ⟨⟨e, he⟩, r, hr⟩,
        fun ⟨⟨e, he⟩, r, hr⟩ => ⟨_, e, r, he, hr, rfl⟩⟩
    rw [hcons, ih]
    cases piece with
    | char c => simp [expandPiece]
    | reference n => simp

/-! ## Where references lead -/

/-- A pattern mentions the name of a rule that has a pattern. -/
def LeadsTo (rules : List Rule) (p name q : List Char) : Prop :=
  Mentions p name ∧
    ∃ r ∈ rules, r.name = String.ofList name ∧ ∃ s, r.pattern = some s ∧ s.toList = q

/-- References, each in the pattern that the one before it leads to. -/
inductive ReferenceChain (rules : List Rule) : List Char → List (List Char) → Prop
  | nil (p : List Char) : ReferenceChain rules p []
  | cons {p name q : List Char} {names : List (List Char)} : LeadsTo rules p name q →
      ReferenceChain rules q names → ReferenceChain rules p (name :: names)

/-- References lead from one pattern to another. -/
def Reaches (rules : List Rule) : List Char → List Char → Prop :=
  Relation.ReflTransGen fun p q => ∃ name, LeadsTo rules p name q

/-- Every name that is mentioned on the way leads on. -/
def Resolves (rules : List Rule) (p : List Char) : Prop :=
  ∀ q, Reaches rules p q → ∀ name, Mentions q name →
    ∃ r ∈ rules, r.name = String.ofList name ∧ r.pattern.isSome

section

variable {rules : List Rule}

/-- Of rules with distinct names, the first with a name is the only one. -/
theorem named?_eq_some (h : (rules.map Rule.name).Nodup) {name : String} {r : Rule} :
    Rule.named? rules name = some r ↔ r ∈ rules ∧ r.name = name := by
  constructor
  · intro hr
    exact ⟨List.mem_of_find?_eq_some hr, by simpa using List.find?_some hr⟩
  · rintro ⟨hmem, hname⟩
    cases hfind : Rule.named? rules name with
    | none => exact absurd (by simpa using hname) (List.find?_eq_none.1 hfind r hmem)
    | some r' =>
      have hname' : r'.name = name := by simpa using List.find?_some hfind
      rw [List.inj_on_of_nodup_map h (List.mem_of_find?_eq_some hfind) hmem (hname'.trans hname.symm)]

section

variable (h : (rules.map Rule.name).Nodup)
include h

/-- A reference has an expansion if the pattern that it leads to has one. -/
theorem isSome_expandPiece {levels : Nat} {p name : List Char} (hp : Mentions p name) :
    (expandPiece rules levels (.reference name)).isSome ↔
      ∃ q, LeadsTo rules p name q ∧ (expandWithin rules levels q).isSome := by
  constructor
  · intro hsome
    rw [expandPiece] at hsome
    split at hsome
    · cases hsome
    · next s hs =>
      obtain ⟨r, hr, hpattern⟩ := Option.bind_eq_some_iff.1 hs
      obtain ⟨hmem, hname⟩ := (named?_eq_some h).1 hr
      rw [Option.isSome_map] at hsome
      exact ⟨s.toList, ⟨hp, r, hmem, hname, s, hpattern, rfl⟩, hsome⟩
  · rintro ⟨q, ⟨-, r, hmem, hname, s, hpattern, rfl⟩, hsome⟩
    rw [expandPiece, (named?_eq_some h).2 ⟨hmem, hname⟩, Option.bind_some, hpattern]
    rwa [Option.isSome_map]

/-- A name leads to one pattern at most. -/
theorem LeadsTo.unique {p p' name q q' : List Char} (hq : LeadsTo rules p name q)
    (hq' : LeadsTo rules p' name q') : q = q' := by
  obtain ⟨-, r, hmem, hname, s, hs, rfl⟩ := hq
  obtain ⟨-, r', hmem', hname', s', hs', rfl⟩ := hq'
  obtain rfl := List.inj_on_of_nodup_map h hmem hmem' (hname.trans hname'.symm)
  rw [hs, Option.some.injEq] at hs'
  rw [hs']

/-- With one level more, a pattern has an expansion if all that is mentioned in it leads to patterns that
have one. -/
theorem isSome_expandWithin_succ {levels : Nat} {p : List Char} :
    (expandWithin rules (levels + 1) p).isSome ↔
      ∀ name, Mentions p name → ∃ q, LeadsTo rules p name q ∧ (expandWithin rules levels q).isSome := by
  rw [expandWithin_succ, isSome_expandPieces]
  simp only [PatternPiece.reference_mem_ofChars, List.drop_zero]
  exact forall_congr' fun name => forall_congr' fun hp => isSome_expandPiece h hp

/-- A pattern has an expansion exactly if all names that are mentioned on the way lead on and no chain of
references is too long. -/
theorem isSome_expandWithin_iff (levels : Nat) (p : List Char) :
    (expandWithin rules levels p).isSome ↔
      Resolves rules p ∧ ∀ names, ReferenceChain rules p names → names.length < levels := by
  induction levels generalizing p with
  | zero =>
    refine iff_of_false (by simp [expandWithin]) ?_
    rintro ⟨-, hchains⟩
    exact absurd (hchains [] (.nil p)) (Nat.not_lt_zero _)
  | succ levels ih =>
    rw [isSome_expandWithin_succ h]
    constructor
    · intro hsome
      constructor
      · intro q hq name hname
        rcases Relation.ReflTransGen.cases_head hq with rfl | ⟨p', ⟨n, hn⟩, hq⟩
        · obtain ⟨q, ⟨-, r, hmem, hr, s, hs, -⟩, -⟩ := hsome name hname
          exact ⟨r, hmem, hr, by rw [hs]; rfl⟩
        · obtain ⟨p'', hn', hsome⟩ := hsome n hn.1
          obtain rfl := hn.unique h hn'
          exact ((ih p').1 hsome).1 q hq name hname
      · intro names hnames
        cases hnames with
        | nil => exact Nat.succ_pos levels
        | @cons _ n q names hn hnames =>
          obtain ⟨q', hn', hsome⟩ := hsome n hn.1
          obtain rfl := hn.unique h hn'
          exact Nat.succ_lt_succ (((ih q).1 hsome).2 names hnames)
    · rintro ⟨hresolves, hchains⟩ name hname
      obtain ⟨r, hmem, hr, hpattern⟩ := hresolves p .refl name hname
      obtain ⟨s, hs⟩ := Option.isSome_iff_exists.1 hpattern
      have hleads : LeadsTo rules p name s.toList := ⟨hname, r, hmem, hr, s, hs, rfl⟩
      refine ⟨s.toList, hleads, (ih s.toList).2 ⟨fun q hq => ?_, fun names hnames => ?_⟩⟩
      · exact hresolves q (.head ⟨name, hleads⟩ hq)
      · exact Nat.lt_of_succ_lt_succ (hchains (name :: names) (.cons hleads hnames))

end

/-! ## Cycles -/

/-- References lead from a pattern to itself. -/
def IsCyclic (rules : List Rule) (p : List Char) : Prop :=
  Relation.TransGen (fun p q => ∃ name, LeadsTo rules p name q) p p

theorem ReferenceChain.append {p q : List Char} {names : List (List Char)} (hpq : Reaches rules p q)
    (hq : ReferenceChain rules q names) :
    ∃ names', ReferenceChain rules p names' ∧ names.length ≤ names'.length := by
  induction hpq using Relation.ReflTransGen.head_induction_on with
  | refl => exact ⟨names, hq, Nat.le_refl _⟩
  | head hstep _ ih =>
    obtain ⟨name, hname⟩ := hstep
    obtain ⟨names', hnames', hle⟩ := ih
    exact ⟨name :: names', .cons hname hnames', Nat.le_succ_of_le hle⟩

/-- Around a cycle chains are as long as one likes. -/
theorem IsCyclic.exists_chain {p : List Char} (hp : IsCyclic rules p) (n : Nat) :
    ∃ names, ReferenceChain rules p names ∧ n ≤ names.length := by
  induction n with
  | zero => exact ⟨[], .nil p, Nat.le_refl 0⟩
  | succ n ih =>
    obtain ⟨names, hnames, hle⟩ := ih
    obtain ⟨q, ⟨name, hname⟩, hq⟩ := Relation.TransGen.head'_iff.1 hp
    obtain ⟨names', hnames', hle'⟩ := hnames.append hq
    exact ⟨name :: names', .cons hname hnames', Nat.succ_le_succ (hle.trans hle')⟩

end

/-! ## Expansions mention no names -/

/-- A closing parenthesis belongs to no reference. -/
theorem mentions_append_close {e r name : List Char} (h : Mentions (e ++ ')' :: r) name) :
    Mentions e name ∨ Mentions r name := by
  induction e with
  | nil => exact .inr ((mentions_append (w := [')']) (by decide)).1 h)
  | cons c e ih =>
    rcases mentions_cons.1 h with ⟨rfl, hread⟩ | h
    · left
      obtain ⟨hname, rest, heq⟩ := referenceName?_eq_some.1 hread
      have hclose := hname.not_mem (c := ')') (by decide)
      refine mentions_cons.2 (.inl ⟨rfl, referenceName?_eq_some.2 ⟨hname, ?_⟩⟩)
      rcases List.append_eq_append_iff.1 heq with ⟨x, hx, hr⟩ | ⟨x, rfl, hr⟩
      · cases x with
        | nil => cases hr
        | cons d x =>
          injection hr with hd
          exact absurd (by rw [hx, ← hd]; simp) hclose
      · cases x with
        | nil => cases hr
        | cons d x =>
          injection hr with hd
          exact ⟨x, by rw [← hd]⟩
    · exact (ih h).imp_left fun he => mentions_cons.2 (.inr he)

section

variable {rules : List Rule} {levels : Nat}

theorem expandPiece_reference_eq_some {name e : List Char}
    (h : expandPiece rules levels (.reference name) = some e) :
    ∃ p e', expandWithin rules levels p = some e' ∧ e = "(?:".toList ++ (e' ++ [')']) := by
  rw [expandPiece] at h
  split at h
  · cases h
  · next s _ =>
    obtain ⟨e', he', rfl⟩ := Option.map_eq_some_iff.1 h
    exact ⟨s.toList, e', he', List.append_assoc ..⟩

/-- Word characters and a closing brace do not begin with any other character. -/
theorem word_ne_cons {w rest r : List Char} {d : Char} (hw : ∀ c ∈ w, Text.isWordChar c = true)
    (hd : Text.isWordChar d = false) (hbrace : d ≠ '\x7d') : d :: r ≠ w ++ '\x7d' :: rest := by
  intro h
  cases w with
  | nil =>
    injection h with hdc
    exact hbrace hdc
  | cons c w =>
    injection h with hdc
    rw [hdc, hw c List.mem_cons_self] at hd
    cases hd

/-- Where an expansion begins with word characters and a closing brace, so does the pattern: what is put
in the place of a reference begins with a parenthesis. -/
theorem exists_of_expandPieces {cs q w rest : List Char}
    (h : expandPieces rules levels (PatternPiece.ofChars 0 cs) = some q)
    (hw : ∀ c ∈ w, Text.isWordChar c = true) (hq : q = w ++ '\x7d' :: rest) :
    ∃ rest', cs = w ++ '\x7d' :: rest' := by
  induction cs generalizing q w with
  | nil =>
    cases h
    simp at hq
  | cons c cs ih =>
    rw [PatternPiece.ofChars] at h
    split at h
    · next hc =>
      split at h
      · obtain ⟨e, r, he, -, rfl⟩ := expandPieces_cons_eq_some.1 h
        obtain ⟨p, e', -, rfl⟩ := expandPiece_reference_eq_some he
        exact absurd hq (word_ne_cons (d := '(') hw (by decide) (by decide))
      · obtain ⟨e, r, he, -, rfl⟩ := expandPieces_cons_eq_some.1 h
        cases he
        subst hc
        exact absurd hq (word_ne_cons hw (by decide) (by decide))
    · obtain ⟨e, r, he, hr, rfl⟩ := expandPieces_cons_eq_some.1 h
      cases he
      cases w with
      | nil =>
        injection hq with hc
        exact ⟨cs, by rw [hc]; rfl⟩
      | cons d w =>
        injection hq with hc hq
        obtain ⟨rest', hcs⟩ := ih hr (fun x hx => hw x (List.mem_cons_of_mem d hx)) hq
        exact ⟨rest', by rw [hc, hcs]; rfl⟩

/-- Putting in expansions that mention no names makes no reference. -/
theorem not_mentions_expandPieces {name : List Char}
    (ih : ∀ p e, expandWithin rules levels p = some e → ¬ Mentions e name) {skip : Nat}
    {cs q : List Char} (h : expandPieces rules levels (PatternPiece.ofChars skip cs) = some q) :
    ¬ Mentions q name := by
  induction cs generalizing skip q with
  | nil =>
    cases skip <;>
    · cases h
      exact not_mentions_nil
  | cons c cs ihcs =>
    cases skip with
    | succ skip => exact ihcs h
    | zero =>
      rw [PatternPiece.ofChars] at h
      split at h
      · next hc =>
        split at h
        · obtain ⟨e, r, he, hr, rfl⟩ := expandPieces_cons_eq_some.1 h
          obtain ⟨p, e', he', rfl⟩ := expandPiece_reference_eq_some he
          intro hmentions
          have hmentions : Mentions ("(?:".toList ++ (e' ++ ')' :: r)) name := by
            simpa using hmentions
          rcases mentions_append_close ((mentions_append (by decide)).1 hmentions) with hm | hm
          · exact ih p e' he' hm
          · exact ihcs hr hm
        · next hread =>
          obtain ⟨e, r, he, hr, rfl⟩ := expandPieces_cons_eq_some.1 h
          cases he
          intro hmentions
          rcases mentions_cons.1 hmentions with ⟨-, hm⟩ | hm
          · -- The brace would have begun a reference in the pattern.
            obtain ⟨hname, rest, hrest⟩ := referenceName?_eq_some.1 hm
            have hcs := exists_of_expandPieces hr hname.isWordChar hrest
            rw [referenceName?_eq_some.2 ⟨hname, hcs⟩] at hread
            cases hread
          · exact ihcs hr hm
      · next hc =>
        obtain ⟨e, r, he, hr, rfl⟩ := expandPieces_cons_eq_some.1 h
        cases he
        intro hmentions
        rcases mentions_cons.1 hmentions with ⟨hbrace, -⟩ | hm
        · exact hc hbrace
        · exact ihcs hr hm

end

/-- An expansion mentions no names. -/
theorem not_mentions_expandWithin {rules : List Rule} {levels : Nat} {p q : List Char}
    (h : expandWithin rules levels p = some q) (name : List Char) : ¬ Mentions q name := by
  induction levels generalizing p q with
  | zero => cases h
  | succ levels ih =>
    rw [expandWithin_succ] at h
    exact not_mentions_expandPieces (fun p e he => ih he) h

/-- With distinct names of rules, a pattern has an expansion exactly if every name that is mentioned in it
or in a pattern that references lead to from it is that of a rule with a pattern, and no chain of references
from it is longer than 32; so it has none if references lead from it into a cycle. In an expansion no name is
mentioned, and it is its own expansion. -/
theorem Grammar.expand?_references (g : Grammar) (h : (g.rules.map Rule.name).Nodup)
    (p : List Char) :
    ((g.expand? p).isSome ↔ Resolves g.rules p ∧
        ∀ names, ReferenceChain g.rules p names → names.length ≤ 32) ∧
      (∀ q, Reaches g.rules p q → IsCyclic g.rules q → g.expand? p = none) ∧
      ∀ q, g.expand? p = some q → (∀ name, ¬ Mentions q name) ∧ g.expand? q = some q := by
  have hsome : (g.expand? p).isSome ↔ Resolves g.rules p ∧
      ∀ names, ReferenceChain g.rules p names → names.length ≤ 32 := by
    simp only [Nat.le_iff_lt_add_one]
    exact isSome_expandWithin_iff h 33 p
  refine ⟨hsome, fun q hq hcycle => ?_, fun q hq => ?_⟩
  · cases hexpand : g.expand? p with
    | none => rfl
    | some e =>
      obtain ⟨names, hnames, hlong⟩ := hcycle.exists_chain 33
      obtain ⟨names', hnames', hle⟩ := hnames.append hq
      have hshort := (hsome.1 (by rw [hexpand]; rfl)).2 names' hnames'
      omega
  · have hnone := not_mentions_expandWithin hq
    exact ⟨hnone, expandWithin_of_not_mentions g.rules 32 hnone⟩

/-- Two rules that refer to each other, and two that do not. -/
theorem Grammar.expand?_references_cycle :
    let g := Grammar.ofRules [⟨"A", some "x\x7bB\x7d", .reference⟩, ⟨"B", some "\x7bA\x7d", .reference⟩,
      ⟨"C", some "\x7bc\x7bD\x7d\x7d", .reference⟩, ⟨"D", some "d", .reference⟩]
    (g.rules.map Rule.name).Nodup ∧ g.expand? "\x7bA\x7d".toList = none ∧
      g.expand? "\x7bC\x7d".toList = some "(?:\x7bc(?:d)\x7d)".toList ∧
      ∀ name, ¬ Mentions "(?:\x7bc(?:d)\x7d)".toList name := by
  intro g
  have hnames : (g.rules.map Rule.name).Nodup := by decide
  have hleads : LeadsTo g.rules "\x7bA\x7d".toList ['A'] "x\x7bB\x7d".toList :=
    ⟨⟨⟨'A', [], rfl, .inl rfl, by simp⟩, [], [], rfl⟩, _, List.mem_cons_self, rfl, _, rfl, rfl⟩
  have hback : LeadsTo g.rules "x\x7bB\x7d".toList ['B'] "\x7bA\x7d".toList :=
    ⟨⟨⟨'B', [], rfl, .inl rfl, by simp⟩, ['x'], [], rfl⟩, _, .tail _ List.mem_cons_self, rfl, _, rfl, rfl⟩
  have hcycle : IsCyclic g.rules "\x7bA\x7d".toList := .head ⟨_, hleads⟩ (.single ⟨_, hback⟩)
  have hexpand : g.expand? "\x7bC\x7d".toList = some "(?:\x7bc(?:d)\x7d)".toList := by rfl
  exact ⟨hnames, (expand?_references g hnames _).2.1 _ .refl hcycle, hexpand,
    ((expand?_references g hnames _).2.2 _ hexpand).1⟩

end Formula
