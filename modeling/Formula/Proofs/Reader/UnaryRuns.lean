import Formula.Proofs.Reader.Precedence

/-!
# Runs of unary operators

Unary operators may be written together on both sides of an atom, as in `-++x!!!`. In such a text there
is no operator with operands on both sides, although the signs could be some: what stands before them ends
with no operand (`not_endsWith_run`). So the operators in front are read from the left, a doubled sign as
one operator, and when there are none left the exclamation marks behind are read from the right, in pairs
if their number is even (`exists_takes`). `Reader.read_unaryRun` is the main statement.
-/

set_option autoImplicit false

namespace Formula

open Lexeme

/-! ## Runs and their trees -/

/-- The operators that characters in front of an operand are, a doubled sign being one. -/
def frontOperators : List Char → List UnaryOperator
  | [] => []
  | '+' :: '+' :: p => .increment :: frontOperators p
  | '-' :: '-' :: p => .decrement :: frontOperators p
  | '+' :: p => .positive :: frontOperators p
  | '-' :: p => .negate :: frontOperators p
  | '~' :: p => .complement :: frontOperators p
  | '!' :: p => .not :: frontOperators p
  | '¬' :: p => .not :: frontOperators p
  | _ :: p => frontOperators p

/-- An operand with exclamation marks behind it: as many double factorials as there are pairs of them, and
around these a factorial if one is left. -/
def Expr.exclaimed (e : Expr) (bangs : Nat) : Expr :=
  let pairs := (Expr.unary .after .doubleFactorial)^[bangs / 2] e
  if bangs % 2 = 1 then .unary .after .factorial pairs else pairs

/-- An atom with operators in front of it and exclamation marks behind it. -/
structure UnaryRun where
  front : List Char
  fronts : ∀ c ∈ front, isFront c = true
  atom : Atom
  bangs : Nat

namespace UnaryRun

/-- The text of a run, without blanks. -/
def text (r : UnaryRun) : List Char :=
  r.front ++ r.atom.text ++ List.replicate r.bangs '!'

/-- The tree of a run: its operators in front, the first one outermost, around the exclaimed atom. -/
def tree (r : UnaryRun) : Expr :=
  (frontOperators r.front).foldr (.unary .before) (r.atom.tree.exclaimed r.bangs)

/-- The number of operators. -/
def size (r : UnaryRun) : Nat :=
  (frontOperators r.front).length + (r.bangs + 1) / 2

end UnaryRun

/-! ## The first operator in front -/

theorem operatorChar_of_isFront {c : Char} (h : isFront c = true) : c ∈ operatorChars := by
  have hall : ['+', '-', '!', '~', '¬'].all (· ∈ operatorChars) = true := by decide
  simpa using List.all_eq_true.1 hall c (by simpa [isFront] using h)

/-- Characters in front of an operand begin with an operator, the longest one that they begin with. -/
theorem exists_frontOperator {p : List Char} (hp : ∀ c ∈ p, isFront c = true) (hne : p ≠ []) :
    ∃ w op rest, p = w ++ rest ∧ w ∈ frontOperator.lang ∧ UnaryOperator.ofSymbol? .before w = some op ∧
      (w = ['+'] ∨ w = ['-'] → rest.head? ≠ w.head?) ∧
      frontOperators p = op :: frontOperators rest := by
  have hsingle : ∀ {c : Char} {p : List Char}, (∀ p', p = c :: p' → False) → p.head? ≠ some c := by
    intro c p hdouble h
    obtain ⟨p', hp'⟩ := List.head?_eq_some_iff.1 h
    exact hdouble p' hp'
  fun_cases frontOperators p with
  | case1 => exact absurd rfl hne
  | case2 p => exact ⟨['+', '+'], _, p, rfl, lang_frontOperator.2 (by decide), rfl, by simp, rfl⟩
  | case3 p => exact ⟨['-', '-'], _, p, rfl, lang_frontOperator.2 (by decide), rfl, by simp, rfl⟩
  | case4 p hdouble =>
    exact ⟨['+'], _, p, rfl, lang_frontOperator.2 (by decide), rfl, fun _ => hsingle hdouble, rfl⟩
  | case5 p hdouble =>
    exact ⟨['-'], _, p, rfl, lang_frontOperator.2 (by decide), rfl, fun _ => hsingle hdouble, rfl⟩
  | case6 p => exact ⟨['~'], _, p, rfl, lang_frontOperator.2 (by decide), rfl, by simp, rfl⟩
  | case7 p => exact ⟨['!'], _, p, rfl, lang_frontOperator.2 (by decide), rfl, by simp, rfl⟩
  | case8 p => exact ⟨['¬'], _, p, rfl, lang_frontOperator.2 (by decide), rfl, by simp, rfl⟩
  | case9 c p _ _ hplus hminus htilde hbang hnot =>
    have hc := hp c List.mem_cons_self
    simp only [isFront, List.contains_cons, Bool.or_eq_true, beq_iff_eq, List.contains_nil,
      Bool.false_eq_true, or_false] at hc
    rcases hc with hc | hc | hc | hc | hc
    · exact (hplus hc).elim
    · exact (hminus hc).elim
    · exact (hbang hc).elim
    · exact (htilde hc).elim
    · exact (hnot hc).elim

/-! ## Operators with operands on both sides -/

section

variable {p w : List Char} {n : Nat} (hp : ∀ c ∈ p, isFront c = true) (hw : IsWord w)
include hp hw

/-- Where a separator stands in a run, no operand ends before it. -/
theorem not_endsWith_run {x s y : List Char} (hs : s ∈ separators)
    (h : p ++ w ++ List.replicate n '!' = x ++ s ++ y) : ¬ operandAtEnd.OccursIn x := by
  obtain ⟨c, s', rfl⟩ := List.exists_cons_of_ne_nil (separator_ne_nil hs)
  have hop := operatorChar_of_separator hs c List.mem_cons_self
  rw [List.append_assoc, List.append_assoc] at h
  rcases append_cons_cases h with ⟨b, hb, -⟩ | ⟨x', rfl, hrest⟩
  · -- Among the operators in front only operators come before it.
    rcases eq_or_ne x [] with rfl | hx
    · exact not_endsWith_blank Blank.nil
    · have hends : ¬ operandAtEnd.OccursIn ([] ++ x ++ []) := not_endsWith_symbols hx
        (fun d hd => operatorChar_of_isFront (hp d (by simp [hb, hd]))) Blank.nil (by simp)
      simpa using hends
  · rcases append_cons_cases hrest with ⟨b, hb, -⟩ | ⟨x'', rfl, hbangs⟩
    · -- In the atom it is the sign of an exponent.
      obtain ⟨m, e, rfl, hm, hmall, he, -⟩ := (coreShape_of_mem hw.mem_core).sign hb hop
      rw [← List.append_assoc]
      refine not_endsWith_exponent hm hmall he fun d hd => ?_
      rw [← Bool.not_eq_true]
      intro hname
      have hcore := isCoreChar_of_isNamePart hname
      rw [isCoreChar_of_operator (operatorChar_of_isFront (hp d (List.mem_of_getLast? hd)))] at hcore
      cases hcore
    · -- Exclamation marks alone are no separator.
      exfalso
      have hmarks : ∀ d ∈ c :: s', d = '!' := by
        intro d hd
        refine List.eq_of_mem_replicate (n := n) ?_
        rw [hbangs]
        exact List.mem_append_right x'' (List.mem_append_left y hd)
      have hall : separators.all (fun s => s.any (· ≠ '!')) = true := by decide
      obtain ⟨d, hd, hne⟩ := List.any_eq_true.1 (List.all_eq_true.1 hall _ hs)
      rw [hmarks d hd] at hne
      cases hne

theorem noGroup_run (around : Bool) : NoGroup around (p ++ w ++ List.replicate n '!') := by
  refine noGroup_of_not_isBracket fun c hc => ?_
  rw [List.mem_append, List.mem_append] at hc
  rcases hc with (hc | hc) | hc
  · exact isBracket_of_operator (operatorChar_of_isFront (hp c hc))
  · exact IsWord.not_isBracket hw c hc
  · rw [List.eq_of_mem_replicate hc]
    decide

/-- In a run no operator is found that has operands on both sides. -/
theorem select_run : (attempts true (p ++ w ++ List.replicate n '!')).findSome? id =
    [((Finder.pattern (.of (leading frontOperator)) false).find?
          (p ++ w ++ List.replicate n '!')).map (Builder.before, ·),
      (findBehind? (p ++ w ++ List.replicate n '!')).map (.after, ·),
      ((Finder.pattern (.of (only constant)) false).find?
        (p ++ w ++ List.replicate n '!')).map (.constant, ·),
      ((Finder.pattern (.of (only name)) false).find?
        (p ++ w ++ List.replicate n '!')).map (.variable, ·),
      ((Finder.pattern (.of (only number)) false).find?
        (p ++ w ++ List.replicate n '!')).map (.number, ·)].findSome? id := by
  have hassign : assignmentPatterns.search.find? (p ++ w ++ List.replicate n '!') = none := by
    rw [Option.eq_none_iff_forall_not_mem]
    intro token hfind
    obtain ⟨front, s, back, htext, -, hfits, -⟩ :=
      OperatorPatterns.find?_forward rfl isAnchorFree_assignment hfind
    have hs : s = ['='] := mem_char.1 hfits.mem_lang
    subst hs
    exact not_endsWith_run hp hw (by decide) htext hfits.left
  rw [(noGroup_run hp hw true).findSome?, wordAttempts_eq, hassign]
  refine findSome?_levels_none fun i hi => ?_
  have hfree : levelPatterns[i].isAnchorFree = true :=
    List.all_eq_true.1 isAnchorFree_level _ (List.getElem_mem hi)
  rw [Option.eq_none_iff_forall_not_mem]
  intro token hfind
  obtain ⟨front, s, back, htext, -, hfits, -⟩ := OperatorPatterns.find?_backward rfl hfree hfind
  obtain ⟨hs, -⟩ := (mem_lang_level hi).1 hfits.mem_lang
  exact not_endsWith_run hp hw hs htext hfits.left

/-- What is read first in a run with operators in front is the first of them. -/
theorem plan_front {u rest : List Char} (hu : u ∈ frontOperator.lang) (hpu : p = u ++ rest)
    (hlong : u = ['+'] ∨ u = ['-'] → rest.head? ≠ u.head?) :
    Grammar.default.plan (p ++ w ++ List.replicate n '!') = .ok (.before, ⟨u, 0⟩) := by
  have hfind : (Finder.pattern (.of (leading frontOperator)) false).find?
      (p ++ w ++ List.replicate n '!') = some ⟨u, 0⟩ := by
    have htext : p ++ w ++ List.replicate n '!' = [] ++ u ++ (rest ++ (w ++ List.replicate n '!')) := by
      simp [hpu]
    rw [htext]
    refine find?_leading Blank.nil hu fun hsign => ?_
    cases rest with
    | cons c rest => exact hlong hsign
    | nil =>
      obtain ⟨c, v, hc, hstart⟩ := (coreShape_of_mem hw.mem_core).head
      rw [hc]
      rcases hsign with rfl | rfl
      · simpa using ne_of_startsCore hstart (show '+' ∈ operatorChars by decide)
      · simpa using ne_of_startsCore hstart (show '-' ∈ operatorChars by decide)
  rw [Grammar.plan, select?_all, select_run hp hw, hfind]
  rfl

end

/-! ## Exclamation marks behind -/

section

variable {front : List Char} {d : Char} {n m : Nat}

/-- Of exclamation marks the last one is an operator by itself, or the last two are one, so that an even
number of them is left. -/
theorem symbolBehind?_bangs (hd : isBack d = false) (hn : n % 2 = 0) (hm : m = 1 ∨ m = 2) :
    symbolBehind? (front ++ [d] ++ List.replicate (n + m) '!') = some (List.replicate m '!') := by
  obtain ⟨-, -, hbang, -, -⟩ := ne_of_not_isBack hd
  have hreverse : (front ++ [d] ++ List.replicate (n + m) '!').reverse =
      List.replicate (n + m) '!' ++ d :: front.reverse := by
    simp
  have hmarks : (List.replicate (n + m) '!' ++ d :: front.reverse).takeWhile (· = '!') =
      List.replicate (n + m) '!' := by
    rw [List.takeWhile_append_of_pos (by simp), List.takeWhile_cons_of_neg (by simpa using hbang),
      List.append_nil]
  simp only [symbolBehind?, hreverse, hmarks, List.length_replicate]
  rcases hm with rfl | rfl
  · rw [if_neg (by omega), if_neg (by omega)]
    rfl
  · rw [if_neg (by omega), if_pos (by omega)]
    rfl

theorem findBehind?_bangs (hd : isBack d = false) (hblank : Text.isBlank d = false) (hn : n % 2 = 0)
    (hm : m = 1 ∨ m = 2) : findBehind? (front ++ [d] ++ List.replicate (n + m) '!') =
      some ⟨List.replicate m '!', Text.byteSize (front ++ [d] ++ List.replicate n '!')⟩ := by
  have htrim : Text.trimEnd (front ++ [d] ++ List.replicate (n + m) '!') =
      front ++ [d] ++ List.replicate (n + m) '!' := by
    obtain ⟨k, hk⟩ : ∃ k, n + m = k + 1 := ⟨n + m - 1, by omega⟩
    rw [hk, List.replicate_succ', ← List.append_assoc]
    exact Text.trimEnd_concat (by decide)
  have hsplit : front ++ [d] ++ List.replicate (n + m) '!' =
      front ++ [d] ++ List.replicate n '!' ++ List.replicate m '!' := by
    rw [← List.replicate_append_replicate, ← List.append_assoc]
  have hnot : Text.isAllBlank (front ++ [d] ++ List.replicate n '!') = false := by
    simp [Text.isAllBlank, hblank]
  rw [findBehind?_of_symbol (htrim.trans hsplit) (hsplit ▸ symbolBehind?_bangs hd hn hm), hnot,
    if_neg Bool.false_ne_true]

end

/-- What is read first in a run without operators in front is the last operator behind. -/
theorem plan_bangs {w : List Char} (hw : IsWord w) {n m : Nat} (hn : n % 2 = 0) (hm : m = 1 ∨ m = 2) :
    Grammar.default.plan (w ++ List.replicate (n + m) '!') =
      .ok (.after, ⟨List.replicate m '!', Text.byteSize (w ++ List.replicate n '!')⟩) := by
  have hselect := select_run (p := []) (n := n + m) (fun c hc => by cases hc) hw
  obtain ⟨c, v, hc, hstart⟩ := (coreShape_of_mem hw.mem_core).head
  obtain ⟨u, d, rfl, hend⟩ := (coreShape_of_mem hw.mem_core).last
  have hlead : (Finder.pattern (.of (leading frontOperator)) false).find?
      (u ++ [d] ++ List.replicate (n + m) '!') = none := by
    have htext : u ++ [d] ++ List.replicate (n + m) '!' = [] ++ c :: (v ++ List.replicate (n + m) '!') := by
      simp [hc]
    rw [htext]
    exact find?_leading_eq_none Blank.nil (isBlank_of_startsCore hstart) (isFront_of_startsCore hstart)
  rw [List.nil_append] at hselect
  rw [Grammar.plan, select?_all, hselect, hlead,
    findBehind?_bangs (isBack_of_endsCore hend) (isBlank_of_endsCore hend) hn hm]
  rfl

/-! ## Reading runs -/

theorem Expr.exclaimed_zero (e : Expr) : e.exclaimed 0 = e := rfl

theorem Expr.exclaimed_odd (e : Expr) {n : Nat} (h : n % 2 = 0) :
    e.exclaimed (n + 1) = .unary .after .factorial (e.exclaimed n) := by
  have hhalf : (n + 1) / 2 = n / 2 := by omega
  rw [exclaimed, exclaimed, hhalf, if_pos (by omega), if_neg (by omega)]

theorem Expr.exclaimed_even (e : Expr) {n : Nat} (h : n % 2 = 0) :
    e.exclaimed (n + 2) = .unary .after .doubleFactorial (e.exclaimed n) := by
  have hhalf : (n + 2) / 2 = n / 2 + 1 := by omega
  rw [exclaimed, exclaimed, hhalf, if_neg (by omega), if_neg (by omega), Function.iterate_succ_apply']

/-- Of exclamation marks there are none, or a last one or a last pair behind an even number of them. -/
theorem exists_bangs (n : Nat) : n = 0 ∨ ∃ k m, n = k + m ∧ k % 2 = 0 ∧ (m = 1 ∨ m = 2) := by
  rcases Nat.eq_zero_or_pos n with rfl | hpos
  · exact .inl rfl
  · rcases Nat.mod_two_eq_zero_or_one n with heven | hodd
    · exact .inr ⟨n - 2, 2, by omega, by omega, .inr rfl⟩
    · exact .inr ⟨n - 1, 1, by omega, by omega, .inl rfl⟩

namespace UnaryRun

/-- How a run is read: as its atom, or as an operator on a smaller run. -/
inductive Splits (r : UnaryRun) : Step → Prop
  | atom : Splits r (.leaf r.tree)
  | unary {side : Side} {op : UnaryOperator} {operand : UnaryRun} :
      r.tree = .unary side op operand.tree → operand.size < r.size →
      Splits r (.unary side op operand.text)

section

variable {hp : ∀ c ∈ ([] : List Char), isFront c = true} {a : Atom} {n : Nat}

theorem text_bangs : text ⟨[], hp, a, n⟩ = a.text ++ List.replicate n '!' := by
  rw [text, List.nil_append]

theorem tree_bangs : tree ⟨[], hp, a, n⟩ = a.tree.exclaimed n := by
  rw [tree, frontOperators, List.foldr_nil]

theorem size_bangs : size ⟨[], hp, a, n⟩ = (n + 1) / 2 := by
  rw [size, frontOperators, List.length_nil, Nat.zero_add]

end

/-- Reading a run takes off its first operator in front, or else its last operator behind. -/
theorem exists_splits (r : UnaryRun) : ∃ s, Splits r s ∧ Takes r.text s := by
  obtain ⟨p, hp, a, n⟩ := r
  rcases eq_or_ne p [] with rfl | hne
  · rcases exists_bangs n with rfl | ⟨k, m, rfl, hk, hm⟩
    · refine ⟨_, .atom, ?_⟩
      rw [tree_bangs, Expr.exclaimed_zero]
      exact Chain.takes_atom Blank.nil Blank.nil a
    · have htext : text ⟨[], hp, a, k + m⟩ =
          text ⟨[], hp, a, k⟩ ++ List.replicate m '!' ++ [] := by
        rw [text_bangs, text_bangs, ← List.replicate_append_replicate, List.append_nil, List.append_assoc]
      have htakes : ∀ op, UnaryOperator.ofSymbol? .after (List.replicate m '!') = some op →
          Takes (text ⟨[], hp, a, k + m⟩) (.unary .after op (text ⟨[], hp, a, k⟩)) := by
        refine fun op hop => takes_after htext hop ?_
        rw [text_bangs, text_bangs]
        exact plan_bangs a.isWord hk hm
      rcases hm with rfl | rfl
      · refine ⟨_, .unary ?_ ?_, htakes .factorial rfl⟩
        · rw [tree_bangs, tree_bangs, Expr.exclaimed_odd a.tree hk]
        · rw [size_bangs, size_bangs]
          omega
      · refine ⟨_, .unary ?_ ?_, htakes .doubleFactorial rfl⟩
        · rw [tree_bangs, tree_bangs, Expr.exclaimed_even a.tree hk]
        · rw [size_bangs, size_bangs]
          omega
  · obtain ⟨w, op, rest, hsplit, hw, hop, hlong, hops⟩ := exists_frontOperator hp hne
    have hrest : ∀ c ∈ rest, isFront c = true := fun c hc => hp c (by simp [hsplit, hc])
    have htext : text ⟨p, hp, a, n⟩ = [] ++ w ++ text ⟨rest, hrest, a, n⟩ := by
      simp [text, hsplit]
    refine ⟨_, .unary ?_ ?_, takes_before htext hop (plan_front hp a.isWord hw hsplit hlong)⟩
    · simp only [tree, hops, List.foldr_cons]
    · simp only [size, hops, List.length_cons]
      omega

/-- A run is read as its tree with more levels than it has operators. -/
theorem readFresh_text (limit : Nat) (r : UnaryRun) {n : Nat} (h : r.size < n) :
    Grammar.default.readFresh limit n r.text = .ok r.tree := by
  induction n generalizing r with
  | zero => exact absurd h (Nat.not_lt_zero _)
  | succ n ih =>
    obtain ⟨s, hs, htakes⟩ := exists_splits r
    rw [Grammar.readFresh, htakes.readStep]
    cases hs with
    | atom => rfl
    | unary htree hsize =>
      rw [htree]
      exact Step.build_unary (ih _ (by omega))

/-! ### Remembered runs -/

/-- The texts of runs. -/
def texts : Set (List Char) :=
  {p | ∃ r : UnaryRun, p = r.text}

theorem closed_texts : Closed texts := by
  rintro p ⟨r, rfl⟩ q hq
  obtain ⟨s, hs, htakes⟩ := exists_splits r
  have hq := htakes.pieces q hq
  cases hs with
  | atom => cases hq
  | @unary side op operand => exact ⟨operand, List.mem_singleton.1 hq⟩

theorem not_isBlank (r : UnaryRun) : ∀ c ∈ r.text, Text.isBlank c = false := by
  intro c hc
  simp only [text, List.mem_append] at hc
  rcases hc with (hc | hc) | hc
  · exact isBlank_of_operator (operatorChar_of_isFront (r.fronts c hc))
  · exact (coreShape_of_mem r.atom.isWord.mem_core).not_isBlank hc
  · rw [List.eq_of_mem_replicate hc]
    decide

/-- A run is its own key. -/
theorem toList_cacheKey (r : UnaryRun) : (cacheKey r.text).toList = r.text := by
  have hne : r.text ≠ [] := by
    obtain ⟨c, rest, hc, -⟩ := (coreShape_of_mem r.atom.isWord.mem_core).head
    simp [text, hc]
  have hkey : keyFrom none false (r.text ++ []) = r.text ++ keyFrom (some (lastChar r.text)) false [] :=
    keyFrom_append hne r.not_isBlank
  rw [List.append_nil, keyFrom, List.append_nil] at hkey
  rw [cacheKey, hkey, String.toList_ofList]

theorem keysAgree_texts : KeysAgree texts := by
  rintro p ⟨r, rfl⟩ q ⟨r', rfl⟩ hkey e he
  have htext : r.text = r'.text := by
    have h := congrArg String.toList hkey
    rwa [toList_cacheKey, toList_cacheKey] at h
  rw [htext]
  exact he

end UnaryRun

/-- A new reader that may nest more deeply than a run has operators reads the run as its tree: the operators
in front from left to right, of which the first is outermost, around a factorial if the number of exclamation
marks is odd, around double factorials for the pairs of them, around the leaf that the atom is. -/
theorem Reader.read_unaryRun (r : UnaryRun) {depth : Nat} (h : r.size < depth) :
    ((Reader.ofDepth depth).read r.text).1 = .ok r.tree := by
  have hmem : r.text ∈ UnaryRun.texts := ⟨r, rfl⟩
  exact read_of_readFresh UnaryRun.closed_texts UnaryRun.keysAgree_texts hmem (r.readFresh_text depth h)

theorem Reader.read_unaryRun_signs : ((Reader.ofDepth 5).read "-++x!!!".toList).1 =
    .ok (.unary .before .negate (.unary .before .increment
      (.unary .after .factorial (.unary .after .doubleFactorial (.variable "x"))))) := by
  let r : UnaryRun := ⟨['-', '+', '+'], by simp [isFront], .name ⟨['x'], letter_mem_name rfl, by decide⟩, 3⟩
  have htext : r.text = "-++x!!!".toList := by decide
  have hsize : r.size < 5 := by decide
  have htree : r.tree = .unary .before .negate (.unary .before .increment
      (.unary .after .factorial (.unary .after .doubleFactorial (.variable "x")))) := by
    simp [r, UnaryRun.tree, frontOperators, Expr.exclaimed, Atom.tree]
  rw [← htext, ← htree]
  exact Reader.read_unaryRun r hsize

end Formula
