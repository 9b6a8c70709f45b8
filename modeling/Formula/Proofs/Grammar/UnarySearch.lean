import Formula.Proofs.Grammar.Select

/-!
# Which unary operator is found

The search for an operator in front finds one exactly when the first character that is not blank
belongs to one (`find?_leading_eq_none`, `find?_leading`). Of `++` and `+` it finds the double one: its
pattern prefers it, so the search is followed step by step (`findFrom_front`) where a sign is doubled.
Elsewhere only one operator matches.

The search for an operator behind looks at the last characters (`findBehind?_eq_none`,
`findBehind?_eq_some`).
-/

set_option autoImplicit false

namespace Formula

open Lexeme Machine

/-! ## The search step by step -/

/-- The characters of the single operators in front. -/
def singleFront : CharSet :=
  .union (.union (.union (.union (.single '+') (.single '-')) (.single '!')) (.single '~'))
    (.single '¬')

/-- The start or the end of the operator that is found. -/
def frontMark (opening : Bool) : Mark := ⟨"matched".toList, opening⟩

/-- The moves at the start of a text or among the blanks there. -/
def frontMoves (guards : List Assertion) : List Move :=
  [⟨guards, [], some (0, .blank)⟩, ⟨guards, [frontMark true], some (1, .single '+')⟩,
    ⟨guards, [frontMark true], some (3, .single '-')⟩,
    ⟨guards, [frontMark true], some (5, singleFront)⟩]

/-- The machine of the search. -/
def frontMachine : Machine where
  start := frontMoves [.textStart]
  later := []
  next := #[frontMoves [], [⟨[], [], some (2, .single '+')⟩], [⟨[], [frontMark false], none⟩],
    [⟨[], [], some (4, .single '-')⟩], [⟨[], [frontMark false], none⟩],
    [⟨[], [frontMark false], none⟩]]

theorem of_leading : Machine.of (leading frontOperator) = frontMachine := by
  have hmoves : (leading frontOperator).moves 0 = frontMoves [.textStart] := by decide
  have hnext : ((leading frontOperator).follows 0).toArray = frontMachine.next := by decide
  simp only [Machine.of, hmoves, hnext]
  rfl

/-- The search has passed nothing but blanks. -/
def AtFront (before : Option Char) (i k : Nat) (threads : List Thread) : Prop :=
  (before = none ∧ threads = [] ∧ k = i) ∨ ∃ d, before = some d ∧ threads = [⟨k, [], 0⟩]

section

variable {before : Option Char} {i j k : Nat} {threads : List Thread} {c : Char}
  {guards : List Assertion}

theorem allowed_front (h : AtFront before i k threads) (after : Option Char) :
    ∃ guards, frontMachine.allowed before after i threads none =
      (frontMoves guards).map fun v => ⟨k, [], v⟩ := by
  rcases h with ⟨rfl, rfl, rfl⟩ | ⟨d, rfl, rfl⟩
  · exact ⟨[.textStart], rfl⟩
  · exact ⟨[], rfl⟩

theorem threadsAfter_blank (hc : Text.isBlank c = true) :
    threadsAfter i c ((frontMoves guards).map fun v => ⟨k, [], v⟩) = [⟨k, [], 0⟩] := by
  have hall : ∀ s ∈ [CharSet.single '+', .single '-', singleFront], s.contains c = false := by
    have h := Text.forall_blank (f := fun c =>
      [CharSet.single '+', .single '-', singleFront].all fun s => !s.contains c)
      (by decide) hc
    simpa using h
  have hblank : CharSet.contains .blank c = true := hc
  simp only [List.mem_cons, List.not_mem_nil, or_false, forall_eq_or_imp, forall_eq] at hall
  simp [threadsAfter, frontMoves, Move.isEnd, Move.consume?, hblank, hall, Choice.record, addThread]

/-- After a sign the double operator comes before the single one. -/
theorem threadsAfter_sign (hc : c = '+' ∨ c = '-') :
    threadsAfter i c ((frontMoves guards).map fun v => ⟨k, [], v⟩) =
      [⟨k, [(frontMark true, i)], if c = '+' then 1 else 3⟩, ⟨k, [(frontMark true, i)], 5⟩] := by
  rcases hc with rfl | rfl <;> rfl

theorem findFrom_stop {marks : List (Mark × Nat)} {best : Match} {n : Nat} (hn : n = 2 ∨ n = 4)
    (r : List Char) :
    frontMachine.findFrom (some c) i [⟨k, marks, n⟩] (some best) r =
      some ⟨k, i, (frontMark false, i) :: marks⟩ := by
  cases r with
  | nil =>
    rw [findFrom_nil]
    rcases hn with rfl | rfl <;> rfl
  | cons e r =>
    rw [findFrom_cons]
    rcases hn with rfl | rfl <;> rfl

theorem findFrom_second (hc : c = '+' ∨ c = '-') (r : List Char) :
    frontMachine.findFrom (some c) i [⟨k, [(frontMark true, j)], if c = '+' then 1 else 3⟩,
        ⟨k, [(frontMark true, j)], 5⟩] none (c :: r) =
      some ⟨k, i + c.utf8Size, [(frontMark false, i + c.utf8Size), (frontMark true, j)]⟩ := by
  rw [findFrom_cons]
  rcases hc with rfl | rfl
  · exact findFrom_stop (.inl rfl) r
  · exact findFrom_stop (.inr rfl) r

/-- A double sign is found as one operator. -/
theorem findFrom_front (hc : c = '+' ∨ c = '-') {z : List Char} (hz : Blank z) (r : List Char)
    (h : AtFront before i k threads) :
    frontMachine.findFrom before i threads none (z ++ c :: c :: r) =
      some ⟨k, i + Text.byteSize (z ++ [c, c]),
        [(frontMark false, i + Text.byteSize (z ++ [c, c])),
          (frontMark true, i + Text.byteSize z)]⟩ := by
  induction z generalizing before i threads with
  | nil =>
    obtain ⟨guards, hallowed⟩ := allowed_front h (some c)
    rw [List.nil_append, findFrom_cons, hallowed]
    dsimp only
    rw [threadsAfter_sign hc, if_neg (by simp)]
    refine (findFrom_second hc r).trans ?_
    simp [Text.byteSize_cons, Nat.add_assoc]
  | cons d z ih =>
    obtain ⟨guards, hallowed⟩ := allowed_front h (some d)
    rw [List.cons_append, findFrom_cons, hallowed]
    dsimp only
    rw [threadsAfter_blank (hz d List.mem_cons_self), if_neg (by simp)]
    refine (ih (fun e he => hz e (List.mem_cons_of_mem d he)) (.inr ⟨d, rfl, rfl⟩)).trans ?_
    simp [Text.byteSize_cons, Nat.add_assoc]

end

/-! ## What is found in front -/

section

variable {z w r : List Char}

theorem find?_leading_double {c : Char} (hc : c = '+' ∨ c = '-') (hz : Blank z) (r : List Char) :
    (Finder.pattern (.of (leading frontOperator)) false).find? (z ++ [c, c] ++ r) =
      some ⟨[c, c], Text.byteSize z⟩ := by
  have hfind : (Machine.of (leading frontOperator)).find? (z ++ [c, c] ++ r) =
      some ⟨0, Text.byteSize (z ++ [c, c]), [(frontMark false, Text.byteSize (z ++ [c, c])),
        (frontMark true, Text.byteSize z)]⟩ := by
    rw [of_leading, Machine.find?, Machine.findAfter?, List.append_assoc]
    refine (findFrom_front (k := 0) hc hz r (.inl ⟨rfl, rfl, rfl⟩)).trans ?_
    simp
  simp only [Finder.find?, Bool.false_eq_true, if_false, hfind, Option.bind_some]
  exact tokenAt?_append z [c, c] r

theorem isFront_of_frontOperator (hw : w ∈ frontOperator.lang) :
    ∃ c s, w = c :: s ∧ isFront c = true ∧ Text.isBlank c = false := by
  have hall : frontWords.all
      (fun w => w.head?.any fun c => isFront c && !Text.isBlank c) = true := by decide
  have h := List.all_eq_true.1 hall w (lang_frontOperator.1 hw)
  cases w with
  | nil => cases h
  | cons c s => exact ⟨c, s, rfl, by simpa using h⟩

/-- An operator is found where the text begins with it, unless it is half of a double one. -/
theorem find?_leading (hz : Blank z) (hw : w ∈ frontOperator.lang)
    (hsingle : w = ['+'] ∨ w = ['-'] → r.head? ≠ w.head?) :
    (Finder.pattern (.of (leading frontOperator)) false).find? (z ++ w ++ r) =
      some ⟨w, Text.byteSize z⟩ := by
  have hsplit : w = ['+', '+'] ∨ w = ['-', '-'] ∨ w.length = 1 := by
    have hall : frontWords.all
        (fun w : List Char => w = ['+', '+'] ∨ w = ['-', '-'] ∨ w.length = 1) = true := by decide
    simpa using List.all_eq_true.1 hall w (lang_frontOperator.1 hw)
  rcases hsplit with rfl | rfl | hlen
  · exact find?_leading_double (.inl rfl) hz r
  · exact find?_leading_double (.inr rfl) hz r
  · have hocc : (leading frontOperator).OccursIn (z ++ w ++ r) := by
      refine ⟨[], z ++ w, r, rfl, Pattern.accepts_seq.2 ⟨[], _, rfl, accepts_assert.2 ⟨rfl, rfl⟩, ?_⟩⟩
      exact Pattern.accepts_seq.2 ⟨z, w, rfl, accepts_blanks.2 hz, 0, _,
        (Pattern.matches_group rfl rfl).2 ⟨hw, rfl⟩⟩
    obtain ⟨token, htoken⟩ := exists_find?_pattern (names_leading rfl rfl) hocc
    obtain ⟨z', w', r', ht, ⟨hz', hw'⟩, rfl⟩ := find?_pattern (names_leading rfl rfl) htoken
    obtain ⟨c, s, rfl, -, hc⟩ := isFront_of_frontOperator hw
    obtain ⟨c', s', rfl, -, hc'⟩ := isFront_of_frontOperator hw'
    have ht : z ++ c :: (s ++ r) = z' ++ c' :: (s' ++ r') := by simpa using ht
    obtain ⟨rfl, hrest⟩ := Text.append_cons_inj_of_blank hz hc hz' hc' ht
    injection hrest with hcc hrest
    subst hcc
    obtain rfl : s = [] := List.length_eq_zero_iff.1 (by simpa using hlen)
    -- The found operator could only be longer where the sign is doubled.
    have hshort : s' = [] ∨ (s' = [c] ∧ (c = '+' ∨ c = '-')) := by
      have hall : frontWords.all
          (fun w : List Char => w.drop 1 = [] ∨ w = ['+', '+'] ∨ w = ['-', '-']) = true := by decide
      have := List.all_eq_true.1 hall _ (lang_frontOperator.1 hw')
      simp only [List.drop_succ_cons, List.drop_zero, decide_eq_true_eq, List.cons.injEq] at this
      rcases this with h | ⟨rfl, h⟩ | ⟨rfl, h⟩
      · exact .inl h
      · exact .inr ⟨h, .inl rfl⟩
      · exact .inr ⟨h, .inr rfl⟩
    rcases hshort with rfl | ⟨rfl, hsign⟩
    · exact htoken
    · refine absurd ?_ (hsingle (by rcases hsign with rfl | rfl <;> simp))
      rw [List.nil_append] at hrest
      rw [hrest]
      rfl

/-- No operator is found where the text does not begin with one. -/
theorem find?_leading_eq_none {c : Char} (hz : Blank z) (hc : Text.isBlank c = false)
    (hfront : isFront c = false) :
    (Finder.pattern (.of (leading frontOperator)) false).find? (z ++ c :: r) = none := by
  cases hfind : (Finder.pattern (.of (leading frontOperator)) false).find? (z ++ c :: r) with
  | none => rfl
  | some token =>
    obtain ⟨z', w', r', ht, ⟨hz', hw'⟩, rfl⟩ := find?_pattern (names_leading rfl rfl) hfind
    obtain ⟨c', s', rfl, hfront', hc'⟩ := isFront_of_frontOperator hw'
    have ht : z ++ c :: r = z' ++ c' :: (s' ++ r') := by simpa using ht
    obtain ⟨rfl, hrest⟩ := Text.append_cons_inj_of_blank hz hc hz' hc' ht
    injection hrest with hcc
    subst hcc
    rw [hfront] at hfront'
    cases hfront'

end

/-! ## What is found behind -/

section

variable {front w y : List Char}

theorem ne_of_not_isBack {d : Char} (hd : isBack d = false) :
    d ≠ '+' ∧ d ≠ '-' ∧ d ≠ '!' ∧ d ≠ '%' ∧ d ≠ '#' := by
  simpa [isBack] using hd

theorem symbolBehind?_eq_none {d : Char} (hd : isBack d = false) (front : List Char) :
    symbolBehind? (front ++ [d]) = none := by
  obtain ⟨h1, h2, h3, h4, h5⟩ := ne_of_not_isBack hd
  simp [symbolBehind?, h1, h2, h3, h4, h5]

/-- An operator behind something that ends with none. -/
theorem symbolBehind?_eq_some {d : Char} (hd : isBack d = false) (hw : w ∈ backOperator.lang)
    (front : List Char) : symbolBehind? (front ++ [d] ++ w) = some w := by
  obtain ⟨-, -, h3, -, -⟩ := ne_of_not_isBack hd
  have hw := lang_backOperator.1 hw
  simp only [backWords, List.mem_cons, List.not_mem_nil, or_false] at hw
  rcases hw with rfl | rfl | rfl | rfl | rfl | rfl <;>
    simp [symbolBehind?, h3]

theorem symbolBehind?_sound {text : List Char} (h : symbolBehind? text = some w) :
    w ∈ backOperator.lang ∧ ∃ front, text = front ++ w := by
  have hend : ∀ {r : List Char}, text.reverse = w.reverse ++ r → ∃ front, text = front ++ w := by
    intro r hr
    refine ⟨r.reverse, ?_⟩
    rw [← List.reverse_reverse text, hr, List.reverse_append, List.reverse_reverse]
  rw [lang_backOperator]
  rw [symbolBehind?] at h
  split at h
  · split at h
    · next r hr =>
      cases h
      exact ⟨by decide, hend hr⟩
    · next r hr =>
      cases h
      exact ⟨by decide, hend hr⟩
    · next r hr =>
      cases h
      exact ⟨by decide, hend hr⟩
    · next r hr =>
      cases h
      exact ⟨by decide, hend hr⟩
    · cases h
  · next hbangs =>
    have hsplit := List.takeWhile_append_dropWhile (p := fun c => decide (c = '!')) (l := text.reverse)
    have htake : ∃ n, text.reverse.takeWhile (fun c => decide (c = '!')) = List.replicate n '!' := by
      refine ⟨_, List.eq_replicate_iff.2 ⟨rfl, fun c hc => ?_⟩⟩
      simpa using List.mem_takeWhile_imp hc
    obtain ⟨n, hn⟩ := htake
    rw [hn] at hsplit
    rw [hn, List.length_replicate] at hbangs h
    obtain ⟨m, rfl⟩ := Nat.exists_eq_succ_of_ne_zero hbangs
    split at h
    · next heven =>
      cases h
      obtain ⟨k, rfl⟩ : ∃ k, m = k + 1 := ⟨m - 1, by omega⟩
      exact ⟨by decide, hend hsplit.symm⟩
    · cases h
      exact ⟨by decide, hend hsplit.symm⟩

/-- Where a symbol ends a text without the blanks at its end, what stands before it decides. -/
theorem findBehind?_of_symbol {text : List Char} (ht : Text.trimEnd text = front ++ w)
    (hw : symbolBehind? (front ++ w) = some w) : findBehind? text =
      if Text.isAllBlank front then none else some ⟨w, Text.byteSize front⟩ := by
  rw [findBehind?, ht]
  dsimp only
  rw [hw]
  dsimp only
  rw [Text.byteSize_append, Nat.add_sub_cancel, Text.before?_append]

/-- What is found behind is an operator at the end, with something that is not blank before it. -/
theorem findBehind?_sound {text : List Char} {token : Token} (h : findBehind? text = some token) :
    ∃ front w y, text = front ++ w ++ y ∧ token = ⟨w, Text.byteSize front⟩ ∧
      w ∈ backOperator.lang ∧ Blank y ∧ Text.isAllBlank front = false := by
  obtain ⟨y, hy, ht⟩ := Text.exists_trimEnd text
  cases hw : symbolBehind? (Text.trimEnd text) with
  | none =>
    simp only [findBehind?, hw] at h
    cases h
  | some w =>
    obtain ⟨hmem, front, hfront⟩ := symbolBehind?_sound hw
    rw [findBehind?_of_symbol hfront (hfront ▸ hw)] at h
    split at h
    · cases h
    · next hblank =>
      cases h
      exact ⟨front, w, y, by rw [← hfront, ← ht], rfl, hmem, hy, by simpa using hblank⟩

theorem findBehind?_eq_none {d : Char} (hd : isBack d = false) (hblank : Text.isBlank d = false)
    (hy : Blank y) : findBehind? (front ++ [d] ++ y) = none := by
  rw [findBehind?, Text.trimEnd_append hy, Text.trimEnd_concat hblank]
  simp only [symbolBehind?_eq_none hd]

theorem findBehind?_eq_some {d : Char} (hd : isBack d = false) (hblank : Text.isBlank d = false)
    (hw : w ∈ backOperator.lang) (hy : Blank y) :
    findBehind? (front ++ [d] ++ w ++ y) = some ⟨w, Text.byteSize (front ++ [d])⟩ := by
  have hend : Text.trimEnd (front ++ [d] ++ w) = front ++ [d] ++ w := by
    obtain ⟨s, c, rfl, hc⟩ : ∃ s c, w = s ++ [c] ∧ Text.isBlank c = false := by
      have hall : backWords.all
          (fun w => w.getLast?.any fun c => !Text.isBlank c) = true := by decide
      have h := List.all_eq_true.1 hall w (lang_backOperator.1 hw)
      rcases List.eq_nil_or_concat w with rfl | ⟨s, c, rfl⟩
      · cases h
      · exact ⟨s, c, by simp, by simpa using h⟩
    rw [← List.append_assoc, Text.trimEnd_concat hc]
  have hfront : Text.isAllBlank (front ++ [d]) = false := by simp [Text.isAllBlank, hblank]
  rw [findBehind?_of_symbol ((Text.trimEnd_append hy).trans hend) (symbolBehind?_eq_some hd hw _),
    if_neg (by simp [hfront])]

end

end Formula
