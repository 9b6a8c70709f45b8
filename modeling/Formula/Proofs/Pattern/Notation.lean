import Formula.Pattern.Reader
import Mathlib.Data.List.TakeWhile

/-!
# Notations put into a group

A notation that is read as a pattern is read as the same pattern inside a group: the groups around stay
as they are, and reading goes on behind the closing parenthesis (`readFrom_group`). So `(?:e)$` stands for
the pattern of `e` at the end of a text, and `^(?:e)$` for the same pattern as the whole of a text
(`read?_final`, `read?_whole`).

The reader looks ahead, within bracketed sets for `:]` and elsewhere for a few characters. Every part
has a lemma of its own that it reads the same with a text behind that starts with a closing parenthesis
and has no colon (`Behind`).
-/

set_option autoImplicit false

namespace Formula.Pattern

/-- What may stand behind a notation that goes into a group: a closing parenthesis and more, but no
colon. -/
structure Behind (t : List Char) : Prop where
  head : ∃ more, t = ')' :: more
  colon : ':' ∉ t

section

variable {t cs rest : List Char}

/-! ## Looking ahead -/

/-- Characters are skipped up to the same place, when there is one to stop at. -/
theorem span_append {f : Char → Bool} (h : cs.dropWhile f ≠ []) :
    (cs ++ t).takeWhile f = cs.takeWhile f ∧ (cs ++ t).dropWhile f = cs.dropWhile f ++ t := by
  induction cs with
  | nil => exact absurd rfl h
  | cons c cs ih =>
    by_cases hc : f c = true
    · rw [List.dropWhile_cons_of_pos hc] at h
      simp [hc, ih h]
    · simp [hc]

/-- A closing parenthesis is a place to stop at. -/
theorem Behind.span (ht : Behind t) {f : Char → Bool} (hf : f ')' = false) (cs : List Char) :
    (cs ++ t).takeWhile f = cs.takeWhile f ∧ (cs ++ t).dropWhile f = cs.dropWhile f ++ t := by
  obtain ⟨more, rfl⟩ := ht.head
  induction cs with
  | nil => simp [hf]
  | cons c cs ih => by_cases hc : f c = true <;> simp [hc, ih]

/-- A text that does not start with a character does not start with it when something stands behind. -/
theorem Behind.ne_cons (ht : Behind t) {c : Char} (hc : c ≠ ')') (h : ∀ r, cs ≠ c :: r) (r : List Char) :
    cs ++ t ≠ c :: r := by
  obtain ⟨more, rfl⟩ := ht.head
  cases cs with
  | nil =>
    intro heq
    injection heq with hd
    exact hc hd.symm
  | cons d cs =>
    intro heq
    injection heq with hd
    exact h cs (by rw [hd])

theorem readGreedy_append (ht : Behind t) (cs : List Char) :
    readGreedy (cs ++ t) = ((readGreedy cs).1, (readGreedy cs).2 ++ t) := by
  fun_cases readGreedy cs with
  | case1 cs => rfl
  | case2 cs hne =>
    rw [readGreedy]
    exact ht.ne_cons (by decide) hne

theorem readCount?_append (ht : Behind t) (cs : List Char) :
    readCount? (cs ++ t) = (readCount? cs).map fun (n, rest) => (n, rest ++ t) := by
  have hblank := ht.span (f := Text.isBlank) (by decide)
  have hdigit := ht.span (f := Char.isDigit) (by decide)
  simp only [readCount?, hblank, hdigit]
  split <;> [rfl; split <;> rfl]

theorem readBounds?_append (ht : Behind t) {low : Nat} {high : Option Nat}
    (h : readBounds? cs = some (low, high, rest)) :
    readBounds? (cs ++ t) = some (low, high, rest ++ t) := by
  have hcount := readCount?_append ht
  fun_cases readBounds? cs with
  | case1 hc => simp [readBounds?, hc] at h
  | case2 n more hc =>
    simp only [readBounds?, hc] at h
    cases h
    simp [readBounds?, hcount, hc]
  | case3 n more hc =>
    simp only [readBounds?, hc] at h
    cases h
    simp [readBounds?, hcount, hc]
  | case4 n more hne hc m more' hc' hle =>
    have hne' := ht.ne_cons (by decide) hne
    simp only [readBounds?, hc, hc', if_pos hle] at h
    cases h
    simp [readBounds?, hcount, hc, hc', hle]
  | case5 => simp_all [readBounds?]
  | case6 => simp_all [readBounds?]
  | case7 => simp_all [readBounds?]

theorem readName?_append {name : List Char} (h : readName? cs = some (name, rest)) :
    readName? (cs ++ t) = some (name, rest ++ t) := by
  unfold readName? at h ⊢
  split at h
  · next htake hdrop =>
    have hspan := span_append (t := t) (by rw [hdrop]; exact List.cons_ne_nil _ _)
    rw [hspan.1, hspan.2, htake, hdrop]
    dsimp only [List.cons_append]
    split at h
    · next hname =>
      cases h
      rw [if_pos hname]
    · cases h
  · cases h

theorem openGroup?_append (ht : Behind t) {o : OpenGroup} (h : openGroup? cs = some (o, rest)) :
    openGroup? (cs ++ t) = some (o, rest ++ t) := by
  fun_cases openGroup? cs with
  | case1 cs => cases h; rfl
  | case2 cs =>
    obtain ⟨⟨name, more⟩, hname, h⟩ := Option.map_eq_some_iff.1 h
    cases h
    simp [openGroup?, readName?_append hname]
  | case3 cs =>
    obtain ⟨⟨name, more⟩, hname, h⟩ := Option.map_eq_some_iff.1 h
    cases h
    simp [openGroup?, readName?_append hname]
  | case4 cs => simp_all [openGroup?]
  | case5 cs h1 h2 h3 h4 =>
    have hne := ht.ne_cons (by decide) h4
    rw [openGroup?.eq_5 cs h1 h2 h3 h4] at h
    cases h
    exact openGroup?.eq_5 _ (fun _ => hne _) (fun _ => hne _) (fun _ => hne _) hne

/-! ## Bracketed sets -/

/-- Whether a caret stands in front of a set, and the set without it. -/
def readCaret : List Char → Bool × List Char
  | '^' :: cs => (true, cs)
  | cs => (false, cs)

/-- The start of a set behind its caret. -/
def startItems (o : OpenSet) : List Char → OpenSet × List Char
  | '-' :: cs => (o.add (.single '-'), ('-' :: cs).dropWhile (· = '-'))
  | ']' :: cs => (o.add (.single ']'), cs)
  | cs => (o, cs)

/-- A name behind a colon and a caret, up to the colon and the bracket that end it. -/
def readSetName? (negated : Bool) (cs : List Char) : Option (CharSet × List Char) :=
  match cs.dropWhile (· ≠ ':') with
  | ':' :: ']' :: rest =>
    (namedSet? (String.ofList (cs.takeWhile (· ≠ ':')))).map fun s =>
      (if negated then .compl s else s, rest)
  | _ => none

theorem start_eq (cs : List Char) :
    OpenSet.start cs = startItems ⟨(readCaret cs).1, none, none⟩ (readCaret cs).2 := by
  fun_cases readCaret cs with
  | case1 cs =>
    fun_cases startItems ⟨true, none, none⟩ cs with
    | case1 cs => rfl
    | case2 cs => rfl
    | case3 cs h1 h2 => exact OpenSet.start.eq_3 cs h1 h2
  | case2 cs hne =>
    fun_cases startItems ⟨false, none, none⟩ cs with
    | case1 cs => rfl
    | case2 cs => rfl
    | case3 cs h1 h2 => exact OpenSet.start.eq_6 cs hne h1 h2

theorem readNamedSet?_colon (cs : List Char) :
    readNamedSet? (':' :: cs) = readSetName? (readCaret cs).1 (readCaret cs).2 := by
  rfl

theorem readCaret_append (ht : Behind t) (cs : List Char) :
    readCaret (cs ++ t) = ((readCaret cs).1, (readCaret cs).2 ++ t) := by
  fun_cases readCaret cs with
  | case1 cs => rfl
  | case2 cs hne =>
    rw [readCaret]
    exact ht.ne_cons (by decide) hne

theorem startItems_append (ht : Behind t) (o : OpenSet) (cs : List Char) :
    startItems o (cs ++ t) = ((startItems o cs).1, (startItems o cs).2 ++ t) := by
  have hyphens := (ht.span (f := (· = '-')) (by decide) cs).2
  fun_cases startItems o cs with
  | case1 cs => simp only [List.cons_append, startItems, ← hyphens]
  | case2 cs => rfl
  | case3 cs h1 h2 =>
    rw [startItems]
    · exact ht.ne_cons (by decide) h1
    · exact ht.ne_cons (by decide) h2

theorem start_append (ht : Behind t) (cs : List Char) :
    OpenSet.start (cs ++ t) = ((OpenSet.start cs).1, (OpenSet.start cs).2 ++ t) := by
  rw [start_eq, start_eq, readCaret_append ht, startItems_append ht]

theorem readSetName?_append (ht : Behind t) (negated : Bool) (cs : List Char) :
    readSetName? negated (cs ++ t) = (readSetName? negated cs).map fun (s, rest) => (s, rest ++ t) := by
  cases hdrop : cs.dropWhile (· ≠ ':') with
  | nil =>
    have hcs := List.dropWhile_eq_nil_iff.1 hdrop
    have ht' : t.dropWhile (· ≠ ':') = [] := by
      refine List.dropWhile_eq_nil_iff.2 fun c hc => ?_
      simpa using fun h : c = ':' => ht.colon (h ▸ hc)
    simp only [readSetName?, hdrop, List.dropWhile_append_of_pos hcs, ht', Option.map_none]
  | cons c more =>
    obtain ⟨htake, hdrop'⟩ := span_append (t := t) (by rw [hdrop]; exact List.cons_ne_nil _ _)
    simp only [readSetName?, htake, hdrop', hdrop]
    cases more with
    | nil =>
      obtain ⟨more, rfl⟩ := ht.head
      simp
    | cons d more =>
      by_cases hcd : c = ':' ∧ d = ']'
      · obtain ⟨rfl, rfl⟩ := hcd
        simp [Function.comp_def]
      · grind

theorem readNamedSet?_append (ht : Behind t) (cs : List Char) :
    readNamedSet? (cs ++ t) = (readNamedSet? cs).map fun (s, rest) => (s, rest ++ t) := by
  by_cases h : ∃ more, cs = ':' :: more
  · obtain ⟨more, rfl⟩ := h
    rw [List.cons_append, readNamedSet?_colon, readNamedSet?_colon, readCaret_append ht,
      readSetName?_append ht]
  · have h : ∀ r, cs ≠ ':' :: r := fun r hr => h ⟨r, hr⟩
    rw [readNamedSet?.eq_3 _ h, readNamedSet?.eq_3 _ (ht.ne_cons (by decide) h)]
    rfl

theorem readSetItem?_append {e : Escape} (h : readSetItem? cs = some (e, rest)) :
    readSetItem? (cs ++ t) = some (e, rest ++ t) := by
  fun_cases readSetItem? cs with
  | case1 => cases h
  | case2 => cases h
  | case3 c cs =>
    obtain ⟨x, hx, hr⟩ := Option.map_eq_some_iff.1 h
    cases hr
    simp [readSetItem?, hx]
  | case4 c cs h1 h2 =>
    have hc : c ≠ '\\' := by
      rintro rfl
      cases cs with
      | nil => exact h1 rfl rfl
      | cons d cs => exact h2 d cs rfl rfl
    simp_all [readSetItem?]

theorem readSetRange?_append {s : CharSet} (h : readSetRange? cs = some (s, rest)) :
    readSetRange? (cs ++ t) = some (s, rest ++ t) := by
  fun_cases readSetRange? cs with
  | case1 h1 => simp [readSetRange?, h1] at h
  | case2 first h1 => simp [readSetRange?, h1] at h
  | case3 first tail h1 =>
    simp only [readSetRange?, h1] at h
    obtain ⟨x, hx, hr⟩ := Option.map_eq_some_iff.1 h
    cases hr
    simp [readSetRange?, readSetItem?_append h1, hx]
  | case4 first tail h1 =>
    simp only [readSetRange?, h1] at h
    obtain ⟨x, hx, hr⟩ := Option.map_eq_some_iff.1 h
    cases hr
    simp [readSetRange?, readSetItem?_append h1, hx]
  | case5 more h1 h2 low high tail h3 hle h4 =>
    cases more with
    | nil => cases h3
    | cons m more =>
      simp only [readSetRange?, h3, h4, if_pos hle] at h
      cases h
      have hm : m ≠ ']' ∧ m ≠ '-' := ⟨fun hm => h1 more (by rw [hm]), fun hm => h2 more (by rw [hm])⟩
      have h3' := readSetItem?_append (t := t) h3
      rw [List.cons_append] at h3'
      simp [readSetRange?, readSetItem?_append h4, h3', hle, hm]
  | case6 => simp_all [readSetRange?]
  | case7 => simp_all [readSetRange?]
  | case8 first tail h1 h2 h3 h4 h5 =>
    obtain ⟨c, tail, rfl⟩ := List.exists_cons_of_ne_nil h2
    have hc : c ≠ '-' := fun hc => h5 tail (by rw [hc])
    have h : first.toSet?.map (·, c :: tail) = some (s, rest) := by
      simpa [readSetRange?, h1, hc] using h
    obtain ⟨x, hx, hr⟩ := Option.map_eq_some_iff.1 h
    cases hr
    simp [readSetRange?, readSetItem?_append h1, hx, hc]

theorem readSetRange?_singleton (c : Char) : readSetRange? [c] = none := by
  by_cases hc : c = '\\'
  · subst hc
    rfl
  · simp [readSetRange?, readSetItem?, hc]

theorem readSetFrom_append (ht : Behind t) {fuel : Nat} {outer : List OpenSet} {o : OpenSet} {s : CharSet}
    (h : readSetFrom fuel outer o cs = some (s, rest)) (more : Nat) :
    readSetFrom (fuel + more) outer o (cs ++ t) = some (s, rest ++ t) := by
  fun_induction readSetFrom fuel outer o cs with
  | case1 => cases h
  | case2 => cases h
  | case3 fuel outer o cs s' cs' hname ih =>
    rw [Nat.succ_add]
    simp [readSetFrom, readNamedSet?_append ht, hname, ih h]
  | case4 fuel outer o cs hname inner cs' hstart ih =>
    rw [Nat.succ_add]
    simp [readSetFrom, readNamedSet?_append ht, hname, start_append ht, hstart, ih h]
  | case5 fuel o cs =>
    rw [Nat.succ_add]
    cases h
    rfl
  | case6 fuel o cs parent outer ih =>
    rw [Nat.succ_add]
    simp [readSetFrom, ih h]
  | case7 fuel outer o cs ih =>
    rw [Nat.succ_add]
    simp [readSetFrom, ih h]
  | case8 fuel outer o cs ih =>
    rw [Nat.succ_add]
    simp [readSetFrom, ih h]
  | case9 fuel outer o cs ih =>
    rw [Nat.succ_add]
    simp [readSetFrom, ih h]
  | case10 fuel outer o cs s' cs' hrange h1 h2 h3 h4 h5 h6 ih =>
    match cs with
    | [] => exact (h1 rfl).elim
    | [c] =>
      rw [readSetRange?_singleton] at hrange
      cases hrange
    | c :: d :: cs =>
      have hrange' := readSetRange?_append (t := t) hrange
      simp only [List.cons_append] at hrange' ⊢
      rw [Nat.succ_add, readSetFrom, hrange']
      · rw [hrange] at h
        exact ih h
      · simp
      · simpa using h2
      · simpa using h3
      · simpa using h4
      · simpa using h5
      · simpa using h6
  | case11 fuel outer o cs hrange =>
    rw [hrange] at h
    cases h

theorem readSet?_append (ht : Behind t) {s : CharSet} (h : readSet? cs = some (s, rest)) :
    readSet? (cs ++ t) = some (s, rest ++ t) := by
  rw [readSet?] at h ⊢
  rw [start_append ht, List.length_append, Nat.add_right_comm]
  exact readSetFrom_append ht h t.length

/-! ## Groups -/

/-- Inside a group a notation is read as on its own, and reading goes on behind the group. -/
theorem readFrom_group (ht : Behind t) {behind : List Char} (hbehind : t = ')' :: behind) {fuel : Nat}
    {outer : List OpenGroup} {o : OpenGroup} {names : List (List Char)} {p : Pattern}
    (h : readFrom fuel outer o names cs = some p) (around : OpenGroup) (more : Nat) :
    ∃ left names', readFrom (fuel + more) (outer ++ [around]) o names (cs ++ t) =
      readFrom (left + more) [] (around.push p) names' behind := by
  fun_induction readFrom fuel outer o names cs with
  | case2 fuel outer o names hempty =>
    rw [List.isEmpty_iff] at hempty
    subst hempty hbehind
    cases h
    exact ⟨fuel, names, by rw [Nat.succ_add]; rfl⟩
  | case5 fuel outer o names cs inner cs' hopen hname ih =>
    simp only [Nat.succ_add, List.cons_append, readFrom, openGroup?_append ht hopen, hname]
    exact ih h
  | case7 fuel outer o names cs inner cs' hopen name hname hnew ih =>
    simp only [Nat.succ_add, List.cons_append, readFrom, openGroup?_append ht hopen, hname, if_neg hnew]
    exact ih h
  | case9 fuel o names cs parent outer ih =>
    simp only [Nat.succ_add, List.cons_append, readFrom]
    exact ih h
  | case10 fuel outer o names cs ih =>
    simp only [Nat.succ_add, List.cons_append, readFrom]
    exact ih h
  | case12 fuel outer o names cs s cs' hset ih =>
    simp only [Nat.succ_add, List.cons_append, readFrom, readSet?_append ht hset]
    exact ih h
  | case14 fuel outer o names cs greedy cs' hgreedy o' hrepeat ih =>
    simp only [Nat.succ_add, List.cons_append, readFrom, readGreedy_append ht, hgreedy, hrepeat]
    exact ih h
  | case16 fuel outer o names cs greedy cs' hgreedy o' hrepeat ih =>
    simp only [Nat.succ_add, List.cons_append, readFrom, readGreedy_append ht, hgreedy, hrepeat]
    exact ih h
  | case18 fuel outer o names cs greedy cs' hgreedy o' hrepeat ih =>
    simp only [Nat.succ_add, List.cons_append, readFrom, readGreedy_append ht, hgreedy, hrepeat]
    exact ih h
  | case20 fuel outer o names cs q items low high cs' hbounds hitems greedy cs'' hgreedy q' hrepeat ih =>
    simp only [Nat.succ_add, List.cons_append, readFrom, readBounds?_append ht hbounds, hitems,
      readGreedy_append ht, hgreedy, hrepeat]
    exact ih h
  | case24 fuel outer o names c cs d hescape ih =>
    simp only [Nat.succ_add, List.cons_append, readFrom, hescape]
    exact ih h
  | case25 fuel outer o names c cs s hescape ih =>
    simp only [Nat.succ_add, List.cons_append, readFrom, hescape]
    exact ih h
  | case26 fuel outer o names c cs a hescape ih =>
    simp only [Nat.succ_add, List.cons_append, readFrom, hescape]
    exact ih h
  | case27 fuel outer o names cs ih =>
    simp only [Nat.succ_add, List.cons_append, readFrom]
    exact ih h
  | case28 fuel outer o names cs ih =>
    simp only [Nat.succ_add, List.cons_append, readFrom]
    exact ih h
  | case29 fuel outer o names cs ih =>
    simp only [Nat.succ_add, List.cons_append, readFrom]
    exact ih h
  | case30 fuel outer o names c cs h1 h2 h3 h4 h5 h6 h7 h8 h9 h10 h11 h12 ih =>
    rw [Nat.succ_add, List.cons_append, readFrom]
    · exact ih h
    all_goals assumption
  | _ => cases h

theorem readFrom_open (fuel : Nat) (outer : List OpenGroup) (o : OpenGroup) (names : List (List Char))
    (cs : List Char) : readFrom (fuel + 1) outer o names ("(?:".toList ++ cs) =
      readFrom fuel (o :: outer) {} names cs := by
  change readFrom (fuel + 1) outer o names ('(' :: '?' :: ':' :: cs) = _
  simp only [readFrom, openGroup?]

/-- A notation in an unnumbered group is an item, and so is the end of the text behind it. -/
theorem readFrom_enclosed {e : List Char} {p : Pattern} (h : read? e = some p) (o : OpenGroup) :
    readFrom (e.length + 6) [] o [] ("(?:".toList ++ e ++ ")$".toList) =
      some ((o.push p).push (.assert .textEnd)).close := by
  have hbehind : Behind ")$".toList := ⟨⟨_, rfl⟩, by decide⟩
  obtain ⟨left, names, hread⟩ := readFrom_group hbehind rfl h o 4
  calc readFrom (e.length + 6) [] o [] ("(?:".toList ++ e ++ ")$".toList)
    _ = readFrom (e.length + 5) [o] {} [] (e ++ ")$".toList) := by
      rw [List.append_assoc, readFrom_open]
    _ = readFrom (left + 4) [] (o.push p) names ['$'] := hread
    _ = some ((o.push p).push (.assert .textEnd)).close := rfl

/-- The pattern of a notation at the end of a text. -/
theorem read?_final {e : List Char} {p : Pattern} (h : read? e = some p) :
    read? ("(?:".toList ++ e ++ ")$".toList) = some (.seq p (.assert .textEnd)) := by
  have hlength : ("(?:".toList ++ e ++ ")$".toList).length = e.length + 5 := by simp
  rw [read?, hlength]
  exact readFrom_enclosed h {}

/-- The pattern of a notation as the whole of a text. -/
theorem read?_whole {e : List Char} {p : Pattern} (h : read? e = some p) :
    read? ("^(?:".toList ++ e ++ ")$".toList) =
      some (.seq (.assert .textStart) (.seq p (.assert .textEnd))) := by
  have hlength : ("^(?:".toList ++ e ++ ")$".toList).length = e.length + 6 := by simp
  rw [read?, hlength]
  exact readFrom_enclosed h ⟨none, [], [.assert .textStart]⟩

end

end Formula.Pattern
