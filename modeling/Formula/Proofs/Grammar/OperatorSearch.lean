import Formula.Grammar.Finder
import Formula.Proofs.Pattern.Language

/-!
# Where an operator is found

An occurrence `w` of an operator between the texts `front` and `back` fits when it is the operator, the
operator may follow `front`, and there is an operand at the end of `front` and at the start of `back`
(`OperatorSearch.Fits`). Searching from the right finds, among the occurrences that fit and that a match at
the end reaches, the one that ends last, and of those the longest (`pickBefore_eq_some`). Searching from
the left finds the first start whose longest occurrence fits (`pickAfter_eq_some`).

When the operator's pattern has no assertions, the occurrences that fit are words of its language, and
all of them are reached (`OperatorPatterns.tried_iff`).
-/

set_option autoImplicit false

namespace Formula

namespace OperatorSearch

/-- Whether an operand ends a text. -/
def endsOperand (s : OperatorSearch) (text : List Char) : Bool :=
  s.left.finds none [] text

/-- Whether an operand starts a text. -/
def startsOperand (s : OperatorSearch) (text : List Char) : Bool :=
  s.right.finds none [] text.reverse

/-- An occurrence with operands on both sides. -/
structure Fits (s : OperatorSearch) (front w back : List Char) : Prop where
  ne_nil : w ≠ []
  exact : s.exact.occursIn w = true
  admits : s.admits front.reverse = true
  left : s.endsOperand front = true
  right : s.startsOperand back = true

/-- An occurrence that fits and that a match reaches at the end of the text up to it. -/
structure Tried (s : OperatorSearch) (front w back : List Char) : Prop extends s.Fits front w back where
  reaches : ∃ n, s.atEnd.reach? (front ++ w).reverse = some n ∧ w.length ≤ n

variable {s : OperatorSearch}

theorem operandsLeft_eq (s : OperatorSearch) (text : List Char) :
    s.operandsLeft text = text.inits.map s.endsOperand :=
  Machine.hits_eq s.left text

theorem operandsRight_eq (s : OperatorSearch) (text : List Char) :
    s.operandsRight text = text.reverse.inits.map fun t => s.startsOperand t.reverse := by
  rw [operandsRight, Machine.hits_eq]
  simp [startsOperand]

/-- What is found first in an ordered list comes before all else that passes. -/
theorem eq_or_rel_of_find? {α : Type} {r : α → α → Prop} {l : List α} {passes : α → Bool} {a b : α}
    (hordered : l.Pairwise r) (ha : l.find? passes = some a) (hb : b ∈ l) (hpass : passes b = true) :
    b = a ∨ r a b := by
  obtain ⟨-, before, after, rfl, hbefore⟩ := List.find?_eq_some_iff_append.1 ha
  rcases List.mem_append.1 hb with hb | hb
  · exact absurd hpass (by simpa using hbefore b hb)
  · rcases List.mem_cons.1 hb with rfl | hb
    · exact .inl rfl
    · exact .inr ((List.pairwise_cons.1 (List.pairwise_append.1 hordered).2.1).1 b hb)

theorem headD_drop_tails (f : List Char → Bool) (text : List Char) {k : Nat} (hk : k ≤ text.length) :
    ((text.tails.map f).drop k).headD false = f (text.drop k) := by
  induction text generalizing k with
  | nil =>
    rw [Nat.le_zero.1 hk]
    rfl
  | cons c text ih =>
    cases k with
    | zero => rfl
    | succ k => simpa using ih (Nat.le_of_succ_le_succ hk)

/-! ## From the right -/

/-- The lengths of the occurrences that end where a text ends. -/
theorem mem_lengthsBefore {before : List Char} {k : Nat} : k ∈ s.lengthsBefore before ↔
    0 < k ∧ (∃ n, s.atEnd.reach? before = some n ∧ k ≤ n) ∧
      s.exact.occursIn (before.take k).reverse = true := by
  rw [lengthsBefore]
  cases s.atEnd.reach? before with
  | none => simp
  | some n =>
    simp only [List.mem_filter, List.mem_map, List.mem_reverse, List.mem_range, Option.some.injEq,
      exists_eq_left', ← and_assoc]
    refine and_congr_left fun _ => ⟨?_, fun ⟨hk, hle⟩ => ⟨k - 1, by omega, by omega⟩⟩
    rintro ⟨j, hj, rfl⟩
    exact ⟨Nat.succ_pos j, hj⟩

theorem pairwise_lengthsBefore (s : OperatorSearch) (before : List Char) :
    (s.lengthsBefore before).Pairwise (· > ·) := by
  rw [OperatorSearch.lengthsBefore]
  split
  · exact .nil
  · refine .filter _ (List.pairwise_map.2 ?_)
    rw [List.pairwise_reverse]
    exact List.pairwise_lt_range.imp fun h => Nat.succ_lt_succ h

/-- The lengths are tried from the longest, so one that passes is not longer than the one that is found. -/
theorem le_of_find?_lengthsBefore {before : List Char} {passes : Nat → Bool}
    {k n : Nat} (hk : (s.lengthsBefore before).find? passes = some k)
    (hmem : n ∈ s.lengthsBefore before) (hn : passes n = true) : n ≤ k := by
  rcases eq_or_rel_of_find? (pairwise_lengthsBefore s before) hk hmem hn with rfl | hlt
  · exact Nat.le_refl n
  · exact Nat.le_of_lt hlt

/-- Whether one occurrence is to be found rather than another when the search goes from the right: it
ends later, or it ends there and starts no later. -/
def LaterThan (front back front' back' : List Char) : Prop :=
  back.length < back'.length ∨ (back.length = back'.length ∧ front.length ≤ front'.length)

/-- Whether an operator of length `k` at the end of the text before may stand there. -/
def standsBefore (s : OperatorSearch) (before : List Char) (k : Nat) : Bool :=
  s.admits (before.drop k) &&
    ((before.tails.map fun t => s.endsOperand t.reverse).drop k).headD false

section

variable {before after : List Char}

/-- Where an occurrence at the end is tried, its length is one of those there. -/
theorem tried_iff_mem {k : Nat} :
    (0 < k ∧ k ≤ before.length ∧ s.Tried (before.drop k).reverse (before.take k).reverse after) ↔
    s.startsOperand after = true ∧ k ∈ s.lengthsBefore before ∧ s.standsBefore before k = true := by
  have hwhole : ((before.drop k).reverse ++ (before.take k).reverse).reverse = before := by
    rw [← List.reverse_append, List.take_append_drop, List.reverse_reverse]
  constructor
  · rintro ⟨hk, hlen, htried⟩
    have hreaches := htried.reaches
    rw [hwhole, List.length_reverse, List.length_take_of_le hlen] at hreaches
    refine ⟨htried.right, mem_lengthsBefore.2 ⟨hk, hreaches, htried.exact⟩, ?_⟩
    rw [standsBefore, headD_drop_tails _ _ hlen, Bool.and_eq_true]
    exact ⟨by simpa using htried.admits, htried.left⟩
  · rintro ⟨hright, hmem, hleft⟩
    obtain ⟨hk, ⟨n, hn, hle⟩, hw⟩ := mem_lengthsBefore.1 hmem
    have hlen : k ≤ before.length := Nat.le_trans hle (Machine.reach?_le hn)
    rw [standsBefore, headD_drop_tails _ _ hlen, Bool.and_eq_true] at hleft
    refine ⟨hk, hlen, ⟨?_, hw, by simpa using hleft.1, hleft.2, hright⟩, ?_⟩
    · rw [ne_eq, ← List.length_eq_zero_iff, List.length_reverse, List.length_take_of_le hlen]
      omega
    · rw [hwhole, List.length_reverse, List.length_take_of_le hlen]
      exact ⟨n, hn, hle⟩

/-- An occurrence that ends before `after` is tried there, with its length. -/
theorem Tried.mem {front w : List Char} (htried : s.Tried front w after)
    (hfront : front = (before.drop w.length).reverse) (hw : w = (before.take w.length).reverse)
    (hlen : w.length ≤ before.length) : s.startsOperand after = true ∧
      w.length ∈ s.lengthsBefore before ∧ s.standsBefore before w.length = true := by
  refine tried_iff_mem.1 ⟨List.length_pos_iff.2 htried.ne_nil, hlen, ?_⟩
  rw [← hfront, ← hw]
  exact htried

/-- An occurrence before `after` ends there, or before the last character. -/
theorem split_reverse {c : Char} {front w back : List Char}
    (h : (c :: before).reverse = front ++ w ++ back) :
    (back = [] ∧ front = ((c :: before).drop w.length).reverse ∧
      w = ((c :: before).take w.length).reverse ∧ w.length ≤ (c :: before).length) ∨
    ∃ back', back = back' ++ [c] ∧ before.reverse = front ++ w ++ back' := by
  rcases List.eq_nil_or_concat back with rfl | ⟨back', d, rfl⟩
  · left
    have h : c :: before = w.reverse ++ front.reverse := by
      rw [← List.reverse_append, ← List.reverse_reverse (c :: before), h, List.append_nil]
    rw [h]
    refine ⟨rfl, ?_, ?_, ?_⟩
    · rw [List.drop_left' List.length_reverse, List.reverse_reverse]
    · rw [List.take_left' List.length_reverse, List.reverse_reverse]
    · rw [List.length_append, List.length_reverse]
      exact Nat.le_add_right ..
  · right
    rw [List.concat_eq_append, List.reverse_cons, ← List.append_assoc] at h
    rw [List.concat_eq_append]
    exact ⟨back', by rw [List.append_inj_right' h rfl], List.append_inj_left' h rfl⟩

/-- The search from the right over the ends before `after`. -/
def pickBefore (s : OperatorSearch) (before after : List Char) : Option Token :=
  s.pickBackward before (s.allLengths before) (before.tails.map fun t => s.endsOperand t.reverse)
    (before.inits.map fun t => s.startsOperand (t.reverse ++ after))

theorem pickBefore_cons (s : OperatorSearch) (c : Char) (before after : List Char) :
    s.pickBefore (c :: before) after =
      match if s.startsOperand after then
          (s.lengthsBefore (c :: before)).find? fun k => s.standsBefore (c :: before) k
        else none with
      | some k => some ⟨((c :: before).take k).reverse, Text.byteSize ((c :: before).drop k)⟩
      | none => s.pickBefore before (c :: after) := by
  have hrights : ((c :: before).inits.map fun t => s.startsOperand (t.reverse ++ after)) =
      s.startsOperand after :: before.inits.map fun t => s.startsOperand (t.reverse ++ c :: after) := by
    simp [Function.comp_def]
  rw [pickBefore, hrights]
  rfl

/-- The search finds an occurrence that is tried, and of those the one that ends last, and there the
longest. -/
theorem pickBefore_eq_some {token : Token} (hpick : s.pickBefore before after = some token) :
    ∃ front w back, before.reverse = front ++ w ++ back ∧ token = ⟨w, Text.byteSize front⟩ ∧
      s.Tried front w (back ++ after) ∧
      ∀ front' w' back', before.reverse = front' ++ w' ++ back' →
        s.Tried front' w' (back' ++ after) → LaterThan front back front' back' := by
  induction before generalizing after with
  | nil =>
    rw [pickBefore, pickBackward] at hpick
    · cases hpick
    · simp
  | cons c before ih =>
    rw [pickBefore_cons] at hpick
    split at hpick
    · next k hk =>
      split at hk
      · next hright =>
        cases hpick
        obtain ⟨hk0, hlen, htried⟩ := tried_iff_mem.2
          ⟨hright, List.mem_of_find?_eq_some hk, by simpa using List.find?_some hk⟩
        refine ⟨_, _, [], ?_, by rw [Text.byteSize_reverse], htried, ?_⟩
        · rw [List.append_nil, ← List.reverse_append, List.take_append_drop]
        · intro front' w' back' hs htried'
          rcases split_reverse hs with ⟨rfl, hfront, hw, hlen'⟩ | ⟨back', rfl, -⟩
          · have htried' : s.Tried front' w' after := htried'
            obtain ⟨-, hmem, hstands⟩ := htried'.mem hfront hw hlen'
            have hle : w'.length ≤ k := le_of_find?_lengthsBefore hk hmem hstands
            refine .inr ⟨rfl, ?_⟩
            rw [hfront, List.length_reverse, List.length_reverse, List.length_drop,
              List.length_drop]
            omega
          · exact .inl (by simp)
      · cases hk
    · next hnone =>
      obtain ⟨front, w, back, hs, ht, htried, hbest⟩ := ih hpick
      refine ⟨front, w, back ++ [c], ?_, ht, by simpa using htried, ?_⟩
      · rw [List.reverse_cons, hs, List.append_assoc]
      · intro front' w' back' hs' htried'
        rcases split_reverse hs' with ⟨rfl, hfront, hw, hlen'⟩ | ⟨back', rfl, hs₂⟩
        · have htried' : s.Tried front' w' after := htried'
          obtain ⟨hright, hmem, hstands⟩ := htried'.mem hfront hw hlen'
          rw [if_pos hright, List.find?_eq_none] at hnone
          exact absurd hstands (hnone _ hmem)
        · have := hbest front' w' back' hs₂ (by simpa using htried')
          simpa [LaterThan] using this

theorem pickBefore_eq_none (hpick : s.pickBefore before after = none) {front w back : List Char}
    (hs : before.reverse = front ++ w ++ back) : ¬ s.Tried front w (back ++ after) := by
  intro htried
  induction before generalizing after back with
  | nil =>
    have := congrArg List.length hs
    have := List.length_pos_iff.2 htried.ne_nil
    simp at *
    omega
  | cons c before ih =>
    rw [pickBefore_cons] at hpick
    split at hpick
    · cases hpick
    · next hnone =>
      rcases split_reverse hs with ⟨rfl, hfront, hw, hlen⟩ | ⟨back', rfl, hs'⟩
      · have htried : s.Tried front w after := htried
        obtain ⟨hright, hmem, hstands⟩ := htried.mem hfront hw hlen
        rw [if_pos hright, List.find?_eq_none] at hnone
        exact hnone _ hmem hstands
      · exact ih hpick hs' (by simpa using htried)

theorem pickBefore_of_no_lengths (h : (s.allLengths before).all List.isEmpty = true) :
    s.pickBefore before after = none := by
  induction before generalizing after with
  | nil => rw [pickBefore, pickBackward]; simp
  | cons c before ih =>
    rw [allLengths, List.all_cons, Bool.and_eq_true] at h
    rw [pickBefore_cons, List.isEmpty_iff.1 h.1]
    simpa using ih h.2

end

section

variable {text : List Char} {token : Token}

theorem find?_eq_pickBefore (hr : s.rightToLeft = true) (text : List Char) :
    s.find? text = s.pickBefore text.reverse [] := by
  have hleft : (s.operandsLeft text).reverse =
      text.reverse.tails.map fun t => s.endsOperand t.reverse := by
    rw [operandsLeft_eq, List.tails_reverse, ← List.map_reverse, ← List.map_reverse, List.map_map]
    simp [Function.comp_def]
  have hright : s.operandsRight text =
      text.reverse.inits.map fun t => s.startsOperand (t.reverse ++ []) := by
    simp only [operandsRight_eq, List.append_nil]
  rw [find?, if_pos hr]
  dsimp only
  split
  · next h => rw [pickBefore_of_no_lengths h]
  · rw [hleft, hright, pickBefore]

/-- Searching from the right finds the occurrence that is tried and ends last, and there the longest. -/
theorem find?_last (hr : s.rightToLeft = true) (hfind : s.find? text = some token) :
    ∃ front w back, text = front ++ w ++ back ∧ token = ⟨w, Text.byteSize front⟩ ∧
      s.Tried front w back ∧
      ∀ front' w' back', text = front' ++ w' ++ back' → s.Tried front' w' back' →
        LaterThan front back front' back' := by
  rw [find?_eq_pickBefore hr] at hfind
  simpa only [List.reverse_reverse, List.append_nil] using pickBefore_eq_some hfind

theorem find?_last_eq_none (hr : s.rightToLeft = true) (hfind : s.find? text = none)
    {front w back : List Char} (ht : text = front ++ w ++ back) : ¬ s.Tried front w back := by
  rw [find?_eq_pickBefore hr] at hfind
  simpa only [List.append_nil] using pickBefore_eq_none hfind (by rw [List.reverse_reverse, ht])

end

/-! ## From the left -/

/-- No longer occurrence starts where `w` does. -/
def Longest (s : OperatorSearch) (w back : List Char) : Prop :=
  ∀ w' back', w ++ back = w' ++ back' → w' ≠ [] → s.exact.occursIn w' = true →
    w'.length ≤ w.length

section

variable {before after : List Char}

theorem lastHit?_exact {k : Nat} : s.exact.lastHit? after = some k ↔ 0 < k ∧ k ≤ after.length ∧
    s.exact.occursIn (after.take k) = true ∧ s.Longest (after.take k) (after.drop k) := by
  rw [Machine.lastHit?_eq_some]
  simp only [← Machine.occursIn_eq]
  refine and_congr_right fun hk => and_congr_right fun hlen => and_congr_right fun _ => ?_
  constructor
  · intro hbest w' back' hw hne hmem
    rw [List.take_append_drop] at hw
    have hw' : after.take w'.length = w' := by rw [hw, List.take_left]
    rw [List.length_take_of_le hlen]
    refine hbest _ (List.length_pos_iff.2 hne) ?_ (hw'.symm ▸ hmem)
    rw [hw, List.length_append]
    exact Nat.le_add_right ..
  · intro hbest j hj hjlen hmem
    have := hbest (after.take j) (after.drop j) (by simp) ?_ hmem
    · rwa [List.length_take_of_le hlen, List.length_take_of_le hjlen] at this
    · rw [ne_eq, ← List.length_eq_zero_iff, List.length_take_of_le hjlen]
      omega

/-- Whether an operator of length `k` at the start of the text after may stand there. -/
def standsAfter (s : OperatorSearch) (before after : List Char) (k : Nat) : Bool :=
  s.admits before && s.endsOperand before.reverse &&
    ((after.tails.map s.startsOperand).drop k).headD false

/-- The search from the left over the starts after `before`. -/
def pickAfter (s : OperatorSearch) (before after : List Char) : Option Token :=
  s.pickForward before after (s.allPrefixes after)
    (after.inits.map fun t => s.endsOperand (before.reverse ++ t)) (after.tails.map s.startsOperand)

theorem pickAfter_cons (s : OperatorSearch) (c : Char) (before after : List Char) :
    s.pickAfter before (c :: after) =
      match (s.exact.lastHit? (c :: after)).filter fun k =>
          s.standsAfter before (c :: after) k with
      | some k => some ⟨(c :: after).take k, Text.byteSize before⟩
      | none => s.pickAfter (c :: before) after := by
  have hlefts : ((c :: after).inits.map fun t => s.endsOperand (before.reverse ++ t)) =
      s.endsOperand before.reverse ::
        after.inits.map fun t => s.endsOperand ((c :: before).reverse ++ t) := by
    simp [Function.comp_def]
  rw [pickAfter, hlefts]
  rfl

/-- The longest occurrence at the start fits when its length is the one tried there. -/
theorem fits_iff_lastHit? {k : Nat} :
    (0 < k ∧ k ≤ after.length ∧ s.Fits before.reverse (after.take k) (after.drop k) ∧
      s.Longest (after.take k) (after.drop k)) ↔
    s.exact.lastHit? after = some k ∧ s.standsAfter before after k = true := by
  rw [lastHit?_exact]
  constructor
  · rintro ⟨hk, hlen, hfits, hlong⟩
    refine ⟨⟨hk, hlen, hfits.exact, hlong⟩, ?_⟩
    rw [standsAfter, headD_drop_tails _ _ hlen, Bool.and_eq_true, Bool.and_eq_true]
    exact ⟨⟨by simpa using hfits.admits, hfits.left⟩, hfits.right⟩
  · rintro ⟨⟨hk, hlen, hmem, hlong⟩, hstands⟩
    rw [standsAfter, headD_drop_tails _ _ hlen, Bool.and_eq_true, Bool.and_eq_true] at hstands
    refine ⟨hk, hlen, ⟨?_, hmem, by simpa using hstands.1.1, hstands.1.2, hstands.2⟩, hlong⟩
    rw [ne_eq, ← List.length_eq_zero_iff, List.length_take_of_le hlen]
    omega

theorem not_fits_of_filter_eq_none {w back : List Char}
    (hnone : ((s.exact.lastHit? (w ++ back)).filter fun k =>
      s.standsAfter before (w ++ back) k) = none) (hlong : s.Longest w back) :
    ¬ s.Fits before.reverse w back := by
  intro hfits
  have hfirst : s.Fits before.reverse ((w ++ back).take w.length) ((w ++ back).drop w.length) ∧
      s.Longest ((w ++ back).take w.length) ((w ++ back).drop w.length) := by
    rw [List.take_left, List.drop_left]
    exact ⟨hfits, hlong⟩
  obtain ⟨hk, hstands⟩ := fits_iff_lastHit?.1
    ⟨List.length_pos_iff.2 hfits.ne_nil, by simp, hfirst⟩
  rw [hk, Option.filter_some, if_pos hstands] at hnone
  cases hnone

/-- The search finds an occurrence that fits and is the longest at its start, and of those the
first. -/
theorem pickAfter_eq_some {token : Token} (hpick : s.pickAfter before after = some token) :
    ∃ front w back, after = front ++ w ++ back ∧
      token = ⟨w, Text.byteSize (before.reverse ++ front)⟩ ∧
      s.Fits (before.reverse ++ front) w back ∧ s.Longest w back ∧
      ∀ front' w' back', after = front' ++ w' ++ back' →
        s.Fits (before.reverse ++ front') w' back' → s.Longest w' back' →
        front.length ≤ front'.length := by
  induction after generalizing before with
  | nil =>
    rw [pickAfter, pickForward] at hpick
    · cases hpick
    · simp
  | cons c after ih =>
    rw [pickAfter_cons] at hpick
    split at hpick
    · next k hk =>
      cases hpick
      obtain ⟨-, -, hfits, hlong⟩ := fits_iff_lastHit?.2 (Option.filter_eq_some_iff.1 hk)
      refine ⟨[], _, _, (List.take_append_drop k _).symm, ?_, ?_, hlong, fun _ _ _ _ _ _ => ?_⟩
      · rw [List.append_nil, Text.byteSize_reverse]
      · rwa [List.append_nil]
      · exact Nat.zero_le _
    · next hnone =>
      obtain ⟨front, w, back, hs, ht, hfits, hlong, hfirst⟩ := ih hpick
      rw [List.reverse_cons, List.append_assoc] at ht hfits
      refine ⟨c :: front, w, back, by rw [hs]; rfl, ht, hfits, hlong, ?_⟩
      intro front' w' back' hs' hfits' hlong'
      cases front' with
      | nil =>
        rw [List.nil_append] at hs'
        rw [hs'] at hnone
        exact absurd (by simpa using hfits') (not_fits_of_filter_eq_none hnone hlong')
      | cons d front' =>
        injection hs' with hd hs'
        subst hd
        refine Nat.succ_le_succ (hfirst front' w' back' hs' ?_ hlong')
        rwa [List.reverse_cons, List.append_assoc]

theorem pickAfter_eq_none (hpick : s.pickAfter before after = none) {front w back : List Char}
    (hs : after = front ++ w ++ back) (hlong : s.Longest w back) :
    ¬ s.Fits (before.reverse ++ front) w back := by
  intro hfits
  induction after generalizing before front with
  | nil =>
    have := congrArg List.length hs
    have := List.length_pos_iff.2 hfits.ne_nil
    simp at *
    omega
  | cons c after ih =>
    rw [pickAfter_cons] at hpick
    split at hpick
    · cases hpick
    · next hnone =>
      cases front with
      | nil =>
        rw [List.nil_append] at hs
        rw [hs] at hnone
        exact not_fits_of_filter_eq_none hnone hlong (by simpa using hfits)
      | cons d front =>
        injection hs with hd hs
        subst hd
        refine ih hpick hs ?_
        rwa [List.reverse_cons, List.append_assoc]

theorem pickAfter_of_no_prefixes (h : (s.allPrefixes after).all Option.isNone = true) :
    s.pickAfter before after = none := by
  induction after generalizing before with
  | nil => rw [pickAfter, pickForward]; simp
  | cons c after ih =>
    rw [allPrefixes, List.all_cons, Bool.and_eq_true] at h
    rw [pickAfter_cons, Option.isNone_iff_eq_none.1 h.1]
    exact ih h.2

end

section

variable {text : List Char} {token : Token}

theorem find?_eq_pickAfter (hr : s.rightToLeft = false) (text : List Char) :
    s.find? text = s.pickAfter [] text := by
  have hright : (s.operandsRight text).reverse = text.tails.map s.startsOperand := by
    rw [operandsRight_eq, List.inits_reverse, ← List.map_reverse, List.reverse_reverse, List.map_map]
    simp [Function.comp_def]
  rw [find?, if_neg (by rw [hr]; exact Bool.false_ne_true)]
  dsimp only
  split
  · next h => rw [pickAfter_of_no_prefixes h]
  · rw [operandsLeft_eq, hright]
    rfl

/-- Searching from the left finds the first start whose longest occurrence fits. -/
theorem find?_first (hr : s.rightToLeft = false) (hfind : s.find? text = some token) :
    ∃ front w back, text = front ++ w ++ back ∧ token = ⟨w, Text.byteSize front⟩ ∧
      s.Fits front w back ∧ s.Longest w back ∧
      ∀ front' w' back', text = front' ++ w' ++ back' → s.Fits front' w' back' →
        s.Longest w' back' → front.length ≤ front'.length := by
  rw [find?_eq_pickAfter hr] at hfind
  simpa only [List.reverse_nil, List.nil_append] using pickAfter_eq_some hfind

theorem find?_first_eq_none (hr : s.rightToLeft = false) (hfind : s.find? text = none)
    {front w back : List Char} (ht : text = front ++ w ++ back) (hlong : s.Longest w back) :
    ¬ s.Fits front w back := by
  rw [find?_eq_pickAfter hr] at hfind
  exact pickAfter_eq_none hfind ht hlong

end

end OperatorSearch

/-! ## Operators without assertions -/

/-- The patterns and options that an operator search is prepared from: the operator itself, an operand
at the end of a text and one at the start. -/
structure OperatorPatterns where
  symbol : Pattern
  left : Pattern
  right : Pattern
  rightToLeft : Bool
  notPrecededBy : Option Char

namespace OperatorPatterns

/-- A pattern as the whole of a text. -/
def whole (p : Pattern) : Pattern :=
  .seq (.assert .textStart) (.seq p (.assert .textEnd))

/-- A pattern at the end of a text. -/
def final (p : Pattern) : Pattern :=
  .seq p (.assert .textEnd)

/-- The prepared search. -/
def search (p : OperatorPatterns) : OperatorSearch where
  atEnd := .of (final p.symbol).reverse
  exact := .of (whole p.symbol)
  left := .of p.left
  right := .of p.right.reverse
  rightToLeft := p.rightToLeft
  notPrecededBy := p.notPrecededBy

/-- An occurrence with operands on both sides. -/
structure Fits (p : OperatorPatterns) (front w back : List Char) : Prop where
  ne_nil : w ≠ []
  mem_lang : w ∈ p.symbol.lang
  admits : p.search.admits front.reverse = true
  left : p.left.OccursIn front
  right : p.right.OccursIn back

/-- No longer occurrence starts where `w` does. -/
def Longest (p : OperatorPatterns) (w back : List Char) : Prop :=
  ∀ w' back', w ++ back = w' ++ back' → w' ≠ [] → w' ∈ p.symbol.lang → w'.length ≤ w.length

variable {p : OperatorPatterns} {text : List Char} {token : Token}

theorem accepts_final {q : Pattern} {b a : Option Char} {w : List Char} :
    (final q).Accepts b w a ↔ a = none ∧ q.Accepts b w a := by
  constructor
  · intro h
    obtain ⟨w, e, rfl, hw, i, l, he⟩ := Pattern.accepts_seq.1 h
    obtain ⟨rfl, -, hend⟩ := Pattern.matches_assert.1 he
    rw [List.append_nil]
    exact ⟨Option.isNone_iff_eq_none.1 hend, hw⟩
  · rintro ⟨rfl, hw⟩
    exact Pattern.accepts_seq.2 ⟨w, [], (List.append_nil w).symm, hw, 0, _, .assert rfl⟩

theorem whole_occursIn {q : Pattern} {w : List Char} :
    (whole q).OccursIn w ↔ q.Accepts none w none := by
  constructor
  · rintro ⟨u, v, r, rfl, hv⟩
    obtain ⟨e, t, rfl, ⟨i, l, he⟩, ht⟩ := Pattern.accepts_seq.1 hv
    obtain ⟨rfl, -, hstart⟩ := Pattern.matches_assert.1 he
    obtain ⟨hend, ht⟩ := accepts_final.1 ht
    cases u with
    | cons c u =>
      obtain ⟨d, hd⟩ := exists_lastOr_some c u
      rw [lastOr_cons, hd] at hstart
      cases hstart
    | nil =>
      cases r with
      | cons c r => cases hend
      | nil =>
        rw [List.nil_append, List.nil_append, List.append_nil]
        exact ht
  · intro hw
    refine ⟨[], w, [], by simp, Pattern.accepts_seq.2 ⟨[], w, rfl, ⟨0, _, .assert rfl⟩, ?_⟩⟩
    exact accepts_final.2 ⟨rfl, hw⟩

theorem exact_occursIn (h : p.symbol.isAnchorFree = true) {w : List Char} :
    p.search.exact.occursIn w = true ↔ w ∈ p.symbol.lang := by
  rw [← Pattern.accepts_iff_mem_lang h, ← whole_occursIn]
  exact Machine.occursIn_of

theorem endsOperand_iff : p.search.endsOperand text = true ↔ p.left.OccursIn text :=
  Machine.finds_of

theorem startsOperand_iff : p.search.startsOperand text = true ↔ p.right.OccursIn text := by
  rw [OperatorSearch.startsOperand, search, Machine.finds_of, Pattern.occursIn_reverse,
    List.reverse_reverse]

theorem fits_iff (h : p.symbol.isAnchorFree = true) {front w back : List Char} :
    p.search.Fits front w back ↔ p.Fits front w back := by
  constructor
  · rintro ⟨hne, hexact, hadmits, hleft, hright⟩
    exact ⟨hne, (exact_occursIn h).1 hexact, hadmits, endsOperand_iff.1 hleft,
      startsOperand_iff.1 hright⟩
  · rintro ⟨hne, hmem, hadmits, hleft, hright⟩
    exact ⟨hne, (exact_occursIn h).2 hmem, hadmits, endsOperand_iff.2 hleft,
      startsOperand_iff.2 hright⟩

/-- A match at the end reaches every occurrence there. -/
theorem tried_iff (h : p.symbol.isAnchorFree = true) {front w back : List Char} :
    p.search.Tried front w back ↔ p.Fits front w back := by
  constructor
  · rintro ⟨hfits, -⟩
    exact (fits_iff h).1 hfits
  · intro hfits
    have hacc : (final p.symbol).Accepts (lastOr none front) w none :=
      accepts_final.2 ⟨rfl, (Pattern.accepts_iff_mem_lang h).2 hfits.mem_lang⟩
    have hrev : (final p.symbol).reverse.Accepts none w.reverse (headOr front.reverse none) := by
      rw [Pattern.headOr_reverse]
      exact Pattern.Accepts.reverse hacc
    obtain ⟨n, hn, hle⟩ := Machine.le_reach?_of (u := []) hrev
    rw [List.nil_append, ← List.reverse_append] at hn
    rw [List.nil_append, List.length_reverse] at hle
    exact ⟨(fits_iff h).2 hfits, n, hn, hle⟩

theorem longest_iff (h : p.symbol.isAnchorFree = true) {w back : List Char} :
    p.search.Longest w back ↔ p.Longest w back := by
  simp only [OperatorSearch.Longest, Longest, exact_occursIn h]

/-- Searching from the right finds the occurrence that fits and ends last, and there the longest. -/
theorem find?_backward (hr : p.rightToLeft = true) (h : p.symbol.isAnchorFree = true)
    (hfind : p.search.find? text = some token) :
    ∃ front w back, text = front ++ w ++ back ∧ token = ⟨w, Text.byteSize front⟩ ∧
      p.Fits front w back ∧
      ∀ front' w' back', text = front' ++ w' ++ back' → p.Fits front' w' back' →
        OperatorSearch.LaterThan front back front' back' := by
  simpa only [tried_iff h] using OperatorSearch.find?_last hr hfind

/-- The occurrence that is found from the right, when it is known to be the one. -/
theorem find?_backward_eq_some (hr : p.rightToLeft = true) (h : p.symbol.isAnchorFree = true)
    {front w back : List Char} (ht : text = front ++ w ++ back) (hfits : p.Fits front w back)
    (hlast : ∀ front' w' back', text = front' ++ w' ++ back' → p.Fits front' w' back' →
      OperatorSearch.LaterThan front back front' back') :
    p.search.find? text = some ⟨w, Text.byteSize front⟩ := by
  cases hfind : p.search.find? text with
  | none => exact absurd ((tried_iff h).2 hfits) (OperatorSearch.find?_last_eq_none hr hfind ht)
  | some token =>
    obtain ⟨front', w', back', ht', rfl, hfits', hlast'⟩ := find?_backward hr h hfind
    have h1 := hlast _ _ _ ht' hfits'
    have h2 := hlast' _ _ _ ht hfits
    have hf : front.length = front'.length := by
      unfold OperatorSearch.LaterThan at h1 h2
      omega
    rw [ht, List.append_assoc, List.append_assoc] at ht'
    obtain ⟨rfl, hwb⟩ := List.append_inj ht' hf
    have hb : back.length = back'.length := by
      unfold OperatorSearch.LaterThan at h1 h2
      omega
    obtain ⟨rfl, -⟩ := List.append_inj' hwb hb
    rfl

/-- Searching from the left finds the first start whose longest occurrence fits. -/
theorem find?_forward (hr : p.rightToLeft = false) (h : p.symbol.isAnchorFree = true)
    (hfind : p.search.find? text = some token) :
    ∃ front w back, text = front ++ w ++ back ∧ token = ⟨w, Text.byteSize front⟩ ∧
      p.Fits front w back ∧ p.Longest w back ∧
      ∀ front' w' back', text = front' ++ w' ++ back' → p.Fits front' w' back' →
        p.Longest w' back' → front.length ≤ front'.length := by
  simpa only [fits_iff h, longest_iff h] using OperatorSearch.find?_first hr hfind

/-- The occurrence that is found from the left, when it is known to be the one. -/
theorem find?_forward_eq_some (hr : p.rightToLeft = false) (h : p.symbol.isAnchorFree = true)
    {front w back : List Char} (ht : text = front ++ w ++ back) (hfits : p.Fits front w back)
    (hlong : p.Longest w back)
    (hfirst : ∀ front' w' back', text = front' ++ w' ++ back' → p.Fits front' w' back' →
      front.length ≤ front'.length) :
    p.search.find? text = some ⟨w, Text.byteSize front⟩ := by
  cases hfind : p.search.find? text with
  | none =>
    exact absurd ((fits_iff h).2 hfits)
      (OperatorSearch.find?_first_eq_none hr hfind ht ((longest_iff h).2 hlong))
  | some token =>
    obtain ⟨front', w', back', ht', rfl, hfits', hlong', hfirst'⟩ := find?_forward hr h hfind
    have hf : front.length = front'.length :=
      Nat.le_antisymm (hfirst _ _ _ ht' hfits') (hfirst' _ _ _ ht hfits hlong)
    rw [ht, List.append_assoc, List.append_assoc] at ht'
    obtain ⟨rfl, hwb⟩ := List.append_inj ht' hf
    have hw : w.length = w'.length :=
      Nat.le_antisymm (hlong' w back hwb.symm hfits.ne_nil hfits.mem_lang)
        (hlong w' back' hwb hfits'.ne_nil hfits'.mem_lang)
    obtain ⟨rfl, rfl⟩ := List.append_inj hwb hw
    rfl

end OperatorPatterns

end Formula
