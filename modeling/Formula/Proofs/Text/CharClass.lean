import Formula.Text.CharClass

/-!
# How the character classes lie to one another

There are few blanks, so what holds of them all is found by looking at each (`forall_blank`). A text
that begins and ends with other characters is what is left when blanks around it are dropped
(`trim_append`). A text is within another (`Within`) if it is a stretch of it and the rest is not all blank.
-/

set_option autoImplicit false

namespace Formula.Text

theorem exists_of_inRanges {ranges : List (Nat × Nat)} {n : Nat} (h : inRanges ranges n = true) :
    ∃ r ∈ ranges, r.1 ≤ n ∧ n ≤ r.2 := by
  induction ranges with
  | nil => cases h
  | cons r ranges ih =>
    rw [inRanges] at h
    split at h
    · cases h
    · split at h
      · exact ⟨r, List.mem_cons_self, by omega, by omega⟩
      · obtain ⟨r', hr', hn⟩ := ih h
        exact ⟨r', List.mem_cons_of_mem _ hr', hn⟩

/-- The blanks, one by one. -/
def blankCodes : List Nat :=
  blankRanges.flatMap fun r => List.range' r.1 (r.2 + 1 - r.1)

/-- What is true of every blank. -/
theorem forall_blank {f : Char → Bool} (h : blankCodes.all (fun n => f (Char.ofNat n)) = true)
    {c : Char} (hc : isBlank c = true) : f c = true := by
  obtain ⟨r, hr, hlo, hhi⟩ := exists_of_inRanges hc
  have hmem : c.toNat ∈ blankCodes :=
    List.mem_flatMap.2 ⟨r, hr, List.mem_range'_1.2 ⟨hlo, by omega⟩⟩
  have := List.all_eq_true.1 h _ hmem
  rwa [Char.ofNat_toNat] at this

theorem isBlank_space : isBlank ' ' = true := by decide

theorem isWordChar_of_isDecimalDigit {c : Char} (h : isDecimalDigit c = true) :
    isWordChar c = true := by
  rw [isDecimalDigit, Bool.or_eq_true, Bool.and_eq_true] at h
  rcases h with h | ⟨h, h'⟩
  · simp [isWordChar, Char.isAlphanum, h]
  · simp [isWordChar, h, h']

/-! ## Dropping blanks -/

section

variable {z w y : List Char}

/-- The text begins and ends with characters that are not blank. -/
def Trimmed (w : List Char) : Prop :=
  (∃ c r, w = c :: r ∧ isBlank c = false) ∧ ∃ r c, w = r ++ [c] ∧ isBlank c = false

theorem trimmed_of_not_blank (hne : w ≠ []) (h : ∀ c ∈ w, isBlank c = false) : Trimmed w := by
  constructor
  · obtain ⟨c, r, rfl⟩ := List.exists_cons_of_ne_nil hne
    exact ⟨c, r, rfl, h c List.mem_cons_self⟩
  · rcases List.eq_nil_or_concat w with rfl | ⟨r, c, rfl⟩
    · exact absurd rfl hne
    · exact ⟨r, c, by simp, h c (by simp)⟩

theorem trimEnd_of_blank (hy : ∀ c ∈ y, isBlank c = true) : trimEnd y = [] := by
  induction y with
  | nil => rfl
  | cons c y ih =>
    rw [trimEnd, ih fun d hd => hy d (List.mem_cons_of_mem c hd)]
    exact if_pos (hy c List.mem_cons_self)

theorem trimEnd_append (hy : ∀ c ∈ y, isBlank c = true) : trimEnd (w ++ y) = trimEnd w := by
  induction w with
  | nil => exact trimEnd_of_blank hy
  | cons c w ih => rw [List.cons_append, trimEnd, trimEnd, ih]

theorem trimEnd_concat {c : Char} (hc : isBlank c = false) : trimEnd (w ++ [c]) = w ++ [c] := by
  induction w with
  | nil => simp [trimEnd, hc]
  | cons d w ih =>
    rw [List.cons_append, trimEnd, ih]
    cases w <;> rfl

theorem trimEnd_append_of_ne_nil (h : trimEnd w ≠ []) : trimEnd (z ++ w) = z ++ trimEnd w := by
  induction z with
  | nil => rfl
  | cons c z ih =>
    rw [List.cons_append, List.cons_append, trimEnd, ih]
    cases hz : z ++ trimEnd w with
    | nil => exact absurd (List.append_eq_nil_iff.1 hz).2 h
    | cons d t => rfl

theorem trimStart_append (hz : ∀ c ∈ z, isBlank c = true) : trimStart (z ++ w) = trimStart w :=
  List.dropWhile_append_of_pos hz

theorem exists_trimEnd (text : List Char) :
    ∃ y, (∀ c ∈ y, isBlank c = true) ∧ text = trimEnd text ++ y := by
  induction text with
  | nil => exact ⟨[], by simp, rfl⟩
  | cons c text ih =>
    obtain ⟨y, hy, ht⟩ := ih
    rw [trimEnd]
    split
    · next hnil =>
      rw [hnil, List.nil_append] at ht
      subst ht
      split
      · next hc => exact ⟨c :: text, List.forall_mem_cons.2 ⟨hc, hy⟩, rfl⟩
      · exact ⟨text, hy, rfl⟩
    · next d ds hd =>
      rw [hd] at ht
      exact ⟨y, hy, by rw [List.cons_append, ← ht]⟩

/-- A text is what is left when the blanks around it are dropped, with these blanks. -/
theorem exists_trim (text : List Char) : ∃ y, (∀ c ∈ y, isBlank c = true) ∧
    text = text.takeWhile isBlank ++ trim text ++ y := by
  obtain ⟨y, hy, ht⟩ := exists_trimEnd (trimStart text)
  refine ⟨y, hy, ?_⟩
  rw [List.append_assoc, trim, ← ht, trimStart, List.takeWhile_append_dropWhile]

/-- Dropping the blanks around a text leaves it. -/
theorem trim_append (hz : ∀ c ∈ z, isBlank c = true) (hw : Trimmed w)
    (hy : ∀ c ∈ y, isBlank c = true) : trim (z ++ w ++ y) = w := by
  obtain ⟨⟨c, r, hc, hcb⟩, r', d, hd, hdb⟩ := hw
  have hstart : trimStart (w ++ y) = w ++ y := by
    rw [hc, List.cons_append, trimStart, List.dropWhile_cons_of_neg (by simp [hcb])]
  rw [trim, List.append_assoc, trimStart_append hz, hstart, trimEnd_append hy, hd,
    trimEnd_concat hdb]

/-- The blanks before a text can be told from it. -/
theorem append_cons_inj_of_blank {z z' s s' : List Char} {c c' : Char}
    (hz : ∀ c ∈ z, isBlank c = true) (hc : isBlank c = false) (hz' : ∀ c ∈ z', isBlank c = true)
    (hc' : isBlank c' = false) (h : z ++ c :: s = z' ++ c' :: s') :
    z = z' ∧ c :: s = c' :: s' := by
  have htake : ∀ {z s : List Char} {c : Char}, (∀ c ∈ z, isBlank c = true) → isBlank c = false →
      (z ++ c :: s).takeWhile isBlank = z := by
    intro z s c hz hc
    rw [List.takeWhile_append_of_pos hz, List.takeWhile_cons_of_neg (by simp [hc]), List.append_nil]
  have hzz : z = z' := by rw [← htake hz hc, h, htake hz' hc']
  subst hzz
  exact ⟨rfl, List.append_cancel_left h⟩

/-- The blanks around a text can be told from it. -/
theorem append_inj_of_trimmed {z' w' y' : List Char} (hz : ∀ c ∈ z, isBlank c = true)
    (hw : Trimmed w) (hy : ∀ c ∈ y, isBlank c = true) (hz' : ∀ c ∈ z', isBlank c = true)
    (hw' : Trimmed w') (hy' : ∀ c ∈ y', isBlank c = true) (h : z ++ w ++ y = z' ++ w' ++ y') :
    z = z' ∧ w = w' ∧ y = y' := by
  have hww : w = w' := by rw [← trim_append hz hw hy, h, trim_append hz' hw' hy']
  subst hww
  obtain ⟨⟨c, r, rfl, hc⟩, -⟩ := hw
  simp only [List.append_assoc, List.cons_append] at h
  obtain ⟨rfl, hrest⟩ := append_cons_inj_of_blank hz hc hz' hc h
  injection hrest with _ hy
  exact ⟨rfl, rfl, List.append_cancel_left hy⟩

end

/-! ## Stretches of texts -/

/-- How many characters of a text are not blank. -/
def solidCount (text : List Char) : Nat :=
  text.countP fun c => !isBlank c

theorem solidCount_append (s t : List Char) : solidCount (s ++ t) = solidCount s + solidCount t :=
  List.countP_append

theorem solidCount_pos {c : Char} {w : List Char} (hmem : c ∈ w) (hc : isBlank c = false) :
    0 < solidCount w :=
  List.countP_pos_iff.2 ⟨c, hmem, by simp [hc]⟩

/-- A text is a stretch of another one that has more characters besides blanks. -/
structure Within (q text : List Char) : Prop where
  stretch : q <:+: text
  lt : solidCount q < solidCount text

theorem Within.length_lt {q text : List Char} (h : Within q text) : q.length < text.length := by
  apply Nat.lt_of_le_of_ne h.stretch.length_le
  intro hlen
  have hlt := h.lt
  rw [h.stretch.sublist.eq_of_length hlen] at hlt
  exact Nat.lt_irrefl _ hlt

/-- A text that some character other than a blank is cut off from. -/
theorem within_of_append {front w back text : List Char} {c : Char} (ht : text = front ++ w ++ back)
    (hmem : c ∈ w) (hc : isBlank c = false) : Within front text ∧ Within back text := by
  have hpos := solidCount_pos hmem hc
  have hcount : solidCount text = solidCount front + solidCount w + solidCount back := by
    rw [ht, solidCount_append, solidCount_append]
  constructor
  · exact ⟨⟨[], w ++ back, by simp [ht]⟩, by omega⟩
  · exact ⟨⟨front ++ w, [], by simp [ht]⟩, by omega⟩

/-- A stretch of the inside of a group. -/
theorem within_of_group {front s back text q : List Char} {o c : Char}
    (ht : text = front ++ o :: (s ++ [c]) ++ back) (ho : isBlank o = false) (hq : q <:+: s) :
    Within q text := by
  have hinside : s <:+: text := ⟨front ++ [o], c :: back, by simp [ht]⟩
  refine ⟨hq.trans hinside, ?_⟩
  calc solidCount q ≤ solidCount (s ++ [c] ++ back) := by
        rw [solidCount_append, solidCount_append]
        have := hq.sublist.countP_le (p := fun c => !isBlank c)
        unfold solidCount
        omega
    _ < solidCount (front ++ [o]) + solidCount (s ++ [c] ++ back) := by
        have := solidCount_pos (w := front ++ [o]) (by simp) ho
        omega
    _ = solidCount text := by
        rw [← solidCount_append, ht]
        simp

/-- The characters of a kind at the start of a text end where the first other character stands. -/
theorem takeWhile_append {p : Char → Bool} {w r : List Char} (hw : ∀ c ∈ w, p c = true)
    (hr : ∀ c, r.head? = some c → p c = false) : (w ++ r).takeWhile p = w := by
  rw [List.takeWhile_append_of_pos hw]
  cases r with
  | nil => simp
  | cons c r => rw [List.takeWhile_cons_of_neg (by simp [hr c rfl]), List.append_nil]

end Formula.Text
