import Formula.Number.Literal
import Formula.Proofs.Grammar.Operand

/-!
# Numbers of the grammar are read

The grammar takes digits of any script for the digits of a number, reading a number only the ASCII ones.
A number of the grammar in ASCII characters has a value (`Number.isSome_read?`).
-/

set_option autoImplicit false

namespace Formula.Number

open Lexeme

/-- Digits of the ASCII characters. -/
def Digits (ds : List Char) : Prop :=
  ∀ c ∈ ds, c.isDigit = true

theorem isDigit_of_ascii {c : Char} (h : Text.isDecimalDigit c = true) (hc : c.toNat < 128) :
    c.isDigit = true := by
  rw [Text.isDecimalDigit, Bool.or_eq_true, Bool.and_eq_true, decide_eq_true_eq] at h
  rcases h with h | ⟨h, -⟩
  · exact h
  · omega

theorem ne_of_isDigit {c d : Char} (hc : c.isDigit = true) (hd : d.isDigit = false) : c ≠ d := by
  rintro rfl
  rw [hc] at hd
  cases hd

section

variable {w ds : List Char} (hascii : ∀ c ∈ w, c.toNat < 128)
include hascii

theorem digits_of_plus (hw : w ∈ (Pattern.plus true (.set .digit)).lang) : w ≠ [] ∧ Digits w := by
  obtain ⟨hne, hall⟩ := mem_plus_set.1 hw
  exact ⟨hne, fun c hc => isDigit_of_ascii (hall c hc) (hascii c hc)⟩

/-- The mantissa of a number: digits, and maybe a point and digits; there is a digit on either side. -/
theorem mantissa_cases (hw : w ∈ mantissa.lang) : ∃ whole fraction, Digits whole ∧ Digits fraction ∧
    whole ++ fraction ≠ [] ∧ ((w = whole ∧ fraction = []) ∨ w = whole ++ '.' :: fraction) := by
  rcases hw with ⟨ds, hds, r, ⟨p, hp, fs, hfs, rfl⟩, rfl⟩ | ⟨p, hp, ds, hds, rfl⟩
  · obtain ⟨hne, hds⟩ := digits_of_plus (fun c hc => hascii c (by simp [hc])) hds
    have hfs : Digits fs := by
      rcases mem_lang_opt.1 hfs with hfs | rfl
      · exact (digits_of_plus (fun c hc => hascii c (by simp [hc])) hfs).2
      · exact fun c hc => by cases hc
    rcases mem_lang_opt.1 hp with hp | rfl
    · obtain rfl := mem_char.1 hp
      exact ⟨ds, fs, hds, hfs, by simp [hne], .inr (by simp)⟩
    · refine ⟨ds ++ fs, [], fun c hc => ?_, fun c hc => (by cases hc), by simp [hne], .inl (by simp)⟩
      rcases List.mem_append.1 hc with hc | hc
      · exact hds c hc
      · exact hfs c hc
  · obtain rfl := mem_char.1 hp
    obtain ⟨hne, hds⟩ := digits_of_plus (fun c hc => hascii c (by simp [hc])) hds
    exact ⟨[], ds, fun c hc => (by cases hc), hds, by simpa using hne, .inr (by simp)⟩

/-- The exponent of a number: a letter, maybe a sign, and digits. -/
theorem exponent_cases (hw : w ∈ exponent.lang) : ∃ e s ds, w = e :: (s ++ ds) ∧
    (e = 'e' ∨ e = 'E') ∧ (s = [] ∨ s = ['+'] ∨ s = ['-']) ∧ ds ≠ [] ∧ Digits ds := by
  obtain ⟨u, hu, r, ⟨s, hs, ds, hds, rfl⟩, rfl⟩ := hw
  obtain ⟨hne, hds⟩ := digits_of_plus (fun c hc => hascii c (by simp [hc])) hds
  obtain ⟨e, he, rfl⟩ := mem_anyOf.1 hu
  refine ⟨e, s, ds, rfl, by simpa using he, ?_, hne, hds⟩
  rcases mem_lang_opt.1 hs with hs | rfl
  · obtain ⟨c, hc, rfl⟩ := mem_anyOf.1 hs
    have hc : c = '+' ∨ c = '-' := by simpa using hc
    rcases hc with rfl | rfl
    · exact .inr (.inl rfl)
    · exact .inr (.inr rfl)
  · exact .inl rfl

end

theorem exists_readExponent? {e : Char} {s ds : List Char} (he : e = 'e' ∨ e = 'E')
    (hs : s = [] ∨ s = ['+'] ∨ s = ['-']) (hne : ds ≠ []) (hds : Digits ds) :
    ∃ n, readExponent? (e :: (s ++ ds)) = some n := by
  have hcheck : (ds.isEmpty || !ds.all Char.isDigit) = false := by
    rw [List.all_eq_true.2 hds, List.isEmpty_eq_false_iff.2 hne]
    rfl
  have hsign : ∀ {c : Char} {r : List Char}, c.isDigit = false → ds ≠ c :: r := by
    rintro c r hc rfl
    exact absurd rfl (ne_of_isDigit (hds c List.mem_cons_self) hc)
  rcases hs with rfl | rfl | rfl
  · rw [List.nil_append, readExponent?, if_pos he, hcheck]
    · exact ⟨_, rfl⟩
    · exact fun r hr => hsign rfl hr
    · exact fun r hr => hsign rfl hr
  · rw [List.cons_append, List.nil_append, readExponent?, if_pos he, hcheck]
    exact ⟨_, rfl⟩
  · rw [List.cons_append, List.nil_append, readExponent?, if_pos he, hcheck]
    exact ⟨_, rfl⟩

theorem takeWhile_digits {ds r : List Char} (hds : Digits ds)
    (hr : ∀ c, r.head? = some c → c.isDigit = false) :
    (ds ++ r).takeWhile Char.isDigit = ds ∧ (ds ++ r).dropWhile Char.isDigit = r := by
  rw [List.takeWhile_append_of_pos hds, List.dropWhile_append_of_pos hds]
  cases r with
  | nil => simp
  | cons c r =>
    have hc : ¬ c.isDigit = true := by rw [hr c rfl]; decide
    rw [List.takeWhile_cons_of_neg hc, List.dropWhile_cons_of_neg hc, List.append_nil]
    exact ⟨rfl, rfl⟩

/-- Digits with a point and an exponent have a value when the exponent has. -/
theorem exists_readDecimal? {m x whole fraction : List Char} {n : Int} (hwhole : Digits whole)
    (hfraction : Digits fraction) (hne : whole ++ fraction ≠ [])
    (hm : (m = whole ∧ fraction = []) ∨ m = whole ++ '.' :: fraction)
    (hx : readExponent? x = some n) (hhead : ∀ c, x.head? = some c → c.isDigit = false ∧ c ≠ '.') :
    ∃ v, readDecimal? (m ++ x) = some v := by
  have hempty : (whole.isEmpty && fraction.isEmpty) = false := by
    rw [← Bool.not_eq_true, Bool.and_eq_true, List.isEmpty_iff, List.isEmpty_iff]
    rintro ⟨rfl, rfl⟩
    exact hne rfl
  obtain ⟨rfl, rfl⟩ | rfl := hm
  · obtain ⟨htake, hdrop⟩ := takeWhile_digits hwhole fun c hc => (hhead c hc).1
    rw [readDecimal?, htake, hdrop]
    split
    next fraction tail hmatch =>
    have htail : fraction = [] ∧ tail = x := by
      split at hmatch
      · next more => exact absurd rfl (hhead '.' rfl).2
      · exact ⟨(Prod.mk.inj hmatch).1.symm, (Prod.mk.inj hmatch).2.symm⟩
    rw [htail.1, htail.2, hempty, hx]
    exact ⟨_, rfl⟩
  · have hdot : ∀ c, ('.' :: (fraction ++ x)).head? = some c → c.isDigit = false := by
      intro c hc
      rw [← Option.some.inj hc]
      rfl
    obtain ⟨htake, hdrop⟩ := takeWhile_digits hwhole hdot
    obtain ⟨htake', hdrop'⟩ := takeWhile_digits hfraction fun c hc => (hhead c hc).1
    rw [readDecimal?, List.append_assoc, List.cons_append, htake, hdrop]
    simp only [htake', hdrop', hempty, hx]
    exact ⟨_, rfl⟩

/-- A number of the grammar has no sign. -/
theorem read?_of_mem_number {w : List Char} (hw : w ∈ number.lang) : read? w = readMagnitude? w := by
  obtain ⟨c, rest, hc, hstart⟩ := (numberShape_of_mem hw).head
  rw [hc, read?]
  · rintro cs h
    rw [(List.cons.inj h).1] at hstart
    cases hstart
  · rintro cs h
    rw [(List.cons.inj h).1] at hstart
    cases hstart

/-- A number of the grammar in ASCII characters has a value. -/
theorem isSome_read? {w : List Char} (hw : w ∈ number.lang) (hascii : ∀ c ∈ w, c.toNat < 128) :
    (read? w).isSome = true := by
  have hdecimal : ∃ v, readDecimal? w = some v := by
    obtain ⟨m, hm, x, hx, rfl⟩ := hw
    obtain ⟨whole, fraction, hwhole, hfraction, hne, hm⟩ :=
      mantissa_cases (fun c hc => hascii c (by simp [hc])) hm
    rcases mem_lang_opt.1 hx with hx | rfl
    · obtain ⟨e, s, ds, rfl, he, hs, hds, hdigits⟩ :=
        exponent_cases (fun c hc => hascii c (by simp [hc])) hx
      obtain ⟨n, hn⟩ := exists_readExponent? he hs hds hdigits
      refine exists_readDecimal? hwhole hfraction hne hm hn fun d hd => ?_
      rw [← Option.some.inj hd]
      rcases he with rfl | rfl <;> decide
    · exact exists_readDecimal? hwhole hfraction hne hm rfl fun d hd => by cases hd
  obtain ⟨v, hv⟩ := hdecimal
  rw [read?_of_mem_number hw, readMagnitude?]
  split
  · rfl
  · split
    · rfl
    · rw [hv]
      rfl

end Formula.Number
