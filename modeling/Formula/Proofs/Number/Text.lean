import Mathlib
import Formula.Number.Product
import Formula.Number.Shortest
import Formula.Proofs.Number.Literal
import Formula.Proofs.Text.Groups

/-!
# The text of a number

A finite number without a sign is shown as a number of the grammar, in ASCII digits and maybe a point
(`Number.text_mem_number`), a negative one as such a number behind a sign. All other numbers but NaN are the
two infinities (`Number.infinite_cases`).
-/

set_option autoImplicit false

namespace Formula.Number

open Lexeme

/-- Digits are a number of the grammar. -/
theorem digits_mem_plus {ds : List Char} (hne : ds ≠ []) (hds : Digits ds) :
    ds ∈ (Pattern.plus true (.set .digit)).lang := by
  refine mem_plus_set.2 ⟨hne, fun c hc => ?_⟩
  show Text.isDecimalDigit c = true
  rw [Text.isDecimalDigit, hds c hc]
  rfl

theorem digits_mem_number {ds : List Char} (hne : ds ≠ []) (hds : Digits ds) : ds ∈ number.lang := by
  refine ⟨ds, .inl ⟨ds, digits_mem_plus hne hds, [], ⟨[], .inr rfl, [], .inr rfl, rfl⟩, ?_⟩, [], .inr rfl,
    ?_⟩
  · simp
  · simp

theorem point_mem_number {ds fs : List Char} (hne : ds ≠ []) (hds : Digits ds) (hne' : fs ≠ [])
    (hfs : Digits fs) : ds ++ '.' :: fs ∈ number.lang := by
  have hpoint : ['.'] ∈ (char '.').lang := mem_char.2 rfl
  refine ⟨ds ++ '.' :: fs, .inl ⟨ds, digits_mem_plus hne hds, '.' :: fs,
    ⟨['.'], .inl hpoint, fs, .inl (digits_mem_plus hne' hfs), rfl⟩, rfl⟩, [], .inr rfl, ?_⟩
  simp

theorem digits_toDigits (n : Nat) : Nat.toDigits 10 n ≠ [] ∧ Digits (Nat.toDigits 10 n) :=
  ⟨Nat.toDigits_ne_nil, isDigit_toDigits n⟩

theorem digits_append {ds fs : List Char} (hds : Digits ds) (hfs : Digits fs) : Digits (ds ++ fs) := by
  intro c hc
  rcases List.mem_append.1 hc with hc | hc
  · exact hds c hc
  · exact hfs c hc

theorem digits_zeros (n : Nat) : Digits (List.replicate n '0') := by
  intro c hc
  rw [(List.mem_replicate.1 hc).2]
  rfl

/-- Positional text is a number of the grammar. -/
theorem positional_mem_number (digits : Nat) (k : Int) : positional digits k ∈ number.lang := by
  obtain ⟨hne, hds⟩ := digits_toDigits digits
  rw [positional]
  split
  · exact digits_mem_number (by simp [hne]) (digits_append hds (digits_zeros _))
  · next hk =>
    have hplaces : 0 < (-k).toNat := by omega
    dsimp only
    split
    · next hlt =>
      refine point_mem_number ?_ (fun c hc => hds c (List.mem_of_mem_take hc)) ?_
        fun c hc => hds c (List.mem_of_mem_drop hc)
      · rw [← List.length_pos_iff, List.length_take]
        omega
      · rw [← List.length_pos_iff, List.length_drop]
        omega
    · exact @point_mem_number ['0'] _ (by simp) (digits_zeros 1) (by simp [hne])
        (digits_append (digits_zeros _) hds)

theorem magnitudeText_mem_number (p : Parts) : p.magnitudeText ∈ number.lang := by
  rw [Parts.magnitudeText]
  split
  · exact digits_mem_number (by simp) (digits_zeros 1)
  · exact positional_mem_number _ _

/-! ## Finite numbers -/

/-- A finite number has parts. -/
theorem exists_parts? {x : Float} (h : x.isFinite = true) : ∃ p, parts? x = some p := by
  have hexponent : x.toBits.toNat / twoTo 52 % twoTo 11 ≠ 2047 := by
    intro hbiased
    have hones : @Float.Model.UnpackedFloat.unpackExponent .binary64
        x.toModel.toBits.toBitVec = -1#11 := by
      refine BitVec.eq_of_toNat_eq ?_
      show x.toBits.toNat >>> 52 % 2 ^ 11 = 2047
      rw [Nat.shiftRight_eq_div_pow]
      exact hbiased
    change x.toModel.unpack.isFinite = true at h
    rw [Float.Model.unpack, Float.Model.UnpackedFloat.unpack] at h
    dsimp only at h
    rw [if_pos hones] at h
    split at h
    · cases h
    · cases h
  rw [parts?, if_neg hexponent]
  split
  · exact ⟨_, rfl⟩
  · exact ⟨_, rfl⟩

/-- A negative finite number is shown as a number of the grammar behind a sign. -/
theorem exists_text_negative {x : Float} (h : x.isFinite = true) (hsign : isNegative x = true)
    (hnan : x.isNaN = false) : ∃ w ∈ number.lang, text x = '-' :: w := by
  obtain ⟨p, hp⟩ := exists_parts? h
  refine ⟨p.magnitudeText, magnitudeText_mem_number p, ?_⟩
  rw [text, hp, hsign, hnan]
  rfl

/-- A finite number without a sign is shown as a number of the grammar. -/
theorem text_mem_number {x : Float} (h : x.isFinite = true) (hsign : isNegative x = false) :
    text x ∈ number.lang := by
  obtain ⟨p, hp⟩ := exists_parts? h
  rw [text, hp, hsign]
  exact magnitudeText_mem_number p

/-! ## Infinite numbers -/

section

open Float.Model Float.Model.UnpackedFloat

theorem eq_of_unpack {x y : Float} (h : x.toModel.unpack = y.toModel.unpack) : x = y := by
  refine Float.toBits_inj.1 (UInt64.toBitVec_inj.1 ?_)
  exact (unpack_inj_of_valid x.toModel.valid y.toModel.valid).1 h

/-- A number that is neither finite nor NaN is an infinity. -/
theorem infinite_cases {x : Float} (hfinite : x.isFinite = false) (hnan : x.isNaN = false) :
    x = infinity ∨ x = -infinity := by
  change x.toModel.unpack.isFinite = false at hfinite
  change x.toModel.unpack.isNaN = false at hnan
  cases hx : x.toModel.unpack with
  | infinity s =>
    cases s with
    | positive => exact .inl (eq_of_unpack hx)
    | negative => exact .inr (eq_of_unpack hx)
  | notANumber =>
    rw [hx] at hnan
    cases hnan
  | zero | finite =>
    rw [hx] at hfinite
    cases hfinite

theorem isNaN_neg {x : Float} (h : x.isNaN = true) : (-x).isNaN = true := by
  rw [Float.isNaN_eq_decide_eq_nan, decide_eq_true_eq] at h
  subst h
  decide +kernel

theorem text_infinity : text infinity = ['∞'] := by decide +kernel

theorem text_neg_infinity : text (-infinity) = ['-', '∞'] := by decide +kernel

end

end Formula.Number
