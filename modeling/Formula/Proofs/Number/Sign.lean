import Mathlib
import Formula.Number.Literal
import Formula.Number.Binary

/-!
# Signs of numbers that are read

A number that is read without a sign has none (`Number.isNegative_of_readMagnitude?`). Products and
quotients of floats without a sign have none, and that is how decimals are made.
-/

set_option autoImplicit false

namespace Formula.Number

open Float.Model Float.Model.UnpackedFloat

/-- The sign is positive, if there is one. -/
def Unsigned : UnpackedFloat → Prop
  | .infinity s | .zero s | .finite s _ _ _ => s = .positive
  | .notANumber => True

/-- The sign bit is not set. -/
def IsUnsigned (x : Float) : Prop :=
  x.toBits.toNat < 2 ^ 63

theorem isNegative_of_isUnsigned {x : Float} (h : IsUnsigned x) : isNegative x = false := by
  rw [isNegative, decide_eq_false_iff_not, Nat.not_le]
  exact h

/-! ## Packing and unpacking -/

theorem toNat_packComponents_lt (e : BitVec 11) (m : BitVec 52) :
    (packComponents .binary64 .positive e m).toNat < 2 ^ 63 := by
  have hparts : (packComponents .binary64 .positive e m).toNat = e.toNat * 2 ^ 52 + m.toNat := by
    show ((0#1 ++ e) ++ m).toNat = _
    rw [BitVec.toNat_append, BitVec.toNat_append, ← Nat.shiftLeft_add_eq_or_of_lt m.isLt,
      Nat.shiftLeft_eq]
    simp
  have he := e.isLt
  have hm := m.isLt
  rw [hparts]
  omega

theorem isUnsigned_pack {f : UnpackedFloat} (h : Unsigned f) : IsUnsigned ⟨Float.Model.pack f⟩ := by
  show (UnpackedFloat.pack .binary64 f).toNat < 2 ^ 63
  cases f with
  | notANumber => exact toNat_packComponents_lt _ _
  | infinity s =>
    obtain rfl : s = .positive := h
    exact toNat_packComponents_lt _ _
  | zero s =>
    obtain rfl : s = .positive := h
    exact toNat_packComponents_lt _ _
  | finite s m e hm =>
    obtain rfl : s = .positive := h
    rw [UnpackedFloat.pack]
    dsimp only
    split
    · exact toNat_packComponents_lt _ _
    · split
      · exact toNat_packComponents_lt _ _
      · exact toNat_packComponents_lt _ _

theorem unpackSign_eq_zero {b : BitVec Format.binary64.numBits} (h : b.toNat < 2 ^ 63) :
    unpackSign b = 0#1 := by
  refine BitVec.eq_of_toNat_eq ?_
  show b.toNat >>> 63 % 2 ^ 1 = 0
  rw [Nat.shiftRight_eq_div_pow, Nat.div_eq_of_lt h]

theorem unsigned_unpack {b : BitVec Format.binary64.numBits} (h : b.toNat < 2 ^ 63) :
    Unsigned (UnpackedFloat.unpack .binary64 b) := by
  rw [UnpackedFloat.unpack]
  dsimp only
  rw [unpackSign_eq_zero h]
  split
  · split <;> trivial
  · split
    · split <;> rfl
    · rfl

/-! ## Products, quotients and decimals -/

theorem unsigned_round (m : Nat) (e : Int) (a : Accuracy) :
    Unsigned (roundWithAccuracy .binary64 .positive m e a) := by
  rw [roundWithAccuracy]
  dsimp only
  split <;> rfl

theorem unsigned_mul {f g : UnpackedFloat} (hf : Unsigned f) (hg : Unsigned g) :
    Unsigned (UnpackedFloat.mul .binary64 f g) := by
  cases f <;> cases g <;> simp only [Unsigned] at hf hg <;> subst_vars <;>
    first | exact unsigned_round _ _ _ | trivial

theorem unsigned_div {f g : UnpackedFloat} (hf : Unsigned f) (hg : Unsigned g) :
    Unsigned (UnpackedFloat.div .binary64 f g) := by
  cases f <;> cases g <;> simp only [Unsigned] at hf hg <;> subst_vars <;>
    first | exact unsigned_round _ _ _ | trivial

theorem unsigned_ofScientific (m : Nat) (e : Int) :
    Unsigned (UnpackedFloat.ofScientific .binary64 m e) := by
  rw [UnpackedFloat.ofScientific]
  repeat' split
  · rfl
  · rfl
  · rfl
  · exact unsigned_mul rfl rfl
  · exact unsigned_div rfl rfl

theorem unsigned_ofNat (n : Nat) : Unsigned (UnpackedFloat.ofNat .binary64 n) := by
  show Unsigned (UnpackedFloat.normalize .binary64 n 0 .positive)
  rw [UnpackedFloat.normalize]
  split
  · next h => exact absurd (Int.compare_eq_lt.1 h) (by omega)
  · rfl
  · exact unsigned_round _ _ _

theorem isUnsigned_mul {x y : Float} (hx : IsUnsigned x) (hy : IsUnsigned y) : IsUnsigned (x * y) :=
  isUnsigned_pack (unsigned_mul (unsigned_unpack hx) (unsigned_unpack hy))

theorem isUnsigned_div {x y : Float} (hx : IsUnsigned x) (hy : IsUnsigned y) : IsUnsigned (x / y) :=
  isUnsigned_pack (unsigned_div (unsigned_unpack hx) (unsigned_unpack hy))

theorem isUnsigned_ofBits {b : UInt64} (h : b.toNat < 2 ^ 63) : IsUnsigned (Float.ofBits b) :=
  isUnsigned_pack (unsigned_unpack h)

theorem isUnsigned_powerOfTen {e : Nat} (h : e < Float.exactlyRepresentablePowersOfTen.size) :
    IsUnsigned Float.exactlyRepresentablePowersOfTen[e] := by
  have hbound : e < 23 := h
  interval_cases e <;> exact isUnsigned_ofBits (by decide)

theorem isUnsigned_ofScientific (m : Nat) (s : Bool) (e : Nat) : IsUnsigned (Float.ofScientific m s e) := by
  have hnat : IsUnsigned m.toUInt64.toFloat := isUnsigned_pack (unsigned_ofNat _)
  rw [Float.ofScientific]
  split
  · next h =>
    have hpower := isUnsigned_powerOfTen (e := e) (by
      show e < 23
      omega)
    dsimp only
    split
    · exact isUnsigned_div hnat hpower
    · exact isUnsigned_mul hnat hpower
  · exact isUnsigned_pack (unsigned_ofScientific _ _)

theorem isUnsigned_ofDecimal (mantissa : Nat) (exponent : Int) :
    IsUnsigned (ofDecimal mantissa exponent) := by
  have hzero : IsUnsigned 0 := isUnsigned_ofScientific 0 false 0
  have hone : IsUnsigned 1 := isUnsigned_ofScientific 1 false 0
  rw [ofDecimal]
  repeat' split
  · exact hzero
  · exact isUnsigned_div hone hzero
  · exact hzero
  · exact isUnsigned_ofScientific _ _ _
  · exact isUnsigned_ofScientific _ _ _

/-- A number that is read without a sign has none. -/
theorem isNegative_of_readMagnitude? {w : List Char} {x : Float} (h : readMagnitude? w = some x) :
    isNegative x = false := by
  have hzero : IsUnsigned 0 := isUnsigned_ofScientific 0 false 0
  have hone : IsUnsigned 1 := isUnsigned_ofScientific 1 false 0
  refine isNegative_of_isUnsigned ?_
  rw [readMagnitude?] at h
  split at h
  · cases h
    exact isUnsigned_div hone hzero
  · split at h
    · cases h
      exact isUnsigned_div hzero hzero
    · rw [readDecimal?] at h
      split at h
      next whole rest hmatch =>
      split at h
      · cases h
      · obtain ⟨e, -, rfl⟩ := Option.map_eq_some_iff.1 h
        exact isUnsigned_ofDecimal _ _

end Formula.Number
