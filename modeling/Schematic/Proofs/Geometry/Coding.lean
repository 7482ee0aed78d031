import Mathlib
import Schematic.Geometry.Binary

/-!
# What the bits of a number mean

`exactValue` is the number that a finite floating point number stands for, read off the logical
model of floating point numbers. The program reads the same number off the bits with natural
numbers, and coding a sign, a significand and a shift that fit into 64 bits and reading them again
does not change the number.
-/

namespace Schematic.Binary

open Float.Model (UnpackedFloat Format)
open Float.Model.UnpackedFloat

/-! ## Values -/

/-- The number in units of 2 ^ -1074, which is the smallest positive one: every finite number is a
whole number of these. -/
def units (b : Binary) : ℤ := if b.negative then -b.magnitude else b.magnitude

def value (b : Binary) : ℚ := b.units * 2 ^ (-1074 : ℤ)

def unpackedValue : UnpackedFloat → ℚ
  | .finite sign mantissa exponent _ => (sign.apply mantissa : ℤ) * 2 ^ exponent
  | _ => 0

/-- The number that a finite floating point number stands for. It is read off the logical model and
not off the bits, so that it is independent of the way the program reads them. -/
def exactValue (x : Float) : ℚ := unpackedValue x.toModel.unpack

theorem twoTo_eq (n : Nat) : twoTo n = 2 ^ n := rfl

theorem twoTo_pos (n : Nat) : 0 < twoTo n := Nat.two_pow_pos n

/-- The distance between neighbours that have this shift. -/
def step (shift : Nat) : ℚ := 2 ^ ((shift : ℤ) - 1074)

theorem step_pos (shift : Nat) : 0 < step shift := zpow_pos two_pos _

theorem step_eq (shift : Nat) : step shift = twoTo shift / twoTo 1074 := by
  have generic (e : Nat) : (2 : ℚ) ^ ((shift : ℤ) - e) = twoTo shift / twoTo e := by
    rw [zpow_sub₀ two_ne_zero, zpow_natCast, zpow_natCast, twoTo_eq, twoTo_eq]
    push_cast
    rfl
  exact generic 1074

theorem step_add (m n : Nat) : step (m + n) = 2 ^ n * step m := by
  rw [step, step, Nat.cast_add, show (m : ℤ) + n - 1074 = n + (m - 1074) by ring,
    zpow_add₀ two_ne_zero, zpow_natCast]

def signOf (negative : Bool) : Sign := if negative then .negative else .positive

theorem value_mk (negative : Bool) (significand shift : Nat) :
    value ⟨negative, significand, shift⟩ =
      ((signOf negative).apply significand : ℤ) * step shift := by
  rw [step, sub_eq_add_neg, zpow_add₀ two_ne_zero, zpow_natCast, value, units, magnitude]
  cases negative <;> simp [signOf, twoTo_eq, Sign.apply, mul_assoc]

theorem value_eq (b : Binary) :
    b.value = (if b.negative then -1 else 1) * (b.significand * step b.shift) := by
  obtain ⟨negative, significand, shift⟩ := b
  rw [value_mk]
  cases negative <;> simp [signOf, Sign.apply]

/-! ## Reading the bits -/

section Words

variable (w : BitVec Format.binary64.numBits)

theorem toNat_unpackMantissa : (unpackMantissa w).toNat = w.toNat % 2 ^ 52 := by
  rw [unpackMantissa_def, BitVec.extractLsb'_toNat, Nat.shiftRight_zero]

theorem toNat_unpackExponent : (unpackExponent w).toNat = w.toNat / 2 ^ 52 % 2 ^ 11 := by
  rw [unpackExponent_def, BitVec.extractLsb'_toNat, Nat.shiftRight_eq_div_pow]

theorem toNat_unpackSign : (unpackSign w).toNat = w.toNat / 2 ^ 63 % 2 := by
  rw [unpackSign_def, BitVec.extractLsb'_toNat, Nat.shiftRight_eq_div_pow]
  rfl

theorem ofBitVec_unpackSign :
    Sign.ofBitVec (unpackSign w) = signOf (w.toNat / twoTo 63 % 2 == 1) := by
  rw [show w.toNat / twoTo 63 % 2 = (unpackSign w).toNat from (toNat_unpackSign w).symm]
  generalize unpackSign w = s
  obtain rfl | rfl := BitVec.eq_zero_or_eq_one s <;> rfl

/-- The leading digit that a significand is coded without. -/
theorem toNat_one_append {n : Nat} (m : BitVec n) : (1#1 ++ m).toNat = 2 ^ n + m.toNat := by
  have hor := Nat.two_pow_add_eq_or_of_lt m.isLt 1
  rw [Nat.mul_one] at hor
  rw [BitVec.toNat_append, BitVec.toNat_ofNat, Nat.shiftLeft_eq, Nat.pow_one, Nat.mod_succ,
    Nat.one_mul, hor]

/-- The largest exponent marks what is not finite. This is all that has to be known of infinities
and of what is not a number, for the program asks it before it reads anything else. -/
theorem isFinite_unpack_iff :
    (unpack Format.binary64 w).isFinite = true ↔ w.toNat / 2 ^ 52 % 2 ^ 11 ≠ 2047 := by
  rw [← toNat_unpackExponent, show (2047 : Nat) = (-1#11).toNat from rfl, Ne, BitVec.toNat_inj,
    unpack]
  generalize unpackExponent w = e
  by_cases he : e = -1#11
  · rw [if_pos he]
    exact iff_of_false (by split <;> nofun) (not_not.mpr he)
  · rw [if_neg he]
    refine iff_of_true ?_ he
    split
    · split <;> rfl
    · rfl

theorem value_ofBits (h : (unpack Format.binary64 w).isFinite = true) :
    (ofBits w.toNat).value = unpackedValue (unpack Format.binary64 w) := by
  have hmantissa : w.toNat % twoTo 52 = (unpackMantissa w).toNat := (toNat_unpackMantissa w).symm
  have hexponent : w.toNat / twoTo 52 % twoTo 11 = (unpackExponent w).toNat :=
    (toNat_unpackExponent w).symm
  have hbias : (Format.binary64.exponentBias : ℤ) + Format.binary64.mantissaBitsWithoutImplicit =
      1075 := by decide
  have hne : unpackExponent w ≠ -1#11 := fun he =>
    (isFinite_unpack_iff w).mp h (by rw [← toNat_unpackExponent, he]; rfl)
  rw [ofBits, unpack, if_neg hne, hmantissa, hexponent, hbias, ofBitVec_unpackSign]
  generalize unpackExponent w = e
  generalize (w.toNat / twoTo 63 % 2 == 1) = negative
  by_cases he : e = 0#11
  · have hzero : e.toNat = 0 := by rw [he]; rfl
    rw [if_pos hzero, if_pos he, value_mk, hzero]
    split
    next hm =>
      rw [hm]
      cases negative <;> simp [unpackedValue, Sign.apply, signOf]
    next hm => rfl
  · have hpos : e.toNat ≠ 0 := fun hzero => he (BitVec.eq_of_toNat_eq hzero)
    have hshift : ((e.toNat - 1 : ℕ) : ℤ) - 1074 = e.toNat - 1075 := by omega
    rw [if_neg hpos, if_neg he, value_mk, unpackedValue, toNat_one_append, step, hshift]
    rfl

end Words

section Floats

variable {x : Float}

theorem isFinite_iff : x.isFinite = true ↔ x.toBits.toNat / 2 ^ 52 % 2 ^ 11 ≠ 2047 :=
  isFinite_unpack_iff _

/-- What the program reads off the bits is the number that is meant. -/
theorem value_ofFloat (h : x.isFinite = true) : (ofFloat x).value = exactValue x :=
  value_ofBits _ h

theorem significand_ofFloat_lt (x : Float) : (ofFloat x).significand < 2 ^ 53 := by
  unfold ofFloat ofBits
  dsimp only
  split <;> simp only [twoTo_eq] <;> omega

theorem shift_ofFloat_le (h : x.isFinite = true) : (ofFloat x).shift ≤ 2045 := by
  have hne := isFinite_iff.mp h
  unfold ofFloat ofBits
  dsimp only
  split <;> simp only [twoTo_eq] <;> omega

theorem even_significand_ofFloat (x : Float) :
    Even (ofFloat x).significand ↔ Even x.toBits.toNat := by
  unfold ofFloat ofBits
  dsimp only
  split <;> simp only [twoTo_eq, Nat.even_iff] <;> omega

theorem exists_signed_significand (h : x.isFinite = true) :
    ∃ k : ℤ, exactValue x = k * step (ofFloat x).shift ∧ |k| = (ofFloat x).significand := by
  refine ⟨(signOf (ofFloat x).negative).apply (ofFloat x).significand,
    (value_ofFloat h).symm.trans (value_mk _ _ _), ?_⟩
  cases (ofFloat x).negative <;> simp [signOf, Sign.apply]

end Floats

/-! ## Coding and reading again -/

theorem toBits_eq (b : Binary) : b.toBits =
    (if b.negative then 1 else 0) * 2 ^ 63 + (b.shift * 2 ^ 52 + b.significand) := by
  rw [toBits, Nat.add_assoc]
  cases b.negative <;> rfl

/-- The number can be coded in 64 bits, perhaps after its significand has run over. A shift needs a
leading digit, which is not coded, and the last exponent is not for numbers. -/
structure Fits (b : Binary) : Prop where
  significand_le : b.significand ≤ 2 ^ 53
  normal : b.shift = 0 ∨ 2 ^ 52 ≤ b.significand
  bounded : b.shift * 2 ^ 52 + b.significand < 2047 * 2 ^ 52

namespace Fits

variable {b : Binary}

theorem exponent_toBits (h : b.Fits) :
    b.toBits / 2 ^ 52 % 2 ^ 11 = b.shift + b.significand / 2 ^ 52 := by
  have hbounded := h.bounded
  rw [toBits_eq]
  split <;> omega

theorem exponent_ne (h : b.Fits) : b.toBits / 2 ^ 52 % 2 ^ 11 ≠ 2047 := by
  have hbounded := h.bounded
  rw [h.exponent_toBits]
  omega

theorem negative_ofBits (h : b.Fits) : (ofBits b.toBits).negative = b.negative := by
  have hbounded := h.bounded
  have hsign : (b.toBits / 2 ^ 63 % 2 == 1) = b.negative := by
    rw [toBits_eq]
    cases b.negative <;>
      simp only [Bool.false_eq_true, if_false, if_true, beq_iff_eq, beq_eq_false_iff_ne] <;> omega
  simp only [ofBits, apply_ite Binary.negative, ite_self]
  exact hsign

theorem magnitude_ofBits (h : b.Fits) : (ofBits b.toBits).magnitude = b.magnitude := by
  have hexponent := h.exponent_toBits
  have hfraction : b.toBits % 2 ^ 52 = b.significand % 2 ^ 52 := by
    rw [toBits_eq]
    split <;> omega
  simp only [ofBits, magnitude, twoTo_eq, hexponent, hfraction]
  rcases Nat.lt_or_ge b.significand (2 ^ 52) with hsmall | hlarge
  · -- A number without a leading digit has no shift.
    have hshift : b.shift = 0 := h.normal.resolve_right (by omega)
    rw [if_pos (by omega), hshift, Nat.mod_eq_of_lt hsmall]
  · rw [if_neg (by omega)]
    dsimp only
    rcases Nat.eq_or_lt_of_le h.significand_le with htop | hlt
    · -- A significand of 54 digits moves on to the next exponent.
      rw [show b.shift + b.significand / 2 ^ 52 - 1 = 1 + b.shift by omega, Nat.pow_add,
        ← Nat.mul_assoc, show (2 ^ 52 + b.significand % 2 ^ 52) * 2 ^ 1 = b.significand by omega]
    · rw [show b.shift + b.significand / 2 ^ 52 - 1 = b.shift by omega,
        show 2 ^ 52 + b.significand % 2 ^ 52 = b.significand by omega]

theorem toNat_toBits (h : b.Fits) : (UInt64.ofNat b.toBits).toNat = b.toBits := by
  have hbounded := h.bounded
  have hsign : (if b.negative then 1 else 0) * 2 ^ 63 ≤ 2 ^ 63 := by split <;> decide
  have hrest : b.shift * 2 ^ 52 + b.significand < 2 ^ 63 := by omega
  refine UInt64.toNat_ofNat_of_lt ?_
  rw [toBits_eq]
  exact Nat.add_lt_add_of_le_of_lt hsign hrest

theorem toBits_toFloat (h : b.Fits) : b.toFloat.toBits.toNat = b.toBits := by
  have hpack := @pack_unpack Format.binary64 (UInt64.ofNat b.toBits).toBitVec
  rw [if_neg] at hpack
  · rw [← h.toNat_toBits]
    exact congrArg BitVec.toNat hpack
  · have hne := h.exponent_ne
    rw [← h.toNat_toBits] at hne
    rw [isNaNBits, decide_eq_true_eq]
    rintro ⟨he, -⟩
    exact hne ((toNat_unpackExponent _).symm.trans (congrArg BitVec.toNat he))

theorem isFinite_toFloat (h : b.Fits) : b.toFloat.isFinite = true := by
  rw [isFinite_iff, h.toBits_toFloat]
  exact h.exponent_ne

theorem exactValue_toFloat (h : b.Fits) : exactValue b.toFloat = b.value := by
  rw [← value_ofFloat h.isFinite_toFloat, ofFloat, h.toBits_toFloat, value, value, units, units,
    h.negative_ofBits, h.magnitude_ofBits]

theorem even_toBits_toFloat (h : b.Fits) : Even b.toFloat.toBits.toNat ↔ Even b.significand := by
  rw [h.toBits_toFloat, toBits_eq, Nat.even_iff, Nat.even_iff]
  split <;> omega

end Fits

end Schematic.Binary
