import Mathlib
import Schematic.Proofs.Geometry.FloatRounding

/-!
# The order of floating point numbers

The logical model compares exponents before mantissas, which is right only for numbers that have as
many digits as their exponent leaves room for. Those are the ones that can be coded in 64 bits, and
they are placed on a line here, with the infinities where the reach of the exponents ends: comparing
numbers compares where they lie (`le_iff`), and packing a number moves it at most to the end of the
line (`position_unpack_pack`).
-/

namespace Schematic.Binary

open Float.Model (UnpackedFloat Format)
open Float.Model.UnpackedFloat

/-! ## The order -/

/-- The first power of two that is too large to be coded. -/
def reach : ℚ := 2 ^ 1024

/-- Where a number lies, with the infinities at the ends of the reach. Not a number lies nowhere,
and what is said of positions leaves it out. -/
def position : UnpackedFloat → ℚ
  | .infinity .positive => reach
  | .infinity .negative => -reach
  | u => unpackedValue u

/-- The numbers that 64 bits can code: the largest exponent that is coded is left to infinity and to
what is not a number. -/
def Coded : UnpackedFloat → Prop
  | .finite s m e h => Canonical (.finite s m e h) ∧ e ≤ 971
  | _ => True

theorem coded_unpack (w : BitVec Format.binary64.numBits) : Coded (unpack Format.binary64 w) := by
  have hbias : (Format.binary64.exponentBias : ℤ) + Format.binary64.mantissaBitsWithoutImplicit =
      1075 := by decide
  have hmantissa : (unpackMantissa w).toNat < 2 ^ 52 := (unpackMantissa w).isLt
  have hexponent : (unpackExponent w).toNat < 2 ^ 11 := (unpackExponent w).isLt
  rw [unpack, hbias]
  generalize unpackExponent w = e at *
  split
  · split <;> trivial
  next hne =>
    have hmax : e.toNat ≠ 2047 := fun he => hne (BitVec.eq_of_toNat_eq he)
    split
    next hzero =>
      have hzero : e.toNat = 0 := by rw [hzero]; rfl
      split
      · trivial
      next => exact ⟨⟨by omega, by omega, .inr (by omega)⟩, by omega⟩
    next hpos =>
      have hpos : e.toNat ≠ 0 := fun he => hpos (BitVec.eq_of_toNat_eq he)
      have hone := toNat_one_append (unpackMantissa w)
      change _ = 2 ^ 52 + _ at hone
      exact ⟨⟨by omega, by omega, .inl (by omega)⟩, by omega⟩

/-- A number with a larger exponent is larger, for it has all of its 53 digits. -/
theorem finite_lt_finite {m n : Nat} {e f : ℤ} (hm : m < 2 ^ 53) (hn : 2 ^ 52 ≤ n)
    (hef : e < f) : (m : ℚ) * 2 ^ e < n * 2 ^ f := by
  have hpow : (0 : ℚ) < 2 ^ e := zpow_pos two_pos _
  have hdigits : (m : ℚ) < 2 ^ 52 * 2 := by exact_mod_cast hm
  calc (m : ℚ) * 2 ^ e < 2 ^ 52 * 2 * 2 ^ e := mul_lt_mul_of_pos_right hdigits hpow
    _ = 2 ^ 52 * 2 ^ (e + 1) := by rw [zpow_add₀ two_ne_zero]; ring
    _ ≤ n * 2 ^ f := mul_le_mul (by exact_mod_cast hn) (zpow_le_zpow_of_le hef)
        (zpow_pos two_pos _).le (Nat.cast_nonneg n)

/-- The exponent decides before the mantissa does, as it should: a number with a larger exponent is
larger. -/
theorem compare_finite {s t : Sign} {m n : Nat} {e f : ℤ} {hm : 0 < m} {hn : 0 < n}
    (h : Canonical (.finite s m e hm)) (h' : Canonical (.finite t n f hn)) :
    (compare e f).then (compare m n) = compare ((m : ℚ) * 2 ^ e) (n * 2 ^ f) := by
  obtain ⟨hm, he, hfull⟩ := h
  obtain ⟨hn, hf, hfull'⟩ := h'
  rcases lt_trichotomy e f with hef | rfl | hef
  · rw [compare_lt_iff_lt.mpr hef,
      compare_lt_iff_lt.mpr (finite_lt_finite hm (hfull'.resolve_right (by omega)) hef)]
    rfl
  · have hpow : (0 : ℚ) < 2 ^ e := zpow_pos two_pos _
    rw [compare_eq_iff_eq.mpr rfl, Ordering.eq_then]
    rcases lt_trichotomy m n with hmn | rfl | hmn
    · rw [compare_lt_iff_lt.mpr hmn, compare_lt_iff_lt.mpr]
      exact mul_lt_mul_of_pos_right (by exact_mod_cast hmn) hpow
    · rw [compare_eq_iff_eq.mpr rfl, compare_eq_iff_eq.mpr rfl]
    · rw [compare_gt_iff_gt.mpr hmn, compare_gt_iff_gt.mpr]
      exact mul_lt_mul_of_pos_right (by exact_mod_cast hmn) hpow
  · rw [compare_gt_iff_gt.mpr hef,
      compare_gt_iff_gt.mpr (finite_lt_finite hn (hfull.resolve_right (by omega)) hef)]
    rfl

theorem compare_neg (q r : ℚ) : compare (-q) (-r) = (compare q r).swap := by
  rcases lt_trichotomy q r with h | rfl | h
  · rw [compare_lt_iff_lt.mpr h, compare_gt_iff_gt.mpr (neg_lt_neg h)]
    rfl
  · rw [compare_eq_iff_eq.mpr rfl, compare_eq_iff_eq.mpr rfl]
    rfl
  · rw [compare_gt_iff_gt.mpr h, compare_lt_iff_lt.mpr (neg_lt_neg h)]
    rfl

theorem Coded.canonical {u : UnpackedFloat} (hu : Coded u) (h : u.isFinite = true) :
    Canonical u := by
  cases u with
  | infinity => cases h
  | notANumber => cases h
  | zero => trivial
  | finite => exact hu.1

section Positions

variable {s : Sign} {m : Nat} {e : ℤ} {hm : 0 < m}

theorem reach_pos : 0 < reach := pow_pos two_pos _

theorem magnitude_pos (hm : 0 < m) (e : ℤ) : (0 : ℚ) < m * 2 ^ e :=
  mul_pos (by exact_mod_cast hm) (zpow_pos two_pos _)

theorem reach_eq : reach = (2 ^ 52 : ℕ) * 2 ^ (971 + 1 : ℤ) := by
  rw [reach, Nat.cast_pow, Nat.cast_ofNat, show (971 : ℤ) + 1 = (972 : ℕ) from rfl, zpow_natCast,
    ← pow_add]

theorem magnitude_lt_reach (hm : m < 2 ^ 53) (he : e ≤ 971) : (m : ℚ) * 2 ^ e < reach :=
  reach_eq ▸ finite_lt_finite hm le_rfl (Int.lt_add_one_of_le he)

theorem reach_le_magnitude (hm : 2 ^ 52 ≤ m) (he : 971 < e) : reach ≤ (m : ℚ) * 2 ^ e :=
  reach_eq ▸ mul_le_mul (by exact_mod_cast hm) (zpow_le_zpow_of_le he) (zpow_pos two_pos _).le
    (Nat.cast_nonneg m)

@[simp]
theorem position_zero : position (.zero s) = 0 := rfl

@[simp]
theorem position_finite_positive : position (.finite .positive m e hm) = m * 2 ^ e := rfl

@[simp]
theorem position_finite_negative : position (.finite .negative m e hm) = -(m * 2 ^ e) := by
  simp only [position, unpackedValue, Sign.apply, Int.cast_neg, Int.cast_natCast, neg_mul]

theorem abs_position_lt {u : UnpackedFloat} (hu : Coded u) (hfinite : u.isFinite = true) :
    |position u| < reach := by
  cases u with
  | infinity => cases hfinite
  | notANumber => cases hfinite
  | zero =>
    rw [position_zero, abs_zero]
    exact reach_pos
  | finite s m e hm =>
    have hlt := magnitude_lt_reach hu.1.1 hu.2
    have hpos := magnitude_pos hm e
    cases s with
    | positive => rwa [position_finite_positive, abs_of_pos hpos]
    | negative => rwa [position_finite_negative, abs_neg, abs_of_pos hpos]

theorem position_of_isFinite {u : UnpackedFloat} (h : u.isFinite = true) :
    position u = unpackedValue u := by
  cases u <;> first | rfl | cases h

theorem lt_eq_compare {q r : ℚ} (h : q < r) : some .lt = some (compare q r) := by
  rw [compare_lt_iff_lt.mpr h]

theorem gt_eq_compare {q r : ℚ} (h : r < q) : some .gt = some (compare q r) := by
  rw [compare_gt_iff_gt.mpr h]

theorem eq_eq_compare (q : ℚ) : some .eq = some (compare q q) := by
  rw [compare_eq_iff_eq.mpr rfl]

/-- Comparing finite numbers compares where they lie. One case per pair of signs: numbers of
different signs are compared with zero, and negative ones the other way round. -/
theorem compare_of_isFinite {u v : UnpackedFloat} (hu : Coded u) (hv : Coded v)
    (hu' : u.isFinite = true) (hv' : v.isFinite = true) :
    u.compare v = some (compare (position u) (position v)) := by
  cases u with
  | infinity s => cases hu'
  | notANumber => cases hu'
  | zero s =>
      cases v with
      | infinity t => cases hv'
      | notANumber => cases hv'
      | zero t => exact eq_eq_compare _
      | finite t n f hn =>
          have hpos := magnitude_pos hn f
          cases t
          · rw [position_finite_negative]
            exact gt_eq_compare (neg_neg_of_pos hpos)
          · exact lt_eq_compare hpos
  | finite s m e hm =>
      have hpos := magnitude_pos hm e
      cases v with
      | infinity t => cases hv'
      | notANumber => cases hv'
      | zero t =>
          cases s
          · rw [position_finite_negative]
            exact lt_eq_compare (neg_neg_of_pos hpos)
          · exact gt_eq_compare hpos
      | finite t n f hn =>
          have hpos' := magnitude_pos hn f
          cases s <;> cases t
          · rw [position_finite_negative, position_finite_negative, compare_neg,
              ← compare_finite hu.1 hv.1]
            rfl
          · rw [position_finite_negative]
            exact lt_eq_compare (by linarith : -((m : ℚ) * 2 ^ e) < n * 2 ^ f)
          · rw [position_finite_negative]
            exact gt_eq_compare (by linarith : -((n : ℚ) * 2 ^ f) < m * 2 ^ e)
          · rw [position_finite_positive, position_finite_positive, ← compare_finite hu.1 hv.1]
            rfl

/-- Comparing numbers compares where they lie. Infinities are at the ends of the reach, and all that
is finite is between these. -/
theorem compare_eq {u v : UnpackedFloat} (hu : Coded u) (hv : Coded v) (hu' : u ≠ .notANumber)
    (hv' : v ≠ .notANumber) : u.compare v = some (compare (position u) (position v)) := by
  have hends : -reach < reach := by linarith [reach_pos]
  have hbelow (hfinite : v.isFinite = true) := abs_lt.mp (abs_position_lt hv hfinite)
  have hbelow' (hfinite : u.isFinite = true) := abs_lt.mp (abs_position_lt hu hfinite)
  cases u with
  | notANumber => exact absurd rfl hu'
  | infinity s =>
      cases v with
      | notANumber => exact absurd rfl hv'
      | infinity t =>
          cases s <;> cases t
          · exact eq_eq_compare _
          · exact lt_eq_compare hends
          · exact gt_eq_compare hends
          · exact eq_eq_compare _
      | _ =>
          cases s
          · exact lt_eq_compare (hbelow rfl).1
          · exact gt_eq_compare (hbelow rfl).2
  | zero s =>
      cases v with
      | notANumber => exact absurd rfl hv'
      | infinity t =>
          cases t
          · exact gt_eq_compare (hbelow' rfl).1
          · exact lt_eq_compare (hbelow' rfl).2
      | _ => exact compare_of_isFinite hu hv rfl rfl
  | finite s m e hm =>
      cases v with
      | notANumber => exact absurd rfl hv'
      | infinity t =>
          cases s <;> cases t
          · exact gt_eq_compare (hbelow' rfl).1
          · exact lt_eq_compare (hbelow' rfl).2
          · exact gt_eq_compare (hbelow' rfl).1
          · exact lt_eq_compare (hbelow' rfl).2
      | _ => exact compare_of_isFinite hu hv rfl rfl

theorem isLE_compare {q r : ℚ} : (compare q r).isLE = true ↔ q ≤ r := by
  rw [Ordering.isLE_iff_ne_gt, ← not_lt]
  exact not_congr compare_gt_iff_gt

theorem le_iff {u v : UnpackedFloat} (hu : Coded u) (hv : Coded v) :
    u.le v = true ↔ u ≠ .notANumber ∧ v ≠ .notANumber ∧ position u ≤ position v := by
  by_cases hu' : u = .notANumber
  · rw [hu']
    exact iff_of_false nofun (fun h => h.1 rfl)
  · by_cases hv' : v = .notANumber
    · rw [hv']
      exact iff_of_false (by cases u <;> nofun) (fun h => h.2.1 rfl)
    · rw [UnpackedFloat.le, compare_eq hu hv hu' hv', Option.any_some, isLE_compare]
      exact ⟨fun h => ⟨hu', hv', h⟩, fun h => h.2.2⟩

end Positions

/-! ## Packing -/

@[simp]
theorem unpack_packedInfinity (s : Sign) :
    unpack Format.binary64 (packedInfinity Format.binary64 s) = .infinity s := by
  simp [unpack, packedInfinity]

theorem unpack_packComponents_zero (s : Sign) {m : Nat} (hm : 0 < m) (h : m < 2 ^ 52) :
    unpack Format.binary64 (packComponents Format.binary64 s 0#11 (BitVec.ofNat 52 m)) =
      .finite s m (-1074) hm := by
  have hmantissa : (BitVec.ofNat 52 m).toNat = m := Nat.mod_eq_of_lt h
  have hne : BitVec.ofNat 52 m ≠ 0#52 := fun h => hm.ne' (by rw [← hmantissa, h]; rfl)
  simp only [unpack, unpackExponent_packComponents, unpackMantissa_packComponents,
    unpackSign_packComponents, Sign.ofBitVec_toBitVec]
  rw [if_neg (by decide), if_pos trivial, dif_neg hne]
  simp only [hmantissa]
  rfl

theorem unpack_packComponents (s : Sign) {b m : Nat} (hm : 0 < m) (hb : 0 < b) (hb' : b < 2047)
    (h : 2 ^ 52 ≤ m) (h' : m < 2 ^ 53) :
    unpack Format.binary64
        (packComponents Format.binary64 s (BitVec.ofNat 11 b) (BitVec.ofNat 52 m)) =
      .finite s m (b - 1075) hm := by
  have hexponent : (BitVec.ofNat 11 b).toNat = b := Nat.mod_eq_of_lt (by omega)
  have hmantissa : (1#1 ++ BitVec.ofNat 52 m).toNat = m := by
    rw [toNat_one_append, BitVec.toNat_ofNat]
    omega
  have hmax : BitVec.ofNat 11 b ≠ -1#11 := fun h => hb'.ne (by rw [← hexponent, h]; rfl)
  have hne : BitVec.ofNat 11 b ≠ 0#11 := fun h => hb.ne' (by rw [← hexponent, h]; rfl)
  simp only [unpack, unpackExponent_packComponents, unpackMantissa_packComponents,
    unpackSign_packComponents, Sign.ofBitVec_toBitVec]
  rw [if_neg hmax, if_neg hne]
  simp only [hmantissa, hexponent]
  rfl

/-- Packing a number that is not too large keeps it. A mantissa with all of its digits is coded
without the leading one, and a shorter one by the smallest exponent. -/
theorem unpack_pack {s : Sign} {m : Nat} {e : ℤ} {hm : 0 < m} (h : Coded (.finite s m e hm)) :
    unpack Format.binary64 (pack Format.binary64 (.finite s m e hm)) = .finite s m e hm := by
  obtain ⟨⟨hlt, hle, hfull⟩, hmax⟩ := h
  have hpack : pack Format.binary64 (.finite s m e hm) =
      if 2 ^ 11 ≤ (e + 1023 + 52).toNat + 1 then packedInfinity Format.binary64 s
      else if m.log2 + 1 = 53 then
        packComponents Format.binary64 s (BitVec.ofNat 11 (e + 1023 + 52).toNat) (BitVec.ofNat 52 m)
      else packComponents Format.binary64 s 0#11 (BitVec.ofNat 52 m) := rfl
  rw [hpack, if_neg (by omega)]
  rcases Nat.lt_or_ge m (2 ^ 52) with hsmall | hlarge
  · have hlog : m.log2 < 52 := (Nat.log2_lt hm.ne').mpr hsmall
    obtain rfl : e = -1074 := hfull.resolve_left (by omega)
    rw [if_neg (by omega), unpack_packComponents_zero s hm hsmall]
  · have hlog : m.log2 < 53 := (Nat.log2_lt hm.ne').mpr hlt
    have hlog' : 52 ≤ m.log2 := (Nat.le_log2 hm.ne').mpr hlarge
    rw [if_pos (by omega), unpack_packComponents s hm (by omega) (by omega) hlarge hlt]
    congr 1
    omega

/-- The largest and the smallest position is that of the infinities. -/
def clamp (q : ℚ) : ℚ := max (-reach) (min q reach)

theorem clamp_mono {q r : ℚ} (h : q ≤ r) : clamp q ≤ clamp r :=
  max_le_max le_rfl (min_le_min h le_rfl)

theorem clamp_of_abs_lt {q : ℚ} (h : |q| < reach) : clamp q = q := by
  obtain ⟨hlow, hhigh⟩ := abs_lt.mp h
  rw [clamp, min_eq_left hhigh.le, max_eq_right hlow.le]

/-- Packing a number that is too large gives an infinity. -/
theorem position_unpack_pack {u : UnpackedFloat} (h : Canonical u) :
    unpack Format.binary64 (pack Format.binary64 u) ≠ .notANumber ∧
      position (unpack Format.binary64 (pack Format.binary64 u)) = clamp (unpackedValue u) := by
  cases u with
  | infinity => exact h.elim
  | notANumber => exact h.elim
  | zero s =>
    rw [pack, unpack_packedZero]
    exact ⟨nofun, (clamp_of_abs_lt (abs_position_lt (u := .zero s) trivial rfl)).symm⟩
  | finite s m e hm =>
    rcases le_or_gt e 971 with he | he
    · have hcoded : Coded (.finite s m e hm) := ⟨h, he⟩
      rw [unpack_pack hcoded]
      exact ⟨nofun, (clamp_of_abs_lt (abs_position_lt hcoded rfl)).symm⟩
    · have hlarge : 2 ^ 11 ≤ (e + 1023 + 52).toNat + 1 := by omega
      have hpack : pack Format.binary64 (.finite s m e hm) = packedInfinity Format.binary64 s :=
        if_pos hlarge
      have hout := reach_le_magnitude (h.2.2.resolve_right (by omega)) he
      have hreach := reach_pos
      rw [hpack, unpack_packedInfinity]
      refine ⟨nofun, ?_⟩
      cases s with
      | positive =>
        change reach = clamp (position (.finite .positive m e hm))
        rw [position_finite_positive, clamp, min_eq_right hout, max_eq_right (by linarith)]
      | negative =>
        change -reach = clamp (position (.finite .negative m e hm))
        rw [position_finite_negative, clamp, min_eq_left (by linarith),
          max_eq_left (neg_le_neg hout)]

end Schematic.Binary
