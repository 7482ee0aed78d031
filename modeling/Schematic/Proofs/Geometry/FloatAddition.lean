import Mathlib
import Schematic.Proofs.Geometry.FloatOrder

/-!
# Adding floating point numbers

Adding keeps the order of floating point numbers. The exact sum of two numbers is rounded and then
packed, and neither step turns numbers around; so the sums of larger numbers lie where the sums of
smaller ones do, or above (`IsSum.mono`). Left out are the numbers with which this fails: not a
number, which lies nowhere, and negative infinity, which makes that of positive infinity.
-/

namespace Schematic.Binary

open Float.Model (UnpackedFloat Format)
open Float.Model.UnpackedFloat

/-! ## Adding -/

/-- A mantissa that is moved to a smaller exponent stands for the same number. -/
theorem apply_decreaseExponent (s : Sign) (m : Nat) {e t : ℤ} (h : t ≤ e) :
    ((s.apply (decreaseExponent m e t).1 : ℤ) : ℚ) * 2 ^ t = (s.apply m : ℤ) * 2 ^ e := by
  obtain ⟨hexponent, hvalue⟩ := decreaseExponent_spec m e t
  rw [hexponent, min_eq_right h] at hvalue
  cases s <;> simp only [Sign.apply, Int.cast_neg, Int.cast_natCast, neg_mul, hvalue]

theorem add_spec {u v : UnpackedFloat} (hu : Canonical u) (hv : Canonical v) :
    Canonical (u.add Format.binary64 v) ∧
      IsRounded (unpackedValue u + unpackedValue v) (unpackedValue (u.add Format.binary64 v)) := by
  cases u <;> cases v
  case zero.zero s t =>
    have hzero : ∃ sign, UnpackedFloat.add Format.binary64 (.zero s) (.zero t) = .zero sign := by
      cases s <;> cases t <;> exact ⟨_, rfl⟩
    obtain ⟨sign, hzero⟩ := hzero
    rw [hzero]
    exact ⟨trivial, 0, by simp [unpackedValue, RoundsTo], by simp [unpackedValue]⟩
  case zero.finite s t m e hm =>
    refine ⟨hv, ?_⟩
    rw [show unpackedValue (.zero s) = 0 from rfl, zero_add]
    exact .of_canonical hv
  case finite.zero s m e hm t =>
    refine ⟨hu, ?_⟩
    rw [show unpackedValue (.zero t) = 0 from rfl, add_zero]
    exact .of_canonical hu
  case finite.finite s m e hm t n f hn =>
    obtain ⟨hcanonical, hround⟩ := normalize_spec
      (s.apply (decreaseExponent m e (min e f)).1 + t.apply (decreaseExponent n f (min e f)).1)
      (min e f) .positive
    rw [Int.cast_add, add_mul, apply_decreaseExponent s m (min_le_left e f),
      apply_decreaseExponent t n (min_le_right e f)] at hround
    exact ⟨hcanonical, hround⟩
  all_goals first | exact hu.elim | exact hv.elim

/-! ## Sums of packed numbers -/

/-- Neither negative infinity nor not a number. These are the numbers of which adding something that
is not negative never makes less. -/
def BoundedBelow : UnpackedFloat → Prop
  | .notANumber | .infinity .negative => False
  | _ => True

instance decidableBoundedBelow : DecidablePred BoundedBelow
  | .notANumber | .infinity .negative => isFalse id
  | .infinity .positive | .zero _ | .finite .. => isTrue trivial

theorem BoundedBelow.eq_or_isFinite {u : UnpackedFloat} (h : BoundedBelow u) :
    u = .infinity .positive ∨ u.isFinite = true := by
  cases u with
  | notANumber => exact h.elim
  | infinity s =>
    cases s with
    | negative => exact h.elim
    | positive => exact .inl rfl
  | _ => exact .inr rfl

theorem boundedBelow_iff {u : UnpackedFloat} (hu : Coded u) :
    BoundedBelow u ↔ u ≠ .notANumber ∧ -reach < position u := by
  have hreach := reach_pos
  constructor
  · intro h
    rcases h.eq_or_isFinite with rfl | hfinite
    · exact ⟨nofun, (by linarith : -reach < reach)⟩
    · refine ⟨?_, (abs_lt.mp (abs_position_lt hu hfinite)).1⟩
      rintro rfl
      cases hfinite
  · rintro ⟨hne, hlt⟩
    cases u with
    | notANumber => exact hne rfl
    | infinity s =>
      cases s with
      | negative => exact lt_irrefl _ hlt
      | positive => trivial
    | _ => trivial

/-- The sum of numbers at `a` and `b` lies at `c`: at the end of the reach if one of them does, and
else where the exact sum is rounded to, if that is within reach. -/
inductive IsSum (a b c : ℚ) : Prop
  | infinite (h : a = reach ∨ b = reach) (hc : c = reach)
  | finite (ha : a < reach) (hb : b < reach) (r : ℚ) (h : IsRounded (a + b) r) (hc : c = clamp r)

theorem IsSum.le_reach {a b c : ℚ} (h : IsSum a b c) : c ≤ reach := by
  cases h with
  | infinite _ hc => exact hc.le
  | finite _ _ r _ hc =>
    have hreach := reach_pos
    exact hc ▸ max_le (by linarith) (min_le_right _ _)

/-- Adding keeps the order. Where the larger sum is an infinity there is nothing to show, and else
neither of the smaller terms is one, so that both sums are rounded and brought within reach. -/
theorem IsSum.mono {a b c a' b' c' : ℚ} (h : IsSum a b c) (h' : IsSum a' b' c') (ha : a ≤ a')
    (hb : b ≤ b') : c ≤ c' := by
  cases h' with
  | infinite _ hc => exact hc ▸ h.le_reach
  | finite ha' hb' r' hr' hc' =>
    cases h with
    | infinite h _ =>
      exfalso
      rcases h with rfl | rfl <;> linarith
    | finite _ _ r hr hc =>
      rw [hc, hc']
      exact clamp_mono (hr.mono hr' (add_le_add ha hb))

theorem isSum_zero {u : UnpackedFloat} (hu : Coded u) (h : BoundedBelow u) :
    IsSum (position u) 0 (position u) := by
  rcases h.eq_or_isFinite with rfl | hfinite
  · exact .infinite (.inl rfl) rfl
  · have hlt := abs_position_lt hu hfinite
    have hround := IsRounded.of_canonical (hu.canonical hfinite)
    rw [← position_of_isFinite hfinite] at hround
    exact .finite (abs_lt.mp hlt).2 reach_pos _ ((add_zero (position u)).symm ▸ hround)
      (clamp_of_abs_lt hlt).symm

theorem isSum_add {u v : UnpackedFloat} (hu : Coded u) (hv : Coded v) (h : BoundedBelow u)
    (h' : BoundedBelow v) :
    unpack Format.binary64 (pack Format.binary64 (u.add Format.binary64 v)) ≠ .notANumber ∧
      IsSum (position u) (position v)
        (position (unpack Format.binary64 (pack Format.binary64 (u.add Format.binary64 v)))) := by
  have hinfinite (hadd : u.add Format.binary64 v = .infinity .positive)
      (hend : position u = reach ∨ position v = reach) :
      unpack Format.binary64 (pack Format.binary64 (u.add Format.binary64 v)) ≠ .notANumber ∧
        IsSum (position u) (position v)
          (position (unpack Format.binary64 (pack Format.binary64 (u.add Format.binary64 v)))) := by
    rw [hadd, pack, unpack_packedInfinity]
    exact ⟨nofun, .infinite hend rfl⟩
  rcases h.eq_or_isFinite with rfl | hfinite
  · refine hinfinite ?_ (.inl rfl)
    rcases h'.eq_or_isFinite with rfl | hfinite'
    · rfl
    · cases v <;> first | rfl | cases hfinite'
  · rcases h'.eq_or_isFinite with rfl | hfinite'
    · refine hinfinite ?_ (.inr rfl)
      cases u <;> first | rfl | cases hfinite
    · obtain ⟨hcanonical, hround⟩ := add_spec (hu.canonical hfinite) (hv.canonical hfinite')
      obtain ⟨hne, hposition⟩ := position_unpack_pack hcanonical
      rw [← position_of_isFinite hfinite, ← position_of_isFinite hfinite'] at hround
      exact ⟨hne, .finite (abs_lt.mp (abs_position_lt hu hfinite)).2
        (abs_lt.mp (abs_position_lt hv hfinite')).2 _ hround hposition⟩

/-! ## Floating point numbers -/

section Floats

variable {x y z : Float}

theorem coded_float (x : Float) : Coded x.toModel.unpack := coded_unpack _

theorem float_le_iff : x ≤ y ↔ x.toModel.unpack ≠ .notANumber ∧
    y.toModel.unpack ≠ .notANumber ∧ position x.toModel.unpack ≤ position y.toModel.unpack := by
  rw [← le_iff (coded_float x) (coded_float y)]
  exact decide_eq_true_iff

theorem boundedBelow_float_iff : BoundedBelow x.toModel.unpack ↔
    x.toModel.unpack ≠ .notANumber ∧ -reach < position x.toModel.unpack :=
  boundedBelow_iff (coded_float x)

theorem isSum_float (hx : BoundedBelow x.toModel.unpack) (hy : BoundedBelow y.toModel.unpack) :
    (x + y).toModel.unpack ≠ .notANumber ∧ IsSum (position x.toModel.unpack)
      (position y.toModel.unpack) (position (x + y).toModel.unpack) :=
  isSum_add (coded_float x) (coded_float y) hx hy

theorem boundedBelow_of_zero_le (h : ((0 : Nat) : Float) ≤ x) :
    BoundedBelow x.toModel.unpack ∧ 0 ≤ position x.toModel.unpack := by
  obtain ⟨-, hne, hle⟩ := float_le_iff.mp h
  have hzero : position ((0 : Nat) : Float).toModel.unpack = 0 := rfl
  rw [hzero] at hle
  have hreach := reach_pos
  exact ⟨boundedBelow_float_iff.mpr ⟨hne, by linarith⟩, hle⟩

/-- Adding what is not negative leads to no smaller number, and so not to negative infinity. -/
theorem position_le_add (hx : BoundedBelow x.toModel.unpack) (hy : ((0 : Nat) : Float) ≤ y) :
    (x + y).toModel.unpack ≠ .notANumber ∧
      position x.toModel.unpack ≤ position (x + y).toModel.unpack := by
  obtain ⟨hbelow, hpos⟩ := boundedBelow_of_zero_le hy
  obtain ⟨hne, hsum⟩ := isSum_float hx hbelow
  exact ⟨hne, (isSum_zero (coded_float x) hx).mono hsum le_rfl hpos⟩

theorem boundedBelow_add (hx : BoundedBelow x.toModel.unpack) (hy : ((0 : Nat) : Float) ≤ y) :
    BoundedBelow (x + y).toModel.unpack := by
  obtain ⟨hne, hle⟩ := position_le_add hx hy
  exact boundedBelow_float_iff.mpr ⟨hne, (boundedBelow_float_iff.mp hx).2.trans_le hle⟩

theorem le_add_float (hx : BoundedBelow x.toModel.unpack) (hy : ((0 : Nat) : Float) ≤ y) :
    x ≤ x + y :=
  float_le_iff.mpr ⟨(boundedBelow_float_iff.mp hx).1, position_le_add hx hy⟩

theorem add_le_add_float (hx : BoundedBelow x.toModel.unpack) (hy : BoundedBelow y.toModel.unpack)
    (hz : BoundedBelow z.toModel.unpack) (h : x ≤ y) : x + z ≤ y + z := by
  obtain ⟨-, -, hle⟩ := float_le_iff.mp h
  obtain ⟨hne, hsum⟩ := isSum_float hx hz
  obtain ⟨hne', hsum'⟩ := isSum_float hy hz
  exact float_le_iff.mpr ⟨hne, hne', hsum.mono hsum' hle le_rfl⟩

end Floats

end Schematic.Binary
