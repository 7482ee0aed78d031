import Mathlib
import Schematic.Proofs.Geometry.Coding
import Schematic.Proofs.Geometry.Rounding

/-!
# Rounding in the model of floating point numbers

The logical model rounds by shifting: it drops digits one at a time, remembers the last of them and
whether any other was not zero, and looks at that when it has arrived at the last place. Here this
is shown to round the exact number to the nearest multiple of its last place, the even one of two
(`IsRounded`), and rounding of that kind never turns two numbers around (`IsRounded.mono`), even
where a larger number has its last place further to the left.
-/

namespace Schematic.Binary

open Float.Model (UnpackedFloat Format totalExponent)
open Float.Model.UnpackedFloat

/-! ## The digits that are dropped -/

/-- A mantissa with the digit behind it and a note whether more follow stands for `q`. It need not
tell `q` exactly: which side of the middle between two mantissas it lies on is all that rounding
asks for. -/
def Represents : ExtendedMantissa → ℚ → Prop
  | ⟨m, false, false⟩, q => q = m
  | ⟨m, false, true⟩, q => m < q ∧ q < m + 1 / 2
  | ⟨m, true, false⟩, q => q = m + 1 / 2
  | ⟨m, true, true⟩, q => m + 1 / 2 < q ∧ q < m + 1

namespace Represents

variable {em : ExtendedMantissa} {q : ℚ}

/-- One case per pair of digits: nothing was dropped, less than one half, one half or more. -/
theorem roundsTo (h : Represents em q) : RoundsTo q em.roundedMantissa := by
  obtain ⟨m, roundBit, stickyBit⟩ := em
  cases roundBit <;> cases stickyBit
  case false.false =>
    rw [show q = m from h]
    simp [RoundsTo, ExtendedMantissa.roundedMantissa, ExtendedMantissa.accuracy,
      Accuracy.roundToNearestEven]
  case false.true =>
    obtain ⟨hlow, hhigh⟩ := h
    have hdist : |q - ((m : ℕ) : ℤ)| = q - m := by
      rw [Int.cast_natCast, abs_of_pos (sub_pos.mpr hlow)]
    change |q - ((m : ℕ) : ℤ)| ≤ 1 / 2 ∧ (|q - ((m : ℕ) : ℤ)| = 1 / 2 → _)
    rw [hdist]
    exact ⟨by linarith, fun he => absurd he (by linarith)⟩
  case true.false =>
    have hq : q = m + 1 / 2 := h
    have heven : Even ((m + m % 2 : ℕ) : ℤ) := by
      rw [Int.even_coe_nat]
      exact Nat.even_iff.mpr (by omega)
    refine ⟨?_, fun _ => heven⟩
    change |q - ((m + m % 2 : ℕ) : ℤ)| ≤ 1 / 2
    rw [hq, abs_le]
    rcases Nat.mod_two_eq_zero_or_one m with hm | hm <;> rw [hm] <;> push_cast <;>
      constructor <;> linarith
  case true.true =>
    obtain ⟨hlow, hhigh⟩ := h
    have hdist : |q - ((m + 1 : ℕ) : ℤ)| = m + 1 - q := by
      rw [abs_sub_comm, abs_of_pos] <;> push_cast <;> linarith
    change |q - ((m + 1 : ℕ) : ℤ)| ≤ 1 / 2 ∧ (|q - ((m + 1 : ℕ) : ℤ)| = 1 / 2 → _)
    rw [hdist]
    exact ⟨by linarith, fun he => absurd he (by linarith)⟩

/-- The last digit of the mantissa becomes the one behind it, and the one that was there is noted
with those that followed. -/
theorem shiftRightOne (h : Represents em q) : Represents em.shiftRightOne (q / 2) := by
  obtain ⟨m, roundBit, stickyBit⟩ := em
  obtain ⟨low, hbit, hsplit⟩ :
      ∃ low : Bool, (m % 2 != 0) = low ∧ m = 2 * (m / 2) + if low then 1 else 0 := by
    rcases Nat.mod_two_eq_zero_or_one m with hm | hm
    · exact ⟨false, by rw [hm]; rfl, by simp only [Bool.false_eq_true, if_false]; omega⟩
    · exact ⟨true, by rw [hm]; rfl, by simp only [if_true]; omega⟩
  have hshift : (⟨m, roundBit, stickyBit⟩ : ExtendedMantissa).shiftRightOne =
      ⟨m / 2, m % 2 != 0, roundBit || stickyBit⟩ := rfl
  rw [hshift, hbit]
  generalize m / 2 = k at hsplit ⊢
  rw [hsplit] at h
  cases low <;> cases roundBit <;> cases stickyBit <;>
    simp only [Represents, Bool.false_eq_true, if_false, if_true, Bool.or_self, Bool.or_true,
      Bool.or_false] at h ⊢ <;>
    push_cast at h <;> grind

theorem shiftRight (h : Represents em q) (n : Nat) : Represents (em >>> n) (q / 2 ^ n) := by
  change Represents (n.repeat ExtendedMantissa.shiftRightOne em) _
  induction n with
  | zero =>
    rw [pow_zero, div_one]
    exact h
  | succ n ih =>
    rw [pow_succ, ← div_div]
    exact ih.shiftRightOne

end Represents

/-! ## The grid of the numbers with 53 digits -/

/-- The exponent of the last digit that is kept of `q`: there are 53 digits from the leading one,
but no places beyond the smallest exponent. -/
def lastPlace (q : ℚ) : ℤ := max (Int.log 2 |q| + 1 - 53) (-1074)

theorem le_lastPlace (q : ℚ) : -1074 ≤ lastPlace q := le_max_right _ _

theorem lastPlace_neg (q : ℚ) : lastPlace (-q) = lastPlace q := by
  rw [lastPlace, lastPlace, abs_neg]

theorem zpow_le_zpow_of_le {m n : ℤ} (h : m ≤ n) : (2 : ℚ) ^ m ≤ 2 ^ n :=
  zpow_le_zpow_right₀ one_le_two h

/-- A positive number has 53 digits before the end of the last place that is kept, or less. -/
theorem lt_lastPlace {q : ℚ} (hq : 0 < q) : q < 2 ^ (lastPlace q + 53) := by
  have hlt := Int.lt_zpow_succ_log_self (b := 2) one_lt_two q
  rw [Nat.cast_ofNat] at hlt
  refine lt_of_lt_of_le hlt (zpow_le_zpow_of_le ?_)
  rw [lastPlace, abs_of_pos hq]
  omega

/-- A positive number has less than 53 digits only if there are no further places. -/
theorem lastPlace_le {q : ℚ} (hq : 0 < q) (h : -1074 < lastPlace q) :
    2 ^ (lastPlace q + 52) ≤ q := by
  have hle := Int.zpow_log_le_self (b := 2) one_lt_two hq
  rw [Nat.cast_ofNat] at hle
  refine le_trans (zpow_le_zpow_of_le ?_) hle
  rw [lastPlace, abs_of_pos hq] at h ⊢
  omega

/-- A larger number has its last place where a smaller one has it, or further to the left. -/
theorem lastPlace_mono {q r : ℚ} (hq : 0 < q) (h : q ≤ r) : lastPlace q ≤ lastPlace r := by
  have hlog := Int.log_mono_right (b := 2) hq h
  rw [lastPlace, lastPlace, abs_of_pos hq, abs_of_pos (hq.trans_le h)]
  omega

/-- `v` is `q` rounded to 53 digits, as far as there are so many places. -/
def IsRounded (q v : ℚ) : Prop :=
  ∃ n : ℤ, RoundsTo (q / 2 ^ lastPlace q) n ∧ v = n * 2 ^ lastPlace q

namespace IsRounded

variable {q r v w : ℚ}

theorem neg (h : IsRounded q v) : IsRounded (-q) (-v) := by
  obtain ⟨n, hn, rfl⟩ := h
  refine ⟨-n, ?_, ?_⟩
  · rw [lastPlace_neg, neg_div]
    exact hn.neg
  · rw [lastPlace_neg, Int.cast_neg, neg_mul]

/-- Rounding does not pass a power of two that is a multiple of the last place, for in units of that
place it is an integer. -/
theorem le_of_le (h : IsRounded q v) {p : ℤ} (hp : lastPlace q ≤ p) (hq : q ≤ 2 ^ p) :
    v ≤ 2 ^ p := by
  obtain ⟨n, hn, rfl⟩ := h
  obtain ⟨k, rfl⟩ := Int.le.dest hp
  have hunit : (0 : ℚ) < 2 ^ lastPlace q := zpow_pos two_pos _
  rw [add_comm, zpow_add₀ two_ne_zero, zpow_natCast] at hq ⊢
  have hle : n ≤ 2 ^ k := hn.le_of_le (by rw [div_le_iff₀ hunit]; exact_mod_cast hq)
  have hle : (n : ℚ) ≤ 2 ^ k := by exact_mod_cast hle
  exact mul_le_mul_of_nonneg_right hle hunit.le

theorem ge_of_ge (h : IsRounded q v) {p : ℤ} (hp : lastPlace q ≤ p) (hq : 2 ^ p ≤ q) :
    2 ^ p ≤ v := by
  obtain ⟨n, hn, rfl⟩ := h
  obtain ⟨k, rfl⟩ := Int.le.dest hp
  have hunit : (0 : ℚ) < 2 ^ lastPlace q := zpow_pos two_pos _
  rw [add_comm, zpow_add₀ two_ne_zero, zpow_natCast] at hq ⊢
  have hle : 2 ^ k ≤ n := hn.ge_of_ge (by rw [le_div_iff₀ hunit]; exact_mod_cast hq)
  have hle : (2 : ℚ) ^ k ≤ n := by exact_mod_cast hle
  exact mul_le_mul_of_nonneg_right hle hunit.le

theorem nonneg (h : IsRounded q v) (hq : 0 ≤ q) : 0 ≤ v := by
  obtain ⟨n, hn, rfl⟩ := h
  have hunit : (0 : ℚ) < 2 ^ lastPlace q := zpow_pos two_pos _
  have hge : 0 ≤ n := hn.ge_of_ge (by rw [Int.cast_zero]; exact div_nonneg hq hunit.le)
  exact mul_nonneg (by exact_mod_cast hge) hunit.le

theorem nonpos (h : IsRounded q v) (hq : q ≤ 0) : v ≤ 0 := by
  have hneg := h.neg.nonneg (neg_nonneg.mpr hq)
  linarith

theorem mono_of_pos (h : IsRounded q v) (h' : IsRounded r w) (hq : 0 < q) (hqr : q ≤ r) :
    v ≤ w := by
  rcases (lastPlace_mono hq hqr).eq_or_lt with heq | hlt
  · obtain ⟨n, hn, rfl⟩ := h
    obtain ⟨m, hm, rfl⟩ := h'
    have hunit : (0 : ℚ) < 2 ^ lastPlace r := zpow_pos two_pos _
    rw [heq] at hn ⊢
    have hle : n ≤ m := hn.mono hm (div_le_div_of_nonneg_right hqr hunit.le)
    exact mul_le_mul_of_nonneg_right (by exact_mod_cast hle) hunit.le
  · -- A power of two lies between the two numbers.
    have hlow : v ≤ 2 ^ (lastPlace r + 52) := by
      refine h.le_of_le (by omega) (le_trans (lt_lastPlace hq).le (zpow_le_zpow_of_le ?_))
      omega
    have hmin := le_lastPlace q
    exact hlow.trans (h'.ge_of_ge (by omega) (lastPlace_le (hq.trans_le hqr) (by omega)))

/-- Rounding keeps the order. Where two numbers have the same last place, they are rounded to
integers in units of it; else a power of two lies between them, which rounding does not pass. -/
theorem mono (h : IsRounded q v) (h' : IsRounded r w) (hqr : q ≤ r) : v ≤ w := by
  rcases lt_or_ge 0 q with hq | hq
  · exact h.mono_of_pos h' hq hqr
  · rcases le_or_gt 0 r with hr | hr
    · exact (h.nonpos hq).trans (h'.nonneg hr)
    · have hneg := h'.neg.mono_of_pos h.neg (neg_pos.mpr hr) (neg_le_neg hqr)
      linarith

end IsRounded

/-- A number has 53 digits up to its last place, or fewer if there are no further places. -/
theorem bounds_of_roundsTo {q : ℚ} {n : ℤ} (hq : 0 < q) (h : RoundsTo (q / 2 ^ lastPlace q) n) :
    n ≤ 2 ^ 53 ∧ (2 ^ 52 ≤ n ∨ lastPlace q = -1074) := by
  have hunit : (0 : ℚ) < 2 ^ lastPlace q := zpow_pos two_pos _
  have hmin := le_lastPlace q
  refine ⟨h.le_of_le ?_, ?_⟩
  · have hlt := lt_lastPlace hq
    rw [add_comm, zpow_add₀ two_ne_zero] at hlt
    rw [div_le_iff₀ hunit]
    exact_mod_cast hlt.le
  · rcases hmin.lt_or_eq with hlt | heq
    · have hle := lastPlace_le hq hlt
      rw [add_comm, zpow_add₀ two_ne_zero] at hle
      refine .inl (h.ge_of_ge ?_)
      rw [le_div_iff₀ hunit]
      exact_mod_cast hle
    · exact .inr heq.symm

/-! ## What the model rounds to -/

/-- The place of the leading digit is that of the number. -/
theorem totalExponent_eq {m : Nat} (hm : 0 < m) (e : ℤ) :
    totalExponent m e = Int.log 2 ((m : ℚ) * 2 ^ e) + 1 := by
  have hpow : (0 : ℚ) < 2 ^ e := zpow_pos two_pos _
  have hpos : (0 : ℚ) < m * 2 ^ e := mul_pos (by exact_mod_cast hm) hpow
  have hlow : (2 : ℚ) ^ m.log2 ≤ m := by exact_mod_cast Nat.log2_self_le hm.ne'
  have hhigh : (m : ℚ) < 2 ^ (m.log2 + 1) := by exact_mod_cast Nat.lt_log2_self
  have hle : (m.log2 : ℤ) + e ≤ Int.log 2 ((m : ℚ) * 2 ^ e) := by
    rw [← Int.zpow_le_iff_le_log one_lt_two hpos, Nat.cast_ofNat, zpow_add₀ two_ne_zero,
      zpow_natCast]
    exact mul_le_mul_of_nonneg_right hlow hpow.le
  have hlt : Int.log 2 ((m : ℚ) * 2 ^ e) < (m.log2 + 1 : ℕ) + e := by
    rw [← Int.lt_zpow_iff_log_lt one_lt_two hpos, Nat.cast_ofNat, zpow_add₀ two_ne_zero,
      zpow_natCast]
    exact mul_lt_mul_of_pos_right hhigh hpow
  rw [totalExponent]
  omega

theorem targetExponent_eq {m : Nat} (hm : 0 < m) (e : ℤ) :
    Format.binary64.targetExponent (totalExponent m e) = lastPlace ((m : ℚ) * 2 ^ e) := by
  have hpos : (0 : ℚ) < m * 2 ^ e := mul_pos (by exact_mod_cast hm) (zpow_pos two_pos _)
  rw [totalExponent_eq hm, lastPlace, abs_of_pos hpos]
  rfl

/-- A finite number in the form that the operations of the model keep: 53 digits, or fewer if there
are no further places. -/
def Canonical : UnpackedFloat → Prop
  | .zero _ => True
  | .finite _ m e _ => m < 2 ^ 53 ∧ -1074 ≤ e ∧ (2 ^ 52 ≤ m ∨ e = -1074)
  | _ => False

theorem lastPlace_of_canonical {s : Sign} {m : Nat} {e : ℤ} {hm : 0 < m}
    (h : Canonical (.finite s m e hm)) : lastPlace ((m : ℚ) * 2 ^ e) = e := by
  obtain ⟨hlt, hle, hfull⟩ := h
  rw [← targetExponent_eq hm, totalExponent]
  change max ((m.log2 : ℤ) + 1 + e - 53) (-1074) = e
  have hlog : m.log2 < 53 := (Nat.log2_lt hm.ne').mpr hlt
  rcases hfull with hfull | hlast
  · have hlog' : 52 ≤ m.log2 := (Nat.le_log2 hm.ne').mpr hfull
    omega
  · omega

theorem IsRounded.apply {k n : Nat} {e t : ℤ} (h : IsRounded ((k : ℚ) * 2 ^ e) (n * 2 ^ t))
    (s : Sign) : IsRounded ((s.apply k : ℤ) * 2 ^ e) ((s.apply n : ℤ) * 2 ^ t) := by
  cases s with
  | positive => exact h
  | negative =>
    have hneg := h.neg
    rw [← neg_mul, ← neg_mul] at hneg
    exact_mod_cast hneg

theorem IsRounded.of_canonical {u : UnpackedFloat} (h : Canonical u) :
    IsRounded (unpackedValue u) (unpackedValue u) := by
  cases u with
  | finite s m e hm =>
    refine IsRounded.apply ⟨m, ?_, ?_⟩ s
    · rw [lastPlace_of_canonical h, mul_div_cancel_right₀ _ (zpow_pos two_pos _).ne']
      simp [RoundsTo]
    · rw [lastPlace_of_canonical h, Int.cast_natCast]
  | zero => exact ⟨0, by simp [unpackedValue, RoundsTo], by simp [unpackedValue]⟩
  | _ => exact h.elim

/-- Shifting to the place of a number keeps what has to be known of the digits that are dropped. -/
theorem represents_shiftToTargetExponent {m : Nat} (hm : 0 < m) {e : ℤ}
    (h : e ≤ lastPlace ((m : ℚ) * 2 ^ e)) :
    (shiftToTargetExponent Format.binary64 m e .exact).2 = lastPlace ((m : ℚ) * 2 ^ e) ∧
      Represents (shiftToTargetExponent Format.binary64 m e .exact).1
        ((m : ℚ) * 2 ^ e / 2 ^ lastPlace ((m : ℚ) * 2 ^ e)) := by
  rw [shiftToTargetExponent, targetExponent_eq hm]
  obtain ⟨k, hk⟩ := Int.le.dest h
  rw [← hk] at h ⊢
  have hshift : (e + k - e).toNat = k := by omega
  simp only [shiftToExponent, hshift]
  refine ⟨trivial, ?_⟩
  rw [zpow_add₀ two_ne_zero, zpow_natCast, mul_comm (m : ℚ),
    mul_div_mul_left _ _ (zpow_pos two_pos _).ne']
  have hexact : Represents (.ofMantissaAndAccuracy m .exact) m := rfl
  exact hexact.shiftRight k

/-- Rounding may fill the mantissa, and then it is shifted once more. No digit is lost by that, for
the mantissa is a power of two then. -/
theorem shiftToTargetExponent_of_le {n : Nat} {e : ℤ} (hn : n ≤ 2 ^ 53) (he : -1074 ≤ e) :
    (n < 2 ^ 53 ∧ (shiftToTargetExponent Format.binary64 n e .exact).1.mantissa = n ∧
        (shiftToTargetExponent Format.binary64 n e .exact).2 = e) ∨
      (n = 2 ^ 53 ∧ (shiftToTargetExponent Format.binary64 n e .exact).1.mantissa = 2 ^ 52 ∧
        (shiftToTargetExponent Format.binary64 n e .exact).2 = e + 1) := by
  have htarget (n : Nat) : Format.binary64.targetExponent (totalExponent n e) =
      max ((n.log2 : ℤ) + 1 + e - 53) (-1074) := rfl
  rw [shiftToTargetExponent, htarget]
  rcases hn.lt_or_eq with hlt | rfl
  · have hlog : n.log2 < 53 := by
      rcases n.eq_zero_or_pos with rfl | hpos
      · decide
      · exact (Nat.log2_lt hpos.ne').mpr hlt
    have hstay : (max ((n.log2 : ℤ) + 1 + e - 53) (-1074) - e).toNat = 0 := by omega
    simp only [shiftToExponent, hstay]
    exact .inl ⟨hlt, rfl, Int.add_zero e⟩
  · have hone : (max (((2 ^ 53 : Nat).log2 : ℤ) + 1 + e - 53) (-1074) - e).toNat = 1 := by
      rw [Nat.log2_two_pow]
      omega
    simp only [shiftToExponent, hone]
    exact .inr ⟨trivial, by decide, rfl⟩

/-- A number that is zero or finite as its mantissa tells. -/
def ofMantissa (s : Sign) (m : Nat) (e : ℤ) : UnpackedFloat :=
  if h : m = 0 then .zero s else .finite s m e (Nat.pos_of_ne_zero h)

theorem unpackedValue_ofMantissa (s : Sign) (m : Nat) (e : ℤ) :
    unpackedValue (ofMantissa s m e) = (s.apply m : ℤ) * 2 ^ e := by
  unfold ofMantissa
  split
  next hm => cases s <;> simp [unpackedValue, Sign.apply, hm]
  next hm => rfl

theorem canonical_ofMantissa (s : Sign) {m : Nat} {e : ℤ} (hm : m < 2 ^ 53) (he : -1074 ≤ e)
    (hfull : 2 ^ 52 ≤ m ∨ e = -1074) : Canonical (ofMantissa s m e) := by
  unfold ofMantissa
  split
  next => trivial
  next => exact ⟨hm, he, hfull⟩

/-- The mantissa before and after its last shift stands for the same number. -/
theorem ofMantissa_shiftToTargetExponent (s : Sign) {n : Nat} {e : ℤ} (hn : n ≤ 2 ^ 53)
    (he : -1074 ≤ e) (hfull : 2 ^ 52 ≤ n ∨ e = -1074) :
    let shifted := shiftToTargetExponent Format.binary64 n e .exact
    Canonical (ofMantissa s shifted.1.mantissa shifted.2) ∧
      unpackedValue (ofMantissa s shifted.1.mantissa shifted.2) = (s.apply n : ℤ) * 2 ^ e := by
  dsimp only
  rw [unpackedValue_ofMantissa]
  obtain ⟨hlt, hmantissa, hexponent⟩ | ⟨rfl, hmantissa, hexponent⟩ :=
    shiftToTargetExponent_of_le hn he
  · rw [hmantissa, hexponent]
    exact ⟨canonical_ofMantissa s hlt he hfull, rfl⟩
  · rw [hmantissa, hexponent, zpow_add₀ two_ne_zero]
    refine ⟨canonical_ofMantissa s (by decide) (by omega) (.inl le_rfl), ?_⟩
    cases s <;> simp only [Sign.apply] <;> push_cast <;> ring

/-- Rounding drops the digits behind the last place, and carries where the mantissa is filled. -/
theorem roundWithAccuracy_spec (s : Sign) {m : Nat} (hm : 0 < m) {e : ℤ}
    (h : e ≤ lastPlace ((m : ℚ) * 2 ^ e)) :
    Canonical (roundWithAccuracy Format.binary64 s m e .exact) ∧
      IsRounded ((s.apply m : ℤ) * 2 ^ e)
        (unpackedValue (roundWithAccuracy Format.binary64 s m e .exact)) := by
  have hpos : (0 : ℚ) < m * 2 ^ e := mul_pos (by exact_mod_cast hm) (zpow_pos two_pos _)
  obtain ⟨hplace, hrep⟩ := represents_shiftToTargetExponent hm h
  have hround := hrep.roundsTo
  have hresult : roundWithAccuracy Format.binary64 s m e .exact =
      let first := shiftToTargetExponent Format.binary64 m e .exact
      let second := shiftToTargetExponent Format.binary64 first.1.roundedMantissa first.2 .exact
      ofMantissa s second.1.mantissa second.2 := rfl
  dsimp only at hresult
  rw [hplace] at hresult
  obtain ⟨hle, hfull⟩ := bounds_of_roundsTo hpos hround
  obtain ⟨hcanonical, hvalue⟩ :=
    ofMantissa_shiftToTargetExponent s (by exact_mod_cast hle) (le_lastPlace _)
      (hfull.imp_left fun h => by exact_mod_cast h)
  rw [hresult, hvalue]
  exact ⟨hcanonical, IsRounded.apply ⟨_, hround, by rw [Int.cast_natCast]⟩ s⟩

theorem decreaseExponent_spec (m : Nat) (e t : ℤ) :
    (decreaseExponent m e t).2 = min e t ∧
      ((decreaseExponent m e t).1 : ℚ) * 2 ^ (decreaseExponent m e t).2 = m * 2 ^ e := by
  rw [decreaseExponent]
  refine ⟨by dsimp only; omega, ?_⟩
  rw [Nat.shiftLeft_eq, zpow_sub₀ two_ne_zero, zpow_natCast]
  push_cast
  field_simp

/-- A mantissa with too few digits is lengthened first, which does not change the number and so not
its last place either. -/
theorem round_spec (s : Sign) {m : Nat} (hm : 0 < m) (e : ℤ) :
    Canonical (UnpackedFloat.round Format.binary64 s m e) ∧
      IsRounded ((s.apply m : ℤ) * 2 ^ e)
        (unpackedValue (UnpackedFloat.round Format.binary64 s m e)) := by
  rw [UnpackedFloat.round, targetExponent_eq hm]
  obtain ⟨hexponent, hvalue⟩ := decreaseExponent_spec m e (lastPlace (m * 2 ^ e))
  have hpos : 0 < (decreaseExponent m e (lastPlace (m * 2 ^ e))).1 := by
    rw [decreaseExponent, Nat.shiftLeft_eq]
    positivity
  generalize decreaseExponent m e (lastPlace (m * 2 ^ e)) = d at *
  obtain ⟨k, t⟩ := d
  dsimp only at hexponent hvalue hpos ⊢
  obtain ⟨hcanonical, hround⟩ := roundWithAccuracy_spec s hpos (e := t) (by
    rw [hvalue, hexponent]
    exact min_le_right _ _)
  have hsigned : ((s.apply k : ℤ) : ℚ) * 2 ^ t = (s.apply m : ℤ) * 2 ^ e := by
    cases s <;> simp only [Sign.apply, Int.cast_neg, Int.cast_natCast, neg_mul, hvalue]
  rw [hsigned] at hround
  exact ⟨hcanonical, hround⟩

theorem normalize_spec (k e : ℤ) (s : Sign) :
    Canonical (UnpackedFloat.normalize Format.binary64 k e s) ∧
      IsRounded (k * 2 ^ e) (unpackedValue (UnpackedFloat.normalize Format.binary64 k e s)) := by
  rcases lt_trichotomy k 0 with hk | rfl | hk
  · rw [UnpackedFloat.normalize, compare_lt_iff_lt.mpr hk]
    have hspec := round_spec .negative (m := (-k).toNat) (by omega) e
    rwa [Sign.apply, Int.toNat_of_nonneg (by omega), neg_neg] at hspec
  · exact ⟨trivial, 0, by simp [RoundsTo], by simp [unpackedValue, UnpackedFloat.normalize]⟩
  · rw [UnpackedFloat.normalize, compare_gt_iff_gt.mpr hk]
    have hspec := round_spec .positive (m := k.toNat) (by omega) e
    rwa [Sign.apply, Int.toNat_of_nonneg (by omega)] at hspec

end Schematic.Binary
