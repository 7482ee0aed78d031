import Schematic.Proofs.Geometry.Coding
import Schematic.Proofs.Geometry.Rounding

/-!
# The nearest floating point number

Hundredths are rounded to a multiple of the step that belongs to their size. No floating point
number is nearer: those with a larger step are multiples of this one as well, and those with a
smaller step lie below all that need this step, the least of which is a multiple of it
(`exists_multiple`).

A floating point number that is nearest to some hundredths has these as its own nearest hundredths
(`hundredths_rounded`), since the number they were taken from is no nearer to them. So the decimal
that is written for it stands for it again.
-/

namespace Schematic

namespace Binary

/-! ## Rounding to a part -/

theorem roundHalfEven_twoTo (n e : Nat) :
    RoundsTo (n * 2 ^ (-e : ℤ)) (roundHalfEven n (twoTo e) : ℕ) := by
  have h := roundHalfEven_roundsTo n (twoTo_pos e)
  rwa [twoTo_eq, Nat.cast_pow, Nat.cast_ofNat, div_eq_mul_inv, ← zpow_natCast, ← zpow_neg] at h

theorem nearestPart_roundsTo (parts : Nat) (b : Binary) :
    RoundsTo (parts * b.value) (b.nearestPart parts) := by
  have h := roundHalfEven_twoTo (parts * b.magnitude) 1074
  rw [Nat.cast_mul, mul_assoc] at h
  unfold nearestPart value units
  cases b.negative
  · exact h
  · rw [if_pos rfl, if_pos rfl, Int.cast_neg, Int.cast_natCast, neg_mul, mul_neg]
    exact h.neg

/-! ## Multiples of a step -/

/-- A number of 53 binary digits that is not a multiple of a step lies below the numbers that need
this step, and a multiple of it is nearer to them. -/
theorem exists_multiple {q : ℚ} {s : Nat} (hs : s = 0 ∨ 2 ^ 52 * step s ≤ q) {k : ℤ}
    (hk : |k| < 2 ^ 53) (t : Nat) :
    (∃ m : ℤ, k * step t = m * step s ∧ (Odd m → Odd k)) ∨
      ∃ m : ℤ, |m * step s - q| < |k * step t - q| := by
  rcases Nat.lt_or_ge t s with hts | hst
  · right
    have hq : 2 ^ 52 * step s ≤ q := hs.resolve_left (by omega)
    have hhalf : 2 * step t ≤ step s := by
      obtain ⟨d, rfl⟩ := Nat.exists_eq_add_of_lt hts
      have hpow : (1 : ℚ) ≤ 2 ^ d := one_le_pow₀ one_le_two
      rw [Nat.add_assoc, step_add, pow_succ, mul_comm _ (2 : ℚ), mul_assoc]
      nlinarith [step_pos t]
    have hlt : k * step t < 2 ^ 52 * step s := by
      have hk : (k : ℚ) < 2 ^ 53 := by exact_mod_cast lt_of_abs_lt hk
      nlinarith [step_pos t]
    refine ⟨2 ^ 52, ?_⟩
    push_cast
    rw [abs_of_nonpos (by linarith), abs_of_neg (by linarith)]
    linarith
  · left
    obtain ⟨d, rfl⟩ := Nat.exists_eq_add_of_le hst
    refine ⟨k * 2 ^ d, ?_, fun hodd => (Int.odd_mul.mp hodd).1⟩
    rw [step_add]
    push_cast
    ring

theorem abs_mul_step_sub (m : ℤ) (s : Nat) (q : ℚ) :
    |m * step s - q| = |q / step s - m| * step s := by
  have hpos := step_pos s
  rw [abs_sub_comm, ← abs_of_pos hpos, ← abs_mul, abs_of_pos hpos, sub_mul,
    div_mul_cancel₀ _ hpos.ne']

/-- What is nearest among the multiples of the step is nearest among all numbers of 53 binary
digits. If another one is as near, the significand of that one is odd. -/
theorem near_of_roundsTo {q : ℚ} {s : Nat} {n : ℤ} (hn : RoundsTo (q / step s) n)
    (hs : s = 0 ∨ 2 ^ 52 * step s ≤ q) {k : ℤ} (hk : |k| < 2 ^ 53) (t : Nat) :
    |n * step s - q| ≤ |k * step t - q| ∧
      (k * step t ≠ n * step s → |k * step t - q| = |n * step s - q| → Even n ∧ Odd k) := by
  have hpos := step_pos s
  have hnear (m : ℤ) : |n * step s - q| ≤ |m * step s - q| := by
    rw [abs_mul_step_sub, abs_mul_step_sub]
    exact mul_le_mul_of_nonneg_right (hn.near m) hpos.le
  rcases exists_multiple hs hk t with ⟨m, hm, hodd⟩ | ⟨m, hm⟩
  · rw [hm]
    refine ⟨hnear m, fun hne htie => ?_⟩
    have hne : m ≠ n := fun he => hne (by rw [he])
    rw [abs_mul_step_sub, abs_mul_step_sub] at htie
    have htie := mul_right_cancel₀ hpos.ne' htie
    exact ⟨hn.even_of_tie hne htie, hodd (hn.odd_of_tie hne htie)⟩
  · have hlt : |n * step s - q| < |k * step t - q| := lt_of_le_of_lt (hnear m) hm
    exact ⟨hlt.le, fun _ htie => absurd htie hlt.ne'⟩

/-! ## From hundredths to a number -/

/-- The largest finite number. -/
def largest : ℚ := (2 ^ 53 - 1) * step 2045

section OfHundredths

variable (h : Hundredths)

theorem abs_value_div_step :
    |h.value| / step (ofHundredths h).shift =
      (h.count.natAbs * twoTo 1074 : ℕ) / (100 * twoTo (ofHundredths h).shift : ℕ) := by
  have habs : |h.value| = h.count.natAbs / 100 := by
    rw [Hundredths.value, abs_div, Nat.cast_natAbs, Int.cast_abs, Nat.abs_ofNat]
  rw [habs, step_eq, div_div_div_eq, Nat.cast_mul, Nat.cast_mul, Nat.cast_ofNat]

theorem shift_ofHundredths :
    (ofHundredths h).shift = (h.count.natAbs * twoTo 1074 / 100).log2 + 1 - 53 := rfl

/-- The hundredths lie among the numbers whose significands have 53 digits, unless they lie
below all that have. -/
theorem abs_value_lt : |h.value| < 2 ^ 53 * step (ofHundredths h).shift := by
  rw [← div_lt_iff₀ (step_pos _), abs_value_div_step, div_lt_iff₀ (by
    exact_mod_cast Nat.mul_pos (by decide) (twoTo_pos _))]
  have hlog := @Nat.lt_log2_self (h.count.natAbs * twoTo 1074 / 100)
  rw [Nat.div_lt_iff_lt_mul (by decide)] at hlog
  have hpow : 2 ^ ((h.count.natAbs * twoTo 1074 / 100).log2 + 1) ≤
      2 ^ 53 * twoTo (ofHundredths h).shift := by
    rw [twoTo_eq (ofHundredths h).shift, ← Nat.pow_add, shift_ofHundredths]
    exact Nat.pow_le_pow_right (by decide) (by omega)
  have hlt : h.count.natAbs * twoTo 1074 < 2 ^ 53 * (100 * twoTo (ofHundredths h).shift) := by
    omega
  exact_mod_cast hlt

theorem le_abs_value :
    (ofHundredths h).shift = 0 ∨ 2 ^ 52 * step (ofHundredths h).shift ≤ |h.value| := by
  rw [or_iff_not_imp_left, ← le_div_iff₀ (step_pos _), abs_value_div_step, le_div_iff₀ (by
    exact_mod_cast Nat.mul_pos (by decide) (twoTo_pos _))]
  intro hshift
  have hlog : (h.count.natAbs * twoTo 1074 / 100).log2 = 52 + (ofHundredths h).shift := by
    rw [shift_ofHundredths] at hshift ⊢
    omega
  have hne : h.count.natAbs * twoTo 1074 / 100 ≠ 0 := fun he => by
    rw [he, Nat.log2_zero] at hlog
    omega
  have hle := Nat.log2_self_le hne
  rw [hlog, Nat.pow_add, ← twoTo_eq (ofHundredths h).shift,
    Nat.le_div_iff_mul_le (by decide)] at hle
  have hle : 2 ^ 52 * (100 * twoTo (ofHundredths h).shift) ≤ h.count.natAbs * twoTo 1074 := by
    omega
  exact_mod_cast hle

theorem significand_ofHundredths_roundsTo :
    RoundsTo (|h.value| / step (ofHundredths h).shift) (ofHundredths h).significand := by
  rw [abs_value_div_step]
  exact roundHalfEven_roundsTo _ (Nat.mul_pos (by decide) (twoTo_pos _))

theorem value_ofHundredths :
    (ofHundredths h).value = (if h.count < 0 then -1 else 1) *
      ((ofHundredths h).significand * step (ofHundredths h).shift) := by
  rw [value_eq]
  congr 1
  by_cases hneg : h.count < 0 <;> simp [ofHundredths, hneg]

theorem value_eq_sign_mul_abs : h.value = (if h.count < 0 then -1 else 1) * |h.value| := by
  rw [Hundredths.value]
  split
  next hneg =>
    have hneg : (h.count : ℚ) < 0 := by exact_mod_cast hneg
    rw [abs_of_neg (div_neg_of_neg_of_pos hneg (by norm_num)), neg_one_mul, neg_neg]
  next hpos =>
    have hpos : (0 : ℚ) ≤ h.count := by exact_mod_cast not_lt.mp hpos
    rw [abs_of_nonneg (div_nonneg hpos (by norm_num)), one_mul]

variable {h}

/-- Hundredths within the range of finite numbers are coded without loss: the significand has 53
digits at most unless rounding makes it run over, and the last exponent is not reached. -/
theorem fits_ofHundredths (hrange : |h.value| ≤ largest) : (ofHundredths h).Fits := by
  have hround := significand_ofHundredths_roundsTo h
  have hpos := step_pos (ofHundredths h).shift
  have hle : (ofHundredths h).significand ≤ 2 ^ 53 := by
    have hle := hround.le_of_le (m := 2 ^ 53) (by
      rw [div_le_iff₀ hpos]
      exact_mod_cast (abs_value_lt h).le)
    exact_mod_cast hle
  refine ⟨hle, ?_, ?_⟩
  · refine (le_abs_value h).imp_right fun hlow => ?_
    have hge := hround.ge_of_ge (m := 2 ^ 52) (by
      rw [le_div_iff₀ hpos]
      exact_mod_cast hlow)
    exact_mod_cast hge
  · rcases Nat.lt_or_ge (ofHundredths h).shift 2045 with hlt | hge
    · omega
    · -- With the largest shift the significand has no room to run over.
      have hshift : (ofHundredths h).shift = 2045 := by
        by_contra hne
        obtain ⟨d, hd⟩ := Nat.exists_eq_add_of_lt (lt_of_le_of_ne hge (Ne.symm hne))
        have hlow := (le_abs_value h).resolve_left (by omega)
        have hpow : (1 : ℚ) ≤ 2 ^ d := one_le_pow₀ one_le_two
        rw [hd, Nat.add_assoc, step_add, pow_succ 2 d] at hlow
        rw [largest] at hrange
        nlinarith [step_pos 2045]
      have htop := hround.le_of_le (m := 2 ^ 53 - 1) (by
        rw [div_le_iff₀ hpos, hshift, Int.cast_sub, Int.cast_pow]
        exact hrange)
      omega

/-- No number of 53 binary digits is nearer to the hundredths than the one computed from them; where
another one is as near, that one is odd and the computed one is even. -/
theorem value_ofHundredths_near (h : Hundredths) {k : ℤ} (hk : |k| < 2 ^ 53) (t : Nat) :
    |(ofHundredths h).value - h.value| ≤ |k * step t - h.value| ∧
      (k * step t ≠ (ofHundredths h).value →
        |k * step t - h.value| = |(ofHundredths h).value - h.value| →
          Even (ofHundredths h).significand ∧ Odd k) := by
  have hround := significand_ofHundredths_roundsTo h
  have hlow := le_abs_value h
  have hvalue := value_eq_sign_mul_abs h
  rw [value_ofHundredths]
  generalize |h.value| = q at *
  rw [hvalue]
  split
  · -- Below zero everything is mirrored.
    obtain ⟨hnear, htie⟩ := near_of_roundsTo hround hlow (show |-k| < 2 ^ 53 by rwa [abs_neg]) t
    have hflip (a : ℚ) : |a - -1 * q| = |-a - q| := by
      rw [← abs_neg]
      congr 1
      ring
    rw [hflip, hflip, neg_one_mul, neg_neg]
    rw [Int.cast_neg, neg_mul, Int.cast_natCast, Int.even_coe_nat, odd_neg] at *
    exact ⟨hnear, fun hne => htie fun he => hne (by rw [← he, neg_neg])⟩
  · simpa only [one_mul, Int.even_coe_nat, Int.cast_natCast] using near_of_roundsTo hround hlow hk t

/-- The computed number is at most half a step away, which is what rounding to a multiple of the
step means. -/
theorem value_ofHundredths_close (h : Hundredths) :
    |(ofHundredths h).value - h.value| ≤ step (ofHundredths h).shift / 2 := by
  have hround := (significand_ofHundredths_roundsTo h).1
  have hpos := step_pos (ofHundredths h).shift
  have hvalue := value_eq_sign_mul_abs h
  rw [value_ofHundredths]
  generalize |h.value| = q at *
  have hunsigned : |(ofHundredths h).significand * step (ofHundredths h).shift - q| ≤
      step (ofHundredths h).shift / 2 := by
    rw [← Int.cast_natCast, abs_mul_step_sub]
    linarith [mul_le_mul_of_nonneg_right hround hpos.le]
  rw [hvalue, ← mul_sub, abs_mul]
  split <;> simpa using hunsigned

end OfHundredths

/-! ## The nearest finite number -/

/-- Of the finite numbers `y` is nearest to `q`, and the last binary digit of `y` is zero if another
one is as near. -/
structure IsNearest (y : Float) (q : ℚ) : Prop where
  finite : y.isFinite = true
  near : ∀ z : Float, z.isFinite = true → |exactValue y - q| ≤ |exactValue z - q|
  even : ∀ z : Float, z.isFinite = true → exactValue z ≠ exactValue y →
    |exactValue z - q| = |exactValue y - q| → Even y.toBits.toNat

section InRange

variable {h : Hundredths}

theorem toFloat_near (hrange : |h.value| ≤ largest) {z : Float} (hz : z.isFinite = true) :
    |exactValue (ofHundredths h).toFloat - h.value| ≤ |exactValue z - h.value| ∧
      (exactValue z ≠ exactValue (ofHundredths h).toFloat →
        |exactValue z - h.value| = |exactValue (ofHundredths h).toFloat - h.value| →
          Even (ofHundredths h).toFloat.toBits.toNat ∧ ¬Even z.toBits.toNat) := by
  have hfits := fits_ofHundredths hrange
  obtain ⟨k, hk, habs⟩ := exists_signed_significand hz
  have hlt : |k| < 2 ^ 53 := by
    rw [habs]
    exact_mod_cast significand_ofFloat_lt z
  have hodd : Odd k ↔ ¬Even z.toBits.toNat := by
    rw [← odd_abs, habs, Int.odd_coe_nat, ← Nat.not_even_iff_odd, even_significand_ofFloat]
  rw [hfits.exactValue_toFloat, hfits.even_toBits_toFloat, hk, ← hodd]
  exact value_ofHundredths_near h hlt _

theorem isNearest_toFloat (hrange : |h.value| ≤ largest) :
    IsNearest (ofHundredths h).toFloat h.value where
  finite := (fits_ofHundredths hrange).isFinite_toFloat
  near _ hz := (toFloat_near hrange hz).1
  even _ hz hne htie := ((toFloat_near hrange hz).2 hne htie).1

/-- There is no other number that is nearest. Where two are equally near, both of them end in zero,
and of two neighbours only one does. -/
theorem IsNearest.unique (hrange : |h.value| ≤ largest) {y : Float} (hy : IsNearest y h.value) :
    exactValue y = exactValue (ofHundredths h).toFloat := by
  have hfinite := (isNearest_toFloat hrange).finite
  by_contra hne
  have htie : |exactValue y - h.value| = |exactValue (ofHundredths h).toFloat - h.value| :=
    le_antisymm (hy.near _ hfinite) ((toFloat_near hrange hy.finite).1)
  have hodd := ((toFloat_near hrange hy.finite).2 hne htie).2
  exact hodd (hy.even _ hfinite (Ne.symm hne) htie.symm)

end InRange

/-! ## The hundredths of a finite number -/

section Finite

variable {x : Float}

/-- The largest number is whole. -/
theorem exists_largest_eq : ∃ n : ℤ, largest = n := by
  have hone : step 1074 = 1 := by rw [step, Nat.cast_ofNat, sub_self, zpow_zero]
  obtain ⟨m, hm⟩ : ∃ m : ℤ, step 2045 = m :=
    ⟨(2 : ℤ) ^ 971, by rw [show 2045 = 1074 + 971 from rfl, step_add, hone, mul_one, Int.cast_pow,
      Int.cast_ofNat]⟩
  refine ⟨(2 ^ 53 - 1) * m, ?_⟩
  rw [largest, hm, Int.cast_mul, Int.cast_sub, Int.cast_pow, Int.cast_ofNat, Int.cast_one]

theorem abs_exactValue_le (hx : x.isFinite = true) : |exactValue x| ≤ largest := by
  obtain ⟨k, hk, habs⟩ := exists_signed_significand hx
  have hlt : |k| ≤ 2 ^ 53 - 1 := by
    have hlt := significand_ofFloat_lt x
    omega
  have hlt : |(k : ℚ)| ≤ 2 ^ 53 - 1 := by exact_mod_cast hlt
  have hstep : step (ofFloat x).shift ≤ step 2045 := by
    obtain ⟨d, hd⟩ := Nat.exists_eq_add_of_le (shift_ofFloat_le hx)
    rw [hd, step_add]
    exact le_mul_of_one_le_left (step_pos _).le (one_le_pow₀ one_le_two)
  rw [hk, abs_mul, abs_of_pos (step_pos _), largest]
  exact mul_le_mul hlt hstep (step_pos _).le (by norm_num)

/-- Rounding does not pass a whole number that bounds the number rounded. -/
theorem abs_nearestPart_le (parts : Nat) (hx : x.isFinite = true) {n : ℤ}
    (hn : |exactValue x| ≤ n) : |((ofFloat x).nearestPart parts : ℚ)| ≤ parts * n := by
  have hround := nearestPart_roundsTo parts (ofFloat x)
  rw [value_ofFloat hx] at hround
  have hrange := abs_le.mp hn
  have hparts : (0 : ℚ) ≤ parts := Nat.cast_nonneg parts
  have hupper := hround.le_of_le (m := parts * n) (by
    push_cast
    exact mul_le_mul_of_nonneg_left hrange.2 hparts)
  have hlower := hround.ge_of_ge (m := -(parts * n)) (by
    push_cast
    rw [← mul_neg]
    exact mul_le_mul_of_nonneg_left hrange.1 hparts)
  rw [abs_le]
  exact ⟨by exact_mod_cast hlower, by exact_mod_cast hupper⟩

theorem abs_hundredths_le (hx : x.isFinite = true) {n : ℤ} (hn : |exactValue x| ≤ n) :
    |(ofFloat x).hundredths.value| ≤ n := by
  rw [Hundredths.value, abs_div, Nat.abs_ofNat, div_le_iff₀' (by norm_num)]
  exact abs_nearestPart_le 100 hx hn

theorem abs_tenths_le (hx : x.isFinite = true) {n : ℤ} (hn : |exactValue x| ≤ n) :
    |(ofFloat x).tenths.value| ≤ n := by
  have hle := abs_nearestPart_le 10 hx hn
  rw [Hundredths.value, abs_div, Nat.abs_ofNat, div_le_iff₀' (by norm_num), tenths, Int.cast_mul,
    abs_mul]
  push_cast at hle ⊢
  rw [Nat.abs_ofNat]
  linarith

theorem hundredths_roundsTo (hx : x.isFinite = true) :
    RoundsTo (100 * exactValue x) (Written.hundredths x).count := by
  have hround := nearestPart_roundsTo 100 (ofFloat x)
  rw [value_ofFloat hx] at hround
  exact hround

theorem hundredths_isNearest (hx : x.isFinite = true) :
    (Written.hundredths x).IsNearest (exactValue x) :=
  (hundredths_roundsTo hx).isNearest

theorem abs_hundredths_le_largest (hx : x.isFinite = true) :
    |(Written.hundredths x).value| ≤ largest := by
  obtain ⟨n, hn⟩ := exists_largest_eq
  rw [hn]
  exact abs_hundredths_le hx (hn ▸ abs_exactValue_le hx)

theorem isNearest_rounded (hx : x.isFinite = true) :
    IsNearest (Written.rounded x) (Written.hundredths x).value :=
  isNearest_toFloat (abs_hundredths_le_largest hx)

theorem exactValue_eq_rounded (hx : x.isFinite = true) {y : Float}
    (hy : IsNearest y (Written.hundredths x).value) :
    exactValue y = exactValue (Written.rounded x) :=
  hy.unique (abs_hundredths_le_largest hx)

/-- Rounding changes nothing of what is rounded already. The rounded number is no further from its
hundredths than the number that these were taken from, so it has the same ones (`RoundsTo.of_near`).
-/
theorem hundredths_rounded (hx : x.isFinite = true) :
    Written.hundredths (Written.rounded x) = Written.hundredths x := by
  have hnear := isNearest_rounded hx
  have hround := hundredths_roundsTo hx
  have hle := hnear.near x hx
  have hagain : RoundsTo (100 * exactValue (Written.rounded x)) (Written.hundredths x).count :=
    hround.of_near (by
      rw [Hundredths.abs_hundred_mul_sub, Hundredths.abs_hundred_mul_sub]
      linarith)
  have hcount := hagain.unique (hundredths_roundsTo hnear.finite)
  exact congrArg Hundredths.mk hcount

/-- The decimal that is written for the rounded number stands for it: the shorter one is only taken
after it was tried, and the longer one is what the number was rounded to. -/
theorem isNearest_shortest (hx : x.isFinite = true) :
    IsNearest (Written.rounded x) (Written.shortest (Written.rounded x)).value := by
  have hfinite := (isNearest_rounded hx).finite
  have hsame := hundredths_rounded hx
  simp only [Written.shortest]
  split
  next heq =>
    obtain ⟨n, hn⟩ := exists_largest_eq
    have hnear := isNearest_toFloat (hn ▸ abs_tenths_le hfinite (hn ▸ abs_exactValue_le hfinite))
    rw [Float.toBits_inj.mp (beq_iff_eq.mp heq)] at hnear
    exact hnear
  next =>
    change IsNearest (Written.rounded x) (Written.hundredths (Written.rounded x)).value
    rw [hsame]
    exact isNearest_rounded hx

/-! ## Where floating point numbers lie close together -/

/-- Among numbers that lie closer together than hundredths no two hundredths stand for the same
number. -/
theorem hundredths_ofHundredths {h : Hundredths} (hsmall : |h.value| ≤ 2 ^ 45) :
    Written.hundredths (Written.ofHundredths h : Float) = h := by
  have hlargest : (2 : ℚ) ^ 45 ≤ largest := by
    have hone : 1 ≤ step 2045 := one_le_zpow₀ one_le_two (by norm_num)
    rw [largest]
    linarith
  have hfits := fits_ofHundredths (le_trans hsmall hlargest)
  have hclose := value_ofHundredths_close h
  have hstep : step (ofHundredths h).shift ≤ 1 / 128 := by
    rcases le_abs_value h with hzero | hlow
    · rw [hzero, show (1 / 128 : ℚ) = 2 ^ (-7 : ℤ) by norm_num]
      exact zpow_le_zpow_right₀ one_le_two (by norm_num)
    · linarith
  have hround : RoundsTo (100 * exactValue (ofHundredths h).toFloat) h.count := by
    rw [RoundsTo, Hundredths.abs_hundred_mul_sub, hfits.exactValue_toFloat]
    exact ⟨by linarith, fun he => absurd he (by linarith)⟩
  have hcount := hround.unique (hundredths_roundsTo hfits.isFinite_toFloat)
  exact congrArg Hundredths.mk hcount

theorem abs_rounded_le (hx : x.isFinite = true)
    (hsmall : |(Written.hundredths x).value| ≤ 2 ^ 44) :
    |exactValue (Written.rounded x)| ≤ 2 ^ 45 := by
  have hle := (isNearest_rounded hx).near x hx
  have hhalf := (hundredths_roundsTo hx).1
  rw [Hundredths.abs_hundred_mul_sub] at hhalf
  have htriangle := abs_sub_abs_le_abs_sub (exactValue (Written.rounded x))
    (Written.hundredths x).value
  linarith

/-- In this range the decimal that is written for the rounded number is the nearest hundredth. A
tenth that stands for the number is a hundredth too, and here no two of these stand for the same
number. -/
theorem shortest_rounded (hx : x.isFinite = true)
    (hsmall : |(Written.hundredths x).value| ≤ 2 ^ 44) :
    Written.shortest (Written.rounded x) = Written.hundredths x := by
  have hsame := hundredths_rounded hx
  simp only [Written.shortest]
  split
  next heq =>
    have heq := Float.toBits_inj.mp (beq_iff_eq.mp heq)
    have hfinite := (isNearest_rounded hx).finite
    have hrounded : |exactValue (Written.rounded x)| ≤ ((2 ^ 45 : ℤ) : ℚ) := by
      exact_mod_cast abs_rounded_le hx hsmall
    have htenths := abs_tenths_le hfinite hrounded
    have hagain := hundredths_ofHundredths (by exact_mod_cast htenths)
    rw [← hsame, ← hagain]
    exact congrArg Written.hundredths heq
  next => exact hsame

end Finite

end Binary

end Schematic
