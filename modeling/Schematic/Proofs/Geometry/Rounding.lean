import Mathlib.Algebra.Order.Field.Basic
import Mathlib.Algebra.Order.Field.Rat
import Mathlib.Algebra.Ring.Int.Parity
import Mathlib.Tactic.Linarith
import Mathlib.Tactic.Ring
import Schematic.Geometry.Hundredths

/-!
# Rounding to the nearest integer

`RoundsTo q n` is what it means to round half to even, said with the distance alone: `n` is at most
one half away from `q`, and even if it is exactly that far. Such an integer is nearest to `q`, there
is no second one, and rounding does not pass an integer that lies beyond `q`.
-/

namespace Schematic

/-- The integer nearest to `q` is `n`, which is even if another one is as near. The quotient and the
rest by which the program decides do not occur in this. -/
def RoundsTo (q : ℚ) (n : ℤ) : Prop := |q - n| ≤ 1 / 2 ∧ (|q - n| = 1 / 2 → Even n)

namespace RoundsTo

variable {q : ℚ} {m n : ℤ}

theorem neg (h : RoundsTo q n) : RoundsTo (-q) (-n) := by
  have hdist : |-q - ((-n : ℤ) : ℚ)| = |q - n| := by
    rw [← abs_neg]
    congr 1
    push_cast
    ring
  rw [RoundsTo, hdist]
  exact ⟨h.1, fun he => (h.2 he).neg⟩

/-- Every other integer is at least one half away. -/
theorem half_le (h : RoundsTo q n) (hne : m ≠ n) : 1 / 2 ≤ |q - m| := by
  have hone : (1 : ℚ) ≤ |(n : ℚ) - m| := by
    exact_mod_cast Int.one_le_abs (sub_ne_zero.mpr hne.symm)
  have htriangle : |(n : ℚ) - m| ≤ |(n : ℚ) - q| + |q - m| := abs_sub_le _ _ _
  rw [abs_sub_comm (n : ℚ) q] at htriangle
  linarith [h.1]

theorem near (h : RoundsTo q n) (m : ℤ) : |q - n| ≤ |q - m| := by
  by_cases hne : m = n
  · rw [hne]
  · exact le_trans h.1 (h.half_le hne)

theorem even_of_tie (h : RoundsTo q n) (hne : m ≠ n) (htie : |q - m| = |q - n|) : Even n :=
  h.2 (le_antisymm h.1 (htie ▸ h.half_le hne))

/-- Of two integers that are equally near, one is odd. -/
theorem odd_of_tie (h : RoundsTo q n) (hne : m ≠ n) (htie : |q - m| = |q - n|) : Odd m := by
  have hapart : |(n : ℚ) - m| ≤ 1 := by
    have htriangle : |(n : ℚ) - m| ≤ |(n : ℚ) - q| + |q - m| := abs_sub_le _ _ _
    rw [abs_sub_comm (n : ℚ) q, htie] at htriangle
    linarith [h.1]
  have hapart : |n - m| ≤ 1 := by exact_mod_cast hapart
  have heven := h.even_of_tie hne htie
  rw [abs_le] at hapart
  grind

theorem unique (h : RoundsTo q n) (h' : RoundsTo q m) : m = n := by
  by_contra hne
  have htie : |q - m| = |q - n| := le_antisymm (h'.near n) (h.near m)
  have hodd := h.odd_of_tie hne htie
  exact Int.not_even_iff_odd.mpr hodd (h'.even_of_tie (Ne.symm hne) htie.symm)

theorem le_of_le (h : RoundsTo q n) (hm : q ≤ m) : n ≤ m := by
  have hlt : (n : ℚ) < m + 1 := by linarith [(abs_le.mp h.1).1]
  exact_mod_cast Int.lt_add_one_iff.mp (by exact_mod_cast hlt)

theorem ge_of_ge (h : RoundsTo q n) (hm : m ≤ q) : m ≤ n := by
  have hlt : (m : ℚ) < n + 1 := by linarith [(abs_le.mp h.1).2]
  exact_mod_cast Int.lt_add_one_iff.mp (by exact_mod_cast hlt)

/-- A larger number is not rounded to a smaller integer. Where the integers change places, both
numbers are in the middle between the two, and then one of the integers is no nearest one. -/
theorem mono {r : ℚ} (h : RoundsTo q m) (h' : RoundsTo r n) (hqr : q ≤ r) : m ≤ n := by
  by_contra hlt
  have hlt : (n : ℚ) + 1 ≤ m := by exact_mod_cast not_le.mp hlt
  have hm := (abs_le.mp h.1).1
  have hn := (abs_le.mp h'.1).2
  obtain rfl : q = r := by linarith
  rw [h.unique h'] at hlt
  linarith

/-- What is no further from `n` than a number that rounds to `n` rounds to `n` as well. -/
theorem of_near {r : ℚ} (h : RoundsTo q n) (hr : |r - n| ≤ |q - n|) : RoundsTo r n :=
  ⟨le_trans hr h.1, fun he => h.2 (le_antisymm h.1 (he ▸ hr))⟩

end RoundsTo

theorem roundHalfEven_roundsTo (n : Nat) {d : Nat} (hd : 0 < d) :
    RoundsTo (n / d) (roundHalfEven n d : ℕ) := by
  have hpos : (0 : ℚ) < d := by exact_mod_cast hd
  have hsplit : (n : ℚ) / d = (n / d : ℕ) + (n % d : ℕ) / d := by
    rw [div_eq_iff hpos.ne', add_mul, div_mul_cancel₀ _ hpos.ne']
    exact_mod_cast (Nat.div_add_mod' n d).symm
  have hlt : n % d < d := Nat.mod_lt n hd
  rw [RoundsTo, hsplit]
  unfold roundHalfEven
  generalize n / d = q at *
  generalize n % d = r at *
  have hrest : (0 : ℚ) ≤ r / d := div_nonneg (Nat.cast_nonneg r) hpos.le
  dsimp only
  split
  next hless =>
    have hless : (r : ℚ) / d < 1 / 2 := by
      rw [div_lt_div_iff₀ hpos two_pos]
      exact_mod_cast (by omega : r * 2 < 1 * d)
    rw [Int.cast_natCast, add_sub_cancel_left, abs_of_nonneg hrest]
    exact ⟨hless.le, fun he => absurd he hless.ne⟩
  next hless =>
    split
    next hmore =>
      have hmore : 1 / 2 < (r : ℚ) / d := by
        rw [div_lt_div_iff₀ two_pos hpos]
        exact_mod_cast (by omega : 1 * d < r * 2)
      have hone : (r : ℚ) / d < 1 := (div_lt_one hpos).mpr (by exact_mod_cast hlt)
      have hdist : |(q : ℚ) + r / d - ((q + 1 : ℕ) : ℤ)| = 1 - r / d := by
        rw [abs_sub_comm, abs_of_nonneg] <;> push_cast <;> linarith
      rw [hdist]
      exact ⟨by linarith, fun he => absurd he (by linarith)⟩
    next hmore =>
      -- The tie is broken by the parity of the lower neighbour.
      have hhalf : (r : ℚ) / d = 1 / 2 := by
        rw [div_eq_div_iff hpos.ne' two_ne_zero]
        exact_mod_cast (by omega : r * 2 = 1 * d)
      have heven : Even ((q + q % 2 : ℕ) : ℤ) := by
        rw [Int.even_coe_nat]
        exact Nat.even_iff.mpr (by omega)
      refine ⟨?_, fun _ => heven⟩
      rw [hhalf, abs_le]
      rcases Nat.mod_two_eq_zero_or_one q with hq | hq <;> rw [hq] <;> push_cast <;>
        constructor <;> linarith

/-! ## Hundredths -/

namespace Hundredths

/-- The number of hundredths as a rational number. -/
def value (h : Hundredths) : ℚ := h.count / 100

/-- Of the numbers of hundredths `h` is nearest to `q`, and it is even if another one is as near. -/
structure IsNearest (h : Hundredths) (q : ℚ) : Prop where
  near : ∀ k : Hundredths, |q - h.value| ≤ |q - k.value|
  even : ∀ k : Hundredths, k ≠ h → |q - k.value| = |q - h.value| → Even h.count

theorem abs_hundred_mul_sub (h : Hundredths) (v : ℚ) :
    |100 * v - h.count| = 100 * |v - h.value| := by
  have hmul : 100 * v - h.count = 100 * (v - h.value) := by
    rw [Hundredths.value]
    ring
  rw [hmul, abs_mul, Nat.abs_ofNat]

end Hundredths

theorem RoundsTo.isNearest {q : ℚ} {h : Hundredths} (hround : RoundsTo (100 * q) h.count) :
    h.IsNearest q where
  near k := by
    have hnear := hround.near k.count
    rw [h.abs_hundred_mul_sub, k.abs_hundred_mul_sub] at hnear
    linarith
  even k hne htie := by
    refine hround.even_of_tie (fun he => hne (congrArg Hundredths.mk he)) ?_
    rw [h.abs_hundred_mul_sub, k.abs_hundred_mul_sub, htie]

end Schematic
