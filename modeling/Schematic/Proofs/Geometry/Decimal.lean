import Mathlib.Tactic.FieldSimp
import Schematic.Proofs.Geometry.Rounding
import Schematic.Proofs.Text.Words

/-!
# Decimals

A decimal has a sign, digits before the point and digits behind it. A number of hundredths is first
written with both of its digits; zeros at the end are dropped, then a point at the end, and then the
sign of a zero. What is left is a decimal without anything superfluous (`trimEnd_fixed`), and
reading it gives the number back.
-/

namespace Schematic

/-! ## Decimals -/

/-- A decimal in its parts: the sign, the digits before the point and those behind it. -/
structure Decimal where
  negative : Bool
  whole : List Char
  fraction : List Char
deriving Repr, DecidableEq

namespace Decimal

/-- The characters behind the sign. Without digits behind the point there is no point. -/
def body (d : Decimal) : List Char :=
  d.whole ++ if d.fraction = [] then [] else '.' :: d.fraction

def chars (d : Decimal) : List Char := (if d.negative then ['-'] else []) ++ d.body

def value (d : Decimal) : ℚ :=
  (if d.negative then -1 else 1) *
    (Nat.ofDigitChars 10 (d.whole ++ d.fraction) 0 / 10 ^ d.fraction.length)

/-- The decimal is written as one expects: in digits, with a digit before the point and none that
could be left out, and zero without a sign. -/
structure IsPlain (d : Decimal) : Prop where
  digits : ∀ c ∈ d.whole ++ d.fraction, c.isDigit = true
  whole_ne_nil : d.whole ≠ []
  whole_head : d.whole.head? = some '0' → d.whole = ['0']
  fraction_last : d.fraction.getLast? ≠ some '0'
  signed : d.negative = true → d.value ≠ 0

/-- The text is the plain decimal of a number. Nothing is said of how the text was made, and there
is only one plain decimal for a number that has any. -/
def Spells (s : String) (q : ℚ) : Prop :=
  ∃ d : Decimal, s.toList = d.chars ∧ d.IsPlain ∧ d.value = q

/-! ## Reading -/

/-- A sign for negative numbers, digits, and perhaps a point with further digits behind it. -/
def ofChars? (cs : List Char) : Option Decimal :=
  let negative := cs.head? == some '-'
  match pieces (· == '.') (if negative then cs.tail else cs) with
  | [whole] => if whole ≠ [] ∧ whole.all Char.isDigit then some ⟨negative, whole, []⟩ else none
  | [whole, fraction] =>
    if whole ≠ [] ∧ fraction ≠ [] ∧ (whole ++ fraction).all Char.isDigit
    then some ⟨negative, whole, fraction⟩ else none
  | _ => none

theorem pieces_body {d : Decimal} (h : d.IsPlain) :
    pieces (· == '.') d.body = d.whole :: if d.fraction = [] then [] else [d.fraction] := by
  have hcut (ds : List Char) (hds : ∀ c ∈ ds, c.isDigit = true) : ∀ c ∈ ds, (c == '.') = false := by
    intro c hc
    rw [beq_eq_false_iff_ne]
    rintro rfl
    exact absurd (hds _ hc) (by decide)
  have hwhole := hcut d.whole fun c hc => h.digits c (List.mem_append_left _ hc)
  have hfraction := hcut d.fraction fun c hc => h.digits c (List.mem_append_right _ hc)
  rw [body]
  split
  · rw [List.append_nil, Text.pieces_of_forall hwhole]
  · rw [Text.pieces_append_cons hwhole rfl, Text.pieces_of_forall hfraction]

theorem IsPlain.space_notMem {d : Decimal} (h : d.IsPlain) : ' ' ∉ d.chars := by
  have hdigit : ' ' ∉ d.whole ++ d.fraction := fun hc => absurd (h.digits _ hc) (by decide)
  rw [List.mem_append, not_or] at hdigit
  have hbody : ' ' ∉ d.body := by
    rw [body]
    split <;> simp [hdigit.1, hdigit.2]
  rw [chars]
  split <;> simp [hbody]

theorem head?_body_ne {d : Decimal} (h : d.IsPlain) : d.body.head? ≠ some '-' := by
  intro he
  obtain ⟨c, cs, hcs⟩ := List.exists_cons_of_ne_nil h.whole_ne_nil
  have hc := h.digits c (by simp [hcs])
  rw [body, hcs] at he
  obtain rfl : c = '-' := Option.some.inj he
  exact absurd hc (by decide)

theorem ofChars?_chars {d : Decimal} (h : d.IsPlain) : ofChars? d.chars = some d := by
  have hsign : (d.chars.head? == some '-') = d.negative ∧
      (if d.negative then d.chars.tail else d.chars) = d.body := by
    have hbody := head?_body_ne h
    rw [chars]
    cases d.negative
    · exact ⟨beq_eq_false_iff_ne.mpr hbody, rfl⟩
    · exact ⟨rfl, rfl⟩
  have hdigits := List.all_eq_true.mpr h.digits
  rw [ofChars?, hsign.1, hsign.2, pieces_body h]
  obtain ⟨negative, whole, fraction⟩ := d
  have hwhole : whole ≠ [] := h.whole_ne_nil
  dsimp only at hdigits ⊢
  cases fraction with
  | nil =>
      rw [List.append_nil] at hdigits
      exact if_pos ⟨hwhole, hdigits⟩
  | cons c cs => exact if_pos ⟨hwhole, List.cons_ne_nil c cs, hdigits⟩

end Decimal

/-! ## Hundredths as decimals -/

namespace Hundredths

/-- The digits behind the point of so many hundredths: none, one or two, as many as there are
without zeros at the end. -/
def fractionDigits (n : Nat) : List Char :=
  if n = 0 then []
  else if n % 10 = 0 then [(n / 10).digitChar]
  else [(n / 10).digitChar, (n % 10).digitChar]

theorem toList_fraction {n : Nat} (hn : n < 100) :
    (fraction n).toList = if fractionDigits n = [] then [] else '.' :: fractionDigits n := by
  unfold fraction fractionDigits
  split
  · rfl
  · split
    · simp [Nat.toDigits_of_lt_base (show n / 10 < 10 by omega)]
    · split
      next hsmall =>
        rw [Nat.div_eq_of_lt hsmall, Nat.mod_eq_of_lt hsmall]
        simp [Nat.toDigits_of_lt_base hsmall]
      next hlarge =>
        simp [Nat.toDigits_of_base_le (b := 10) (by decide) (by omega : 10 ≤ n),
          Nat.toDigits_of_lt_base (show n / 10 < 10 by omega)]

theorem fractionDigits_spec {n : Nat} (hn : n < 100) :
    (∀ c ∈ fractionDigits n, c.isDigit = true) ∧ (fractionDigits n).getLast? ≠ some '0' ∧
      100 * Nat.ofDigitChars 10 (fractionDigits n) 0 = n * 10 ^ (fractionDigits n).length := by
  have htens : n / 10 < 10 := by omega
  have hones : n % 10 < 10 := Nat.mod_lt _ (by decide)
  unfold fractionDigits
  split
  next hzero => simp [hzero]
  next hpos =>
    split
    next hround =>
      have hlast : n / 10 ≠ 0 := by omega
      refine ⟨by simp [htens], by simp [hlast], ?_⟩
      rw [Nat.ofDigitChars_cons_digitChar_of_lt_ten htens, Nat.ofDigitChars_nil,
        List.length_singleton]
      omega
    next hlast =>
      refine ⟨by simp [htens, hones], by simp [hlast], ?_⟩
      rw [Nat.ofDigitChars_cons_digitChar_of_lt_ten htens,
        Nat.ofDigitChars_cons_digitChar_of_lt_ten hones, Nat.ofDigitChars_nil]
      change _ = n * 10 ^ 2
      omega

/-- The parts of the decimal that is written. -/
def decimal (h : Hundredths) : Decimal where
  negative := h.count < 0
  whole := Nat.toDigits 10 (h.count.natAbs / 100)
  fraction := fractionDigits (h.count.natAbs % 100)

variable (h : Hundredths)

theorem toList_text : h.text.toList = h.decimal.chars := by
  rw [text, String.toList_append, String.toList_append, toList_fraction (Nat.mod_lt _ (by decide)),
    Nat.toString_eq_ofList_toDigits, String.toList_ofList, List.append_assoc]
  by_cases hneg : h.count < 0 <;> simp [Decimal.chars, Decimal.body, decimal, hneg]

/-- The digits before and behind the point, read as one number, are the hundredths up to the zeros
that are left out. -/
theorem ofDigitChars_digits (n : Nat) :
    100 * Nat.ofDigitChars 10 (Nat.toDigits 10 (n / 100) ++ fractionDigits (n % 100)) 0 =
      n * 10 ^ (fractionDigits (n % 100)).length := by
  have hfraction := (fractionDigits_spec (Nat.mod_lt n (by decide))).2.2
  rw [Nat.ofDigitChars_append, Nat.ofDigitChars_ten_toDigits, Nat.ofDigitChars_eq_ofDigitChars_zero,
    Nat.mul_add, hfraction, Nat.mul_left_comm, Nat.mul_comm (n % 100), ← Nat.mul_add,
    Nat.div_add_mod, Nat.mul_comm]

theorem value_decimal : h.decimal.value = h.value := by
  have hdigits : (100 : ℚ) * Nat.ofDigitChars 10 (h.decimal.whole ++ h.decimal.fraction) 0 =
      h.count.natAbs * 10 ^ h.decimal.fraction.length := by
    exact_mod_cast ofDigitChars_digits h.count.natAbs
  have hmagnitude : (Nat.ofDigitChars 10 (h.decimal.whole ++ h.decimal.fraction) 0 : ℚ) /
      10 ^ h.decimal.fraction.length = h.count.natAbs / 100 := by
    rw [div_eq_div_iff (pow_ne_zero _ (by norm_num)) (by norm_num), mul_comm, hdigits]
  rw [Decimal.value, hmagnitude, value, Nat.cast_natAbs, Int.cast_abs]
  by_cases hneg : h.count < 0
  · have hneg' : (h.count : ℚ) < 0 := by exact_mod_cast hneg
    rw [decimal, decide_eq_true hneg, if_pos rfl, abs_of_neg hneg']
    ring
  · have hpos : (0 : ℚ) ≤ h.count := by exact_mod_cast not_lt.mp hneg
    rw [decimal, decide_eq_false hneg, if_neg Bool.false_ne_true, abs_of_nonneg hpos, one_mul]

theorem head?_toDigits_ne {n : Nat} (hn : 0 < n) : (Nat.toDigits 10 n).head? ≠ some '0' := by
  induction n using Nat.strongRecOn with
  | ind n ih =>
      rcases Nat.lt_or_ge n 10 with hlt | hge
      · rw [Nat.toDigits_of_lt_base hlt]
        exact fun he => hn.ne' (Nat.digitChar_eq_zero.mp (Option.some.inj he))
      · have hhead := ih (n / 10) (by omega) (by omega)
        rw [Nat.toDigits_of_base_le (by decide) hge,
          List.head?_append_of_ne_nil _ Nat.toDigits_ne_nil]
        exact hhead

theorem isPlain_decimal : h.decimal.IsPlain := by
  obtain ⟨hdigits, hlast, -⟩ :=
    fractionDigits_spec (Nat.mod_lt h.count.natAbs (by decide : 0 < 100))
  refine ⟨?_, Nat.toDigits_ne_nil, ?_, hlast, ?_⟩
  · intro c hc
    rcases List.mem_append.mp hc with hc | hc
    · exact Nat.isDigit_of_mem_toDigits (by decide) (by decide) hc
    · exact hdigits c hc
  · intro hhead
    rcases Nat.eq_zero_or_pos (h.count.natAbs / 100) with hzero | hpos
    · rw [decimal, hzero, Nat.toDigits_zero]
    · exact absurd hhead (head?_toDigits_ne hpos)
  · intro hneg
    have hne : (h.count : ℚ) ≠ 0 := by exact_mod_cast (of_decide_eq_true hneg).ne
    rw [value_decimal]
    exact div_ne_zero hne (by norm_num)

theorem spells_text : Decimal.Spells h.text h.value :=
  ⟨h.decimal, h.toList_text, h.isPlain_decimal, h.value_decimal⟩

/-- The text of hundredths reads as their decimal. There is one point at most, and the sign is the
first character if it is there at all, since digits are neither. -/
theorem ofChars?_text : Decimal.ofChars? h.text.toList = some h.decimal := by
  rw [toList_text, Decimal.ofChars?_chars h.isPlain_decimal]

/-! ## Two digits, trimmed -/

/-- The text never has a sign in front of zero. -/
theorem text_ne : h.text ≠ "-0" := by
  intro he
  have hread := h.ofChars?_text
  have hzero : Decimal.ofChars? "-0".toList = some ⟨true, ['0'], []⟩ := rfl
  rw [he, hzero, Option.some.injEq] at hread
  have hsigned := h.isPlain_decimal.signed
  rw [← hread] at hsigned
  have hdigits : Nat.ofDigitChars 10 ['0'] 0 = 0 := rfl
  exact hsigned rfl (by simp [Decimal.value, hdigits])

theorem digitChar_ne_dot {n : Nat} (hn : n < 10) : n.digitChar ≠ '.' := by
  intro he
  have hdigit : n.digitChar.isDigit = true := by simp [hn]
  exact absurd (he ▸ hdigit) (by decide)

/-- Trimming the zeros behind the point, and then the point. The point keeps the zeros before it
from being trimmed, and the digit before the point keeps the rest. -/
theorem trimEnd_digits {front : List Char} {d : Char} (hd : d ≠ '.') {a b : Nat} (ha : a < 10)
    (hb : b < 10) :
    Text.trimEnd '.' (Text.trimEnd '0'
        (String.ofList (front ++ [d] ++ ['.'] ++ [a.digitChar] ++ [b.digitChar]))) =
      String.ofList (front ++ [d] ++ if fractionDigits (10 * a + b) = [] then []
        else '.' :: fractionDigits (10 * a + b)) := by
  have hzero : Nat.digitChar 0 = '0' := rfl
  have hlast : (10 * a + b) % 10 = b := by omega
  have hfirst : (10 * a + b) / 10 = a := by omega
  rw [fractionDigits, hlast, hfirst]
  by_cases hb0 : b = 0
  · subst hb0
    rw [hzero, Text.trimEnd_concat_self]
    by_cases ha0 : a = 0
    · subst ha0
      rw [hzero, Text.trimEnd_concat_self, Text.trimEnd_concat_of_ne (by decide),
        Text.trimEnd_concat_self, Text.trimEnd_concat_of_ne hd]
      simp
    · have hne : a.digitChar ≠ '0' := fun he => ha0 (Nat.digitChar_eq_zero.mp he)
      rw [Text.trimEnd_concat_of_ne hne, Text.trimEnd_concat_of_ne (digitChar_ne_dot ha)]
      simp [ha0]
  · have hne : b.digitChar ≠ '0' := fun he => hb0 (Nat.digitChar_eq_zero.mp he)
    rw [Text.trimEnd_concat_of_ne hne, Text.trimEnd_concat_of_ne (digitChar_ne_dot hb)]
    simp [hb0]

/-- Trimming the text with two digits leaves the digits of the decimal, behind the given sign. -/
theorem trimEnd_fixed (negative : Bool) :
    Text.trimEnd '.' (Text.trimEnd '0' (h.fixed negative)) =
      String.ofList { h.decimal with negative := negative }.chars := by
  have htens : h.count.natAbs / 10 % 10 < 10 := Nat.mod_lt _ (by decide)
  have hones : h.count.natAbs % 10 < 10 := Nat.mod_lt _ (by decide)
  obtain ⟨ds, d, hwhole⟩ :=
    (List.eq_nil_or_concat' h.decimal.whole).resolve_left h.isPlain_decimal.whole_ne_nil
  have hd : d.isDigit = true := h.isPlain_decimal.digits d (by simp [hwhole])
  let front := (if negative then ['-'] else []) ++ ds
  have hfixed : h.fixed negative = String.ofList (front ++ [d] ++ ['.'] ++
      [(h.count.natAbs / 10 % 10).digitChar] ++ [(h.count.natAbs % 10).digitChar]) := by
    have hdigits : Nat.toDigits 10 (h.count.natAbs / 100) = ds ++ [d] := hwhole
    apply String.toList_injective
    cases negative <;>
      simp [fixed, front, hdigits, Nat.toDigits_of_lt_base htens, Nat.toDigits_of_lt_base hones]
  have hfraction : h.decimal.fraction =
      fractionDigits (10 * (h.count.natAbs / 10 % 10) + h.count.natAbs % 10) :=
    congrArg fractionDigits (by omega)
  rw [hfixed, trimEnd_digits (fun he => absurd (he ▸ hd) (by decide)) htens hones, ← hfraction]
  simp [Decimal.chars, Decimal.body, front, hwhole]

end Hundredths

end Schematic
