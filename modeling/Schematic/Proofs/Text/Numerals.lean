/-!
# Numbers as they are written

Different numbers are written differently, also when two of them stand side by side with a character
between them that is not a digit.
-/

namespace Schematic.Text

theorem toDigits_inj {m n : Nat} (h : Nat.toDigits 10 m = Nat.toDigits 10 n) : m = n := by
  have hvalue := congrArg (Nat.ofDigitChars 10 · 0) h
  simp only [Nat.ofDigitChars_ten_toDigits] at hvalue
  exact hvalue

theorem toString_nat_inj {m n : Nat} (h : toString m = toString n) : m = n := by
  rw [Nat.toString_eq_ofList_toDigits, Nat.toString_eq_ofList_toDigits] at h
  exact toDigits_inj (String.ofList_injective h)

/-- The first character that is not a digit tells where the first number ends. So both numbers end
there, and a number is told by its digits. -/
theorem toDigits_append_inj {c : Char} (hc : c.isDigit = false) {m n : Nat} {xs ys : List Char}
    (h : Nat.toDigits 10 m ++ c :: xs = Nat.toDigits 10 n ++ c :: ys) : m = n ∧ xs = ys := by
  have digits (k : Nat) (zs : List Char) :
      (Nat.toDigits 10 k ++ c :: zs).takeWhile Char.isDigit = Nat.toDigits 10 k := by
    rw [List.takeWhile_append_of_pos fun d hd =>
      Nat.isDigit_of_mem_toDigits (by omega) (by omega) hd]
    simp [hc]
  have htake := congrArg (List.takeWhile Char.isDigit) h
  rw [digits, digits] at htake
  obtain rfl := toDigits_inj htake
  exact ⟨rfl, (List.cons.inj (List.append_cancel_left h)).2⟩

end Schematic.Text
