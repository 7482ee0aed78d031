/-!
# Control sequences

A terminal obeys some characters instead of showing them: an escape and an opening bracket, then any
parameter characters, then any intermediate characters, then one final character. What is shown to a
reader who may not sit before a terminal goes without these sequences. An escape that begins no
whole sequence is a character like any other, and what moves together when a sequence is taken out
is not looked at again.
-/

namespace Schematic.Text

/-- A character that stands for parameters inside a control sequence. -/
def isParameter (c : Char) : Bool := decide (0x30 ≤ c.toNat ∧ c.toNat ≤ 0x3f)

/-- A character between the parameters and the end of a control sequence. -/
def isIntermediate (c : Char) : Bool := decide (0x20 ≤ c.toNat ∧ c.toNat ≤ 0x2f)

/-- A character that ends a control sequence. -/
def isFinal (c : Char) : Bool := decide (0x40 ≤ c.toNat ∧ c.toNat ≤ 0x7e)

/-- What stands behind the control sequence at the head, if there is one. -/
def behindSequence? : List Char → Option (List Char)
  | '\x1b' :: '[' :: cs =>
    match (cs.dropWhile isParameter).dropWhile isIntermediate with
    | c :: rest => if isFinal c then some rest else none
    | [] => none
  | _ => none

theorem length_behindSequence? {cs rest : List Char} (h : behindSequence? cs = some rest) :
    rest.length < cs.length := by
  fun_cases behindSequence? cs with
  | case1 cs c tail hdrop hc =>
    have h₁ := (List.dropWhile_sublist isIntermediate (l := cs.dropWhile isParameter)).length_le
    have h₂ := (List.dropWhile_sublist isParameter (l := cs)).length_le
    simp only [behindSequence?, hdrop, hc, if_true, Option.some.injEq] at h
    rw [hdrop, List.length_cons] at h₁
    simp only [← h, List.length_cons]
    omega
  | case2 cs c tail hdrop hc =>
    rw [behindSequence?, hdrop] at h
    exact absurd (Option.ite_none_right_eq_some.mp h).1 hc
  | case3 cs hdrop =>
    rw [behindSequence?, hdrop] at h
    cases h
  | case4 => simp_all [behindSequence?]

/-- The characters that are not part of a control sequence. -/
def dropSequences (cs : List Char) : List Char :=
  match cs with
  | [] => []
  | c :: tail =>
    match _h : behindSequence? (c :: tail) with
    | some rest => dropSequences rest
    | none => c :: dropSequences tail
termination_by cs.length
decreasing_by
  · exact length_behindSequence? _h
  · simp

/-- A text without control sequences, as it is shown. -/
def shown (s : String) : String := String.ofList (dropSequences s.toList)

end Schematic.Text
