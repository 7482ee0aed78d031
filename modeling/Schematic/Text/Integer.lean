import Schematic.Text.Blank
import Schematic.Text.Digit

/-!
# Integers as they are typed

An integer is a sign, which may be missing, and decimal digits of any scripts, with single
underscores between digits where the eye wants them. Blanks may stand around it, except for the
four information separators. There is an end to the digits that are read at all, zeros in front
included.
-/

namespace Schematic.Text

def isNumberBlank (c : Char) : Bool :=
  isBlank c && !decide (28 ≤ c.toNat ∧ c.toNat ≤ 31)

/-- The number that digits spell behind those of `n`, with single underscores between digits. -/
def naturalFrom (n : Nat) : List Char → Option Nat
  | [] => some n
  | '_' :: c :: cs =>
    match digitValue? c with
    | some d => naturalFrom (10 * n + d) cs
    | none => none
  | c :: cs =>
    match digitValue? c with
    | some d => naturalFrom (10 * n + d) cs
    | none => none

/-- The number that digits spell; there is at least one, and it comes first. -/
def natural? : List Char → Option Nat
  | [] => none
  | c :: cs =>
    match digitValue? c with
    | some d => naturalFrom d cs
    | none => none

/-- The most digits that a number may have. -/
def mostDigits : Nat := 4300

/-- The number that digits spell if there are not too many of them. -/
def boundedNatural? (cs : List Char) : Option Nat :=
  if (cs.filter (· != '_')).length ≤ mostDigits then natural? cs else none

/-- The integer that a text spells. -/
def integer? (s : String) : Option Int :=
  let inner := (s.toList.dropWhile isNumberBlank).reverse.dropWhile isNumberBlank
  match inner.reverse with
  | '-' :: cs => (boundedNatural? cs).map fun n => -(n : Int)
  | '+' :: cs => (boundedNatural? cs).map fun n => (n : Int)
  | cs => (boundedNatural? cs).map fun n => (n : Int)

end Schematic.Text
