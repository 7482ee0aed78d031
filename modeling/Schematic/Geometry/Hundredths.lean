import Schematic.Geometry.Path
import Schematic.Text.Blank

/-!
# Numbers as they are written

Every number that leaves the program is a multiple of one hundredth: the nearest one, and of two
equally near the even one. It is written as an integer when it is whole, else with one or two
digits behind the point.

In the path of an edge the hundredths themselves are written, with two digits that are then trimmed.
Everywhere else the scalar is rounded to the one nearest to them first, and the shortest decimal
that stands for the rounded scalar is written; the two texts differ where scalars lie further apart
than hundredths.
-/

namespace Schematic

/-- The integer nearest to `n / d`, the even one of two equally near. -/
def roundHalfEven (n d : Nat) : Nat :=
  let q := n / d
  let r := n % d
  if 2 * r < d then q
  else if d < 2 * r then q + 1
  else q + q % 2

/-- A number of hundredths. -/
structure Hundredths where
  count : Int
deriving Repr, DecidableEq

namespace Hundredths

/-- The digits behind the point, without zeros at the end. -/
def fraction (n : Nat) : String :=
  if n = 0 then ""
  else if n % 10 = 0 then "." ++ toString (n / 10)
  else if n < 10 then ".0" ++ toString n
  else "." ++ toString n

def text (h : Hundredths) : String :=
  let n := h.count.natAbs
  (if h.count < 0 then "-" else "") ++ toString (n / 100) ++ fraction (n % 100)

/-- The text with two digits behind the point. The sign is given, as zero may have one too. -/
def fixed (negative : Bool) (h : Hundredths) : String :=
  let n := h.count.natAbs
  (if negative then "-" else "") ++ toString (n / 100) ++ "." ++ toString (n / 10 % 10) ++
    toString (n % 10)

end Hundredths

/-- Scalars that can be written. -/
class Written (α : Type) where
  /-- The nearest hundredth, the even one of two equally near. -/
  hundredths : α → Hundredths
  /-- The scalar has a minus sign. A number that rounds to zero keeps it. -/
  negative : α → Bool
  /-- Where there are hundredths, the sign is theirs. -/
  negative_eq : ∀ x, (hundredths x).count ≠ 0 → negative x = decide ((hundredths x).count < 0)
  /-- The scalar nearest to a number of hundredths. -/
  ofHundredths : Hundredths → α
  /-- The shortest decimal that stands for a scalar which is nearest to some hundredths. -/
  shortest : α → Hundredths

/-- The scalar nearest to the hundredths that are nearest to `x`. -/
def Written.rounded {α : Type} [Written α] (x : α) : α := ofHundredths (hundredths x)

namespace PathCommand

variable {α : Type} [Written α]

/-- Two digits behind the point, less the zeros at the end, less a point that is then at the end,
less the sign of zero. -/
def number (x : α) : String :=
  let digits := (Written.hundredths x).fixed (Written.negative x)
  let text := Text.trimEnd '.' (Text.trimEnd '0' digits)
  if text = "-0" then "0" else text

/-- The coordinates of a point, with a space between them. -/
def point (p : Point α) : String := number p.x ++ " " ++ number p.y

/-- A command in the notation of vector graphics. -/
def text : PathCommand α → String
  | .move p => "M " ++ point p
  | .line p => "L " ++ point p
  | .curve c p => "Q " ++ point c ++ " " ++ point p

end PathCommand

namespace Path

variable {α : Type} [Written α]

/-- A path in the notation of vector graphics. -/
def text (commands : List (PathCommand α)) : String :=
  " ".intercalate (commands.map PathCommand.text)

end Path

end Schematic
