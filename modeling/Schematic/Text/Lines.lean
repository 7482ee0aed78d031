import Schematic.Pieces

/-!
# Line ends

A text that comes from outside may end its lines with a line feed, a carriage return, or both in
this order. Inside, a line ends with a line feed only. Where a text is shown line by line, the other
characters that begin a new line or a new page count as well.
-/

namespace Schematic.Text

def feedsOnly : List Char → List Char
  | '\r' :: '\n' :: cs => '\n' :: feedsOnly cs
  | '\r' :: cs => '\n' :: feedsOnly cs
  | c :: cs => c :: feedsOnly cs
  | [] => []

/-- The text with every line end as a line feed. -/
def unifyLineEnds (s : String) : String := String.ofList (feedsOnly s.toList)

def isLineEnd (c : Char) : Bool :=
  let n := c.toNat
  decide (10 ≤ n ∧ n ≤ 13) || decide (28 ≤ n ∧ n ≤ 30) || [0x85, 0x2028, 0x2029].contains n

/-- The lines of a text as it is shown. -/
def lines (s : String) : List String := (pieces isLineEnd (feedsOnly s.toList)).map String.ofList

end Schematic.Text
