/-!
# Blank characters

The characters that separate words and carry nothing themselves: line ends, tabs, the four
information separators, the plain space and the typographic spaces. Zero-width characters and the
byte order mark are not blank.
-/

namespace Schematic.Text

def wideBlanks : List Nat :=
  [0x85, 0xa0, 0x1680, 0x2000, 0x2001, 0x2002, 0x2003, 0x2004, 0x2005, 0x2006, 0x2007, 0x2008,
   0x2009, 0x200a, 0x2028, 0x2029, 0x202f, 0x205f, 0x3000]

def isBlank (c : Char) : Bool :=
  let n := c.toNat
  n == 32 || decide (9 ≤ n ∧ n ≤ 13) || decide (28 ≤ n ∧ n ≤ 31) || wideBlanks.contains n

/-- The text without the blank characters at its two ends. -/
def trim (s : String) : String :=
  String.ofList ((s.toList.dropWhile isBlank).reverse.dropWhile isBlank).reverse

/-- The text without the characters `c` at its end. -/
def trimEnd (c : Char) (s : String) : String :=
  String.ofList (s.toList.reverse.dropWhile (· == c)).reverse

end Schematic.Text
