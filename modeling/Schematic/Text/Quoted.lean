import Schematic.Text.Printable

/-!
# Quoted texts

How a message shows a text taken from the input. The text stands between single quotes, or between
double quotes when it holds a single quote and no double quote. Backslashes, the quote in use, and
characters that do not print are escaped; every other character is shown as it is.
-/

namespace Schematic.Text

/-- `n` in `width` hexadecimal digits. -/
def hexadecimal (width n : Nat) : List Char :=
  (List.range width).reverse.map fun k => Nat.digitChar (n / Nat.pow 16 k % 16)

/-- The quote that needs fewer escapes, the single one if both do. -/
def quoteFor (cs : List Char) : Char :=
  if cs.contains '\'' && !cs.contains '"' then '"' else '\''

/-- One character as it stands between the quotes `quote`. -/
def escaped (quote c : Char) : List Char :=
  if c = quote || c = '\\' then ['\\', c]
  else if c = '\n' then ['\\', 'n']
  else if c = '\r' then ['\\', 'r']
  else if c = '\t' then ['\\', 't']
  else if isPrintable c then [c]
  else if c.toNat < 0x100 then '\\' :: 'x' :: hexadecimal 2 c.toNat
  else if c.toNat < 0x10000 then '\\' :: 'u' :: hexadecimal 4 c.toNat
  else '\\' :: 'U' :: hexadecimal 8 c.toNat

/-- A text between quotes, ready to stand in a message. -/
def quoted (s : String) : String :=
  let quote := quoteFor s.toList
  String.ofList (quote :: s.toList.flatMap (escaped quote) ++ [quote])

end Schematic.Text
