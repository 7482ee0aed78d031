import Schematic.Geometry.Hundredths
import Schematic.Text.Quoted

/-!
# JSON values

What the command prints. The members of an object keep their order. The text of a value holds
characters of the basic range only: every other character is escaped by its code units.

A value is set either on one line or with one item a line, where each level moves a fixed number of
spaces to the right.
-/

namespace Schematic

/-- A JSON value. Its numbers have at most two digits behind the point. -/
inductive Json where
  | null
  | bool (b : Bool)
  | number (n : Hundredths)
  | string (s : String)
  | array (items : List Json)
  | object (members : List (String × Json))

/-- How the items of a value are set: on one line, or each on a line of its own. -/
inductive Spacing where
  | line
  | lines (step : Nat)
deriving Repr, DecidableEq

namespace Spacing

/-- The spacing that a number asks for: zero sets everything on one line, any other number is the
width of a level, and there is no moving to the left. -/
def ofIndent (n : Int) : Spacing := if n = 0 then .line else .lines n.toNat

/-- What stands in front of an item, and of the closing bracket, at the given depth. -/
def lead : Spacing → Nat → String
  | .line, _ => ""
  | .lines step, depth => String.ofList ('\n' :: List.replicate (step * depth) ' ')

/-- What stands between two items at the given depth. -/
def between : Spacing → Nat → String
  | .line, _ => ", "
  | .lines step, depth => "," ++ lead (.lines step) depth

/-- Items between brackets. The depth is that of the brackets. -/
def enclose (s : Spacing) (depth : Nat) (opening closing : Char) (items : List String) : String :=
  if items.isEmpty then String.ofList [opening, closing]
  else opening.toString ++ s.lead (depth + 1) ++ (s.between (depth + 1)).intercalate items
    ++ s.lead depth ++ closing.toString

end Spacing

namespace Json

/-! ## Strings -/

def escapedUnit (n : Nat) : List Char := '\\' :: 'u' :: Text.hexadecimal 4 n

/-- One character inside a string. A character beyond the first plane takes two code units. -/
def escaped (c : Char) : List Char :=
  if c = '"' || c = '\\' then ['\\', c]
  else if c = '\n' then ['\\', 'n']
  else if c = '\r' then ['\\', 'r']
  else if c = '\t' then ['\\', 't']
  else if c.toNat = 8 then ['\\', 'b']
  else if c.toNat = 12 then ['\\', 'f']
  else if 32 ≤ c.toNat ∧ c.toNat < 127 then [c]
  else if c.toNat < 0x10000 then escapedUnit c.toNat
  else
    escapedUnit (0xd800 + (c.toNat - 0x10000) / 0x400) ++
      escapedUnit (0xdc00 + (c.toNat - 0x10000) % 0x400)

def quoted (s : String) : String :=
  String.ofList ('"' :: s.toList.flatMap escaped ++ ['"'])

/-! ## Values -/

mutual

/-- The text of a value whose brackets stand at the given depth. -/
def textAt (s : Spacing) (depth : Nat) : Json → String
  | .null => "null"
  | .bool b => if b then "true" else "false"
  | .number n => n.text
  | .string t => quoted t
  | .array items => s.enclose depth '[' ']' (itemTexts s (depth + 1) items)
  | .object members => s.enclose depth '{' '}' (memberTexts s (depth + 1) members)

def itemTexts (s : Spacing) (depth : Nat) : List Json → List String
  | [] => []
  | j :: rest => textAt s depth j :: itemTexts s depth rest

def memberTexts (s : Spacing) (depth : Nat) : List (String × Json) → List String
  | [] => []
  | (key, j) :: rest => (quoted key ++ ": " ++ textAt s depth j) :: memberTexts s depth rest

end

def text (s : Spacing) (j : Json) : String := textAt s 0 j

/-! ## Building values -/

def count (n : Nat) : Json := .number ⟨100 * n⟩

/-- A scalar, rounded to the nearest hundredth. -/
def scalar {α : Type} [Written α] (x : α) : Json :=
  .number (Written.shortest (Written.rounded x))

def ofOption : Option String → Json
  | some s => .string s
  | none => .null

end Json

end Schematic
