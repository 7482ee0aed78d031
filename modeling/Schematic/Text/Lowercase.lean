import Schematic.Text.CaseTable
import Schematic.Text.Switches

/-!
# The small form of a text

Keywords, directive names, roles and mode names are compared and stored in small letters. Every
capital goes to its small letter on its own, with two exceptions: the dotted capital I becomes two
characters, and the capital sigma becomes the final sigma when it ends a word, that is when the
nearest character before it that is not passed over is a cased letter and the nearest one after it
is not.
-/

namespace Schematic.Text

/-- A letter that has case. -/
def isCased (c : Char) : Bool := isInside casedSwitches c.toNat

/-- A mark that is passed over when the neighbour of a letter is looked for. -/
def isPassedOver (c : Char) : Bool := isInside passedOverSwitches c.toNat

def smallChar (c : Char) : List Char :=
  if c.toNat < 128 then [c.toLower]
  else if c.toNat = 0x130 then ['i', '\u0307']
  else
    match smallRuns.find? fun r =>
        decide (r.first ≤ c.toNat ∧ c.toNat ≤ r.last ∧ (c.toNat - r.first) % r.stride = 0) with
    | some r => [Char.ofNat (c.toNat + r.shift).toNat]
    | none => [c]

/-- The nearest character that is not passed over is a cased letter. -/
def startsCased (cs : List Char) : Bool :=
  (cs.dropWhile isPassedOver).head?.any isCased

/-- The small form of a text, where `afterCased` tells whether a cased letter, perhaps followed by
characters that are passed over, stands right before it. -/
def smallFrom (afterCased : Bool) : List Char → List Char
  | [] => []
  | c :: cs =>
    let small :=
      if c.toNat = 0x3a3 then
        if afterCased && !startsCased cs then ['\u03c2'] else ['\u03c3']
      else smallChar c
    small ++ smallFrom (if isPassedOver c then afterCased else isCased c) cs

/-- The small form of a text. A text of the basic range is changed letter by letter. -/
def lower (s : String) : String :=
  if s.toList.all fun c => decide (c.toNat < 128) then
    String.ofList (s.toList.map Char.toLower)
  else String.ofList (smallFrom false s.toList)

end Schematic.Text
