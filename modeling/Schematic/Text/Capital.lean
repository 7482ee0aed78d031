/-!
# Letters of the basic range by case

Option values are compared with words of the basic range without regard to case. A few characters
outside that range take part: the ligatures and other letters whose capital form is made of basic
letters, and the long s, which counts as an s. The two tables here list, for characters outside
the basic range, only what can reach a basic letter; all other characters stay as they are, which
no word of the basic range can tell apart from their real forms.
-/

namespace Schematic.Text

/-- Letters outside the basic range whose capital form holds basic letters, each with that form. -/
def wideCapitals : List (Nat × List Char) :=
  [(0xdf, ['S', 'S']), (0x131, ['I']), (0x149, ['\u02bc', 'N']), (0x17f, ['S']),
   (0x1f0, ['J', '\u030c']), (0x1e96, ['H', '\u0331']), (0x1e97, ['T', '\u0308']),
   (0x1e98, ['W', '\u030a']), (0x1e99, ['Y', '\u030a']), (0x1e9a, ['A', '\u02be']),
   (0xfb00, ['F', 'F']), (0xfb01, ['F', 'I']), (0xfb02, ['F', 'L']), (0xfb03, ['F', 'F', 'I']),
   (0xfb04, ['F', 'F', 'L']), (0xfb05, ['S', 'T']), (0xfb06, ['S', 'T'])]

/-- The capital form of a character, as far as it holds letters of the basic range. -/
def basicCapital (c : Char) : List Char :=
  (wideCapitals.lookup c.toNat).getD [c.toUpper]

/-- The capital form of a text, as far as it holds letters of the basic range. -/
def basicCapitals (s : String) : List Char :=
  s.toList.flatMap basicCapital

/-- Letters outside the basic range that match basic letters when case is disregarded. -/
def wideFolds : List (Nat × List Char) :=
  [(0xdf, ['s', 's']), (0x130, ['i', '\u0307']), (0x149, ['\u02bc', 'n']), (0x17f, ['s']),
   (0x1f0, ['j', '\u030c']), (0x1e96, ['h', '\u0331']), (0x1e97, ['t', '\u0308']),
   (0x1e98, ['w', '\u030a']), (0x1e99, ['y', '\u030a']), (0x1e9a, ['a', '\u02be']),
   (0x1e9e, ['s', 's']), (0x212a, ['k']), (0xfb00, ['f', 'f']), (0xfb01, ['f', 'i']),
   (0xfb02, ['f', 'l']), (0xfb03, ['f', 'f', 'i']), (0xfb04, ['f', 'f', 'l']),
   (0xfb05, ['s', 't']), (0xfb06, ['s', 't'])]

/-- The form of a text under which basic letters are compared without regard to case. -/
def basicFold (s : String) : String :=
  String.ofList (s.toList.flatMap fun c => (wideFolds.lookup c.toNat).getD [c.toLower])

end Schematic.Text
