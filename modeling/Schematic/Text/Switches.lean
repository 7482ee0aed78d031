/-!
# Classes of code points as switch lists

A class of characters is written as the increasing list of the code points at which membership
changes: the first one begins the first run of the class, the second is the first code point after
that run, and so on. A code point is a member exactly when an odd number of switches lie at or
before it. The character tables beside this module are such lists.
-/

namespace Schematic.Text

/-- Membership of the code point `n` in the class described by `switches`. -/
def isInside (switches : List Nat) (n : Nat) : Bool :=
  switches.countP (fun s => decide (s ≤ n)) % 2 == 1

end Schematic.Text
