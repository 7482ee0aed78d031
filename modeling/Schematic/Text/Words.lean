import Schematic.Pieces
import Schematic.Text.Blank

/-!
# Words

The maximal runs of characters outside a class; words are the runs between blanks.
-/

namespace Schematic.Text

/-- The maximal non-empty runs of characters that do not satisfy `cut`. -/
def runs (cut : Char → Bool) (s : String) : List String :=
  ((pieces cut s.toList).filter fun w => !w.isEmpty).map String.ofList

/-- The words of a text: its runs between blanks. -/
def words (s : String) : List String :=
  runs isBlank s

end Schematic.Text
