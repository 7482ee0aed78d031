import Schematic.Classification
import Schematic.Dialect.Detection
import Schematic.Reading.Run

/-!
# From a text to a document

The text is cut into tokens, its dialect is detected unless it is given, the tokens are read, and
the archetype of the result is filled in. The diagnostics of the two stages are merged by place.
-/

namespace Schematic

namespace Reading

/-- Reads a token list, in the dialect it shows unless one is given. -/
def ofTokensIn (dialect? : Option Dialect) (tokens : List Token) : Outcome :=
  ofTokens (dialect?.getD (Dialect.detect tokens)) tokens

/-- Reads a text, in the dialect it shows unless one is given. No text is refused. -/
def ofText (text : String) (dialect? : Option Dialect := none) : Outcome :=
  let scanned := Token.scan text
  let read := ofTokensIn dialect? scanned.tokens
  ⟨read.document.classified, Diagnostic.sorted (scanned.diagnostics ++ read.diagnostics)⟩

end Reading

end Schematic
