import Schematic.Dialect.Basic
import Schematic.Text.Lowercase
import Schematic.Token.Basic

/-!
# Which dialect a text is written in

Only the first ten tokens that are neither line ends nor comments count. An `@` followed by a word
that begins with `start` makes the text PlantUML; a header word at the beginning of a line makes it
Mermaid; whichever of the two comes first decides. Every other text is in the native dialect.
-/

namespace Schematic

namespace Dialect

/-- How many significant tokens are looked at. -/
def detectionWindow : Nat := 10

def significant (tokens : List Token) : List Token :=
  (tokens.filter fun t => t.kind != .newline && t.kind != .comment).take detectionWindow

/-- `@` and a word that begins with `start`. -/
def opensPlantuml (t : Token) (following : List Token) : Bool :=
  t.kind == .atSign &&
    match following with
    | u :: _ => u.kind == .ident && (Text.lower u.text).startsWith "start"
    | [] => false

/-- A header word that leads its line; `previous` is the line of the token before it. -/
def opensMermaid (previous : Option Nat) (t : Token) : Bool :=
  previous != some t.place.line && t.kind == .ident && (headerType? (Text.lower t.text)).isSome

/-- The dialect that the first telling token shows. -/
def detectFrom (previous : Option Nat) : List Token → Dialect
  | [] => .native
  | t :: ts =>
    if opensPlantuml t ts then .plantuml
    else if opensMermaid previous t then .mermaid
    else detectFrom (some t.place.line) ts

def detect (tokens : List Token) : Dialect :=
  detectFrom none (significant tokens)

end Dialect

end Schematic
