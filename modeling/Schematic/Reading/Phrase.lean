import Schematic.Document.Basic
import Schematic.Pieces
import Schematic.Text.Blank
import Schematic.Token.Basic

/-!
# Texts made from several tokens

Labels, metadata values and attributes are written as a few tokens and stored as one text. Line
ends and comments leave no trace in it, and the rest is joined by single spaces.

Bracketed content is read in one of two ways. In the native dialect it is a list of `key: value`
pairs between commas, where a key alone is a flag; elsewhere it is a label as a whole.
-/

namespace Schematic

namespace Phrase

/-- The tokens as one text, joined by single spaces. -/
def joined (tokens : List Token) : String :=
  let shown := tokens.filter fun t => t.kind != .newline && t.kind != .comment
  Text.trim (" ".intercalate (shown.map Token.text))

/-- The texts of the tokens without anything between them. -/
def closed (tokens : List Token) : String := String.join (tokens.map Token.text)

/-- A space stands between `t` and `u` in a signature: between two words and after a comma. -/
def spaced (t u : Token) : Bool := (t.kind.isWord && u.kind.isWord) || t.kind == .comma

/-- The tokens of a method as they are usually written, `add(a int, b int)`. -/
def signature : List Token → String
  | [] => ""
  | [t] => t.text
  | t :: u :: rest => t.text ++ (if spaced t u then " " else "") ++ signature (u :: rest)

/-! ## Bracketed content -/

/-- The pairs in `key: value, key: value two`. What is not a name is passed over where a key is
looked for; a value reaches to the next comma; a key without a colon is a flag with the value
`true`. -/
def pairs : List Token → List (String × String)
  | [] => []
  | t :: ts =>
    if t.kind.isName then
      match ts with
      | [] => [(t.text, "true")]
      | u :: rest =>
        if u.kind = .colon then
          (t.text, joined (rest.takeWhile fun v => v.kind != .comma)) ::
            pairs (rest.dropWhile fun v => v.kind != .comma)
        else (t.text, "true") :: pairs (u :: rest)
    else pairs ts
termination_by ts => ts.length
decreasing_by
  · have h := (List.dropWhile_sublist (fun v : Token => v.kind != .comma) (l := rest)).length_le
    simp only [List.length_cons]
    omega
  · simp
  · simp

/-- The pairs as attributes: a repeated key keeps its first place and its last value. -/
def keyValues (tokens : List Token) : KeyedList String String :=
  .ofList (pairs tokens)

/-- The attributes that bracketed content gives in a dialect. -/
def bracketAttributes (dialect : Dialect) (content : List Token) : KeyedList String String :=
  if dialect.keyedBrackets then keyValues content
  else if (joined content).isEmpty then .empty
  else .ofList [("label", joined content)]

end Phrase

end Schematic
