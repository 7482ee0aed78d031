import Schematic.Dialect.Basic
import Schematic.Reading.Phrase
import Schematic.Text.Words

/-!
# Field rows

One row of an entity's body: an optional visibility mark, a name, an optional type, constraints. A
row with both parentheses is a method, whose name is its whole signature. The mark may stand by
itself or, as a dash, be the first character of the name.
-/

namespace Schematic

namespace FieldRow

/-- The visibility that a mark stands for. -/
def markVisibility? : String → Option Visibility
  | "+" => some .everyone
  | "-" => some .nobody
  | "#" => some .heirs
  | "~" => some .package
  | _ => none

/-- The visibility mark of a row and the row without it. -/
def splitMark : List Token → Option Visibility × List Token
  | [] => (none, [])
  | t :: ts =>
    match t.kind, markVisibility? t.text, t.text.toList with
    | .other, some v, _ => (some v, ts)
    | .dash, some v, _ => (some v, ts)
    | .ident, _, '-' :: c :: cs =>
      (some .nobody,
        ⟨.ident, String.ofList (c :: cs), ⟨t.place.line, t.place.column + 1⟩⟩ :: ts)
    | _, _, _ => (none, t :: ts)

/-- Both parentheses occur in the row. -/
def isMethod (row : List Token) : Bool :=
  let text := (Phrase.closed row).toList
  text.contains '(' && text.contains ')'

/-- The tokens up to the first closing parenthesis, which is included, and the tokens behind it. -/
def splitParenthesis : List Token → List Token × List Token
  | [] => ([], [])
  | t :: ts =>
    if t.text = ")" then ([t], ts)
    else
      let s := splitParenthesis ts
      (t :: s.1, s.2)

/-- The tokens without a colon before them, which counts only if something follows it. -/
def passColon : List Token → List Token
  | t :: u :: rest => if t.kind = .colon then u :: rest else t :: u :: rest
  | tokens => tokens

/-- The type of a field, if a word leads `tokens`, and what follows it. -/
def splitType : List Token → Option String × List Token
  | [] => (none, [])
  | t :: rest => if t.kind.isWord then (some t.text, rest) else (none, t :: rest)

/-- The field that starts with the word `head`, followed by `rest`. -/
def field (visibility : Option Visibility) (head : Token) (rest : List Token) : Field :=
  let method := isMethod (head :: rest)
  let (arguments, rest) := if method then splitParenthesis rest else ([], rest)
  let name := if method then Phrase.signature (head :: arguments) else head.text
  let (type, rest) := splitType (passColon rest)
  let constraints :=
    Text.trim (" ".intercalate ((rest.filter fun t => t.kind != .comma).map Token.text))
  { name := name
    type := type
    constraints := Text.words constraints
    visibility := visibility
    memberType := if method then .method else .field
    raw := " ".intercalate ([name, type.getD "", constraints].filter fun s => !s.isEmpty) }

/-- The field that a row describes, if it begins with a word. -/
def read? (dialect : Dialect) (row : List Token) : Option Field :=
  let (visibility, row) := if dialect.visibilityMarks then splitMark row else (none, row)
  match row.filter fun t => t.kind != .comment with
  | [] => none
  | head :: rest => if head.kind.isWord then some (field visibility head rest) else none

/-- A row is over at a line end, at a closing brace, and at the end of the input. -/
def endsRow (t : Token) : Bool := t.kind.endsLine || t.kind == .closeBrace

/-- The rows between two braces: the lines, without the comments that may stand before them. -/
def rows (body : List Token) : List (List Token) :=
  (pieces (fun t => t.kind == .newline) body).map fun row =>
    row.dropWhile fun t => t.kind == .comment

def readAll (dialect : Dialect) (body : List Token) : List Field :=
  (rows body).filterMap (read? dialect)

end FieldRow

end Schematic
