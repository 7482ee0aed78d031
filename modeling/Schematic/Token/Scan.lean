import Schematic.Diagnostic
import Schematic.Text.Alphanumeric
import Schematic.Text.Blank

/-!
# From a text to its tokens

The text is cut, from the left, into lexemes: at each point one rule looks at the characters ahead,
takes one or more of them, and says which token they make. The sources of the lexemes laid end to
end are the text, blanks included, which make no token. Nothing is ever refused: a character
without a meaning becomes a token of kind `other` with a note, and a string without its closing
quote runs to the end of the text with a warning.

Dashes need the most care, because they may stand in names and also make connectors. A run of
dashes at the head of a lexeme is an arrow if `>` follows, the beginning of a name if a name
character follows, and a plain connector otherwise. Inside a name, a dash ends the name exactly
when the run of dashes it begins is followed by `>`.
-/

namespace Schematic

namespace Token

open Text (isBlank isAlphanumeric)

/-! ## Names -/

def isNameChar (c : Char) : Bool :=
  isAlphanumeric c || c == '_' || c == '-' || c == '.'

/-- The run of dashes at the head of `cs`. -/
def dashes (cs : List Char) : List Char := cs.takeWhile (· == '-')

/-- What follows the run of dashes at the head of `cs`. -/
def afterDashes (cs : List Char) : List Char := cs.dropWhile (· == '-')

def nameTail : List Char → List Char
  | [] => []
  | c :: cs =>
    if isNameChar c && !(c == '-' && (afterDashes cs).head? == some '>') then c :: nameTail cs
    else []

/-- What a run of name characters is: dashes and points alone are a dotted connector, digits and
points with at least one digit are a number, anything else is an identifier. -/
def nameKind (text : List Char) : Kind :=
  if text.contains '-' && text.all fun c => c == '-' || c == '.' then .dash
  else if (text.all fun c => c.isDigit || c == '.') && text.any Char.isDigit then .number
  else .ident

/-! ## Strings -/

/-- What stands behind an opening quote: the text with its escapes undone, the number of
characters up to and including the closing quote, and whether there is one. -/
structure Quotation where
  text : List Char
  width : Nat
  closed : Bool
deriving Repr, DecidableEq

/-- Reads up to the next `quote` that is not escaped. A backslash stands for the character after
it, whatever that is. -/
def quotation (quote : Char) : List Char → Quotation
  | [] => ⟨[], 0, false⟩
  | ['\\'] => ⟨[], 1, false⟩
  | '\\' :: c :: cs =>
    let q := quotation quote cs
    ⟨c :: q.text, q.width + 2, q.closed⟩
  | c :: cs =>
    if c == quote then ⟨[], 1, true⟩
    else
      let q := quotation quote cs
      ⟨c :: q.text, q.width + 1, q.closed⟩

/-! ## The rule for one lexeme -/

/-- The marks that are a token by themselves. -/
def punctuation? : Char → Option Kind
  | '{' => some .openBrace
  | '}' => some .closeBrace
  | '[' => some .openBracket
  | ']' => some .closeBracket
  | ':' => some .colon
  | ',' => some .comma
  | '|' => some .pipe
  | '@' => some .atSign
  | _ => none

/-- What the characters ahead make: the kind of token, if any, its text, how many characters after
the first belong to it, and what was wrong. -/
structure Shape where
  kind? : Option Kind
  text : List Char
  extra : Nat
  problem? : Option Problem
deriving Repr, DecidableEq

/-- A token whose text is its source. -/
def Shape.verbatim (kind : Kind) (text : List Char) : Shape :=
  ⟨some kind, text, text.length - 1, none⟩

/-- The text `c :: cs` begins with a comment mark. -/
def startsComment (c : Char) (cs : List Char) : Bool :=
  (c == '/' && cs.head? == some '/') || (c == '%' && cs.head? == some '%')

/-- The shape of `c :: cs` when `c` opens a name. -/
def nameShape (c : Char) (cs : List Char) : Shape :=
  let text := c :: nameTail cs
  .verbatim (nameKind text) text

/-- The shape of `'-' :: cs`. -/
def dashShape (cs : List Char) : Shape :=
  match (afterDashes cs).head? with
  | none => .verbatim .dash ('-' :: dashes cs)
  | some c =>
    if c == '>' then .verbatim .arrow ('-' :: dashes cs ++ ['>'])
    else if isNameChar c then nameShape '-' cs
    else .verbatim .dash ('-' :: dashes cs)

/-- The shape of `'<' :: cs`. -/
def angleShape (cs : List Char) : Shape :=
  if (afterDashes cs).head? == some '>' then .verbatim .bidirectional ('<' :: dashes cs ++ ['>'])
  else if (dashes cs).isEmpty then .verbatim .less ['<']
  else .verbatim .reverseArrow ('<' :: dashes cs)

/-- The shape of `quote :: cs`. -/
def stringShape (quote : Char) (cs : List Char) : Shape :=
  let q := quotation quote cs
  ⟨some .string, q.text, q.width, if q.closed then none else some .openString⟩

/-- What the text `c :: cs` begins with. -/
def shape (c : Char) (cs : List Char) : Shape :=
  if c == '\n' then .verbatim .newline ['\n']
  else if isBlank c then ⟨none, [], 0, none⟩
  else if startsComment c cs then .verbatim .comment (c :: cs.takeWhile (· != '\n'))
  else if c == '-' then dashShape cs
  else if c == '<' then angleShape cs
  else if c == '>' then .verbatim .greater ['>']
  else if c == '"' || c == '\'' then stringShape c cs
  else if isNameChar c then nameShape c cs
  else
    match punctuation? c with
    | some kind => .verbatim kind [c]
    | none => ⟨some .other, [c], 0, some (.unknownCharacter c)⟩

/-! ## Cutting a whole text -/

/-- A stretch of the text with the place where it begins and the shape the rules gave it. -/
structure Lexeme where
  place : Place
  source : List Char
  shape : Shape
deriving Repr, DecidableEq

namespace Lexeme

/-- The token a lexeme makes; blanks make none. -/
def token? (x : Lexeme) : Option Token :=
  x.shape.kind?.map fun kind => ⟨kind, String.ofList x.shape.text, x.place⟩

def diagnostic? (x : Lexeme) : Option Diagnostic :=
  x.shape.problem?.map fun problem => ⟨x.place, problem⟩

end Lexeme

/-- The lexemes of a text that begins at `p`. -/
def lexemes (p : Place) : List Char → List Lexeme
  | [] => []
  | c :: cs =>
    let s := shape c cs
    let source := c :: cs.take s.extra
    ⟨p, source, s⟩ :: lexemes (p.after source) (cs.drop s.extra)
termination_by cs => cs.length
decreasing_by simp only [List.length_drop, List.length_cons]; omega

def endAt (p : Place) : Token := ⟨.endOfInput, "", p⟩

/-- The tokens of a text and what was tolerated in it. -/
structure Scanned where
  tokens : List Token
  diagnostics : List Diagnostic
deriving Repr, DecidableEq

/-- Cuts a text into tokens. The list always ends with the one mark for the end of the input. -/
def scan (text : String) : Scanned :=
  let cs := text.toList
  let xs := lexemes .start cs
  ⟨xs.filterMap Lexeme.token? ++ [endAt (Place.start.after cs)], xs.filterMap Lexeme.diagnostic?⟩

end Token

end Schematic
