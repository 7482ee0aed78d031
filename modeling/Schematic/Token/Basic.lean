/-!
# Tokens

A diagram text is read as a flat list of tokens, each with the place where it begins. The last
token of a complete list marks the end of the input. This file holds the kinds of token, the
places, and the few questions about a single token that the reading rules ask.
-/

namespace Schematic

/-- A place in a text: lines and columns count from one, columns in characters. -/
structure Place where
  line : Nat
  column : Nat
deriving Repr, DecidableEq, Inhabited

namespace Place

def start : Place := ⟨1, 1⟩

def next (p : Place) (c : Char) : Place :=
  if c = '\n' then ⟨p.line + 1, 1⟩ else ⟨p.line, p.column + 1⟩

def after (p : Place) (cs : List Char) : Place := cs.foldl next p

/-- Reading order. -/
def le (p q : Place) : Bool :=
  decide (p.line < q.line) || (p.line == q.line && decide (p.column ≤ q.column))

end Place

namespace Token

/-- The kinds of token. Connectors come in five kinds; a connector line in a diagram is any of
them. -/
inductive Kind where
  | ident
  | number
  | string
  | openBrace
  | closeBrace
  | openBracket
  | closeBracket
  | colon
  | comma
  | greater
  | less
  | arrow
  | dash
  | bidirectional
  | reverseArrow
  | pipe
  | atSign
  | comment
  | newline
  | endOfInput
  | other
deriving Repr, DecidableEq, Inhabited

namespace Kind

def name : Kind → String
  | .ident => "IDENT"
  | .number => "NUMBER"
  | .string => "STRING"
  | .openBrace => "LBRACE"
  | .closeBrace => "RBRACE"
  | .openBracket => "LBRACK"
  | .closeBracket => "RBRACK"
  | .colon => "COLON"
  | .comma => "COMMA"
  | .greater => "GT"
  | .less => "LT"
  | .arrow => "ARROW"
  | .dash => "DASH"
  | .bidirectional => "BIDIRECTIONAL"
  | .reverseArrow => "REVERSE_ARROW"
  | .pipe => "PIPE"
  | .atSign => "AT"
  | .comment => "COMMENT"
  | .newline => "NEWLINE"
  | .endOfInput => "EOF"
  | .other => "OTHER"

def all : List Kind :=
  [.ident, .number, .string, .openBrace, .closeBrace, .openBracket, .closeBracket, .colon, .comma,
   .greater, .less, .arrow, .dash, .bidirectional, .reverseArrow, .pipe, .atSign, .comment,
   .newline, .endOfInput, .other]

def ofName? (s : String) : Option Kind := all.find? fun k => k.name == s

/-- Kinds that join two ends of an edge. A lone `<` does not. -/
def isConnector : Kind → Bool
  | .greater | .arrow | .dash | .bidirectional | .reverseArrow => true
  | _ => false

/-- Kinds that can name something without quotes. -/
def isWord : Kind → Bool
  | .ident | .number => true
  | _ => false

/-- Kinds that can name something, quoted strings among them. -/
def isName : Kind → Bool
  | .ident | .number | .string => true
  | _ => false

/-- Kinds that end a line. -/
def endsLine : Kind → Bool
  | .newline | .endOfInput => true
  | _ => false

end Kind

end Token

/-- A token: what it is, its text, and where it begins. A string token carries its text without
the quotes and with the escapes undone. -/
structure Token where
  kind : Token.Kind
  text : String
  place : Place
deriving Repr, DecidableEq, Inhabited

end Schematic
