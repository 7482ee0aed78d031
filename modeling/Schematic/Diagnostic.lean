import Schematic.Text.Quoted
import Schematic.Token.Basic

/-!
# Diagnostics

Malformed input never stops a reading; what was tolerated is reported. A diagnostic is a place and
a `Problem`, which names the cause; its wording and its severity are functions of the cause. The
one cause that carries another is the statement that was skipped because a token was not the
expected one.
-/

namespace Schematic

/-- A token stood where something else was expected. -/
structure Unexpected where
  expected : String
  token : Token
deriving Repr, DecidableEq

def Unexpected.message (e : Unexpected) : String :=
  "expected " ++ e.expected ++ ", got " ++ e.token.kind.name ++ " " ++ Text.quoted e.token.text
    ++ " at line " ++ toString e.token.place.line ++ ", column " ++ toString e.token.place.column

/-- How much a diagnostic weighs: a note leaves the reading in good order. -/
inductive Severity where
  | warning
  | info
deriving Repr, DecidableEq

def Severity.name : Severity → String
  | .warning => "warning"
  | .info => "info"

/-- What can be wrong with a text and is tolerated. -/
inductive Problem where
  | unknownCharacter (c : Char)
  | openString
  | skippedStatement (line : Nat) (why : Unexpected)
  | openGroup (name : String)
  | openSubgraph (name : String)
  | openAttributes (owner : String)
  | openFields (owner : String)
  | openSpan (opener : String)
  | strayBrace
  | strayToken (kind : Token.Kind) (text : String)
deriving Repr, DecidableEq

namespace Problem

/-- A character that means nothing is noted; everything else is a warning. -/
def severity : Problem → Severity
  | .unknownCharacter _ => .info
  | _ => .warning

def message : Problem → String
  | .unknownCharacter c => "unrecognized character " ++ Text.quoted c.toString
  | .openString => "unterminated string"
  | .skippedStatement line why =>
    "statement starting at line " ++ toString line ++ " skipped: " ++ why.message
  | .openGroup name => "unclosed '\x7b' for group " ++ Text.quoted name
  | .openSubgraph name => "unclosed subgraph " ++ Text.quoted name
  | .openAttributes owner => "unclosed '[' for " ++ Text.quoted owner
  | .openFields owner => "unclosed '\x7b' for entity " ++ Text.quoted owner
  | .openSpan opener => "unclosed " ++ Text.quoted opener ++ " in edge line"
  | .strayBrace => "unmatched '\x7d'"
  | .strayToken kind text => "unexpected " ++ kind.name ++ " " ++ Text.quoted text

end Problem

structure Diagnostic where
  place : Place
  problem : Problem
deriving Repr, DecidableEq

namespace Diagnostic

def severity (d : Diagnostic) : Severity := d.problem.severity

def message (d : Diagnostic) : String := d.problem.message

/-- Diagnostics by place; those of one place keep their order. -/
def sorted (ds : List Diagnostic) : List Diagnostic :=
  ds.mergeSort fun a b => a.place.le b.place

end Diagnostic

end Schematic
