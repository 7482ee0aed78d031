import Schematic.Reading.Declaration
import Schematic.Reading.EdgeLine

/-!
# Statements

A document is read statement by statement. The first tokens of a statement decide its `Form`, in a
fixed order of priority, and the form decides what is read. A statement that opens a group only
pushes the group onto the stack of open groups; the statements inside it are read like any others,
and when the closing token comes the group is added to the blocks around it. So nesting costs a
stack entry and no recursion, and one step always passes a token or closes a group.

Statements at the top level and inside groups differ a little: headers, directives, metadata and
stray closing braces only have their meaning at the top level.
-/

namespace Schematic

/-- What closes an open group. -/
inductive Closer where
  | brace
  | endWord
deriving Repr, DecidableEq

/-- A group that is not closed yet: its name, the token to blame if it never is, what closes it,
and the blocks that stand before it around it. -/
structure OpenGroup where
  name : String
  opener : Token
  closer : Closer
  before : Forest
deriving Repr, DecidableEq

/-- The state of a reading. `blocks` are the blocks read so far in the innermost open group, or at
the top level if no group is open. -/
structure Reading where
  dialect : Dialect
  cursor : Cursor
  metadata : KeyedList String MetaValue
  edges : List Edge
  diagnostics : List Diagnostic
  headerSeen : Bool
  blocks : Forest
  openGroups : List OpenGroup

namespace Reading

def start (dialect : Dialect) (tokens : List Token) : Reading :=
  ⟨dialect, .ofTokens tokens, .empty, [], [], false, .nil, []⟩

def report (r : Reading) (t : Token) (problem : Problem) : Reading :=
  { r with diagnostics := r.diagnostics ++ [⟨t.place, problem⟩] }

/-- Goes on behind a declared entity. -/
def addEntity (r : Reading) (e : Taken Entity) : Reading :=
  { r with
    cursor := e.cursor
    diagnostics := r.diagnostics ++ e.diagnostics
    blocks := r.blocks ++ Forest.ofEntities [e.value] }

/-! ## Lines that give metadata -/

/-- A text as a metadata value; without a text a key is a flag. -/
def metaValue (s : String) : MetaValue := if s.isEmpty then .flag true else .text s

/-- The key and the value of the metadata line at the cursor, and the cursor behind it. -/
def metadataLine (c : Cursor) : Except Refusal ((String × MetaValue) × Cursor) := do
  let (key, rest) ← c.expectName
  let (value, rest) := rest.restOfLine
  return ((key.text, metaValue (Phrase.joined value)), rest)

/-- What a directive puts into the metadata. The PlantUML forms `left to right direction` and
`top to bottom direction` set the direction. -/
def directiveEntry (word value : String) : String × MetaValue :=
  if (word = "left" ∨ word = "top") ∧ value.endsWith "direction" then
    ("direction", .text (if word = "left" then "LR" else "TB"))
  else (word, metaValue value)

def directive (r : Reading) : Reading :=
  let word := Text.lower r.cursor.current.text
  let (value, rest) := r.cursor.advance.restOfLine
  let entry := directiveEntry word (Phrase.joined value)
  { r with cursor := rest, metadata := r.metadata.put entry.1 entry.2 }

/-- Reads the Mermaid header at the cursor, which declares the diagram type `type` and may give a
direction. -/
def header (r : Reading) (type : String) : Reading :=
  let (line, rest) := r.cursor.advance.restOfLine
  let metadata := r.metadata.put "type" (.text type)
  let metadata := match line with
    | t :: _ => if t.kind = .ident then metadata.put "direction" (.text t.text) else metadata
    | [] => metadata
  { r with cursor := rest, metadata := metadata, headerSeen := true }

/-! ## Groups -/

/-- Goes into a group; its blocks are still to come. -/
def push (r : Reading) (name : String) (opener : Token) (closer : Closer) (rest : Cursor) :
    Reading :=
  { r with
    cursor := rest
    blocks := .nil
    openGroups := ⟨name, opener, closer, r.blocks⟩ :: r.openGroups }

/-- Goes into the group `name {` at the cursor. -/
def openBraces (r : Reading) : Except Refusal Reading := do
  let (name, rest) ← r.cursor.expectName
  let (_, rest) ← rest.expect .openBrace "'\x7b'"
  return r.push name.text name .brace rest

/-- Goes into the group at the cursor that the word `end` will close. The rest of the line is its
heading, of which the first token is the name; without a heading the keyword is. -/
def openBlock (r : Reading) : Reading :=
  let keyword := r.cursor.current
  let (heading, rest) := r.cursor.advance.restOfLine
  r.push ((heading.head?.map Token.text).getD keyword.text) keyword .endWord rest

/-- Leaves the innermost group; the cursor goes to `rest`. -/
def pop (r : Reading) (g : OpenGroup) (outer : List OpenGroup) (rest : Cursor) : Reading :=
  { r with
    cursor := rest
    blocks := g.before ++ Forest.group g.name r.blocks .nil
    openGroups := outer }

/-- The report about a group that the end of the input closes. -/
def OpenGroup.problem (g : OpenGroup) : Problem :=
  match g.closer with
  | .brace => .openGroup g.name
  | .endWord => .openSubgraph g.name

/-- Leaves the innermost group `g` if the current token closes it. -/
def close? (r : Reading) (g : OpenGroup) (outer : List OpenGroup) : Option Reading :=
  if r.cursor.atEnd then some ((r.report g.opener (OpenGroup.problem g)).pop g outer r.cursor)
  else
    match g.closer with
    | .brace => if r.cursor.isAt .closeBrace then some (r.pop g outer r.cursor.advance) else none
    | .endWord =>
      if r.cursor.current.isKeyword "end" then some (r.pop g outer r.cursor.restOfLine.2) else none

/-! ## Edges and stray tokens -/

def edgeLine (r : Reading) : Reading :=
  let (line, rest) := r.cursor.restOfLine
  let e := EdgeLine.read r.dialect line
  { r with
    cursor := rest
    edges := r.edges ++ e.edges
    diagnostics := r.diagnostics ++ e.diagnostics
    blocks := r.blocks ++ Forest.ofEntities e.declared }

/-- Passes the current token with a report. -/
def stray (r : Reading) (top : Bool) : Reading :=
  let t := r.cursor.current
  let r := { r with cursor := r.cursor.advance }
  if t.kind = .closeBrace ∧ top then r.report t .strayBrace
  else if t.kind = .endOfInput then r
  else r.report t (.strayToken t.kind t.text)

/-- Reads a word that stands for an entity by itself. The rest of the line is passed, inside a group
only up to a closing brace. -/
def lone (r : Reading) (top : Bool) : Reading :=
  let id := r.cursor.current.text
  let rest := (r.cursor.advance.restOfLine fun t => !top && t.kind == .closeBrace).2
  { r with cursor := rest, blocks := r.blocks ++ Forest.ofEntities [.bare id] }

/-! ## The forms of a statement -/

/-- The forms of a statement, in the order in which they are tried. -/
inductive Form where
  /-- One token without a meaning of its own. -/
  | blank
  /-- A line that leaves no trace. -/
  | passed
  /-- The Mermaid header, which declares a diagram type. -/
  | header (type : String)
  /-- A line that a directive word leads. -/
  | directive
  /-- A keyword, then a group in braces. -/
  | keywordGroup
  /-- A keyword, then a group up to the word `end`. -/
  | endBlock
  /-- A keyword, then an entity. -/
  | declaration
  /-- A name, then a group in braces. -/
  | group
  /-- A name, then attributes or fields. -/
  | entity
  /-- A line with a connector. -/
  | edges
  /-- A key and its value. -/
  | metadata
  /-- A word by itself. -/
  | lone
  /-- A token that fits nowhere. -/
  | stray
deriving Repr, DecidableEq

/-- The form of a line that its first word alone decides, if it does. -/
def wordForm? (r : Reading) (top : Bool) : Option Form :=
  let t := r.cursor.current
  let word := Text.lower t.text
  let headerType? :=
    if top ∧ r.dialect = .mermaid ∧ r.headerSeen = false then Dialect.headerType? word else none
  if t.kind ≠ .ident then none
  else
    match headerType? with
    | some type => some (.header type)
    | none =>
      if r.dialect.directiveWords.contains word && !r.cursor.lineHasConnector then
        some (if top then .directive else .passed)
      else if r.dialect.passedWords.contains word then some .passed
      else none

/-- The form of a line that a group keyword leads, if it opens a group. -/
def groupForm? (r : Reading) : Option Form :=
  let t := r.cursor.current
  if t.kind = .ident ∧ r.dialect.groupWords.contains (Text.lower t.text) ∧
      (r.cursor.peek 1).kind.isName then
    if (r.cursor.peek 2).kind = .openBrace then some .keywordGroup
    else if r.dialect.endBlocks then some .endBlock
    else none
  else none

/-- A declaration keyword, a name, and no connector on the line. -/
def declares (r : Reading) : Bool :=
  let t := r.cursor.current
  t.kind == .ident && r.dialect.declarationWords.contains (Text.lower t.text) &&
    (r.cursor.peek 1).kind.isName && !r.cursor.lineHasConnector

/-- The form of a statement that its shape decides: a word and what follows it, or a connector
somewhere on the line. In the foreign dialects braces on an edge line decorate its nodes. -/
def shapeForm (r : Reading) (top : Bool) : Form :=
  let t := r.cursor.current
  let u := r.cursor.peek 1
  let connected := r.cursor.lineHasConnector
  if t.kind.isWord && u.kind == .openBrace && !(r.dialect != .native && connected) then
    if r.cursor.looksLikeEntity then .entity else .group
  else if t.kind.isWord && u.kind == .openBracket && !connected then .entity
  else if connected then .edges
  else if t.kind.isWord then
    if top && r.dialect.metadataLines then .metadata else .lone
  else .stray

def form (r : Reading) (top : Bool) : Form :=
  match r.cursor.current.kind with
  | .newline | .comment | .other => .blank
  | .atSign => .passed
  | _ =>
    match r.wordForm? top with
    | some f => f
    | none =>
      match r.groupForm? with
      | some f => f
      | none => if r.declares then .declaration else r.shapeForm top

def take (r : Reading) (top : Bool) : Form → Except Refusal Reading
  | .blank => .ok { r with cursor := r.cursor.advance }
  | .passed => .ok { r with cursor := r.cursor.restOfLine.2 }
  | .header type => .ok (r.header type)
  | .directive => .ok r.directive
  | .keywordGroup => openBraces { r with cursor := r.cursor.advance }
  | .endBlock => .ok r.openBlock
  | .declaration => (Declaration.keyword r.dialect r.cursor).map r.addEntity
  | .group => r.openBraces
  | .entity => (Declaration.named r.dialect r.cursor).map r.addEntity
  | .edges => .ok r.edgeLine
  | .metadata =>
    (metadataLine r.cursor).map fun (entry, rest) =>
      { r with cursor := rest, metadata := r.metadata.put entry.1 entry.2 }
  | .lone => .ok (r.lone top)
  | .stray => .ok (r.stray top)

/-- Reads the statement at the cursor. If a token that the statement insists on is missing, the rest
of the line is skipped with a report. -/
def statement (r : Reading) (top : Bool) : Reading :=
  match r.take top (r.form top) with
  | .ok r => r
  | .error e =>
    { r.report e.cursor.current
        (.skippedStatement r.cursor.current.place.line e.unexpected) with
      cursor := e.cursor.restOfLine.2 }

/-- One step: closes the innermost group or reads a statement. -/
def step (r : Reading) : Reading :=
  match r.openGroups with
  | [] => r.statement true
  | g :: outer => (r.close? g outer).getD (r.statement false)

/-- All groups are closed and the input is over. -/
def finished (r : Reading) : Bool := r.openGroups.isEmpty && r.cursor.atEnd

end Reading

end Schematic
