import Schematic.Dialect.Basic
import Schematic.KeyedList
import Schematic.Text.Blank

/-!
# Documents

What a diagram text says, independent of the dialect it is written in: metadata, a forest of
groups and entities, and a flat list of edges between names. Nothing here knows about geometry.

A forest is its own inductive type rather than a list of blocks, so that a function that descends
into groups is one structural recursion and a proof about all nestings is one induction.
-/

namespace Schematic

/-- What a diagram is about, which decides how it is laid out. -/
inductive Archetype where
  | graph
  | entityRelationship
  | sequence
  | process
  | unknown
deriving Repr, DecidableEq, Inhabited

def Archetype.name : Archetype → String
  | .graph => "graph"
  | .entityRelationship => "er"
  | .sequence => "sequence"
  | .process => "process"
  | .unknown => "unknown"

/-! ## Entities -/

/-- Who may see a member of a class. -/
inductive Visibility where
  | everyone
  | nobody
  | heirs
  | package
deriving Repr, DecidableEq

def Visibility.name : Visibility → String
  | .everyone => "public"
  | .nobody => "private"
  | .heirs => "protected"
  | .package => "package"

/-- A row of an entity's body is a field or a method. -/
inductive MemberType where
  | field
  | method
deriving Repr, DecidableEq

def MemberType.name : MemberType → String
  | .field => "field"
  | .method => "method"

/-- A row of an entity's body. `raw` is the row as it is shown. -/
structure Field where
  name : String
  type : Option String
  constraints : List String
  visibility : Option Visibility
  memberType : MemberType
  raw : String
deriving Repr, DecidableEq

/-- The text that is drawn for a field: the row itself or, if there is none, name and type. -/
def Field.displayText (f : Field) : String :=
  if f.raw.isEmpty then Text.trim (f.name ++ " " ++ f.type.getD "") else f.raw

/-- A thing that is drawn as a box. `fields` tells an entity without a body from one with an empty
body. -/
structure Entity where
  id : String
  attributes : KeyedList String String
  fields : Option (List Field)
deriving Repr, DecidableEq

namespace Entity

/-- An entity of which only the name is known. -/
def bare (id : String) : Entity := ⟨id, .empty, none⟩

/-- The text that is drawn for an entity: its `label` attribute, unless that is empty, or its id. -/
def label (e : Entity) : String :=
  match e.attributes.get? "label" with
  | some l => if l.isEmpty then e.id else l
  | none => e.id

/-- The rows of the body, none if there is no body. -/
def rows (e : Entity) : List Field := e.fields.getD []

def hasFields (e : Entity) : Bool := !e.rows.isEmpty

end Entity

/-! ## Blocks -/

/-- Entities and named groups, nested to any depth, in the order of the text. -/
inductive Forest where
  | nil
  | entity (e : Entity) (rest : Forest)
  | group (name : String) (members rest : Forest)
deriving Repr, DecidableEq, Inhabited

namespace Forest

/-- The blocks of one forest after those of another. -/
def append : Forest → Forest → Forest
  | .nil, g => g
  | .entity e rest, g => .entity e (rest.append g)
  | .group name members rest, g => .group name members (rest.append g)

instance : Append Forest := ⟨append⟩

def ofEntities : List Entity → Forest
  | [] => .nil
  | e :: es => .entity e (ofEntities es)

/-- Every entity, in the order of the text. -/
def entities : Forest → List Entity
  | .nil => []
  | .entity e rest => e :: rest.entities
  | .group _ members rest => members.entities ++ rest.entities

/-- Every group with its members, an outer group before the groups inside it. -/
def groups : Forest → List (String × Forest)
  | .nil => []
  | .entity _ rest => rest.groups
  | .group name members rest => (name, members) :: (members.groups ++ rest.groups)

end Forest

/-! ## Edges -/

/-- Which ends of an edge carry an arrow head. -/
inductive EdgeKind where
  | directed
  | undirected
  | bidirectional
deriving Repr, DecidableEq, Inhabited

def EdgeKind.name : EdgeKind → String
  | .directed => "directed"
  | .undirected => "undirected"
  | .bidirectional => "bidirectional"

/-- The texts at the two ends of an edge. -/
structure Cardinality where
  source : Option String
  target : Option String
deriving Repr, DecidableEq

/-- A line between two named things. -/
structure Edge where
  source : String
  target : String
  kind : EdgeKind
  label : Option String
  cardinality : Option Cardinality
deriving Repr, DecidableEq

def Edge.isSelfLoop (e : Edge) : Bool := e.source == e.target

/-! ## The whole -/

/-- A metadata value: a text, or a bare key, which is a flag. -/
inductive MetaValue where
  | flag (on : Bool)
  | text (s : String)
deriving Repr, DecidableEq

/-- The text of a metadata value, if it is one. -/
def MetaValue.text? : MetaValue → Option String
  | .flag _ => none
  | .text s => some s

/-- Everything a diagram text says. -/
structure Document where
  archetype : Archetype
  metadata : KeyedList String MetaValue
  blocks : Forest
  edges : List Edge
  dialect : Dialect
  lineCount : Nat
deriving Repr, DecidableEq

namespace Document

/-- Every entity, in the order of the text. -/
def entities (d : Document) : List Entity := d.blocks.entities

/-- The names of all groups, an outer group before the groups inside it. -/
def groupNames (d : Document) : List String := d.blocks.groups.map Prod.fst

/-- The text under a metadata key, if the key is there and not a flag. -/
def metaText? (d : Document) (key : String) : Option String :=
  (d.metadata.get? key).bind MetaValue.text?

end Document

end Schematic
