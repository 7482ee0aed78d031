import Schematic.Diagnostic
import Schematic.Document.Basic
import Schematic.Json.Basic

/-!
# Documents as JSON

Every part of a document becomes an object. An entity without a body and an edge without texts at
its ends have no member for them.
-/

namespace Schematic

def Field.json (f : Field) : Json :=
  .object
    [("name", .string f.name),
     ("type", .ofOption f.type),
     ("constraints", .array (f.constraints.map .string)),
     ("visibility", .ofOption (f.visibility.map Visibility.name)),
     ("memberType", .string f.memberType.name)]

def Entity.json (e : Entity) : Json :=
  .object
    ([("kind", .string "entity"),
      ("id", .string e.id),
      ("attributes", .object (e.attributes.entries.map fun (key, value) => (key, .string value)))]
      ++ e.fields.toList.map fun rows => ("fields", .array (rows.map Field.json)))

def Forest.json : Forest → List Json
  | .nil => []
  | .entity e rest => e.json :: rest.json
  | .group name members rest =>
    .object
      [("kind", .string "group"),
       ("name", .string name),
       ("children", .array members.json)] :: rest.json

def Cardinality.json (c : Cardinality) : Json :=
  .object [("from", .ofOption c.source), ("to", .ofOption c.target)]

def Edge.json (e : Edge) : Json :=
  .object
    ([("from", .string e.source),
      ("to", .string e.target),
      ("kind", .string e.kind.name),
      ("label", .ofOption e.label)]
      ++ e.cardinality.toList.map fun c => ("cardinality", c.json))

def MetaValue.json : MetaValue → Json
  | .flag on => .bool on
  | .text s => .string s

def Diagnostic.json (d : Diagnostic) : Json :=
  .object
    [("line", .count d.place.line),
     ("column", .count d.place.column),
     ("message", .string d.message),
     ("severity", .string d.severity.name)]

def Document.members (d : Document) : List (String × Json) :=
  [("archetype", .string d.archetype.name),
   ("dialect", .string d.dialect.name),
   ("metadata", .object (d.metadata.entries.map fun (key, value) => (key, value.json))),
   ("rootBlocks", .array d.blocks.json),
   ("edges", .array (d.edges.map Edge.json))]

/-- A document with what was tolerated while it was read. -/
def Document.json (d : Document) (diagnostics : List Diagnostic) : Json :=
  .object (d.members ++ [("diagnostics", .array (diagnostics.map Diagnostic.json))])

end Schematic
