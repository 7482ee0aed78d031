import Schematic.Json.Basic
import Schematic.Layout.Basic

/-!
# Drawings as JSON

Every coordinate is written with at most two digits behind the point, in the object of a point as
in the path of an edge.
-/

namespace Schematic

variable {α : Type} [Written α]

def Point.json (p : Point α) : Json :=
  .object [("x", .scalar p.x), ("y", .scalar p.y)]

def Rect.json (r : Rect α) : Json :=
  .object
    [("x", .scalar r.x),
     ("y", .scalar r.y),
     ("width", .scalar r.width),
     ("height", .scalar r.height)]

/-- The box of a node, which says so if the node is declared nowhere. -/
def NodeBox.json (id : String) (b : NodeBox α) : Json :=
  .object
    ([("id", .string id),
      ("label", .string b.entity.label),
      ("bounds", b.bounds.json)]
      ++ if b.stub then [("stub", .bool true)] else [])

def GroupBox.json (key : String) (b : GroupBox α) : Json :=
  .object
    [("name", .string key),
     ("childIds", .array (b.members.map .string)),
     ("bounds", b.bounds.json),
     ("padding", .scalar b.padding)]

def Route.json (r : Route α) : Json :=
  .object
    [("id", .string r.id),
     ("from", .string r.source),
     ("to", .string r.target),
     ("kind", .string r.edge.kind.name),
     ("label", .ofOption r.edge.label),
     ("points", .array (r.points.map Point.json)),
     ("path", .string (Path.text r.path))]

def Layout.json (l : Layout α) : Json :=
  .object
    [("mode", .string l.mode.name),
     ("archetype", .string l.archetype.name),
     ("direction", .string l.direction.name),
     ("width", .scalar l.width),
     ("height", .scalar l.height),
     ("bounds", l.bounds.json),
     ("nodes", .object (l.nodes.entries.map fun (id, b) => (id, b.json id))),
     ("groups", .object (l.groups.entries.map fun (key, b) => (key, b.json key))),
     ("edges", .array (l.routes.map Route.json))]

end Schematic
