import Schematic.Geometry.Path
import Schematic.Layout.Style
import Schematic.Outline.Basic
import Schematic.Ranking.Placement

/-!
# Finished drawings

What every way of laying out produces: boxes for the nodes and the groups, a polyline and a path for
each edge, and the size of the canvas. Groups are drawn around their members after these have found
their places, which is the same for all ways of laying out and therefore stands here.
-/

namespace Schematic

inductive Mode where
  | graph
  | sequence
  | simple
deriving Repr, DecidableEq, Inhabited

namespace Mode

def name : Mode → String
  | .graph => "graph"
  | .sequence => "sequence"
  | .simple => "simple"

def all : List Mode := [.graph, .sequence, .simple]

def ofName? (s : String) : Option Mode := all.find? fun m => m.name == s

/-- The mode that suits an archetype. -/
def ofArchetype : Archetype → Mode
  | .sequence => .sequence
  | _ => .graph

end Mode

structure NodeBox (α : Type) where
  entity : Entity
  bounds : Rect α
  stub : Bool

/-- The box of a group, and the keys of the members it is drawn around. -/
structure GroupBox (α : Type) where
  members : List String
  bounds : Rect α
  padding : α

/-- The line of an edge: its ends as keys of nodes or groups, its bends, and the path along them. -/
structure Route (α : Type) where
  id : String
  source : String
  target : String
  edge : Edge
  points : List (Point α)
  path : List (PathCommand α)

/-- A finished drawing. -/
structure Layout (α : Type) where
  mode : Mode
  archetype : Archetype
  direction : Direction
  nodes : KeyedList String (NodeBox α)
  groups : KeyedList String (GroupBox α)
  routes : List (Route α)
  bounds : Rect α
  width : α
  height : α

/-- Why there is no drawing: a direction or a mode that does not exist, or, what no document can
bring about, a key that is looked up and missing, or a cycle that is left after cycles were
broken. -/
inductive LayoutFailure where
  | unknownDirection (given : String)
  | unknownMode (name : String)
  | missing (what : Missing)
  | cycle
deriving Repr, DecidableEq

namespace LayoutFailure

def message : LayoutFailure → String
  | .unknownDirection given => "Unknown direction '" ++ given ++ "'; use TB, TD, or LR"
  | .unknownMode name => Text.quoted name ++ " is not a valid LayoutMode"
  | .missing what => what.message
  | .cycle => "Graph contains a cycle or graph changed during iteration"

def ofRanks : RankFailure → LayoutFailure
  | .missing id => .missing (.node id)
  | .cycle => .cycle

end LayoutFailure

variable {α : Type}

/-! ## Boxes and canvas -/

section

variable [Scalar α]

/-- The box around boxes, grown by some padding; there is none around nothing. -/
def Rect.padded (rects : List (Rect α)) (padding : α) : Option (Rect α) :=
  (Rect.union rects).map fun r => r.expand padding

/-- The straight line from the right of one box to the left of another. -/
def Rect.anchorRoute (source target : Rect α) : List (Point α) :=
  [⟨source.right, source.y + source.height / (2 : Nat)⟩,
   ⟨target.x, target.y + target.height / (2 : Nat)⟩]

/-- The part of the plane that a drawing fills and the size of its canvas. -/
structure Canvas (α : Type) where
  bounds : Rect α
  width : α
  height : α

/-- The canvas around boxes, with a margin to the right and below. An empty drawing has a canvas of
its own size. -/
def Canvas.around (rects : List (Rect α)) (style : Style α) : Canvas α :=
  match Rect.union rects with
  | none =>
    ⟨⟨((0 : Nat) : α), ((0 : Nat) : α), style.emptyWidth, style.emptyHeight⟩, style.emptyWidth,
      style.emptyHeight⟩
  | some r => ⟨r, r.right + style.margin, r.bottom + style.margin⟩

end

/-! ## Groups around their members -/

/-- The value under a key, or the complaint that it is missing. -/
def KeyedList.find {κ β : Type} [DecidableEq κ] (m : KeyedList κ β) (key : κ) (e : Missing) :
    Except Missing β :=
  match m.get? key with
  | some value => .ok value
  | none => .error e

/-- The bounds of what an endpoint stands for. -/
def Endpoint.bounds (nodes : KeyedList String (NodeBox α))
    (groups : KeyedList String (GroupBox α)) : Endpoint → Except Missing (Rect α)
  | .node id => do return (← nodes.find id (.node id)).bounds
  | .group key => do return (← groups.find key (.group key)).bounds

section

variable [Scalar α]

/-- Draws a group around its members, if it has any that take up space. -/
def GroupBox.add (o : Outline) (padding : α) (nodes : KeyedList String (NodeBox α))
    (drawn : KeyedList String (GroupBox α)) (key : String) :
    Except Missing (KeyedList String (GroupBox α)) := do
  let members ← o.members key
  let rects ← members.mapM (Endpoint.bounds nodes drawn)
  match Rect.padded rects padding with
  | none => return drawn
  | some bounds => return drawn.put key ⟨members.map Endpoint.key, bounds, padding⟩

/-- The boxes of all groups, given those of the nodes, in the order of the outline. Inner groups are
drawn first. -/
def GroupBox.all (o : Outline) (padding : α) (nodes : KeyedList String (NodeBox α)) :
    Except Missing (KeyedList String (GroupBox α)) := do
  let keys := o.groups.map Prod.fst
  let drawn ← keys.reverse.foldlM (GroupBox.add o padding nodes) .empty
  return .ofList (keys.filterMap fun key => (drawn.get? key).map fun box => (key, box))

end

/-! ## Routes -/

/-- The straight line between the two ends of a wire. -/
def Wire.straight [Scalar α] (w : Wire) (nodes : KeyedList String (NodeBox α))
    (groups : KeyedList String (GroupBox α)) : Except Missing (List (Point α)) := do
  return Rect.anchorRoute (← w.source.bounds nodes groups) (← w.target.bounds nodes groups)

/-- The route of a wire along the given points. -/
def Wire.route [Metric α] (w : Wire) (points : List (Point α)) (radius : α) : Route α :=
  { id := "edge_" ++ toString w.index
    source := w.source.key
    target := w.target.key
    edge := w.edge
    points := points
    path := Path.rounded points radius }

end Schematic
