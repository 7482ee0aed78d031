import Schematic.Layout.Basic

/-!
# The sequence layout

Participants stand side by side in the order in which they are first seen, messages follow one
another downwards in the order of the edges, and groups are ignored. A message is a straight line
from the middle of one column to the middle of another; a message to oneself is a loop and takes
more room.
-/

namespace Schematic

namespace Sequence

/-- The participants in the order in which they are first seen: declared entities, each with its
first declaration, then the ends of edges, which have none. -/
def participants (d : Document) : KeyedList String (Option Entity) :=
  let declared := d.entities.foldl (fun m e => m.putNew e.id (some e)) .empty
  d.edges.foldl (fun m e => (m.putNew e.source none).putNew e.target none) declared

variable {α : Type} [Scalar α]

/-- The left border of the columns behind `n` others. -/
def columnX (style : SequenceStyle α) : Nat → α
  | 0 => style.left
  | n + 1 => columnX style n + style.columnStep

def boxesFrom (style : SequenceStyle α) (x : α) :
    List (String × Option Entity) → List (String × NodeBox α)
  | [] => []
  | (id, e) :: rest =>
    (id, ⟨e.getD (.bare id), ⟨x, style.top, style.boxWidth, style.boxHeight⟩, e.isNone⟩) ::
      boxesFrom style (x + style.columnStep) rest

/-- The middle of a participant's column. -/
def lifeline (boxes : KeyedList String (NodeBox α)) (id : String) : α :=
  ((boxes.get? id).map fun b => b.bounds.center.x).getD ((0 : Nat) : α)

/-- The points of a message that begins at the height `y`. -/
def messagePoints (style : SequenceStyle α) (boxes : KeyedList String (NodeBox α)) (y : α)
    (e : Edge) : List (Point α) :=
  let x := lifeline boxes e.source
  if e.isSelfLoop then
    [⟨x, y⟩, ⟨x + style.loopWidth, y⟩, ⟨x + style.loopWidth, y + style.loopHeight⟩,
     ⟨x, y + style.loopHeight⟩]
  else [⟨x, y⟩, ⟨lifeline boxes e.target, y⟩]

/-- The height at which the message after `e` begins. -/
def nextY (style : SequenceStyle α) (y : α) (e : Edge) : α :=
  (if e.isSelfLoop then y + style.loopStep else y) + style.rowStep

/-- Messages with their points, the first of which begins at the height `y`. -/
def messagesFrom (style : SequenceStyle α) (boxes : KeyedList String (NodeBox α)) (y : α) :
    List Edge → List (Edge × List (Point α))
  | [] => []
  | e :: es => (e, messagePoints style boxes y e) :: messagesFrom style boxes (nextY style y e) es

/-- The height at which the first message begins. -/
def firstY (style : SequenceStyle α) : α := style.top + style.headerHeight + style.gap

end Sequence

open Sequence in
/-- Lays a document out as a sequence of messages. -/
def Layout.sequence {α : Type} [Metric α] (d : Document) (style : Style α) : Layout α :=
  let s := style.sequence
  let people := participants d
  let nodes := KeyedList.ofList (boxesFrom s s.left people.entries)
  let messages := messagesFrom s nodes (firstY s) d.edges
  let routes := messages.zipIdx.map fun ((e, points), i) =>
    { id := "seq_" ++ toString i
      source := e.source
      target := e.target
      edge := e
      points := points
      path := Path.rounded points style.cornerRadius : Route α }
  let points := (messages.map Prod.snd).flatten
  let canvas := Canvas.around (nodes.values.map NodeBox.bounds ++ points.map Rect.ofPoint) style
  let size :=
    if nodes.isEmpty then (canvas.width, canvas.height)
    else (columnX s people.entries.length, d.edges.foldl (nextY s) (firstY s) + s.gap)
  { mode := .sequence
    archetype := d.archetype
    direction := .down
    nodes := nodes
    groups := .empty
    routes := routes
    bounds := canvas.bounds
    width := size.1
    height := size.2 }

end Schematic
