import Schematic.Layout.Basic
import Schematic.Outline.Build

/-!
# The column layout

The plainest way of laying out: all nodes in one column in the order of the outline, groups around
their members, and every edge a straight line from the right of one end to the left of the other.
-/

namespace Schematic

namespace Column

variable {α : Type} [Scalar α]

/-- Boxes below one another, the first of which begins at `y`. -/
def boxesFrom (style : ColumnStyle α) (y : α) : List (String × Node) → List (String × NodeBox α)
  | [] => []
  | (id, n) :: rest =>
    (id, ⟨n.entity, ⟨style.left, y, style.boxWidth, style.boxHeight⟩, n.stub⟩) ::
      boxesFrom style (y + style.step) rest

def nodeBoxes (o : Outline) (style : ColumnStyle α) : KeyedList String (NodeBox α) :=
  .ofList (boxesFrom style style.top o.nodes.entries)

end Column

def Layout.column {α : Type} [Metric α] (d : Document) (style : Style α) :
    Except LayoutFailure (Layout α) := do
  let o := Outline.ofDocument d
  let nodes := Column.nodeBoxes o style.column
  let groups ← (GroupBox.all o style.groupPadding nodes).mapError .missing
  let routes ← (o.wires.mapM fun (w : Wire) => do
    return w.route (← w.straight nodes groups) style.cornerRadius).mapError .missing
  let canvas := Canvas.around (nodes.values.map NodeBox.bounds ++ groups.values.map GroupBox.bounds)
    style
  return {
    mode := .simple
    archetype := d.archetype
    direction := .down
    nodes := nodes
    groups := groups
    routes := routes
    bounds := canvas.bounds
    width := canvas.width
    height := canvas.height }

end Schematic
