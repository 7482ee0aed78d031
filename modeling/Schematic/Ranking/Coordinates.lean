import Schematic.Geometry.Basic
import Schematic.Layout.Style
import Schematic.Ranking.Subdivision

/-!
# Coordinates within and across the layers

Nodes get a place across their layer, and layers a place along the ranks. Here every node has a
breadth, its size across the layer, and a depth, its size along the ranks; which of them is a width
and which a height is not known at this point.

The nodes of a layer are packed from the left with a gap between neighbours. Then, in passes that
go down and up in turn, each node is drawn to the average place of its neighbours in the layer
before, but never into the node on its left. At last everything is moved so that the leftmost edge
is at zero.
-/

namespace Schematic

/-- The size of a node across its layer and along the ranks. -/
structure Extent (α : Type) where
  breadth : α
  depth : α
deriving Repr, DecidableEq

/-- The places of nodes and layers: the middle of each node across its layer, and the middle and the
depth of each layer. -/
structure Coordinates (α : Type) where
  across : KeyedList String α
  centers : List α
  depths : List α

namespace Coordinates

variable {α : Type} [Scalar α]

/-- The extent of a node, nothing for a waypoint. -/
def extent (extents : KeyedList String (Extent α)) (v : String) : Extent α :=
  (extents.get? v).getD ⟨((0 : Nat) : α), ((0 : Nat) : α)⟩

def halfBreadth (extents : KeyedList String (Extent α)) (v : String) : α :=
  (extent extents v).breadth / (2 : Nat)

/-- The gap between neighbours of a layer: between nodes, between lines, or the mean of the two. -/
def gap (gaps : Gaps α) (u v : String) : α :=
  match Waypoint.isId u, Waypoint.isId v with
  | true, true => gaps.edge
  | false, false => gaps.node
  | _, _ => (gaps.node + gaps.edge) / (2 : Nat)

/-! ## Packing a layer -/

/-- The places of the nodes of a layer, from the left: where each wants to be or, if that is too
near to the node before it, which is given with its place, as near as the gap allows. -/
def packFrom (gaps : Gaps α) (extents : KeyedList String (Extent α)) (want : String → α) :
    Option (String × α) → List String → List (String × α)
  | _, [] => []
  | before, v :: vs =>
    let place :=
      match before with
      | none => want v
      | some (u, x) =>
        max (want v) (x + halfBreadth extents u + gap gaps u v + halfBreadth extents v)
    (v, place) :: packFrom gaps extents want (some (v, place)) vs

/-- Packs a layer and notes the places. -/
def pack (gaps : Gaps α) (extents : KeyedList String (Extent α)) (want : String → α)
    (across : KeyedList String α) (layer : List String) : KeyedList String α :=
  across.putAll (packFrom gaps extents want none layer)

/-! ## Passes -/

def place (across : KeyedList String α) (v : String) : α :=
  (across.get? v).getD ((0 : Nat) : α)

/-- The average place of some nodes, or the place of `v` if there are none. -/
def average (across : KeyedList String α) (v : String) : List String → α
  | [] => place across v
  | us => Scalar.total (us.map (place across)) / (us.length : α)

/-- Packs layers one after the other, each node drawn to its neighbours. -/
def pass (gaps : Gaps α) (extents : KeyedList String (Extent α))
    (neighbours : String → List String) (across : KeyedList String α)
    (layers : List (List String)) : KeyedList String α :=
  layers.foldl
    (fun across layer => pack gaps extents (fun v => average across v (neighbours v)) across layer)
    across

/-- A pass down and a pass up. The layer a pass begins at has nothing before it and stays. -/
def passBoth (gaps : Gaps α) (extents : KeyedList String (Extent α)) (g : Digraph String)
    (ordering : List (List String)) (across : KeyedList String α) : KeyedList String α :=
  pass gaps extents g.successors (pass gaps extents g.predecessors across (ordering.drop 1))
    (ordering.reverse.drop 1)

/-- The places before the first pass. -/
def packed (gaps : Gaps α) (extents : KeyedList String (Extent α))
    (ordering : List (List String)) : KeyedList String α :=
  ordering.foldl (pack gaps extents (halfBreadth extents)) .empty

def leftEdges (extents : KeyedList String (Extent α)) (across : KeyedList String α) : List α :=
  across.entries.map fun e => e.2 - halfBreadth extents e.1

/-- All places moved so that the leftmost edge is at zero. -/
def aligned (extents : KeyedList String (Extent α)) (across : KeyedList String α) :
    KeyedList String α :=
  match leftEdges extents across with
  | [] => across
  | x :: xs => across.mapValues fun _ place => place - Scalar.least x xs

/-! ## Layers along the ranks -/

/-- The depth of a layer is that of its deepest node. -/
def layerDepth (extents : KeyedList String (Extent α)) (layer : List String) : α :=
  match layer.map fun v => (extent extents v).depth with
  | [] => ((0 : Nat) : α)
  | d :: ds => Scalar.greatest d ds

/-- The middles of layers of the given depths, the first of which begins at `top`. -/
def layerCenters (gap top : α) : List α → List α
  | [] => []
  | d :: ds => (top + d / (2 : Nat)) :: layerCenters gap (top + (d + gap)) ds

/-- Places for the nodes of a layered graph in the given order. -/
def assign (gaps : Gaps α) (extents : KeyedList String (Extent α)) (l : Layered)
    (ordering : List (List String)) : Coordinates α :=
  let turn := passBoth gaps extents l.graph ordering
  let depths := ordering.map (layerDepth extents)
  { across := aligned extents (turn (turn (packed gaps extents ordering)))
    centers := layerCenters gaps.rank ((0 : Nat) : α) depths
    depths := depths }

end Coordinates

end Schematic
