import Schematic.KeyedList
import Schematic.Ranking.Digraph

/-!
# Edges of one layer

Placement only ever compares neighbouring layers, so an edge that passes over layers is divided by
one waypoint in each of them. Waypoints are nodes with ids of their own: the mark, the number of the
edge, and the number of the waypoint on the edge.
-/

namespace Schematic

namespace Waypoint

/-- What the ids of waypoints begin with. -/
def mark : String := "__dummy_"

/-- The id of waypoint `i` of edge number `edge`. -/
def id (edge i : Nat) : String := mark ++ toString edge ++ "_" ++ toString i

def isId (id : String) : Bool := id.startsWith mark

end Waypoint

/-- A graph in layers whose edges all lead to the next layer, and for each edge of the graph it was
made from the waypoints that divide it. -/
structure Layered where
  graph : Digraph String
  layers : KeyedList String Nat
  chains : KeyedList (String × String) (List String)

namespace Layered

def layer (l : Layered) (v : String) : Nat := (l.layers.get? v).getD 0

def layerCount (l : Layered) : Nat :=
  l.layers.values.foldl (fun n k => max n (k + 1)) 0

/-- Joins the points of a path one after the other. -/
def addPath (g : Digraph String) (v : String) : List String → Digraph String
  | [] => g
  | w :: ws => addPath ((g.addNode w).addEdge v w) w ws

/-- Adds the edge `e` as number `number`, divided by a waypoint in each layer it passes over. -/
def addEdge (layers : KeyedList String Nat) (l : Layered) (e : (String × String) × Nat) : Layered :=
  let ((u, v), number) := e
  let top := (layers.get? u).getD 0
  let span := (layers.get? v).getD 0 - top
  let waypoints := (List.range (span - 1)).map fun i => Waypoint.id number i
  let places := (List.range (span - 1)).map fun i => (Waypoint.id number i, top + i + 1)
  { graph := addPath l.graph u (waypoints ++ [v])
    layers := l.layers.putAll places
    chains := l.chains.put (u, v) waypoints }

/-- Divides the edges of a graph with the given layers. -/
def ofLayers (g : Digraph String) (layers : KeyedList String Nat) : Layered :=
  g.arcs.zipIdx.foldl (addEdge layers) ⟨Digraph.empty.addNodes g.nodes, layers, .empty⟩

end Layered

end Schematic
