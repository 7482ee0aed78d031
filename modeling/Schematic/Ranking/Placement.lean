import Schematic.Geometry.Polyline
import Schematic.Ranking.Acyclic
import Schematic.Ranking.Coordinates
import Schematic.Ranking.Crossing
import Schematic.Ranking.Layering

/-!
# Ranked placement

Boxes of given sizes and edges between them are placed in ranks: cycles are broken, layers assigned,
long edges divided, crossings reduced and coordinates assigned. Only here does the direction matter.
With ranks going down, a layer is a row, a breadth is a width and a depth a height; with ranks going
right the two axes change places.

An edge is drawn from the side of its upper box that faces the lower one, through its waypoints, to
the side of the lower box that faces the upper one. An edge that was turned around is drawn from its
own source all the same. A loop hangs on the side of its box.
-/

namespace Schematic

/-- A box to be placed. -/
structure RankNode (α : Type) where
  id : String
  width : α
  height : α
deriving Repr, DecidableEq

/-- An edge to be routed, with a number to find its route by. -/
structure RankEdge where
  key : Nat
  source : String
  target : String
deriving Repr, DecidableEq

/-- The places of boxes, the routes of edges, and the size of what they fill. -/
structure Ranked (α : Type) where
  rects : KeyedList String (Rect α)
  routes : KeyedList Nat (List (Point α))
  width : α
  height : α

/-- What can stop a placement: an edge that names no box, or a cycle where there must be none. -/
inductive RankFailure where
  | missing (id : String)
  | cycle
deriving Repr, DecidableEq

namespace Ranked

variable {α : Type} [Scalar α]

def empty : Ranked α := ⟨.empty, .empty, ((0 : Nat) : α), ((0 : Nat) : α)⟩

/-! ## Directions -/

def extentOf (direction : Direction) (n : RankNode α) : Extent α :=
  match direction with
  | .down => ⟨n.width, n.height⟩
  | .right => ⟨n.height, n.width⟩

/-- The point at a place across the layers and along the ranks. -/
def pointAt (direction : Direction) (across along : α) : Point α :=
  match direction with
  | .down => ⟨across, along⟩
  | .right => ⟨along, across⟩

/-- The points where an edge leaves the upper box and reaches the lower one. -/
def exits (direction : Direction) (upper lower : Rect α) : Point α × Point α :=
  match direction with
  | .down => (⟨upper.center.x, upper.bottom⟩, ⟨lower.center.x, lower.y⟩)
  | .right => (⟨upper.right, upper.center.y⟩, ⟨lower.x, lower.center.y⟩)

/-- How far a loop stands out from its box. -/
def loopSize : α := ((20 : Nat) : α)

/-- The loop on a box: on its right with ranks going down, below it with ranks going right. It
leaves and comes back at a quarter of the side from the middle. -/
def loop (direction : Direction) (r : Rect α) : List (Point α) :=
  match direction with
  | .down =>
    let q := r.height / (4 : Nat)
    let y := r.center.y
    [⟨r.right, y - q⟩, ⟨r.right + loopSize, y - q⟩, ⟨r.right + loopSize, y + q⟩, ⟨r.right, y + q⟩]
  | .right =>
    let q := r.width / (4 : Nat)
    let x := r.center.x
    [⟨x - q, r.bottom⟩, ⟨x - q, r.bottom + loopSize⟩, ⟨x + q, r.bottom + loopSize⟩,
     ⟨x + q, r.bottom⟩]

/-! ## Routes -/

/-- The point of a node of a layered graph. -/
def pointOf (direction : Direction) (l : Layered) (c : Coordinates α) (v : String) : Point α :=
  pointAt direction (Coordinates.place c.across v)
    ((c.centers[l.layer v]?).getD ((0 : Nat) : α))

def rectOf (rects : KeyedList String (Rect α)) (id : String) : Except RankFailure (Rect α) :=
  match rects.get? id with
  | some r => .ok r
  | none => .error (.missing id)

/-- The route of an edge between two layers, from the upper box through its waypoints to the lower
one. -/
def chainRoute (direction : Direction) (l : Layered) (c : Coordinates α)
    (rects : KeyedList String (Rect α)) (u v : String) : Except RankFailure (List (Point α)) := do
  let upper ← rectOf rects u
  let lower ← rectOf rects v
  let (first, last) := exits direction upper lower
  let waypoints := ((l.chains.get? (u, v)).getD []).map (pointOf direction l c)
  return Polyline.simplify (first :: waypoints ++ [last])

/-- The route of an edge, where `back` are the edges that were turned around. -/
def route (direction : Direction) (l : Layered) (c : Coordinates α)
    (rects : KeyedList String (Rect α)) (back : List (String × String)) (e : RankEdge) :
    Except RankFailure (List (Point α)) :=
  if e.source = e.target then (rectOf rects e.source).map (loop direction)
  else if back.contains (e.source, e.target) then
    (chainRoute direction l c rects e.target e.source).map List.reverse
  else chainRoute direction l c rects e.source e.target

/-! ## Placement -/

/-- The graph of boxes and edges, loops left out. -/
def graph (nodes : List (RankNode α)) (edges : List RankEdge) : Digraph String :=
  .ofLists (nodes.map RankNode.id)
    ((edges.filter fun e => e.source != e.target).map fun e => (e.source, e.target))

def boxes (direction : Direction) (l : Layered) (c : Coordinates α) (nodes : List (RankNode α)) :
    KeyedList String (Rect α) :=
  .ofList (nodes.map fun n =>
    let p := pointOf direction l c n.id
    (n.id, Rect.around p.x p.y n.width n.height))

/-- The graph in layers, given the layers. -/
def layered (nodes : List (RankNode α)) (edges : List RankEdge) (layers : KeyedList String Nat) :
    Layered :=
  .ofLayers (graph nodes edges).acyclic layers

/-- The extents of all boxes. -/
def extents (direction : Direction) (nodes : List (RankNode α)) : KeyedList String (Extent α) :=
  .ofList (nodes.map fun n => (n.id, extentOf direction n))

/-- What there is before the edges are routed: the graph in layers, the places of its nodes, the
placed boxes, and the edges that were turned around. -/
structure Plan (α : Type) where
  layered : Layered
  coordinates : Coordinates α
  rects : KeyedList String (Rect α)
  back : List (String × String)

def plan (direction : Direction) (gaps : Gaps α) (nodes : List (RankNode α))
    (edges : List RankEdge) (layers : KeyedList String Nat) : Plan α :=
  let l := layered nodes edges layers
  let c := Coordinates.assign gaps (extents direction nodes) l l.ordering
  ⟨l, c, boxes direction l c nodes, (graph nodes edges).backEdges⟩

def Plan.route (p : Plan α) (direction : Direction) (e : RankEdge) :
    Except RankFailure (List (Point α)) :=
  Ranked.route direction p.layered p.coordinates p.rects p.back e

def drawn (rects : KeyedList String (Rect α)) (routes : KeyedList Nat (List (Point α))) :
    List (Rect α) :=
  rects.values ++ routes.values.flatten.map Rect.ofPoint

/-- Places boxes in ranks and routes the edges between them. -/
def place (direction : Direction) (gaps : Gaps α) (nodes : List (RankNode α))
    (edges : List RankEdge) : Except RankFailure (Ranked α) := do
  if nodes.isEmpty then return .empty
  match (graph nodes edges).acyclic.layers? with
  | none => throw .cycle
  | some layers =>
    let plan := plan direction gaps nodes edges layers
    let routes ← edges.mapM fun e => do
      return (e.key, ← plan.route direction e)
    let routes := KeyedList.ofList routes
    match Rect.union (drawn plan.rects routes) with
    | none => return .empty
    | some r => return ⟨plan.rects, routes, r.right, r.bottom⟩

end Ranked

end Schematic
