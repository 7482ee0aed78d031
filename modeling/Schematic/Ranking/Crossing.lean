import Schematic.Ranking.Subdivision

/-!
# Crossings

The nodes of each layer are put into an order in which few edges cross. An order is improved by
sweeping over the layers, down and then up: the nodes of a layer are sorted by the average position
of their neighbours in the layer before it, those without neighbours last. Sweeps go on while they
lower the number of crossings.
-/

namespace Schematic

namespace Crossing

variable {V : Type} [DecidableEq V]

/-- The position of `v` in a layer, the last one if it is there repeatedly. -/
def position? (layer : List V) (v : V) : Option Nat := layer.zipIdx.reverse.lookup v

/-! ## Counting -/

/-- The edges from one layer to the next, as positions in the two layers. -/
def spans (g : Digraph V) (upper lower : List V) : List (Nat × Nat) :=
  upper.zipIdx.flatMap fun e =>
    (g.successors e.1).filterMap fun v => (position? lower v).map fun j => (e.2, j)

/-- The ends of two edges are in opposite order. -/
def cross (a b : Nat × Nat) : Bool :=
  decide ((a.1 < b.1 ∧ b.2 < a.2) ∨ (b.1 < a.1 ∧ a.2 < b.2))

/-- How many pairs of a list cross. -/
def crossingPairs : List (Nat × Nat) → Nat
  | [] => 0
  | e :: es => es.countP (cross e) + crossingPairs es

/-- The number of crossings between neighbouring layers. -/
def crossings (g : Digraph V) : List (List V) → Nat
  | upper :: lower :: rest =>
    crossingPairs (spans g upper lower) + crossings g (lower :: rest)
  | _ => 0

/-! ## Sorting -/

/-- The sum and the number of the positions that the neighbours of a node have in a layer. -/
def weight (neighbours layer : List V) : Nat × Nat :=
  let places := neighbours.filterMap (position? layer)
  (places.foldr (· + ·) 0, places.length)

/-- The average of the first is at most that of the second. A node without neighbours comes last. -/
def weightLE (a b : Nat × Nat) : Bool :=
  if b.2 = 0 then true
  else if a.2 = 0 then false
  else decide (a.1 * b.2 ≤ b.1 * a.2)

/-- A layer sorted by the average position of the neighbours in the layer `before`; nodes with the
same average keep their order. -/
def sortLayer (neighbours : V → List V) (before layer : List V) : List V :=
  let weighed := layer.map fun v => (v, weight (neighbours v) before)
  (weighed.mergeSort fun a b => weightLE a.2 b.2).map Prod.fst

/-- Sorts each of the layers by the one before it, where `before` stands before the first. -/
def sweepFrom (neighbours : V → List V) (before : List V) : List (List V) → List (List V)
  | [] => []
  | layer :: rest =>
    let sorted := sortLayer neighbours before layer
    sorted :: sweepFrom neighbours sorted rest

/-- Sorts each layer but the first by the one before it. -/
def sweep (neighbours : V → List V) : List (List V) → List (List V)
  | [] => []
  | layer :: rest => layer :: sweepFrom neighbours layer rest

/-- One sweep down and one up. -/
def sweepBoth (g : Digraph V) (layers : List (List V)) : List (List V) :=
  (sweep g.successors (sweep g.predecessors layers).reverse).reverse

/-- Sweeps at most `sweeps` times, as long as each time there are fewer crossings. -/
def improve (g : Digraph V) : Nat → List (List V) → List (List V)
  | 0, layers => layers
  | sweeps + 1, layers =>
    if crossings g layers = 0 then layers
    else
      let swept := sweepBoth g layers
      if crossings g swept < crossings g layers then improve g sweeps swept else layers

/-- How many times the layers are swept at most. -/
def maxSweeps : Nat := 24

end Crossing

namespace Layered

/-- The layers with their nodes in the order of the graph. -/
def initialOrdering (l : Layered) : List (List String) :=
  (List.range l.layerCount).map fun k => l.graph.nodes.filter fun v => l.layer v == k

/-- The layers with their nodes in an order with few crossings. -/
def ordering (l : Layered) : List (List String) :=
  Crossing.improve l.graph Crossing.maxSweeps l.initialOrdering

end Layered

end Schematic
