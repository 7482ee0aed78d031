import Schematic.KeyedList
import Schematic.Ranking.Digraph

/-!
# Layers by relaxation

The layers of a graph without cycles can also be found node by node, in any order in which all edges
lead forwards. Every node begins on layer zero; a node whose turn it is pushes the targets of its
edges to the layer below its own, unless they are that deep already.
-/

namespace Schematic

namespace Digraph

variable {V : Type} [DecidableEq V]

/-- The layer of `v`. -/
def depth (layers : KeyedList V Nat) (v : V) : Nat := (layers.get? v).getD 0

/-- Pushes `v` below `u`. -/
def deepen (u : V) (layers : KeyedList V Nat) (v : V) : KeyedList V Nat :=
  if depth layers v < depth layers u + 1 then layers.put v (depth layers u + 1) else layers

/-- Pushes all targets of edges from `u` below `u`. -/
def relax (g : Digraph V) (layers : KeyedList V Nat) (u : V) : KeyedList V Nat :=
  (g.successors u).foldl (deepen u) layers

/-- The layers that are found when the nodes have their turn in the given order. -/
def relaxed (g : Digraph V) (order : List V) : KeyedList V Nat :=
  order.foldl g.relax (.ofList (g.nodes.map fun v => (v, 0)))

end Digraph

end Schematic
