import Schematic.KeyedList
import Schematic.Ranking.Digraph

/-!
# Layers

The layer of a node is the length of the longest path that ends in it. Layers are found by taking
away all sources at once, again and again: the sources that are taken away in round `k` are the
nodes of layer `k`. A graph from which sources are taken until none is left over is free of cycles;
if nodes are left over among which there is no source, there is a cycle, and there are no layers.
-/

namespace Schematic

namespace Digraph

variable {V : Type} [DecidableEq V]

/-- No edge leads to `v` from a node of `left`. -/
def isSource (g : Digraph V) (left : List V) (v : V) : Bool :=
  !(g.predecessors v).any left.contains

def sources (g : Digraph V) (left : List V) : List V := left.filter (g.isSource left)

def beyondSources (g : Digraph V) (left : List V) : List V :=
  left.filter fun v => !g.isSource left v

theorem length_beyondSources_lt (g : Digraph V) {left : List V}
    (h : (g.sources left).isEmpty = false) : (g.beyondSources left).length < left.length := by
  unfold beyondSources
  rw [List.length_filter_lt_length_iff_exists]
  unfold sources at h
  cases hf : left.filter (g.isSource left) with
  | nil => simp [hf] at h
  | cons v vs =>
    have hv : v ∈ left.filter (g.isSource left) := by simp [hf]
    rw [List.mem_filter] at hv
    exact ⟨v, hv.1, by simp [hv.2]⟩

/-- The nodes of `left` by layers, unless there is a cycle among them. -/
def layersFrom? (g : Digraph V) (left : List V) : Option (List (List V)) :=
  if left.isEmpty then some []
  else if (g.sources left).isEmpty then none
  else (layersFrom? g (g.beyondSources left)).map fun layers => g.sources left :: layers
termination_by left.length
decreasing_by exact g.length_beyondSources_lt (Bool.eq_false_iff.mpr ‹_›)

/-- The layer of every node, in the order of the nodes, unless there is a cycle. -/
def layers? (g : Digraph V) : Option (KeyedList V Nat) :=
  (g.layersFrom? g.nodes).map fun layers =>
    .ofList (g.nodes.map fun v => (v, layers.findIdx fun layer => layer.contains v))

end Digraph

end Schematic
