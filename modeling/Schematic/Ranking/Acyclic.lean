import Schematic.Ranking.Digraph

/-!
# Breaking cycles

Nodes are put into an order in which as few edges as possible run backwards, and the edges that do
are turned around; loops at a node are left out. The order is found greedily. Sinks are taken away
until none is left and go to the end, sources until none is left and go to the front; then the node
with the most outgoing over incoming edges is taken as if it were a source, and all begins anew.
-/

namespace Schematic

namespace Digraph

variable {V : Type} [DecidableEq V]

/-! ## Degrees among the nodes that are left -/

/-- How many edges lead from `v` to a node of `left`. -/
def outDegree (g : Digraph V) (left : List V) (v : V) : Nat :=
  (g.successors v).countP left.contains

/-- How many edges lead to `v` from a node of `left`. -/
def inDegree (g : Digraph V) (left : List V) (v : V) : Nat :=
  (g.predecessors v).countP left.contains

/-- How many more edges leave `v` than reach it. -/
def surplus (g : Digraph V) (left : List V) (v : V) : Int :=
  g.outDegree left v - g.inDegree left v

/-! ## Taking nodes away -/

def picked (pick : List V → V → Bool) (left : List V) : List V := left.filter (pick left)

def unpicked (pick : List V → V → Bool) (left : List V) : List V :=
  left.filter fun v => !pick left v

omit [DecidableEq V] in
theorem length_unpicked_lt {pick : List V → V → Bool} {left : List V}
    (h : (picked pick left).isEmpty = false) : (unpicked pick left).length < left.length := by
  unfold unpicked
  rw [List.length_filter_lt_length_iff_exists]
  unfold picked at h
  cases hf : left.filter (pick left) with
  | nil => simp [hf] at h
  | cons v vs =>
    have hv : v ∈ left.filter (pick left) := by simp [hf]
    rw [List.mem_filter] at hv
    exact ⟨v, hv.1, by simp [hv.2]⟩

/-- Takes away all nodes that are picked among those left, again and again until there are none.
The result is what is left and what was taken, in the order in which it was. -/
def peel (pick : List V → V → Bool) (left : List V) : List V × List V :=
  if (picked pick left).isEmpty then (left, [])
  else
    let rest := peel pick (unpicked pick left)
    (rest.1, picked pick left ++ rest.2)
termination_by left.length
decreasing_by exact length_unpicked_lt (Bool.eq_false_iff.mpr ‹_›)

omit [DecidableEq V] in
theorem length_peel_le (pick : List V → V → Bool) (left : List V) :
    (peel pick left).1.length ≤ left.length := by
  fun_induction peel pick left with
  | case1 => exact Nat.le_refl _
  | case2 left h rest ih => exact Nat.le_trans ih (List.length_filter_le _ _)

def peelSinks (g : Digraph V) (left : List V) : List V × List V :=
  peel (fun left v => g.outDegree left v == 0) left

def peelSources (g : Digraph V) (left : List V) : List V × List V :=
  peel (fun left v => g.inDegree left v == 0) left

/-- The first node of `v :: vs` with the greatest surplus. -/
def richest (g : Digraph V) (left : List V) (v : V) (vs : List V) : V :=
  vs.foldl (fun best u => if g.surplus left best < g.surplus left u then u else best) v

omit [DecidableEq V] in
/-- What is chosen step by step from a list is one of its elements. -/
theorem foldl_choice_mem (better : V → V → Prop) [DecidableRel better] (v : V) (vs : List V) :
    vs.foldl (fun best u => if better best u then u else best) v ∈ v :: vs := by
  induction vs generalizing v with
  | nil => simp
  | cons u us ih =>
    rw [List.foldl_cons]
    have h := ih (if better v u then u else v)
    rcases List.mem_cons.mp h with h | h
    · rw [h]
      split <;> simp
    · exact List.mem_cons_of_mem _ (List.mem_cons_of_mem _ h)

theorem richest_mem (g : Digraph V) (left : List V) (v : V) (vs : List V) :
    g.richest left v vs ∈ v :: vs :=
  foldl_choice_mem (fun best u => g.surplus left best < g.surplus left u) v vs

theorem length_erase_richest_lt (g : Digraph V) {left : List V} {v : V} {vs : List V}
    (h : (g.peelSources (g.peelSinks left).1).1 = v :: vs) :
    ((v :: vs).erase (g.richest (v :: vs) v vs)).length < left.length := by
  have h1 : (g.peelSinks left).1.length ≤ left.length := length_peel_le _ _
  have h2 : (v :: vs).length ≤ (g.peelSinks left).1.length := by
    rw [← h]
    exact length_peel_le _ _
  rw [List.length_erase_of_mem (g.richest_mem (v :: vs) v vs)]
  simp only [List.length_cons] at h2 ⊢
  omega

/-- The greedy order of the nodes that are left. -/
def orderFrom (g : Digraph V) (left : List V) : List V :=
  match h : (g.peelSources (g.peelSinks left).1).1 with
  | [] => (g.peelSources (g.peelSinks left).1).2 ++ (g.peelSinks left).2.reverse
  | v :: vs =>
    have := g.length_erase_richest_lt h
    (g.peelSources (g.peelSinks left).1).2 ++ g.richest (v :: vs) v vs ::
      orderFrom g ((v :: vs).erase (g.richest (v :: vs) v vs)) ++ (g.peelSinks left).2.reverse
termination_by left.length

def greedyOrder (g : Digraph V) : List V := g.orderFrom g.nodes

/-! ## Turning edges around -/

/-- The edges that run backwards in the greedy order. -/
def backEdges (g : Digraph V) : List (V × V) :=
  let order := g.greedyOrder
  g.arcs.filter fun e => e.1 != e.2 && decide (order.idxOf e.2 < order.idxOf e.1)

/-- The graph without loops and with the edges turned around that run backwards. -/
def acyclic (g : Digraph V) : Digraph V :=
  let back := g.backEdges
  let arcs := g.arcs.filter fun e => e.1 != e.2
  ofLists g.nodes (arcs.map fun e => if back.contains e then (e.2, e.1) else e)

end Digraph

end Schematic
