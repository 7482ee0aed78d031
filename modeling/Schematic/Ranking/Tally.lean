import Schematic.KeyedList
import Schematic.Ranking.Acyclic

/-!
# Taking nodes away by counters

The nodes of a graph are taken away as in the greedy order, but no degree is ever counted anew. Each
node has a counter of its outgoing and one of its incoming edges; a node that leaves lowers the
counters of those neighbours that are still there.
-/

namespace Schematic

/-- The nodes that are left and a counter for each kind of their edges. -/
structure Tally (V : Type) where
  left : List V
  outs : KeyedList V Int
  ins : KeyedList V Int

namespace Tally

variable {V : Type} [DecidableEq V]

/-- All nodes, each with the number of its neighbours. -/
def start (g : Digraph V) : Tally V where
  left := g.nodes
  outs := KeyedList.ofList (g.nodes.map fun v => (v, ((g.successors v).length : Int)))
  ins := KeyedList.ofList (g.nodes.map fun v => (v, ((g.predecessors v).length : Int)))

/-- Takes one off the counter of each of `vs` that is left. -/
def lower (left : List V) (counts : KeyedList V Int) (vs : List V) : KeyedList V Int :=
  vs.foldl (fun counts v => if left.contains v then counts.modify v (· - 1) else counts) counts

/-- Takes `v` away. -/
def drop (g : Digraph V) (t : Tally V) (v : V) : Tally V where
  left := t.left.erase v
  outs := lower (t.left.erase v) t.outs (g.predecessors v)
  ins := lower (t.left.erase v) t.ins (g.successors v)

@[simp] theorem left_drop (g : Digraph V) (t : Tally V) (v : V) :
    (t.drop g v).left = t.left.erase v := rfl

@[simp] theorem outs_drop (g : Digraph V) (t : Tally V) (v : V) :
    (t.drop g v).outs = lower (t.left.erase v) t.outs (g.predecessors v) := rfl

@[simp] theorem ins_drop (g : Digraph V) (t : Tally V) (v : V) :
    (t.drop g v).ins = lower (t.left.erase v) t.ins (g.successors v) := rfl

/-- The nodes that are left whose counter has come down to zero. -/
def exhausted (counts : Tally V → KeyedList V Int) (t : Tally V) : List V :=
  t.left.filter fun v => (counts t).get? v == some 0

theorem left_dropAll (g : Digraph V) (t : Tally V) (vs : List V) :
    (vs.foldl (drop g) t).left = vs.foldl List.erase t.left := by
  induction vs generalizing t with
  | nil => rfl
  | cons v vs ih => rw [List.foldl_cons, List.foldl_cons, ih, left_drop]

theorem length_dropAll_le (g : Digraph V) (t : Tally V) (vs : List V) :
    (vs.foldl (drop g) t).left.length ≤ t.left.length := by
  induction vs generalizing t with
  | nil => exact Nat.le_refl _
  | cons v vs ih => exact Nat.le_trans (ih _) List.length_erase_le

theorem length_drop_lt (g : Digraph V) {t : Tally V} {v : V} (h : v ∈ t.left) :
    (t.drop g v).left.length < t.left.length := by
  have hpos := List.length_pos_of_mem h
  have herase := List.length_erase_of_mem h
  rw [left_drop]
  omega

theorem length_dropAll_lt (g : Digraph V) {counts : Tally V → KeyedList V Int} {t : Tally V}
    (h : (exhausted counts t).isEmpty = false) :
    ((exhausted counts t).foldl (drop g) t).left.length < t.left.length := by
  cases hz : exhausted counts t with
  | nil => simp [hz] at h
  | cons v vs =>
    have hv : v ∈ exhausted counts t := by simp [hz]
    have hmem : v ∈ t.left := (List.mem_filter.mp hv).1
    exact Nat.lt_of_le_of_lt (length_dropAll_le g (t.drop g v) vs) (length_drop_lt g hmem)

/-- Takes away all nodes with a zero counter, again and again until there are none. The result is
the tally that is left and what was taken, in the order in which it was. -/
def peel (g : Digraph V) (counts : Tally V → KeyedList V Int) (t : Tally V) : Tally V × List V :=
  if (exhausted counts t).isEmpty then (t, [])
  else
    let rest := peel g counts ((exhausted counts t).foldl (drop g) t)
    (rest.1, exhausted counts t ++ rest.2)
termination_by t.left.length
decreasing_by exact length_dropAll_lt g (Bool.eq_false_iff.mpr ‹_›)

theorem length_peel_le (g : Digraph V) (counts : Tally V → KeyedList V Int) (t : Tally V) :
    (t.peel g counts).1.left.length ≤ t.left.length := by
  fun_induction peel g counts t with
  | case1 => exact Nat.le_refl _
  | case2 t h rest ih => exact Nat.le_trans ih (length_dropAll_le g t _)

/-- How much greater the counter of outgoing edges is. -/
def surplus (t : Tally V) (v : V) : Int :=
  (t.outs.get? v).getD 0 - (t.ins.get? v).getD 0

/-- The first node of `v :: vs` with the greatest surplus. -/
def richest (t : Tally V) (v : V) (vs : List V) : V :=
  vs.foldl (fun best u => if t.surplus best < t.surplus u then u else best) v

theorem richest_mem (t : Tally V) (v : V) (vs : List V) : t.richest v vs ∈ v :: vs :=
  Digraph.foldl_choice_mem (fun best u => t.surplus best < t.surplus u) v vs

theorem length_drop_richest_lt (g : Digraph V) {t : Tally V} {v : V} {vs : List V}
    (h : ((t.peel g outs).1.peel g ins).1.left = v :: vs) :
    (((t.peel g outs).1.peel g ins).1.drop g
      (((t.peel g outs).1.peel g ins).1.richest v vs)).left.length < t.left.length := by
  have hsinks := length_peel_le g outs t
  have hsources := length_peel_le g ins (t.peel g outs).1
  have hmem : ((t.peel g outs).1.peel g ins).1.richest v vs ∈
      ((t.peel g outs).1.peel g ins).1.left := h ▸ richest_mem _ v vs
  exact Nat.lt_of_lt_of_le (length_drop_lt g hmem) (Nat.le_trans hsources hsinks)

/-- The nodes that are left, in the order that the counters give. -/
def orderFrom (g : Digraph V) (t : Tally V) : List V :=
  match h : ((t.peel g outs).1.peel g ins).1.left with
  | [] => ((t.peel g outs).1.peel g ins).2 ++ (t.peel g outs).2.reverse
  | v :: vs =>
    have := length_drop_richest_lt g h
    ((t.peel g outs).1.peel g ins).2 ++ ((t.peel g outs).1.peel g ins).1.richest v vs ::
      orderFrom g (((t.peel g outs).1.peel g ins).1.drop g
        (((t.peel g outs).1.peel g ins).1.richest v vs)) ++ (t.peel g outs).2.reverse
termination_by t.left.length

end Tally

/-- The order of the nodes that the counters give. -/
def Digraph.countedOrder {V : Type} [DecidableEq V] (g : Digraph V) : List V :=
  (Tally.start g).orderFrom g

end Schematic
