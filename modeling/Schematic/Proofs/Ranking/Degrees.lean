import Mathlib.Algebra.Order.BigOperators.Group.List
import Mathlib.Algebra.Order.Ring.Nat
import Mathlib.Data.List.Nodup
import Schematic.Proofs.Ranking.Digraph
import Schematic.Ranking.Acyclic

/-!
# Degrees among the nodes that are left

A node that leaves changes the degree of each neighbour that stays by one and no other degree. Every
edge among the nodes that are left leaves one of them and reaches one of them, so both degrees have
the same sum, and a node with the greatest surplus never has more incoming than outgoing edges.
-/

namespace Schematic

namespace Digraph

variable {V : Type} [DecidableEq V] (g : Digraph V) {left rest : List V} {u v : V}

/-! ## Neighbours occur once -/

theorem nodup_successors (u : V) : (g.successors u).Nodup := by
  refine g.nodup_edges.filterMap fun e f b he hf => ?_
  simp only [Option.mem_def, Option.ite_none_right_eq_some, Option.some.injEq] at he hf
  exact Prod.ext (he.1.trans hf.1.symm) (he.2.trans hf.2.symm)

theorem nodup_predecessors (v : V) : (g.predecessors v).Nodup := by
  refine g.nodup_edges.filterMap fun e f b he hf => ?_
  simp only [Option.mem_def, Option.ite_none_right_eq_some, Option.some.injEq] at he hf
  exact Prod.ext (he.2.trans hf.2.symm) (he.1.trans hf.1.symm)

theorem count_successors : (g.successors u).count v = if (u, v) ∈ g.edges then 1 else 0 := by
  simp only [List.Nodup.count (g.nodup_successors u), mem_successors]

theorem count_predecessors : (g.predecessors v).count u = if (u, v) ∈ g.edges then 1 else 0 := by
  simp only [List.Nodup.count (g.nodup_predecessors v), mem_predecessors]

/-! ## One node more or less -/

/-- A new element of a list is found as often as it occurs, in addition to the others. This is what
a node that leaves takes from the degree of a neighbour. -/
theorem countP_contains_cons (hv : v ∉ left) (ws : List V) :
    ws.countP (v :: left).contains = ws.countP left.contains + ws.count v := by
  induction ws with
  | nil => rfl
  | cons w ws ih =>
      rw [List.countP_cons, List.countP_cons, List.count_cons, ih, List.contains_cons]
      by_cases hw : w = v
      · subst hw
        simp [hv, Nat.add_assoc]
      · simp [hw, Nat.add_right_comm]

@[simp] theorem outDegree_nil : g.outDegree [] u = 0 := List.countP_eq_zero.mpr (by simp)

@[simp] theorem inDegree_nil : g.inDegree [] u = 0 := List.countP_eq_zero.mpr (by simp)

theorem outDegree_cons (hv : v ∉ left) :
    g.outDegree (v :: left) u = g.outDegree left u + if (u, v) ∈ g.edges then 1 else 0 := by
  rw [outDegree, outDegree, countP_contains_cons hv, count_successors]

theorem inDegree_cons (hv : v ∉ left) :
    g.inDegree (v :: left) u = g.inDegree left u + if (v, u) ∈ g.edges then 1 else 0 := by
  rw [inDegree, inDegree, countP_contains_cons hv, count_predecessors]

variable {g}

/-- Only which nodes are left matters, and the more there are, the greater is the degree. -/
theorem outDegree_mono (h : ∀ w ∈ rest, w ∈ left) : g.outDegree rest u ≤ g.outDegree left u :=
  List.countP_mono_left fun w _ hw => by
    rw [List.contains_iff_mem] at hw ⊢
    exact h w hw

theorem inDegree_mono (h : ∀ w ∈ rest, w ∈ left) : g.inDegree rest u ≤ g.inDegree left u :=
  List.countP_mono_left fun w _ hw => by
    rw [List.contains_iff_mem] at hw ⊢
    exact h w hw

theorem outDegree_perm (h : left.Perm rest) : g.outDegree left u = g.outDegree rest u :=
  Nat.le_antisymm (outDegree_mono fun _ => h.mem_iff.mp) (outDegree_mono fun _ => h.mem_iff.mpr)

theorem inDegree_perm (h : left.Perm rest) : g.inDegree left u = g.inDegree rest u :=
  Nat.le_antisymm (inDegree_mono fun _ => h.mem_iff.mp) (inDegree_mono fun _ => h.mem_iff.mpr)

/-- The degree that is lost when `v` leaves. -/
theorem outDegree_eq_erase_add (hleft : left.Nodup) (hv : v ∈ left) :
    g.outDegree left u = g.outDegree (left.erase v) u + if (u, v) ∈ g.edges then 1 else 0 := by
  rw [outDegree_perm (List.perm_cons_erase hv), g.outDegree_cons (hleft.not_mem_erase)]

theorem inDegree_eq_erase_add (hleft : left.Nodup) (hv : v ∈ left) :
    g.inDegree left u = g.inDegree (left.erase v) u + if (v, u) ∈ g.edges then 1 else 0 := by
  rw [inDegree_perm (List.perm_cons_erase hv), g.inDegree_cons (hleft.not_mem_erase)]

/-! ## Both degrees have the same sum -/

/-- Edges counted by one of their ends, over all nodes that are left. -/
theorem sum_countP_eq {α : Type} (hleft : left.Nodup) (es : List α) (f : α → V) (p : α → Bool) :
    (left.map fun v => es.countP fun e => decide (f e = v) && p e).sum =
      es.countP fun e => left.contains (f e) && p e := by
  induction left with
  | nil => simp
  | cons v left ih =>
      obtain ⟨hv, hleft⟩ := List.nodup_cons.mp hleft
      rw [List.map_cons, List.sum_cons, ih hleft]
      clear ih
      induction es with
      | nil => rfl
      | cons e es ihe =>
          rw [List.countP_cons, List.countP_cons, List.countP_cons, ← ihe, List.contains_cons]
          by_cases he : f e = v
          · simp [he, hv, Nat.add_right_comm]
          · simp [he, Nat.add_assoc]

theorem outDegree_eq_countP :
    g.outDegree left v = g.edges.countP fun e => decide (e.1 = v) && left.contains e.2 := by
  rw [outDegree, successors, List.countP_filterMap]
  refine List.countP_congr fun e _ => ?_
  by_cases he : e.1 = v <;> simp [he]

theorem inDegree_eq_countP :
    g.inDegree left v = g.edges.countP fun e => decide (e.2 = v) && left.contains e.1 := by
  rw [inDegree, predecessors, List.countP_filterMap]
  refine List.countP_congr fun e _ => ?_
  by_cases he : e.2 = v <;> simp [he]

/-- Every edge among the nodes that are left is counted once at each end. Both sums count the same
edges, the one by their sources and the other by their targets. -/
theorem sum_outDegree_eq (hleft : left.Nodup) :
    (left.map (g.outDegree left)).sum = (left.map (g.inDegree left)).sum := by
  have hout : g.outDegree left = fun v => g.edges.countP fun e =>
      decide (e.1 = v) && left.contains e.2 := funext fun v => outDegree_eq_countP
  have hin : g.inDegree left = fun v => g.edges.countP fun e =>
      decide (e.2 = v) && left.contains e.1 := funext fun v => inDegree_eq_countP
  rw [hout, hin, sum_countP_eq hleft, sum_countP_eq hleft]
  exact List.countP_congr fun e _ => by rw [Bool.and_comm]

/-! ## The node with the greatest surplus -/

theorem surplus_le_richest (vs : List V) (hu : u ∈ v :: vs) :
    g.surplus left u ≤ g.surplus left (g.richest left v vs) := by
  unfold richest
  induction vs generalizing v u with
  | nil =>
      rw [List.mem_singleton] at hu
      rw [hu, List.foldl_nil]
  | cons w vs ih =>
      -- the better of `v` and `w` is carried on, and both are at most as good
      have hbest : g.surplus left v ≤ g.surplus left
            (if g.surplus left v < g.surplus left w then w else v) ∧
          g.surplus left w ≤ g.surplus left
            (if g.surplus left v < g.surplus left w then w else v) := by
        split <;> constructor <;> omega
      have hfirst := ih (u := if g.surplus left v < g.surplus left w then w else v)
        (List.mem_cons_self ..)
      rw [List.foldl_cons]
      rcases List.mem_cons.mp hu with rfl | hu
      · exact hbest.1.trans hfirst
      · rcases List.mem_cons.mp hu with rfl | hu
        · exact hbest.2.trans hfirst
        · exact ih (List.mem_cons_of_mem _ hu)

/-- As both degrees have the same sum, the greatest surplus is not negative: if all were, the
outgoing edges together would be fewer than the incoming ones. -/
theorem inDegree_richest_le {vs : List V} (hleft : (v :: vs).Nodup) :
    g.inDegree (v :: vs) (g.richest (v :: vs) v vs) ≤
      g.outDegree (v :: vs) (g.richest (v :: vs) v vs) := by
  obtain ⟨u, hu, hle⟩ : ∃ u ∈ v :: vs, g.inDegree (v :: vs) u ≤ g.outDegree (v :: vs) u :=
    List.exists_le_of_sum_le (List.cons_ne_nil v vs) _ _ (sum_outDegree_eq hleft).ge
  have hmost : g.surplus (v :: vs) u ≤ g.surplus (v :: vs) (g.richest (v :: vs) v vs) :=
    surplus_le_richest vs hu
  unfold surplus at hmost
  omega

/-- The edges that reach the node with the greatest surplus from other nodes are not more than those
that leave it to other nodes: a loop counts on both sides. -/
theorem inDegree_erase_richest_le {vs : List V} (hleft : (v :: vs).Nodup) :
    g.inDegree ((v :: vs).erase (g.richest (v :: vs) v vs)) (g.richest (v :: vs) v vs) ≤
      g.outDegree ((v :: vs).erase (g.richest (v :: vs) v vs)) (g.richest (v :: vs) v vs) := by
  have hmem := g.richest_mem (v :: vs) v vs
  have hle := inDegree_richest_le (g := g) hleft
  rw [inDegree_eq_erase_add hleft hmem, outDegree_eq_erase_add hleft hmem] at hle
  exact Nat.le_of_add_le_add_right hle

end Digraph

end Schematic
