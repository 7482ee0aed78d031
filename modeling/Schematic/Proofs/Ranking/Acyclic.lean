import Mathlib.Data.List.Basic
import Schematic.Proofs.Ranking.Digraph
import Schematic.Ranking.Acyclic

/-!
# The greedy order leaves no cycle

The greedy order is a permutation of the nodes, so each node has one position in it. An edge of the
graph with its backward edges turned around always leads to a later position.
-/

namespace Schematic

namespace Digraph

variable {V : Type} [DecidableEq V] (g : Digraph V)

omit [DecidableEq V] in
/-- What was taken and what is left are what there was. The induction is on the number of nodes
left, and every round takes some away. -/
theorem peel_perm (pick : List V → V → Bool) (left : List V) :
    ((peel pick left).2 ++ (peel pick left).1).Perm left := by
  fun_induction peel pick left with
  | case1 left h => exact List.Perm.refl _
  | case2 left h rest ih =>
      rw [List.append_assoc]
      exact (ih.append_left _).trans (List.filter_append_perm (pick left) left)

variable {left vs : List V} {v : V} in
theorem orderFrom_of_nil (h : (g.peelSources (g.peelSinks left).1).1 = []) :
    g.orderFrom left =
      (g.peelSources (g.peelSinks left).1).2 ++ (g.peelSinks left).2.reverse := by
  rw [orderFrom]
  split
  · rfl
  · next hcons => simp [h] at hcons

variable {left vs : List V} {v : V} in
theorem orderFrom_of_cons (h : (g.peelSources (g.peelSinks left).1).1 = v :: vs) :
    g.orderFrom left = (g.peelSources (g.peelSinks left).1).2 ++ g.richest (v :: vs) v vs ::
      g.orderFrom ((v :: vs).erase (g.richest (v :: vs) v vs)) ++
        (g.peelSinks left).2.reverse := by
  rw [orderFrom]
  split
  · next hnil => simp [h] at hnil
  · next hcons =>
    rw [h] at hcons
    cases hcons
    rfl

theorem orderFrom_perm (left : List V) : (g.orderFrom left).Perm left := by
  fun_induction orderFrom g left with
  | case1 left h =>
      have hsinks := peel_perm (fun left v => g.outDegree left v == 0) left
      have hsources := peel_perm (fun left v => g.inDegree left v == 0) (g.peelSinks left).1
      change ((g.peelSources (g.peelSinks left).1).2 ++ (g.peelSources (g.peelSinks left).1).1).Perm
        _ at hsources
      rw [h, List.append_nil] at hsources
      refine (hsources.append (List.reverse_perm _)).trans ?_
      exact List.perm_append_comm.trans hsinks
  | case2 left v vs h hlt ih =>
      have hsinks := peel_perm (fun left v => g.outDegree left v == 0) left
      have hsources := peel_perm (fun left v => g.inDegree left v == 0) (g.peelSinks left).1
      change ((g.peelSources (g.peelSinks left).1).2 ++ (g.peelSources (g.peelSinks left).1).1).Perm
        _ at hsources
      rw [h] at hsources
      have hrichest := List.perm_cons_erase (g.richest_mem (v :: vs) v vs)
      have hmiddle := (ih.cons (g.richest (v :: vs) v vs)).trans hrichest.symm
      have hfront := (hmiddle.append_left (g.peelSources (g.peelSinks left).1).2).trans hsources
      refine (hfront.append (List.reverse_perm _)).trans ?_
      exact List.perm_append_comm.trans hsinks

theorem greedyOrder_perm : g.greedyOrder.Perm g.nodes := g.orderFrom_perm g.nodes

/-! ## Edges turned around -/

variable {g : Digraph V} {u v : V}

theorem mem_backEdges {e : V × V} : e ∈ g.backEdges ↔
    e ∈ g.edges ∧ e.1 ≠ e.2 ∧ g.greedyOrder.idxOf e.2 < g.greedyOrder.idxOf e.1 := by
  simp [backEdges, mem_arcs]

/-- The edges of the graph without cycles are the edges that are not loops, each in the direction of
the greedy order. -/
theorem mem_edges_acyclic : (u, v) ∈ g.acyclic.edges ↔
    u ≠ v ∧ ((u, v) ∈ g.edges ∧ (u, v) ∉ g.backEdges ∨ (v, u) ∈ g.backEdges) := by
  rw [acyclic, mem_edges_ofLists, List.mem_map]
  constructor
  · rintro ⟨⟨a, b⟩, he, heq⟩
    obtain ⟨hmem, hne⟩ := List.mem_filter.mp he
    rw [mem_arcs] at hmem
    have hne : a ≠ b := by simpa using hne
    split at heq
    · next hback =>
      obtain ⟨rfl, rfl⟩ := Prod.mk.inj heq
      exact ⟨hne.symm, Or.inr (by simpa using hback)⟩
    · next hback =>
      obtain ⟨rfl, rfl⟩ := Prod.mk.inj heq
      exact ⟨hne, Or.inl ⟨hmem, by simpa using hback⟩⟩
  · rintro ⟨hne, ⟨hmem, hback⟩ | hback⟩
    · refine ⟨(u, v), List.mem_filter.mpr ⟨mem_arcs.mpr hmem, by simpa using hne⟩, ?_⟩
      simp [hback]
    · have hmem := (mem_backEdges.mp hback).1
      refine ⟨(v, u), List.mem_filter.mpr ⟨mem_arcs.mpr hmem, by simpa using hne.symm⟩, ?_⟩
      simp [hback]

theorem nodes_acyclic (g : Digraph V) : g.acyclic.nodes = g.nodes := by
  refine nodes_ofLists g.nodup_nodes fun e he => ?_
  obtain ⟨f, hf, rfl⟩ := List.mem_map.mp he
  obtain ⟨hu, hv⟩ := g.ends_mem f (mem_arcs.mp (List.mem_filter.mp hf).1)
  split
  · exact ⟨hv, hu⟩
  · exact ⟨hu, hv⟩

/-- Edges lead to later nodes of the greedy order, so there is no cycle. An edge that does not is
one of those that were turned around, and turned around it does. -/
theorem idxOf_lt_of_acyclic (h : (u, v) ∈ g.acyclic.edges) :
    g.greedyOrder.idxOf u < g.greedyOrder.idxOf v := by
  obtain ⟨hu, hv⟩ := g.acyclic.ends_mem _ h
  rw [nodes_acyclic, ← g.greedyOrder_perm.mem_iff] at hu hv
  obtain ⟨hne, ⟨hmem, hback⟩ | hback⟩ := mem_edges_acyclic.mp h
  · rw [mem_backEdges] at hback
    have hle : g.greedyOrder.idxOf u ≤ g.greedyOrder.idxOf v :=
      Nat.le_of_not_lt fun hlt => hback ⟨hmem, hne, hlt⟩
    refine Nat.lt_of_le_of_ne hle fun he => hne ?_
    exact (List.idxOf_inj hu).mp he
  · exact (mem_backEdges.mp hback).2.2

end Digraph

end Schematic
