import Mathlib.Logic.Relation
import Mathlib.Order.WellFoundedSet
import Schematic.Proofs.Ranking.Feedback
import Schematic.Proofs.Ranking.Tally

/-!
# Cycles are broken and nothing else is changed

A graph is free of cycles if no walk leads back to where it began. Turning the backward edges of the
greedy order around always makes it so. A graph that was free of cycles has a sink among any of its
nodes; all its nodes are taken as sinks then, no edge runs backwards, and the graph stays as it is.
-/

namespace Schematic

namespace Digraph

variable {V : Type} [DecidableEq V] {g : Digraph V} {left : List V} {u v : V}

/-- No walk along the edges, be it a single loop, leads back to where it began. -/
def CycleFree (g : Digraph V) : Prop :=
  ∀ v, ¬Relation.TransGen (fun u w => (u, w) ∈ g.edges) v v

omit [DecidableEq V] in
/-- Edges that always lead to something greater form no cycle, for a walk leads to something greater
as well, by induction on its length. -/
theorem cycleFree_of_lt (f : V → Nat) (h : ∀ u v, (u, v) ∈ g.edges → f u < f v) :
    g.CycleFree := by
  have hwalk : ∀ {u w}, Relation.TransGen (fun u w => (u, w) ∈ g.edges) u w → f u < f w := by
    intro u w hwalk
    induction hwalk with
    | single he => exact h _ _ he
    | tail _ he ih => exact ih.trans (h _ _ he)
  exact fun v hv => Nat.lt_irrefl _ (hwalk hv)

theorem cycleFree_acyclic (g : Digraph V) : g.acyclic.CycleFree :=
  cycleFree_of_lt g.greedyOrder.idxOf fun _ _ => idxOf_lt_of_acyclic

/-! ## What is free of cycles is all sinks -/

omit [DecidableEq V] in
theorem CycleFree.ne_of_mem_edges (h : g.CycleFree) (he : (u, v) ∈ g.edges) : u ≠ v :=
  fun heq => h v (.single (heq ▸ he))

/-- Walking on and on among nodes that are left ends, if there are no cycles, at one of them that no
edge leaves. -/
theorem CycleFree.exists_sink (h : g.CycleFree) (hne : left ≠ []) :
    ∃ v ∈ left, g.outDegree left v = 0 := by
  have : IsStrictOrder V fun a b => Relation.TransGen (fun u w => (u, w) ∈ g.edges) b a :=
    { irrefl := h, trans := fun _ _ _ hab hbc => hbc.trans hab }
  have hfinite := (List.finite_toSet left).wellFoundedOn
    (r := fun a b => Relation.TransGen (fun u w => (u, w) ∈ g.edges) b a)
  obtain ⟨u, hu⟩ := List.exists_mem_of_ne_nil left hne
  obtain ⟨⟨v, hv⟩, -, hmin⟩ := WellFounded.has_min hfinite Set.univ ⟨⟨u, hu⟩, trivial⟩
  refine ⟨v, hv, List.countP_eq_zero.mpr fun w hw hleft => ?_⟩
  exact hmin ⟨w, List.contains_iff_mem.mp hleft⟩ trivial (.single (mem_successors.mp hw))

theorem CycleFree.peelSinks_eq_nil (h : g.CycleFree) : (g.peelSinks left).1 = [] := by
  unfold peelSinks
  fun_induction peel (fun left v => g.outDegree left v == 0) left with
  | case1 left hempty =>
      by_contra hne
      obtain ⟨v, hv, hzero⟩ := h.exists_sink hne
      have hmem : v ∈ picked (fun left v => g.outDegree left v == 0) left :=
        List.mem_filter.mpr ⟨hv, by simp [hzero]⟩
      rw [List.isEmpty_iff.mp hempty] at hmem
      cases hmem
  | case2 left hempty rest ih => exact ih

theorem CycleFree.backEdges_eq_nil (h : g.CycleFree) : g.backEdges = [] := by
  have hrest : (g.peelSources (g.peelSinks g.nodes).1).1 = [] := by
    rw [h.peelSinks_eq_nil]
    exact List.length_eq_zero_iff.mp (Nat.le_zero.mp (length_peel_le _ []))
  rw [← List.length_eq_zero_iff, length_backEdges]
  exact backward_orderFrom_of_nil g.nodup_nodes hrest

theorem CycleFree.edges_acyclic_perm (h : g.CycleFree) : g.acyclic.edges.Perm g.edges := by
  refine (List.perm_ext_iff_of_nodup g.acyclic.nodup_edges g.nodup_edges).mpr fun ⟨u, v⟩ => ?_
  rw [mem_edges_acyclic, h.backEdges_eq_nil]
  simp only [List.not_mem_nil, not_false_eq_true, and_true, or_false]
  exact ⟨And.right, fun he => ⟨h.ne_of_mem_edges he, he⟩⟩

/-! ## Every edge is kept in one direction -/

theorem mem_backEdges_iff (he : (u, v) ∈ g.edges) :
    (u, v) ∈ g.backEdges ↔ (v, u) ∈ g.acyclic.edges := by
  constructor
  · exact fun hback =>
      mem_edges_acyclic.mpr ⟨(mem_backEdges.mp hback).2.1.symm, Or.inr hback⟩
  · exact fun hturned =>
      mem_backEdges.mpr ⟨he, (mem_edges_acyclic.mp hturned).1.symm, idxOf_lt_of_acyclic hturned⟩

/-- Of the two directions of an edge that is not a loop the result has exactly one: both together
would be a cycle. -/
theorem xor_mem_edges_acyclic (he : (u, v) ∈ g.edges) (hne : u ≠ v) :
    Xor ((u, v) ∈ g.acyclic.edges) ((v, u) ∈ g.acyclic.edges) := by
  have hone : ¬((u, v) ∈ g.acyclic.edges ∧ (v, u) ∈ g.acyclic.edges) := fun h =>
    g.cycleFree_acyclic u (.tail (.single h.1) h.2)
  by_cases hback : (u, v) ∈ g.backEdges
  · have hturned := (mem_backEdges_iff he).mp hback
    exact Or.inr ⟨hturned, fun h => hone ⟨h, hturned⟩⟩
  · have hkept : (u, v) ∈ g.acyclic.edges := mem_edges_acyclic.mpr ⟨hne, Or.inl ⟨he, hback⟩⟩
    exact Or.inl ⟨hkept, fun h => hone ⟨hkept, h⟩⟩

theorem nodup_backEdges : g.backEdges.Nodup := nodup_arcs.filter _

/-- What it means that the graph `h` is `g` with its cycles broken by turning the edges `back`
around. -/
structure BreaksCycles (g h : Digraph V) (back : List (V × V)) : Prop where
  nodes : h.nodes = g.nodes
  cycleFree : h.CycleFree
  one_direction : ∀ u v, (u, v) ∈ g.edges → u ≠ v → Xor ((u, v) ∈ h.edges) ((v, u) ∈ h.edges)
  no_other : ∀ u v, (u, v) ∈ h.edges → (u, v) ∈ g.edges ∨ (v, u) ∈ g.edges
  nodup_back : back.Nodup
  back_subset : back ⊆ g.edges
  mem_back_iff : ∀ u v, (u, v) ∈ g.edges → ((u, v) ∈ back ↔ (v, u) ∈ h.edges)

/-- The order found by counters is the greedy order, a permutation of the nodes. Turning around what
runs backwards in it breaks all cycles, and does nothing where there is none. -/
theorem greedyOrder_breaks_cycles (g : Digraph V) :
    g.countedOrder = g.greedyOrder ∧ g.countedOrder.Perm g.nodes ∧
      BreaksCycles g g.acyclic g.backEdges ∧
      (g.CycleFree → g.backEdges = [] ∧ g.acyclic.edges.Perm g.edges) := by
  refine ⟨g.countedOrder_eq, g.countedOrder_eq ▸ g.greedyOrder_perm, ?_,
    fun h => ⟨h.backEdges_eq_nil, h.edges_acyclic_perm⟩⟩
  exact
    { nodes := nodes_acyclic g
      cycleFree := cycleFree_acyclic g
      one_direction := fun _ _ => xor_mem_edges_acyclic
      no_other := fun _ _ h => (mem_edges_acyclic.mp h).2.imp And.left
        fun hback => (mem_backEdges.mp hback).1
      nodup_back := nodup_backEdges
      back_subset := fun _ he => (mem_backEdges.mp he).1
      mem_back_iff := fun _ _ => mem_backEdges_iff }

/-- Edges that all lead to a greater number stay, in whatever order the nodes were listed. -/
theorem greedyOrder_breaks_no_cycle_of_three :
    (ofLists [2, 0, 1] [(0, 2), (0, 1), (1, 2)]).CycleFree ∧
      (ofLists [2, 0, 1] [(0, 2), (0, 1), (1, 2)]).backEdges = [] ∧
      (ofLists [2, 0, 1] [(0, 2), (0, 1), (1, 2)]).acyclic.edges.Perm [(0, 2), (0, 1), (1, 2)] := by
  have hfree : (ofLists [2, 0, 1] [(0, 2), (0, 1), (1, 2)]).CycleFree :=
    cycleFree_of_lt id fun u v he => by
      have hup : ∀ e ∈ [(0, 2), (0, 1), (1, 2)], e.1 < e.2 := by decide
      exact hup (u, v) (mem_edges_ofLists.mp he)
  exact ⟨hfree, (greedyOrder_breaks_cycles _).2.2.2 hfree⟩

end Digraph

end Schematic
