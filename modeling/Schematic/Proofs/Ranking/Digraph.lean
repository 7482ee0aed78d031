import Schematic.Ranking.Digraph

/-!
# What a graph holds

The nodes and edges of a graph that is built step by step are those that were added, and the
neighbours of a node are read off the edges.
-/

namespace Schematic

namespace Digraph

variable {V : Type} [DecidableEq V] {g : Digraph V} {u v w : V}

/-! ## Building -/

theorem mem_nodes_addNodes {vs : List V} : w ∈ (g.addNodes vs).nodes ↔ w ∈ g.nodes ∨ w ∈ vs := by
  unfold addNodes
  induction vs generalizing g with
  | nil => simp
  | cons v vs ih => rw [List.foldl_cons, ih, mem_nodes_addNode, List.mem_cons, or_assoc]

theorem edges_addNodes (g : Digraph V) (vs : List V) : (g.addNodes vs).edges = g.edges := by
  unfold addNodes
  induction vs generalizing g with
  | nil => rfl
  | cons v vs ih => rw [List.foldl_cons, ih, edges_addNode]

theorem nodes_addNode_of_mem (h : v ∈ g.nodes) : g.addNode v = g := dif_pos h

/-- New nodes are put behind the old ones, in order. The condition says that none of them is there
already and none comes twice. -/
theorem nodes_addNodes_append {vs : List V} (h : (g.nodes ++ vs).Nodup) :
    (g.addNodes vs).nodes = g.nodes ++ vs := by
  induction vs generalizing g with
  | nil => simp [addNodes]
  | cons v vs ih =>
      have hv : v ∉ g.nodes := fun hm =>
        (List.nodup_append.mp h).2.2 v hm v (List.mem_cons_self ..) rfl
      have hadd : (g.addNode v).nodes = g.nodes ++ [v] := by rw [addNode, dif_neg hv]
      have htail := ih (g := g.addNode v) (by rw [hadd, List.append_assoc]; exact h)
      rw [addNodes, List.foldl_cons]
      rw [addNodes] at htail
      rw [htail, hadd, List.append_assoc, List.singleton_append]

theorem nodes_addEdge (g : Digraph V) (u v : V) :
    (g.addEdge u v).nodes = ((g.addNode u).addNode v).nodes := by
  unfold addEdge
  simp only
  split <;> rfl

theorem mem_nodes_addEdge : w ∈ (g.addEdge u v).nodes ↔ w ∈ g.nodes ∨ w = u ∨ w = v := by
  rw [nodes_addEdge, mem_nodes_addNode, mem_nodes_addNode, or_assoc]

theorem mem_edges_addEdge {e : V × V} : e ∈ (g.addEdge u v).edges ↔ e ∈ g.edges ∨ e = (u, v) := by
  have hold : ((g.addNode u).addNode v).edges = g.edges := by rw [edges_addNode, edges_addNode]
  unfold addEdge
  simp only
  split
  · next hm =>
    rw [hold] at hm ⊢
    constructor
    · exact Or.inl
    · rintro (he | rfl)
      · exact he
      · exact hm
  · rw [List.mem_append, List.mem_singleton, hold]

/-- An edge between nodes that are there brings no node along. -/
theorem nodes_addEdge_of_mem (hu : u ∈ g.nodes) (hv : v ∈ g.nodes) :
    (g.addEdge u v).nodes = g.nodes := by
  rw [nodes_addEdge, nodes_addNode_of_mem hu, nodes_addNode_of_mem hv]

theorem mem_edges_addEdges {es : List (V × V)} {e : V × V} :
    e ∈ (g.addEdges es).edges ↔ e ∈ g.edges ∨ e ∈ es := by
  unfold addEdges
  induction es generalizing g with
  | nil => simp
  | cons f fs ih => rw [List.foldl_cons, ih, mem_edges_addEdge, List.mem_cons, or_assoc]

theorem nodes_addEdges_of_mem {es : List (V × V)}
    (h : ∀ e ∈ es, e.1 ∈ g.nodes ∧ e.2 ∈ g.nodes) : (g.addEdges es).nodes = g.nodes := by
  unfold addEdges
  induction es generalizing g with
  | nil => rfl
  | cons e es ih =>
      obtain ⟨hu, hv⟩ := h e (List.mem_cons_self ..)
      have hnodes := nodes_addEdge_of_mem hu hv
      rw [List.foldl_cons, ih fun f hf => by
        rw [hnodes]
        exact h f (List.mem_cons_of_mem _ hf), hnodes]

theorem mem_edges_ofLists {vs : List V} {es : List (V × V)} {e : V × V} :
    e ∈ (ofLists vs es).edges ↔ e ∈ es := by
  rw [ofLists, mem_edges_addEdges, edges_addNodes]
  simp [empty]

theorem mem_nodes_ofLists {vs : List V} {es : List (V × V)}
    (h : ∀ e ∈ es, e.1 ∈ vs ∧ e.2 ∈ vs) : v ∈ (ofLists vs es).nodes ↔ v ∈ vs := by
  have hvs : ∀ {w}, w ∈ (empty.addNodes vs).nodes ↔ w ∈ vs := by
    intro w
    rw [mem_nodes_addNodes]
    simp [empty]
  rw [ofLists, nodes_addEdges_of_mem fun e he => ⟨hvs.mpr (h e he).1, hvs.mpr (h e he).2⟩, hvs]

/-- Distinct nodes keep the order they are given in. -/
theorem nodes_ofLists {vs : List V} {es : List (V × V)} (hvs : vs.Nodup)
    (h : ∀ e ∈ es, e.1 ∈ vs ∧ e.2 ∈ vs) : (ofLists vs es).nodes = vs := by
  have hnodes : (empty.addNodes vs).nodes = vs := nodes_addNodes_append hvs
  rw [ofLists, nodes_addEdges_of_mem (by rw [hnodes]; exact h), hnodes]

/-! ## Neighbours -/

theorem mem_successors : v ∈ g.successors u ↔ (u, v) ∈ g.edges := by
  simp only [successors, List.mem_filterMap, Option.ite_none_right_eq_some, Option.some.injEq]
  constructor
  · rintro ⟨⟨a, b⟩, he, rfl, rfl⟩
    exact he
  · intro he
    exact ⟨(u, v), he, rfl, rfl⟩

theorem mem_predecessors : u ∈ g.predecessors v ↔ (u, v) ∈ g.edges := by
  simp only [predecessors, List.mem_filterMap, Option.ite_none_right_eq_some, Option.some.injEq]
  constructor
  · rintro ⟨⟨a, b⟩, he, rfl, rfl⟩
    exact he
  · intro he
    exact ⟨(u, v), he, rfl, rfl⟩

theorem mem_arcs {e : V × V} : e ∈ g.arcs ↔ e ∈ g.edges := by
  simp only [arcs, List.mem_flatMap, List.mem_map, mem_successors]
  constructor
  · rintro ⟨u, -, v, he, rfl⟩
    exact he
  · intro he
    exact ⟨e.1, (g.ends_mem e he).1, e.2, he, rfl⟩

end Digraph

end Schematic
