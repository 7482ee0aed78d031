import Schematic.Proofs.KeyedList
import Schematic.Proofs.Ranking.Digraph
import Schematic.Ranking.Subdivision

/-!
# What dividing the edges keeps

However the edges of a graph are divided, its nodes stay, every node has a layer, and every edge has
its waypoints, which are nodes themselves (`Layered.ofLayers_divided`). Nodes that are not called
like a waypoint also stay in their layers.
-/

namespace Schematic

theorem Waypoint.isId_id (edge i : Nat) : isId (id edge i) = true := by
  unfold isId id
  rw [String.startsWith_string_iff]
  simp only [String.toList_append, List.append_assoc]
  exact List.prefix_append _ _

namespace Layered

theorem mem_nodes_addPath {g : Digraph String} {v w : String} {ws : List String}
    (hv : v ∈ g.nodes) : w ∈ (addPath g v ws).nodes ↔ w ∈ g.nodes ∨ w ∈ ws := by
  induction ws generalizing g v with
  | nil => simp [addPath]
  | cons u us ih =>
      have hmem : ∀ {x}, x ∈ ((g.addNode u).addEdge v u).nodes ↔ x ∈ g.nodes ∨ x = u := by
        intro x
        rw [Digraph.mem_nodes_addEdge, Digraph.mem_nodes_addNode]
        constructor
        · rintro ((hx | hx) | rfl | hx)
          · exact Or.inl hx
          · exact Or.inr hx
          · exact Or.inl hv
          · exact Or.inr hx
        · exact Or.inl
      rw [addPath, ih (hmem.mpr (Or.inr rfl)), hmem, List.mem_cons, or_assoc]

/-- What holds of a layered graph in which the edges of `done` are divided, given the layers of the
nodes at the beginning. -/
structure Divided (layers : KeyedList String Nat) (done : List (String × String)) (l : Layered) :
    Prop where
  nodes : ∀ v ∈ layers.keys, v ∈ l.graph.nodes
  placed : ∀ v ∈ l.graph.nodes, v ∈ l.layers.keys
  chains : ∀ e ∈ done, ∃ ws, l.chains.get? e = some ws ∧ ∀ w ∈ ws, w ∈ l.graph.nodes
  layers : ∀ v, Waypoint.isId v = false → l.layers.get? v = layers.get? v

theorem Divided.addEdge {layers : KeyedList String Nat} {done : List (String × String)}
    {l : Layered} (h : Divided layers done l) {e : String × String} (hu : e.1 ∈ layers.keys)
    (hv : e.2 ∈ layers.keys) (number : Nat) :
    Divided layers (done ++ [e]) (l.addEdge layers (e, number)) := by
  obtain ⟨u, v⟩ := e
  have hnodes : ∀ w, w ∈ (l.addEdge layers ((u, v), number)).graph.nodes ↔ _ :=
    fun w => mem_nodes_addPath (h.nodes u hu)
  refine ⟨?_, ?_, ?_, ?_⟩
  · intro w hw
    rw [hnodes]
    exact Or.inl (h.nodes w hw)
  · intro w hw
    rw [hnodes, List.mem_append, List.mem_singleton] at hw
    refine KeyedList.mem_keys_putAll.mpr ?_
    rcases hw with hw | hw | rfl
    · exact Or.inl (h.placed w hw)
    · obtain ⟨i, hi, rfl⟩ := List.mem_map.mp hw
      exact Or.inr (List.mem_map.mpr ⟨_, List.mem_map.mpr ⟨i, hi, rfl⟩, rfl⟩)
    · exact Or.inl (h.placed w (h.nodes w hv))
  · intro f hf
    by_cases hfe : f = (u, v)
    · refine ⟨_, by rw [hfe]; exact KeyedList.get?_put_self, fun w hw => ?_⟩
      rw [hnodes]
      exact Or.inr (List.mem_append_left _ hw)
    · rcases List.mem_append.mp hf with hf | hf
      · obtain ⟨ws, hws, hmem⟩ := h.chains f hf
        refine ⟨ws, (KeyedList.get?_put_of_ne hfe).trans hws, fun w hw => ?_⟩
        rw [hnodes]
        exact Or.inl (hmem w hw)
      · exact absurd (List.mem_singleton.mp hf) hfe
  · intro w hw
    rw [← h.layers w hw]
    refine KeyedList.get?_putAll_of_not_mem fun hmem => ?_
    obtain ⟨p, hp, rfl⟩ := List.mem_map.mp hmem
    obtain ⟨i, -, rfl⟩ := List.mem_map.mp hp
    rw [Waypoint.isId_id] at hw
    cases hw

theorem Divided.foldl {layers : KeyedList String Nat} (es : List (String × String))
    (hes : ∀ e ∈ es, e.1 ∈ layers.keys ∧ e.2 ∈ layers.keys) {done : List (String × String)}
    {l : Layered} (h : Divided layers done l) (number : Nat) :
    Divided layers (done ++ es) ((es.zipIdx number).foldl (Layered.addEdge layers) l) := by
  induction es generalizing done l number with
  | nil => simpa using h
  | cons e es ih =>
      obtain ⟨hu, hv⟩ := hes e (List.mem_cons_self ..)
      have hstep := h.addEdge hu hv number
      have htail := ih (fun f hf => hes f (List.mem_cons_of_mem _ hf)) hstep (number + 1)
      rw [List.append_assoc, List.singleton_append] at htail
      exact htail

/-- Dividing all edges of a graph keeps what dividing one of them keeps. The induction is on the
edges that are still to be divided. -/
theorem ofLayers_divided {g : Digraph String} {layers : KeyedList String Nat}
    (h : layers.keys = g.nodes) : Divided layers g.arcs (ofLayers g layers) := by
  have hnodes : ∀ v, v ∈ (Digraph.empty.addNodes g.nodes).nodes ↔ v ∈ layers.keys := by
    intro v
    rw [Digraph.mem_nodes_addNodes, h]
    simp [Digraph.empty]
  have hstart : Divided layers [] ⟨Digraph.empty.addNodes g.nodes, layers, .empty⟩ :=
    ⟨fun v hv => (hnodes v).mpr hv, fun v hv => (hnodes v).mp hv,
      fun e he => absurd he List.not_mem_nil, fun v _ => rfl⟩
  refine hstart.foldl g.arcs (fun e he => ?_) 0
  rw [h]
  exact g.ends_mem e (Digraph.mem_arcs.mp he)

end Layered

end Schematic
