import Schematic.Proofs.Ranking.Chains
import Schematic.Proofs.Ranking.Feedback

/-!
# The divided graph in closed form

Edge number `n` brings along its waypoints, and the number in their ids keeps them apart from those
of all other edges. So nothing that is added is ever there before, and what the division of all
edges gives can be written down at once: the chains (`Layered.chains_ofLayers`), the nodes
(`nodes_ofLayers`), the edges (`mem_edges_foldl`) and the layers (`layers_ofLayers`).
-/

namespace Schematic

namespace Layered

variable {g : Digraph String} {layers : KeyedList String Nat} {l : Layered} {u v w : String}
  {ws : List String}

/-! ## What a division adds -/

/-- The nodes of a chain from the source of the edge to its target. -/
def route (c : (String × String) × List String) : List String := c.1.1 :: c.2 ++ [c.1.2]

theorem mem_edges_addPath {e : String × String} :
    e ∈ (addPath g v ws).edges ↔ e ∈ g.edges ∨ [e.1, e.2] <:+: v :: ws := by
  induction ws generalizing g v with
  | nil =>
      have hnone : ¬ [e.1, e.2] <:+: [v] := fun h => by simpa using h.length_le
      simp [addPath, hnone]
  | cons w ws ih =>
      have hcut : [e.1, e.2] <:+: v :: w :: ws ↔
          [e.1, e.2] <+: v :: w :: ws ∨ [e.1, e.2] <:+: w :: ws := List.infix_cons_iff
      rw [addPath, ih, Digraph.mem_edges_addEdge, Digraph.edges_addNode, hcut, or_assoc]
      simp [Prod.ext_iff]

/-- The path brings along the nodes that are not there yet. -/
theorem nodes_addPath (hu : u ∈ g.nodes) (hv : v ∈ g.nodes) (h : (g.nodes ++ ws).Nodup) :
    (addPath g u (ws ++ [v])).nodes = g.nodes ++ ws := by
  induction ws generalizing g u with
  | nil =>
      rw [List.nil_append, addPath, addPath, Digraph.nodes_addNode_of_mem hv,
        Digraph.nodes_addEdge_of_mem hu hv, List.append_nil]
  | cons w ws ih =>
      have hnodes : ((g.addNode w).addEdge u w).nodes = g.nodes ++ [w] := by
        rw [Digraph.nodes_addEdge_of_mem (Digraph.mem_nodes_addNode.mpr (Or.inl hu))
          (Digraph.mem_nodes_addNode.mpr (Or.inr rfl))]
        have hnew : (g.nodes ++ [w]).Nodup := h.sublist
          (List.Sublist.append_left (List.singleton_sublist.mpr (List.mem_cons_self ..)) _)
        exact Digraph.nodes_addNodes_append hnew
      rw [List.cons_append, addPath, ih, hnodes, List.append_assoc, List.singleton_append]
      · rw [hnodes]
        exact List.mem_append_right _ (List.mem_singleton.mpr rfl)
      · rw [hnodes]
        exact List.mem_append_left _ hv
      · rw [hnodes, List.append_assoc, List.singleton_append]
        exact h

/-- The waypoints of the edge `e` as number `n` with their layers. -/
def places (layers : KeyedList String Nat) (e : String × String) (n : Nat) :
    List (String × Nat) :=
  (List.range (passed layers e)).map fun i => (Waypoint.id n i, top layers e + i + 1)

theorem map_fst_places (layers : KeyedList String Nat) (e : String × String) (n : Nat) :
    (places layers e n).map Prod.fst = waypoints layers e n := by
  rw [places, List.map_map]
  rfl

theorem mem_edges_foldl {es : List ((String × String) × Nat)} {e : String × String} :
    e ∈ (es.foldl (addEdge layers) l).graph.edges ↔ e ∈ l.graph.edges ∨
      ∃ p ∈ es, [e.1, e.2] <:+: route (p.1, waypoints layers p.1 p.2) := by
  induction es generalizing l with
  | nil => simp
  | cons p es ih =>
      have hstep : e ∈ (l.addEdge layers p).graph.edges ↔ e ∈ l.graph.edges ∨
          [e.1, e.2] <:+: route (p.1, waypoints layers p.1 p.2) := mem_edges_addPath
      rw [List.foldl_cons, ih, hstep, or_assoc]
      simp only [List.mem_cons, exists_eq_or_imp]

theorem nodes_foldl (layers : KeyedList String Nat) (es : List ((String × String) × Nat))
    (hends : ∀ p ∈ es, p.1.1 ∈ l.graph.nodes ∧ p.1.2 ∈ l.graph.nodes)
    (h : (l.graph.nodes ++ es.flatMap fun p => waypoints layers p.1 p.2).Nodup) :
    (es.foldl (addEdge layers) l).graph.nodes =
      l.graph.nodes ++ es.flatMap fun p => waypoints layers p.1 p.2 := by
  induction es generalizing l with
  | nil => simp
  | cons p es ih =>
      rw [List.flatMap_cons, ← List.append_assoc] at h ⊢
      obtain ⟨hu, hv⟩ := hends p (List.mem_cons_self ..)
      have hstep : (l.addEdge layers p).graph.nodes =
          l.graph.nodes ++ waypoints layers p.1 p.2 :=
        nodes_addPath hu hv (List.nodup_append.mp h).1
      rw [List.foldl_cons, ih (fun q hq => ?_) (by rw [hstep]; exact h), hstep]
      rw [hstep]
      exact (hends q (List.mem_cons_of_mem _ hq)).imp (List.mem_append_left _)
        (List.mem_append_left _)

/-! ## The divided graph in closed form -/

theorem chains_ofLayers (g : Digraph String) (layers : KeyedList String Nat) :
    (ofLayers g layers).chains.entries =
      g.arcs.zipIdx.map fun p => (p.1, waypoints layers p.1 p.2) := by
  have hchains : (ofLayers g layers).chains =
      .ofList (g.arcs.zipIdx.map fun p => (p.1, waypoints layers p.1 p.2)) := by
    rw [KeyedList.ofList, KeyedList.putAll, List.foldl_map]
    exact (List.foldl_hom Layered.chains fun _ _ => rfl).symm
  rw [hchains, KeyedList.entries_ofList]
  rw [List.map_map]
  exact (List.zipIdx_map_fst 0 g.arcs).symm ▸ Digraph.nodup_arcs

theorem flatten_values_ofLayers (g : Digraph String) (layers : KeyedList String Nat) :
    (ofLayers g layers).chains.values.flatten =
      g.arcs.zipIdx.flatMap fun p => waypoints layers p.1 p.2 := by
  rw [KeyedList.values, chains_ofLayers, List.map_map, List.flatMap_def]
  rfl

theorem keys_chains_ofLayers (g : Digraph String) (layers : KeyedList String Nat) :
    (ofLayers g layers).chains.keys = g.arcs := by
  rw [KeyedList.keys, chains_ofLayers, List.map_map]
  exact List.zipIdx_map_fst 0 g.arcs

theorem layers_ofLayers (g : Digraph String) (layers : KeyedList String Nat) :
    (ofLayers g layers).layers =
      layers.putAll (g.arcs.zipIdx.flatMap fun p => places layers p.1 p.2) := by
  rw [KeyedList.putAll, List.foldl_flatMap]
  exact (List.foldl_hom Layered.layers fun _ _ => rfl).symm

theorem isId_of_mem_waypoints {e : String × String} {n : Nat} (h : w ∈ waypoints layers e n) :
    Waypoint.isId w = true := by
  obtain ⟨i, -, rfl⟩ := List.mem_map.mp h
  exact Waypoint.isId_id n i

/-- The numbers of the edges keep the waypoints of different edges apart, and along one edge the
second number in their ids does. -/
theorem nodup_waypoints (layers : KeyedList String Nat) (es : List (String × String)) :
    (es.zipIdx.flatMap fun p => waypoints layers p.1 p.2).Nodup := by
  refine List.nodup_flatMap.mpr ⟨fun p _ => ?_, ?_⟩
  · refine List.Nodup.map (fun i j hij => ?_) List.nodup_range
    exact (Waypoint.id_injective hij).2
  · have hnumbers : es.zipIdx.Pairwise fun p q => p.2 < q.2 := by
      refine List.pairwise_map.mp ?_
      rw [List.zipIdx_map_snd]
      exact List.pairwise_lt_range' ..
    refine hnumbers.imp fun hlt w hw hw' => ?_
    obtain ⟨i, -, rfl⟩ := List.mem_map.mp hw
    obtain ⟨j, -, hj⟩ := List.mem_map.mp hw'
    exact Nat.ne_of_lt hlt (Waypoint.id_injective hj).1.symm

theorem nodup_nodes_waypoints (hnames : ∀ v ∈ g.nodes, Waypoint.isId v = false)
    (layers : KeyedList String Nat) :
    (g.nodes ++ g.arcs.zipIdx.flatMap fun p => waypoints layers p.1 p.2).Nodup := by
  refine g.nodup_nodes.append (nodup_waypoints layers g.arcs) fun v hv hw => ?_
  obtain ⟨p, -, hw⟩ := List.mem_flatMap.mp hw
  have hid := isId_of_mem_waypoints hw
  rw [hnames v hv] at hid
  cases hid

theorem nodes_ofLayers (hnames : ∀ v ∈ g.nodes, Waypoint.isId v = false)
    (layers : KeyedList String Nat) : (ofLayers g layers).graph.nodes =
      g.nodes ++ (ofLayers g layers).chains.values.flatten := by
  have hstart : (Digraph.empty.addNodes g.nodes).nodes = g.nodes :=
    Digraph.nodes_addNodes_append g.nodup_nodes
  have hnodes := nodes_foldl layers g.arcs.zipIdx
    (l := ⟨Digraph.empty.addNodes g.nodes, layers, .empty⟩)
    (fun p hp => by
      have harc : p.1 ∈ g.arcs := List.fst_mem_of_mem_zipIdx hp
      simpa [hstart] using g.ends_mem p.1 (Digraph.mem_arcs.mp harc))
    (by
      simp only [hstart]
      exact nodup_nodes_waypoints hnames layers)
  rw [flatten_values_ofLayers, ofLayers, hnodes]
  simp only [hstart]

theorem keys_layers_ofLayers (hnames : ∀ v ∈ g.nodes, Waypoint.isId v = false)
    (hkeys : layers.keys = g.nodes) :
    (ofLayers g layers).layers.keys = (ofLayers g layers).graph.nodes := by
  have hplaces : (g.arcs.zipIdx.flatMap fun p => places layers p.1 p.2).map Prod.fst =
      g.arcs.zipIdx.flatMap fun p => waypoints layers p.1 p.2 := by
    simp only [List.map_flatMap, map_fst_places]
  have hdistinct : ((layers.entries ++
      g.arcs.zipIdx.flatMap fun p => places layers p.1 p.2).map Prod.fst).Nodup := by
    rw [List.map_append, hplaces, ← KeyedList.keys, hkeys]
    exact nodup_nodes_waypoints hnames layers
  rw [nodes_ofLayers hnames, flatten_values_ofLayers, KeyedList.keys, layers_ofLayers,
    KeyedList.entries_putAll hdistinct, List.map_append, hplaces, ← KeyedList.keys, hkeys]

end Layered

end Schematic
