import Schematic.Proofs.Ranking.Acyclic
import Schematic.Proofs.Ranking.Coordinates
import Schematic.Proofs.Ranking.Layering
import Schematic.Proofs.Ranking.Subdivision
import Schematic.Proofs.Success
import Schematic.Ranking.Placement

/-!
# Ranked placement always succeeds

If every edge joins boxes that are there, the boxes are placed and the edges routed. The way from
the boxes to the drawing is one of look-ups: the graph without cycles has layers, every node and
every waypoint has a layer and a place, and every edge finds the chain it was divided into, turned
around or not. `Ranked.Complete` says that none of these look-ups comes to nothing, and
`Ranked.Outcome` what the placement is made of.
-/

namespace Schematic

namespace Polyline

variable {α : Type} [Scalar α]

theorem simplify_ne_nil (p : Point α) (ps : List (Point α)) : simplify (p :: ps) ≠ [] := by
  rw [simplify, dedup]
  exact List.cons_ne_nil _ _

end Polyline

namespace Rect

variable {α : Type} [Scalar α]

theorem exists_union {r : Rect α} {rs : List (Rect α)} (h : r ∈ rs) :
    ∃ hull, union rs = some hull := by
  cases rs with
  | nil => cases h
  | cons q qs => exact ⟨_, rfl⟩

end Rect

namespace Ranked

variable {α : Type} {nodes : List (RankNode α)} {edges : List RankEdge}
  {layers : KeyedList String Nat}

/-- Every edge joins boxes that are there. This is all that a placement asks of its input; two boxes
may even have one id. -/
def Joins (nodes : List (RankNode α)) (edges : List RankEdge) : Prop :=
  ∀ e ∈ edges, e.source ∈ nodes.map RankNode.id ∧ e.target ∈ nodes.map RankNode.id

theorem Joins.edges_eq_nil (h : Joins ([] : List (RankNode α)) edges) : edges = [] := by
  cases edges with
  | nil => rfl
  | cons e es => cases (h e (List.mem_cons_self ..)).1

/-! ## The graph of a placement -/

theorem ends_mem_of_joins (h : Joins nodes edges) :
    ∀ f ∈ (edges.filter fun e => e.source != e.target).map fun e => (e.source, e.target),
      f.1 ∈ nodes.map RankNode.id ∧ f.2 ∈ nodes.map RankNode.id := by
  intro f hf
  obtain ⟨e, he, rfl⟩ := List.mem_map.mp hf
  exact h e (List.mem_filter.mp he).1

theorem mem_nodes_graph (h : Joins nodes edges) {v : String} :
    v ∈ (graph nodes edges).nodes ↔ v ∈ nodes.map RankNode.id :=
  Digraph.mem_nodes_ofLists (ends_mem_of_joins h)

theorem mem_edges_graph (nodes : List (RankNode α)) {u v : String} :
    (u, v) ∈ (graph nodes edges).edges ↔ u ≠ v ∧ ∃ e ∈ edges, e.source = u ∧ e.target = v := by
  rw [graph, Digraph.mem_edges_ofLists, List.mem_map]
  constructor
  · rintro ⟨e, he, heq⟩
    obtain ⟨rfl, rfl⟩ := Prod.mk.inj heq
    obtain ⟨hmem, hne⟩ := List.mem_filter.mp he
    exact ⟨by simpa using hne, e, hmem, rfl, rfl⟩
  · rintro ⟨hne, e, he, rfl, rfl⟩
    exact ⟨e, List.mem_filter.mpr ⟨he, by simpa using hne⟩, rfl⟩

/-- The layers of the boxes: every box has one, and every edge leads to a later one when it is
turned around if it runs backwards. -/
structure IsLayering (nodes : List (RankNode α)) (edges : List RankEdge)
    (layers : KeyedList String Nat) : Prop where
  found : (graph nodes edges).acyclic.layers? = some layers
  keys : layers.keys = (graph nodes edges).acyclic.nodes
  lt : ∀ u v, (u, v) ∈ (graph nodes edges).acyclic.edges →
    (layers.get? u).getD 0 < (layers.get? v).getD 0

theorem exists_isLayering (nodes : List (RankNode α)) (edges : List RankEdge) :
    ∃ layers, IsLayering nodes edges layers := by
  obtain ⟨layers, hlayers, hkeys, hlt⟩ :=
    Digraph.layers?_spec (f := fun v => (graph nodes edges).greedyOrder.idxOf v)
      (g := (graph nodes edges).acyclic) fun e he => Digraph.idxOf_lt_of_acyclic he
  exact ⟨layers, hlayers, hkeys, hlt⟩

/-- The edge as it stands in the graph without cycles. An edge that ran backwards has its chain
under the ends in the other order. -/
def turned (nodes : List (RankNode α)) (edges : List RankEdge) (e : RankEdge) : String × String :=
  if (graph nodes edges).backEdges.contains (e.source, e.target) then (e.target, e.source)
  else (e.source, e.target)

theorem IsLayering.divided (h : IsLayering nodes edges layers) :
    Layered.Divided layers (graph nodes edges).acyclic.arcs (layered nodes edges layers) :=
  Layered.ofLayers_divided h.keys

theorem IsLayering.mem_nodes (h : IsLayering nodes edges layers) (hjoins : Joins nodes edges)
    {v : String} (hv : v ∈ nodes.map RankNode.id) :
    v ∈ (layered nodes edges layers).graph.nodes := by
  refine h.divided.nodes v ?_
  rw [h.keys, Digraph.nodes_acyclic, mem_nodes_graph hjoins]
  exact hv

/-- A box keeps the layer it has before edges are divided, unless it is called like a waypoint. In
that case the waypoint of the same name may give it another. -/
theorem IsLayering.layer_eq (h : IsLayering nodes edges layers) {v : String}
    (hv : Waypoint.isId v = false) :
    (layered nodes edges layers).layer v = (layers.get? v).getD 0 := by
  rw [Layered.layer, h.divided.layers v hv]

theorem turned_mem (nodes : List (RankNode α)) {e : RankEdge} (he : e ∈ edges)
    (hne : e.source ≠ e.target) : turned nodes edges e ∈ (graph nodes edges).acyclic.edges := by
  unfold turned
  split
  · next hback =>
    rw [List.contains_iff_mem] at hback
    exact Digraph.mem_edges_acyclic.mpr ⟨hne.symm, Or.inr hback⟩
  · next hback =>
    rw [List.contains_iff_mem] at hback
    have hmem := (mem_edges_graph nodes).mpr ⟨hne, e, he, rfl, rfl⟩
    exact Digraph.mem_edges_acyclic.mpr ⟨hne, Or.inl ⟨hmem, hback⟩⟩

/-! ## Look-ups -/

variable [Scalar α] {direction : Direction} {gaps : Gaps α}

/-- The places of all nodes and layers, given the layers. Like `placedBoxes` and `placedRoute` it
names a part of the plan that `place` works by. -/
def coordinates (direction : Direction) (gaps : Gaps α) (nodes : List (RankNode α))
    (edges : List RankEdge) (layers : KeyedList String Nat) : Coordinates α :=
  (plan direction gaps nodes edges layers).coordinates

theorem coordinates_eq : coordinates direction gaps nodes edges layers =
    Coordinates.assign gaps (extents direction nodes) (layered nodes edges layers)
      (layered nodes edges layers).ordering := rfl

/-- Every look-up of a placement finds what it looks for. All of this is said of the plan that
`place` works by: the ends of the edges to divide have layers, the boxes are nodes of the layered
graph, all nodes of which have a layer, a place across it and a place along the ranks, and every
edge that is no loop has a chain of such nodes and joins boxes that are placed. -/
structure Complete (direction : Direction) (gaps : Gaps α) (nodes : List (RankNode α))
    (edges : List RankEdge) (layers : KeyedList String Nat) : Prop where
  found : (graph nodes edges).acyclic.layers? = some layers
  ends : ∀ f ∈ (graph nodes edges).acyclic.arcs, f.1 ∈ layers.keys ∧ f.2 ∈ layers.keys
  boxes : ∀ n ∈ nodes, n.id ∈ (plan direction gaps nodes edges layers).layered.graph.nodes
  layer : ∀ v ∈ (plan direction gaps nodes edges layers).layered.graph.nodes,
    v ∈ (plan direction gaps nodes edges layers).layered.layers.keys
  across : ∀ v ∈ (plan direction gaps nodes edges layers).layered.graph.nodes,
    v ∈ (plan direction gaps nodes edges layers).coordinates.across.keys
  along : ∀ v ∈ (plan direction gaps nodes edges layers).layered.graph.nodes,
    (plan direction gaps nodes edges layers).layered.layer v <
      (plan direction gaps nodes edges layers).coordinates.centers.length
  chains : ∀ e ∈ edges, e.source ≠ e.target →
    ∃ ws, (plan direction gaps nodes edges layers).layered.chains.get? (turned nodes edges e) =
        some ws ∧
      ∀ w ∈ ws, w ∈ (plan direction gaps nodes edges layers).layered.graph.nodes
  rects : ∀ e ∈ edges, e.source ∈ (plan direction gaps nodes edges layers).rects.keys ∧
    e.target ∈ (plan direction gaps nodes edges layers).rects.keys

theorem mem_keys_boxes {l : Layered} {c : Coordinates α} {v : String} :
    v ∈ (boxes direction l c nodes).keys ↔ v ∈ nodes.map RankNode.id := by
  rw [boxes, KeyedList.mem_keys_ofList, List.map_map]
  rfl

theorem IsLayering.complete (h : IsLayering nodes edges layers) (hjoins : Joins nodes edges)
    (direction : Direction) (gaps : Gaps α) : Complete direction gaps nodes edges layers where
  found := h.found
  ends f hf := by
    rw [h.keys]
    exact (graph nodes edges).acyclic.ends_mem f (Digraph.mem_arcs.mp hf)
  boxes n hn := h.mem_nodes hjoins (List.mem_map_of_mem hn)
  layer := h.divided.placed
  across v hv := by
    obtain ⟨layer, hget, hmem⟩ :=
      (Layered.isOrdering_ordering _).exists_layer hv (h.divided.placed v hv)
    exact (Coordinates.mem_keys_assign _ _).mpr ⟨layer, List.mem_of_getElem? hget, hmem⟩
  along v hv := by
    have hlength := (Layered.isOrdering_ordering (layered nodes edges layers)).length
    refine Nat.lt_of_lt_of_eq (Layered.lt_layerCount (h.divided.placed v hv)) ?_
    exact hlength.symm.trans (Coordinates.length_centers ..).symm
  chains e he hne := h.divided.chains _ (Digraph.mem_arcs.mpr (turned_mem nodes he hne))
  rects e he := ⟨mem_keys_boxes.mpr (hjoins e he).1, mem_keys_boxes.mpr (hjoins e he).2⟩

/-! ## Routes -/

/-- The placed boxes, given the layers. They do not depend on the routes, which are laid between
them afterwards. -/
def placedBoxes (direction : Direction) (gaps : Gaps α) (nodes : List (RankNode α))
    (edges : List RankEdge) (layers : KeyedList String Nat) : KeyedList String (Rect α) :=
  (plan direction gaps nodes edges layers).rects

theorem placedBoxes_eq : placedBoxes direction gaps nodes edges layers =
    boxes direction (layered nodes edges layers) (coordinates direction gaps nodes edges layers)
      nodes := rfl

/-- The route of an edge between the placed boxes, given the layers. -/
def placedRoute (direction : Direction) (gaps : Gaps α) (nodes : List (RankNode α))
    (edges : List RankEdge) (layers : KeyedList String Nat) (e : RankEdge) :
    Except RankFailure (List (Point α)) :=
  (plan direction gaps nodes edges layers).route direction e

theorem placedRoute_eq (e : RankEdge) : placedRoute direction gaps nodes edges layers e =
    route direction (layered nodes edges layers) (coordinates direction gaps nodes edges layers)
      (placedBoxes direction gaps nodes edges layers) (graph nodes edges).backEdges e := rfl

theorem mem_keys_placedBoxes (direction : Direction) (gaps : Gaps α) (edges : List RankEdge)
    (layers : KeyedList String Nat) {v : String} :
    v ∈ (placedBoxes direction gaps nodes edges layers).keys ↔ v ∈ nodes.map RankNode.id :=
  mem_keys_boxes

theorem loop_ne_nil (direction : Direction) (r : Rect α) : loop direction r ≠ [] := by
  cases direction <;> exact List.cons_ne_nil _ _

theorem exists_chainRoute {l : Layered} {c : Coordinates α} {rects : KeyedList String (Rect α)}
    {u v : String} (hu : u ∈ rects.keys) (hv : v ∈ rects.keys) :
    ∃ ps, chainRoute direction l c rects u v = .ok ps ∧ ps ≠ [] := by
  obtain ⟨upper, hupper⟩ := KeyedList.mem_keys_iff.mp hu
  obtain ⟨lower, hlower⟩ := KeyedList.mem_keys_iff.mp hv
  refine ⟨_, by rw [chainRoute, rectOf, hupper, rectOf, hlower]; rfl, ?_⟩
  rw [List.cons_append]
  exact Polyline.simplify_ne_nil _ _

/-- Every edge has a route, and the route has points. The boxes of both ends are found, in either
order, and simplifying leaves the ends of a line. -/
theorem exists_placedRoute (direction : Direction) (gaps : Gaps α) (layers : KeyedList String Nat)
    (hjoins : Joins nodes edges) {e : RankEdge} (he : e ∈ edges) :
    ∃ ps, placedRoute direction gaps nodes edges layers e = .ok ps ∧ ps ≠ [] := by
  obtain ⟨hs, ht⟩ := hjoins e he
  rw [← mem_keys_placedBoxes direction gaps edges layers] at hs ht
  rw [placedRoute_eq]
  unfold route
  split
  · obtain ⟨r, hr⟩ := KeyedList.mem_keys_iff.mp hs
    exact ⟨loop direction r, by rw [rectOf, hr]; rfl, loop_ne_nil direction r⟩
  · split
    · obtain ⟨ps, hps, hne⟩ := exists_chainRoute ht hs
      exact ⟨ps.reverse, by rw [hps]; rfl, by simpa using hne⟩
    · exact exists_chainRoute hs ht

/-! ## The outcome -/

/-- What a placement is made of: boxes around the points of their nodes, a route for each edge, and
the size of what all of them fill. -/
structure Outcome (direction : Direction) (gaps : Gaps α) (nodes : List (RankNode α))
    (edges : List RankEdge) (layers : KeyedList String Nat) (p : Ranked α) : Prop where
  isLayering : IsLayering nodes edges layers
  rects : p.rects = placedBoxes direction gaps nodes edges layers
  routes : ∃ routes, p.routes = .ofList routes ∧ List.Forall₂ (fun e r =>
    r.1 = e.key ∧ placedRoute direction gaps nodes edges layers e = .ok r.2) edges routes
  size : (p.width, p.height) = match Rect.union (drawn p.rects p.routes) with
    | none => (((0 : Nat) : α), ((0 : Nat) : α))
    | some r => (r.right, r.bottom)

theorem place_eq (hne : nodes ≠ []) (h : IsLayering nodes edges layers) :
    place direction gaps nodes edges = (do
      let routes ← edges.mapM fun e => do
        return (e.key, ← placedRoute direction gaps nodes edges layers e)
      match Rect.union (drawn (placedBoxes direction gaps nodes edges layers) (.ofList routes)) with
      | none => return .empty
      | some r =>
        return ⟨placedBoxes direction gaps nodes edges layers, .ofList routes, r.right,
          r.bottom⟩) := by
  have hempty : nodes.isEmpty = false := by simpa using hne
  unfold place
  simp only [hempty, h.found]
  rfl

/-- Something is drawn when there is a box. So there is a hull, and a placement with nodes does not
come out empty. -/
theorem exists_union_drawn (direction : Direction) (gaps : Gaps α) (edges : List RankEdge)
    (layers : KeyedList String Nat) (routes : KeyedList Nat (List (Point α))) {n : RankNode α}
    (hn : n ∈ nodes) :
    ∃ hull, Rect.union (drawn (placedBoxes direction gaps nodes edges layers) routes) =
      some hull := by
  have hkey := (mem_keys_placedBoxes direction gaps edges layers).mpr (List.mem_map_of_mem hn)
  obtain ⟨r, hr⟩ := KeyedList.mem_keys_iff.mp hkey
  exact Rect.exists_union (List.mem_append_left _ (KeyedList.mem_values_of_get? hr))

theorem exists_outcome (direction : Direction) (gaps : Gaps α) (hjoins : Joins nodes edges) :
    ∃ layers p, place direction gaps nodes edges = .ok p ∧
      Outcome direction gaps nodes edges layers p := by
  obtain ⟨layers, hlayers⟩ := exists_isLayering nodes edges
  refine ⟨layers, ?_⟩
  cases hnodes : nodes with
  | nil =>
      subst hnodes
      obtain rfl := hjoins.edges_eq_nil
      exact ⟨.empty, rfl, hlayers, rfl, ⟨[], rfl, .nil⟩, rfl⟩
  | cons n ns =>
      have hne : nodes ≠ [] := by simp [hnodes]
      have hn : n ∈ nodes := by simp [hnodes]
      rw [← hnodes]
      have hanswer : ∀ e ∈ edges, ∃ r, (do
          return (e.key, ← placedRoute direction gaps nodes edges layers e)) = Except.ok r := by
        intro e he
        obtain ⟨ps, hps, -⟩ := exists_placedRoute direction gaps layers hjoins he
        exact ⟨(e.key, ps), by rw [hps]; rfl⟩
      obtain ⟨routes, hmap, hall⟩ := exists_mapM_eq_ok hanswer
      obtain ⟨r, hr⟩ := exists_union_drawn direction gaps edges layers (.ofList routes) hn
      refine ⟨⟨placedBoxes direction gaps nodes edges layers, .ofList routes, r.right, r.bottom⟩,
        ?_, hlayers, rfl, ⟨routes, rfl, hall.imp ?_⟩, ?_⟩
      · rw [place_eq hne hlayers, hmap]
        show (match Rect.union (drawn (placedBoxes direction gaps nodes edges layers)
          (.ofList routes)) with | none => _ | some r => _) = _
        rw [hr]
        rfl
      · intro e x hx
        obtain ⟨ps, hps, heq⟩ := bind_eq_ok hx
        cases heq
        exact ⟨rfl, hps⟩
      · simp only [hr]

variable {p : Ranked α}

theorem Outcome.mem_keys_rects (h : Outcome direction gaps nodes edges layers p) {v : String} :
    v ∈ p.rects.keys ↔ v ∈ nodes.map RankNode.id := by
  rw [h.rects, mem_keys_placedBoxes]

/-- The box of a node, if no two boxes have one id. Of boxes with one id the last is kept, so the
others would not be found. -/
theorem Outcome.get?_rects (h : Outcome direction gaps nodes edges layers p)
    (hids : (nodes.map RankNode.id).Nodup) {n : RankNode α} (hn : n ∈ nodes) :
    let q := pointOf direction (layered nodes edges layers)
      (coordinates direction gaps nodes edges layers) n.id
    p.rects.get? n.id = some (Rect.around q.x q.y n.width n.height) := by
  rw [h.rects]
  exact KeyedList.get?_ofList_map hids hn

/-- What is found under the key of an edge is the route of an edge with this key. Keys need not be
distinct here; what follows shows what is gained when they are. -/
theorem Outcome.exists_route (h : Outcome direction gaps nodes edges layers p) {e : RankEdge}
    (he : e ∈ edges) : ∃ ps, p.routes.get? e.key = some ps ∧ ∃ f ∈ edges, f.key = e.key ∧
      placedRoute direction gaps nodes edges layers f = .ok ps := by
  obtain ⟨routes, hroutes, hall⟩ := h.routes
  obtain ⟨r, hr, hkey, -⟩ := forall₂_exists_right hall he
  have hmem : e.key ∈ p.routes.keys := by
    rw [hroutes, KeyedList.mem_keys_ofList, ← hkey]
    exact List.mem_map_of_mem hr
  obtain ⟨ps, hps⟩ := KeyedList.mem_keys_iff.mp hmem
  rw [hroutes] at hps
  obtain ⟨f, hf, hkey', hroute⟩ := forall₂_exists_left hall (KeyedList.mem_of_get?_ofList hps)
  exact ⟨ps, by rw [hroutes, hps], f, hf, hkey'.symm, hroute⟩

/-- What is found under the key of an edge is its route, if no two edges have one key. Nothing else
is ever put under that key. -/
theorem Outcome.get?_routes (h : Outcome direction gaps nodes edges layers p)
    (hkeys : (edges.map RankEdge.key).Nodup) {e : RankEdge} (he : e ∈ edges) :
    ∃ ps, p.routes.get? e.key = some ps ∧
      placedRoute direction gaps nodes edges layers e = .ok ps := by
  obtain ⟨ps, hps, f, hf, hkey, hroute⟩ := h.exists_route he
  obtain rfl := List.inj_on_of_nodup_map hkeys hf he hkey
  exact ⟨ps, hps, hroute⟩

/-- The routes are those of the edges in their order, if no two edges have one key: each route is
then put behind those before it. -/
theorem Outcome.keys_routes (h : Outcome direction gaps nodes edges layers p)
    (hkeys : (edges.map RankEdge.key).Nodup) : p.routes.keys = edges.map RankEdge.key := by
  obtain ⟨routes, hroutes, hall⟩ := h.routes
  have hfst : edges.map RankEdge.key = routes.map Prod.fst :=
    forall₂_map_eq hall fun e r h => h.1.symm
  rw [hfst] at hkeys
  rw [hroutes, KeyedList.keys, KeyedList.entries_ofList hkeys, hfst]

end Ranked

end Schematic
