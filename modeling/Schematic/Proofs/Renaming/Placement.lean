import Schematic.Proofs.Ranking.Placement
import Schematic.Proofs.Renaming.Ranks
import Schematic.Proofs.Success
import Schematic.Ranking.Placement

/-!
# Ranked placement under other names

The ids of boxes are compared, and asked whether they are ids of waypoints. So an injective map of
names that leaves the ids of waypoints alone changes nothing of a placement but the names: the boxes
and the routes have the same places.
-/

namespace Schematic

/-- The ids of waypoints stay as they are. Placement makes them up from numbers, so they cannot
follow the map. -/
def Waypoint.Kept (σ : String ↪ String) : Prop := ∀ v, Waypoint.isId v = true → σ v = v

section

variable {σ : String ↪ String} (hσ : Waypoint.Kept σ)

include hσ

theorem Waypoint.Kept.id (edge i : Nat) : σ (Waypoint.id edge i) = Waypoint.id edge i :=
  hσ _ (Waypoint.isId_id edge i)

/-- What is no id of a waypoint does not become one: the map is injective, and the id is taken
already. -/
theorem Waypoint.Kept.isId (v : String) : Waypoint.isId (σ v) = Waypoint.isId v := by
  rw [Bool.eq_iff_iff]
  constructor
  · intro h
    rw [σ.injective (hσ _ h)] at h
    exact h
  · intro h
    rw [hσ v h, h]

end

/-! ## Layers -/

namespace Layered

variable (σ : String ↪ String)

def rename (l : Layered) : Layered where
  graph := l.graph.map σ
  layers := l.layers.rekey σ
  chains := (l.chains.mapValues fun _ => List.map σ).rekey (σ.prodMap σ)

theorem layer_rename (l : Layered) (v : String) : (l.rename σ).layer (σ v) = l.layer v := by
  rw [layer, rename, KeyedList.get?_rekey, layer]

theorem layerCount_rename (l : Layered) : (l.rename σ).layerCount = l.layerCount := by
  rw [layerCount, rename, KeyedList.values_rekey, layerCount]

theorem chains_rename (l : Layered) (u v : String) :
    (l.rename σ).chains.get? (σ u, σ v) = (l.chains.get? (u, v)).map (List.map σ) := by
  have h := KeyedList.get?_rekey (σ.prodMap σ) (l.chains.mapValues fun _ => List.map σ) (u, v)
  rw [KeyedList.get?_mapValues] at h
  exact h

theorem addPath_map (g : Digraph String) (v : String) (ws : List String) :
    addPath (g.map σ) (σ v) (ws.map σ) = (addPath g v ws).map σ := by
  induction ws generalizing g v with
  | nil => rfl
  | cons w ws ih =>
      rw [List.map_cons, addPath, Digraph.addNode_map, Digraph.addEdge_map, ih, addPath]

variable {σ} (hσ : Waypoint.Kept σ)

include hσ

theorem addEdge_rename (layers : KeyedList String Nat) (l : Layered)
    (e : (String × String) × Nat) :
    addEdge (layers.rekey σ) (l.rename σ) (Prod.map (Prod.map σ σ) id e) =
      (addEdge layers l e).rename σ := by
  obtain ⟨⟨u, v⟩, number⟩ := e
  have hids (n : Nat) : ((List.range n).map fun i => Waypoint.id number i).map σ =
      (List.range n).map fun i => Waypoint.id number i := by
    rw [List.map_map]
    exact List.map_congr_left fun i _ => hσ.id number i
  have hplaces (n top : Nat) :
      ((List.range n).map fun i => (Waypoint.id number i, top + i + 1)).map (Prod.map σ id) =
        (List.range n).map fun i => (Waypoint.id number i, top + i + 1) := by
    rw [List.map_map]
    exact List.map_congr_left fun i _ => Prod.ext (hσ.id number i) rfl
  simp only [addEdge, rename, Prod.map, id, KeyedList.get?_rekey]
  rw [Layered.mk.injEq]
  refine ⟨?_, ?_, ?_⟩
  · rw [← addPath_map, List.map_append, hids, List.map_singleton]
  · rw [← KeyedList.putAll_rekey, hplaces]
  · rw [← KeyedList.put_mapValues, hids, ← KeyedList.put_rekey]
    rfl

theorem ofLayers_rename (g : Digraph String) (layers : KeyedList String Nat) :
    ofLayers (g.map σ) (layers.rekey σ) = (ofLayers g layers).rename σ := by
  have hfold (es : List ((String × String) × Nat)) (l : Layered) :
      (es.map (Prod.map (Prod.map σ σ) id)).foldl (addEdge (layers.rekey σ)) (l.rename σ) =
        (es.foldl (addEdge layers) l).rename σ := by
    induction es generalizing l with
    | nil => rfl
    | cons e es ih => rw [List.map_cons, List.foldl_cons, addEdge_rename hσ, ih, List.foldl_cons]
  have hnodes : (Digraph.empty : Digraph String).addNodes (g.map σ).nodes =
      ((Digraph.empty : Digraph String).addNodes g.nodes).map σ :=
    Digraph.addNodes_map σ Digraph.empty g.nodes
  rw [ofLayers, ofLayers, ← hfold, Digraph.arcs_map, List.zipIdx_map, hnodes]
  rfl

omit hσ in
theorem initialOrdering_rename (σ : String ↪ String) (l : Layered) :
    (l.rename σ).initialOrdering = l.initialOrdering.map (List.map σ) := by
  rw [initialOrdering, layerCount_rename, initialOrdering, List.map_map]
  refine List.map_congr_left fun k _ => ?_
  exact filter_map σ (fun v => by rw [layer_rename]) l.graph.nodes

omit hσ in
theorem ordering_rename (σ : String ↪ String) (l : Layered) :
    (l.rename σ).ordering = l.ordering.map (List.map σ) := by
  rw [ordering, initialOrdering_rename]
  exact Crossing.improve_map σ l.graph _ _

end Layered

/-! ## Coordinates -/

namespace Coordinates

variable {α : Type} [Scalar α] (σ : String ↪ String) (extents : KeyedList String (Extent α))

def rename (c : Coordinates α) : Coordinates α := { c with across := c.across.rekey σ }

theorem extent_rename (v : String) : extent (extents.rekey σ) (σ v) = extent extents v := by
  rw [extent, KeyedList.get?_rekey, extent]

theorem halfBreadth_rename (v : String) :
    halfBreadth (extents.rekey σ) (σ v) = halfBreadth extents v := by
  rw [halfBreadth, extent_rename, halfBreadth]

theorem place_rename (across : KeyedList String α) (v : String) :
    place (across.rekey σ) (σ v) = place across v := by
  rw [place, KeyedList.get?_rekey, place]

theorem average_rename (across : KeyedList String α) (v : String) (us : List String) :
    average (across.rekey σ) (σ v) (us.map σ) = average across v us := by
  cases us with
  | nil => exact place_rename σ across v
  | cons u us =>
      have hplaces : ((u :: us).map σ).map (place (across.rekey σ)) =
          (u :: us).map (place across) := by
        rw [List.map_map]
        exact List.map_congr_left fun w _ => place_rename σ across w
      have hlength : ((u :: us).map σ).length = (u :: us).length := List.length_map _
      rw [List.map_cons] at hplaces hlength ⊢
      simp only [average]
      rw [hplaces, hlength]

theorem aligned_rename (across : KeyedList String α) :
    aligned (extents.rekey σ) (across.rekey σ) = (aligned extents across).rekey σ := by
  have hedges : leftEdges (extents.rekey σ) (across.rekey σ) = leftEdges extents across := by
    show (across.entries.map (Prod.map σ id)).map _ = _
    rw [List.map_map, leftEdges]
    refine List.map_congr_left fun e _ => ?_
    rw [Function.comp_apply, Prod.map, halfBreadth_rename]
    rfl
  rw [aligned, hedges, aligned]
  split
  · rfl
  · exact KeyedList.mapValues_rekey σ across fun _ _ => rfl

theorem layerDepth_rename (layer : List String) :
    layerDepth (extents.rekey σ) (layer.map σ) = layerDepth extents layer := by
  have hdepths : (layer.map σ).map (fun v => (extent (extents.rekey σ) v).depth) =
      layer.map fun v => (extent extents v).depth := by
    rw [List.map_map]
    exact List.map_congr_left fun v _ => by rw [Function.comp_apply, extent_rename]
  rw [layerDepth, hdepths, layerDepth]

variable {σ} (hσ : Waypoint.Kept σ) (gaps : Gaps α)

include hσ

theorem gap_rename (u v : String) : gap gaps (σ u) (σ v) = gap gaps u v := by
  rw [gap, hσ.isId, hσ.isId, gap]

section Packing

variable {want want' : String → α} (h : ∀ v, want' (σ v) = want v)

include h

theorem packFrom_rename (before : Option (String × α)) (layer : List String) :
    packFrom gaps (extents.rekey σ) want' (before.map (Prod.map σ id)) (layer.map σ) =
      (packFrom gaps extents want before layer).map (Prod.map σ id) := by
  induction layer generalizing before with
  | nil => rfl
  | cons v vs ih =>
      cases before with
      | none =>
          have htail := ih (some (v, want v))
          simp only [List.map_cons, packFrom, Option.map_none, h]
          exact congrArg (_ :: ·) htail
      | some b =>
          have htail := ih (some (v, max (want v)
            (b.2 + halfBreadth extents b.1 + gap gaps b.1 v + halfBreadth extents v)))
          simp only [List.map_cons, packFrom, Option.map_some, Prod.map, id, h, halfBreadth_rename,
            gap_rename hσ]
          exact congrArg (_ :: ·) htail

theorem pack_rename (across : KeyedList String α) (layer : List String) :
    pack gaps (extents.rekey σ) want' (across.rekey σ) (layer.map σ) =
      (pack gaps extents want across layer).rekey σ := by
  have hpack := packFrom_rename extents hσ gaps h none layer
  rw [Option.map_none] at hpack
  rw [pack, hpack, KeyedList.putAll_rekey, pack]

end Packing

theorem packed_rename (ordering : List (List String)) :
    packed gaps (extents.rekey σ) (ordering.map (List.map σ)) =
      (packed gaps extents ordering).rekey σ := by
  have hfold (layers : List (List String)) (across : KeyedList String α) :
      (layers.map (List.map σ)).foldl (pack gaps (extents.rekey σ) (halfBreadth (extents.rekey σ)))
          (across.rekey σ) =
        (layers.foldl (pack gaps extents (halfBreadth extents)) across).rekey σ := by
    induction layers generalizing across with
    | nil => rfl
    | cons layer layers ih =>
        rw [List.map_cons, List.foldl_cons,
          pack_rename extents hσ gaps (halfBreadth_rename σ extents), ih, List.foldl_cons]
  exact hfold ordering .empty

theorem pass_rename {near near' : String → List String} (h : ∀ v, near' (σ v) = (near v).map σ)
    (across : KeyedList String α) (layers : List (List String)) :
    pass gaps (extents.rekey σ) near' (across.rekey σ) (layers.map (List.map σ)) =
      (pass gaps extents near across layers).rekey σ := by
  unfold pass
  induction layers generalizing across with
  | nil => rfl
  | cons layer layers ih =>
      have hpack : pack gaps (extents.rekey σ) (fun v => average (across.rekey σ) v (near' v))
          (across.rekey σ) (layer.map σ) =
            (pack gaps extents (fun v => average across v (near v)) across layer).rekey σ :=
        pack_rename extents hσ gaps (fun v => by rw [h, average_rename]) across layer
      rw [List.map_cons, List.foldl_cons, List.foldl_cons, hpack, ih]

theorem passBoth_rename (g : Digraph String) (ordering : List (List String))
    (across : KeyedList String α) :
    passBoth gaps (extents.rekey σ) (g.map σ) (ordering.map (List.map σ)) (across.rekey σ) =
      (passBoth gaps extents g ordering across).rekey σ := by
  rw [passBoth, ← List.map_drop, ← List.map_reverse, ← List.map_drop,
    pass_rename extents hσ gaps (Digraph.predecessors_map σ g),
    pass_rename extents hσ gaps (Digraph.successors_map σ g), passBoth]

theorem assign_rename (l : Layered) (ordering : List (List String)) :
    assign gaps (extents.rekey σ) (l.rename σ) (ordering.map (List.map σ)) =
      (assign gaps extents l ordering).rename σ := by
  have hdepths : (ordering.map (List.map σ)).map (layerDepth (extents.rekey σ)) =
      ordering.map (layerDepth extents) := by
    rw [List.map_map]
    exact List.map_congr_left fun layer _ => layerDepth_rename σ extents layer
  have hturn (across : KeyedList String α) :
      passBoth gaps (extents.rekey σ) (l.rename σ).graph (ordering.map (List.map σ))
        (across.rekey σ) = (passBoth gaps extents l.graph ordering across).rekey σ :=
    passBoth_rename extents hσ gaps l.graph ordering across
  simp only [assign, rename, hdepths, packed_rename extents hσ gaps, hturn, aligned_rename]

end Coordinates

/-! ## Boxes and routes -/

variable {α : Type}

def RankNode.rename (σ : String → String) (n : RankNode α) : RankNode α := { n with id := σ n.id }

def RankEdge.rename (σ : String → String) (e : RankEdge) : RankEdge :=
  { e with source := σ e.source, target := σ e.target }

namespace Ranked

def rename (σ : String ↪ String) (r : Ranked α) : Ranked α := { r with rects := r.rects.rekey σ }

theorem rectOf_rename {σ : String ↪ String} {rects : KeyedList String (Rect α)} {id : String}
    {r : Rect α} (h : rectOf rects id = .ok r) : rectOf (rects.rekey σ) (σ id) = .ok r := by
  unfold rectOf at h ⊢
  rw [KeyedList.get?_rekey]
  split at h
  · exact h
  · cases h

theorem graph_rename (σ : String ↪ String) (nodes : List (RankNode α)) (edges : List RankEdge) :
    graph (nodes.map (RankNode.rename σ)) (edges.map (RankEdge.rename σ)) =
      (graph nodes edges).map σ := by
  have hnodes : (nodes.map (RankNode.rename σ)).map RankNode.id =
      (nodes.map RankNode.id).map σ := by
    rw [List.map_map, List.map_map]
    rfl
  have hedges : ((edges.map (RankEdge.rename σ)).filter fun e => e.source != e.target) =
      (edges.filter fun e => e.source != e.target).map (RankEdge.rename σ) := by
    refine List.filter_map.trans (congrArg (List.map _) (List.filter_congr fun e _ => ?_))
    simp [RankEdge.rename, bne, beq_eq_decide]
  have hpairs (es : List RankEdge) :
      (es.map (RankEdge.rename σ)).map (fun e => (e.source, e.target)) =
        (es.map fun e => (e.source, e.target)).map (Prod.map σ σ) := by
    rw [List.map_map, List.map_map]
    rfl
  rw [graph, hnodes, hedges, hpairs, Digraph.ofLists_map, graph]

variable [Scalar α] (σ : String ↪ String) (direction : Direction) (l : Layered) (c : Coordinates α)

theorem pointOf_rename (v : String) :
    pointOf direction (l.rename σ) (c.rename σ) (σ v) = pointOf direction l c v := by
  rw [pointOf, Layered.layer_rename, pointOf]
  exact congrArg (pointAt direction · _) (Coordinates.place_rename σ c.across v)

theorem boxes_rename (nodes : List (RankNode α)) :
    boxes direction (l.rename σ) (c.rename σ) (nodes.map (RankNode.rename σ)) =
      (boxes direction l c nodes).rekey σ := by
  rw [boxes, boxes, ← KeyedList.ofList_rekey, List.map_map, List.map_map]
  refine congrArg KeyedList.ofList (List.map_congr_left fun n _ => ?_)
  simp only [Function.comp_apply, RankNode.rename, pointOf_rename, Prod.map, id]

variable {σ direction l c} {rects : KeyedList String (Rect α)} {points : List (Point α)}

theorem chainRoute_rename {u v : String} (h : chainRoute direction l c rects u v = .ok points) :
    chainRoute direction (l.rename σ) (c.rename σ) (rects.rekey σ) (σ u) (σ v) = .ok points := by
  obtain ⟨upper, hupper, h⟩ := bind_eq_ok h
  obtain ⟨lower, hlower, h⟩ := bind_eq_ok h
  have hwaypoints : (((l.rename σ).chains.get? (σ u, σ v)).getD []).map
      (pointOf direction (l.rename σ) (c.rename σ)) =
        ((l.chains.get? (u, v)).getD []).map (pointOf direction l c) := by
    rw [Layered.chains_rename]
    cases l.chains.get? (u, v) with
    | none => rfl
    | some ws =>
        rw [Option.map_some, Option.getD_some, Option.getD_some, List.map_map]
        exact List.map_congr_left fun w _ => pointOf_rename σ direction l c w
  rw [chainRoute, rectOf_rename hupper, rectOf_rename hlower, ← h]
  show Except.ok _ = Except.ok _
  rw [hwaypoints]

theorem route_rename {back : List (String × String)} {e : RankEdge}
    (h : route direction l c rects back e = .ok points) :
    route direction (l.rename σ) (c.rename σ) (rects.rekey σ) (back.map (Prod.map σ σ))
      (e.rename σ) = .ok points := by
  have hback : (back.map (Prod.map σ σ)).contains (σ e.source, σ e.target) =
      back.contains (e.source, e.target) :=
    contains_map (σ.prodMap σ) back (e.source, e.target)
  have hloop : σ e.source = σ e.target ↔ e.source = e.target := σ.apply_eq_iff_eq _ _
  simp only [route, RankEdge.rename, hback, hloop] at h ⊢
  split at h
  · next he =>
    obtain ⟨r, hr, rfl⟩ := map_eq_ok h
    rw [if_pos he, rectOf_rename hr]
    rfl
  · next he =>
    rw [if_neg he]
    split at h
    · next hb =>
      obtain ⟨ps, hps, rfl⟩ := map_eq_ok h
      rw [if_pos hb, chainRoute_rename hps]
      rfl
    · next hb => rw [if_neg hb, chainRoute_rename h]

section Placing

variable (hσ : Waypoint.Kept σ) (gaps : Gaps α) (nodes : List (RankNode α))
  (edges : List RankEdge) (layers : KeyedList String Nat)

omit [Scalar α] in
theorem extents_rename :
    extents direction (nodes.map (RankNode.rename σ)) = (extents direction nodes).rekey σ := by
  rw [extents, extents, ← KeyedList.ofList_rekey, List.map_map, List.map_map]
  rfl

include hσ

omit [Scalar α] in
theorem layered_rename :
    layered (nodes.map (RankNode.rename σ)) (edges.map (RankEdge.rename σ)) (layers.rekey σ) =
      (layered nodes edges layers).rename σ := by
  rw [layered, graph_rename, Digraph.acyclic_map, Layered.ofLayers_rename hσ, layered]

theorem coordinates_rename :
    coordinates direction gaps (nodes.map (RankNode.rename σ)) (edges.map (RankEdge.rename σ))
      (layers.rekey σ) = (coordinates direction gaps nodes edges layers).rename σ := by
  rw [coordinates_eq, layered_rename hσ, extents_rename, Layered.ordering_rename,
    Coordinates.assign_rename _ hσ, coordinates_eq]

theorem placedBoxes_rename :
    placedBoxes direction gaps (nodes.map (RankNode.rename σ)) (edges.map (RankEdge.rename σ))
      (layers.rekey σ) = (placedBoxes direction gaps nodes edges layers).rekey σ := by
  rw [placedBoxes_eq, layered_rename hσ, coordinates_rename hσ, boxes_rename, placedBoxes_eq]

theorem placedRoute_rename {e : RankEdge}
    (h : placedRoute direction gaps nodes edges layers e = .ok points) :
    placedRoute direction gaps (nodes.map (RankNode.rename σ)) (edges.map (RankEdge.rename σ))
      (layers.rekey σ) (e.rename σ) = .ok points := by
  rw [placedRoute_eq, layered_rename hσ, coordinates_rename hσ, placedBoxes_rename hσ, graph_rename,
    Digraph.backEdges_map]
  exact route_rename h

omit [Scalar α] hσ in
/-- The layers of renamed boxes are the same layers, as they are found by asking which nodes are
equal. -/
theorem isLayering_rename (h : IsLayering nodes edges layers) :
    IsLayering (nodes.map (RankNode.rename σ)) (edges.map (RankEdge.rename σ))
      (layers.rekey σ) := by
  obtain ⟨layers', h'⟩ :=
    exists_isLayering (nodes.map (RankNode.rename σ)) (edges.map (RankEdge.rename σ))
  have hfound := h'.found
  rw [graph_rename, Digraph.acyclic_map, Digraph.layers?_map, h.found] at hfound
  cases hfound
  exact h'

/-- **Placement under other names.** Renamed boxes and edges are placed and routed where the others
are. -/
theorem place_rename {r : Ranked α} (h : place direction gaps nodes edges = .ok r) :
    place direction gaps (nodes.map (RankNode.rename σ)) (edges.map (RankEdge.rename σ)) =
      .ok (r.rename σ) := by
  by_cases hne : nodes = []
  · subst hne
    cases h
    rfl
  obtain ⟨layers, hlayers⟩ := exists_isLayering nodes edges
  rw [place_eq hne hlayers] at h
  obtain ⟨routes, hroutes, h⟩ := bind_eq_ok h
  have hroutes' : (edges.map (RankEdge.rename σ)).mapM (fun e => do
      return (e.key, ← placedRoute direction gaps (nodes.map (RankNode.rename σ))
        (edges.map (RankEdge.rename σ)) (layers.rekey σ) e)) = .ok routes := by
    rw [mapM_eq_ok_iff, List.forall₂_map_left_iff]
    refine (mapM_eq_ok_iff.mp hroutes).imp fun e x hx => ?_
    obtain ⟨points, hpoints, hx⟩ := bind_eq_ok hx
    exact (bind_of_eq_ok (placedRoute_rename hσ gaps nodes edges layers hpoints)).trans hx
  rw [place_eq (by simpa using hne) (isLayering_rename nodes edges layers hlayers)]
  refine (bind_of_eq_ok hroutes').trans ?_
  rw [placedBoxes_rename hσ, drawn, KeyedList.values_rekey]
  rw [drawn] at h
  cases hu : Rect.union ((placedBoxes direction gaps nodes edges layers).values ++
      ((KeyedList.ofList routes).values.flatten).map Rect.ofPoint) with
  | none =>
      rw [hu] at h
      cases h
      rfl
  | some u =>
      rw [hu] at h
      cases h
      rfl

end Placing

end Ranked

end Schematic
