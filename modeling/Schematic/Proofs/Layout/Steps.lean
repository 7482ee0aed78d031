import Schematic.Proofs.Layout.Groups

/-!
# From a document to its drawing

The steps of the graph layout one after the other: the wires are filed, the containers placed, their
origins handed down, nodes and groups drawn, and the wires routed. Each step has what it needs from
the ones before it, so every document has a drawing, and the drawing satisfies the equations of all
steps at once (`Layout.IsDrawing`).
-/

namespace Schematic

open Outline

/-- What the parts of a drawing have to do with each other, given where the wires are filed, how the
containers are placed and where their contents begin. -/
structure Layout.IsDrawing {α : Type} [Scalar α] (d : Document) (style : Style α)
    (filed : List (Wire × Compound.Filing)) (placed : KeyedList String (Ranked α))
    (origins : KeyedList String (Point α)) (L : Layout α) : Prop where
  files : ((ofDocument d).wires.mapM fun w => do return (w, ← Compound.file (ofDocument d) w)) =
    .ok filed
  places : Compound.placeAll (ofDocument d) style (style.directionFor d) filed = .ok placed
  isFiled : Compound.IsFiled (ofDocument d) filed
  isPlaced : Compound.IsPlaced (ofDocument d) style (style.directionFor d) filed placed
  isOrigins : Compound.IsOrigins (ofDocument d) style placed origins
  isNodes : Compound.IsNodes (ofDocument d) placed origins L.nodes
  isGroups : IsGroups (ofDocument d) style.groupPadding L.nodes L.groups
  routes : List.Forall₂ (fun f r => r.id = "edge_" ++ toString f.1.index ∧
    r.source = f.1.source.key ∧ r.target = f.1.target.key ∧ r.edge = f.1.edge ∧
    Compound.wirePoints placed origins L.nodes L.groups f.1 f.2 = .ok r.points) filed L.routes
  canvas : (⟨L.bounds, L.width, L.height⟩ : Canvas α) = Canvas.around
    (L.nodes.values.map NodeBox.bounds ++ L.groups.values.map GroupBox.bounds) style

namespace Compound

variable {α : Type} [Scalar α] {o : Outline} {style : Style α} {direction : Direction}
  {filed : List (Wire × Filing)} {placed : KeyedList String (Ranked α)}
  {origins : KeyedList String (Point α)} {nodes : KeyedList String (NodeBox α)}
  {groups : KeyedList String (GroupBox α)}

omit [Scalar α] in
/-- What takes part in the drawing has bounds: all nodes are drawn, and of the groups those that are
populated. -/
theorem exists_bounds_of_stands (hs : Sound o) (hnodes : nodes.keys = o.nodeIds)
    (hgroups : groups.keys = (o.groups.map Prod.fst).filter o.isPopulated) {e : Endpoint}
    (he : o.Stands e) : ∃ r, e.bounds nodes groups = .ok r := by
  cases e with
  | node id =>
      have hid : id ∈ nodes.keys := by
        rw [hnodes]
        exact he
      obtain ⟨box, hbox⟩ := KeyedList.mem_keys_iff.mp hid
      exact ⟨_, Endpoint.bounds_node hbox⟩
  | group k =>
      have hmem := hs.populated_subset he.2
      rw [hs.keys_eq, List.mem_cons] at hmem
      have hk : k ∈ groups.keys := by
        rw [hgroups, List.mem_filter]
        exact ⟨hmem.resolve_left he.1, List.contains_iff_mem.mpr he.2⟩
      obtain ⟨box, hbox⟩ := KeyedList.mem_keys_iff.mp hk
      exact ⟨_, Endpoint.bounds_group hbox⟩

/-- The points of a wire filed in a container are those that the container has routed it along,
moved to where its content begins. -/
theorem wirePoints_within (nodes : KeyedList String (NodeBox α))
    (groups : KeyedList String (GroupBox α)) (hs : Sound o) (hfiled : IsFiled o filed)
    (hplaced : IsPlaced o style direction filed placed)
    (horigins : IsOrigins o style placed origins)
    {w : Wire} {key : String} {x y : Endpoint} (hw : (w, Filing.within key x y) ∈ filed) :
    ∃ (r : Ranked α) (q : Point α) (points : List (Point α)),
      placed.get? key = some r ∧ IsContent o style direction filed placed key r ∧
      (⟨w.index, boxId x, boxId y⟩ : RankEdge) ∈ edgesIn filed key ∧
      r.routes.get? w.index = some points ∧ points ≠ [] ∧
      wirePoints placed origins nodes groups w (.within key x y) =
        .ok (points.map fun p => p.translate q.x q.y) := by
  have hin := hfiled.within w key x y hw
  have hpop := hin.populated hs
  obtain ⟨r, hr, hcontent⟩ := hplaced key hin.source.mem_keys
  obtain ⟨q, hq⟩ := KeyedList.mem_keys_iff.mp (horigins.mem_keys hpop)
  have hedge : (⟨w.index, boxId x, boxId y⟩ : RankEdge) ∈ edgesIn filed key :=
    List.mem_filterMap.mpr ⟨_, hw, by simp⟩
  obtain ⟨members, boxes, layers, -, -, hjoins, houtcome⟩ := id hcontent
  obtain ⟨points, hpoints, f, hf, -, hroute⟩ := houtcome.exists_route hedge
  refine ⟨r, q, points, hr, hcontent, hedge, hpoints, ?_, ?_⟩
  · obtain ⟨ps, hps, hne⟩ := Ranked.exists_placedRoute direction style.gaps layers hjoins hf
    rw [hroute] at hps
    cases hps
    exact hne
  · rw [wirePoints, hr, hq]
    simp only [hpoints, Option.getD_some]

theorem exists_wirePoints (hs : Sound o) (hfiled : IsFiled o filed)
    (hplaced : IsPlaced o style direction filed placed)
    (horigins : IsOrigins o style placed origins)
    (hnodes : nodes.keys = o.nodeIds)
    (hgroups : groups.keys = (o.groups.map Prod.fst).filter o.isPopulated)
    {w : Wire} {place : Filing} (hw : (w, place) ∈ filed)
    (hends : o.Stands w.source ∧ o.Stands w.target) :
    ∃ points, wirePoints placed origins nodes groups w place = .ok points := by
  cases place with
  | detached =>
      obtain ⟨r, hr⟩ := exists_bounds_of_stands hs hnodes hgroups hends.1
      obtain ⟨s, hs⟩ := exists_bounds_of_stands hs hnodes hgroups hends.2
      exact ⟨_, by rw [wirePoints, Wire.straight, hr, hs]; rfl⟩
  | within key x y =>
      obtain ⟨-, q, points, -, -, -, -, -, heq⟩ :=
        wirePoints_within nodes groups hs hfiled hplaced horigins hw
      exact ⟨_, heq⟩

end Compound

/-- Every document has a drawing. The steps succeed one after the other, each with what the ones
before it have left, and what each of them has left is kept as a field of `IsDrawing`. -/
theorem Layout.exists_isDrawing {α : Type} [Metric α] (d : Document) (style : Style α) :
    ∃ L filed placed origins, Layout.graph d style = .ok L ∧
      Layout.IsDrawing d style filed placed origins L := by
  have ho := ofDocument_isOutline d
  have hs := ho.sound
  obtain ⟨filed, hfiles, hfiled⟩ := Compound.exists_filed ho
  obtain ⟨placed, hplaces, hplaced⟩ :=
    Compound.exists_placeAll hs hfiled style (style.directionFor d)
  obtain ⟨origins, horigin, horigins⟩ := Compound.exists_origins hs hplaced
  obtain ⟨nodes, hnode, hnodes⟩ := Compound.exists_nodeBoxes hs hplaced horigins
  obtain ⟨groups, hgroup, hgroups⟩ := exists_groups hs hnodes.keys style.groupPadding
  have hpoints : ∀ f ∈ filed, ∃ r, (do
      let points ← Compound.wirePoints placed origins nodes groups f.1 f.2
      return f.1.route points style.cornerRadius) = Except.ok r := by
    rintro ⟨w, place⟩ hw
    have hwire : w ∈ (ofDocument d).wires := by
      rw [← hfiled.wires]
      exact List.mem_map_of_mem hw
    obtain ⟨points, hpoints⟩ := Compound.exists_wirePoints hs hfiled hplaced horigins hnodes.keys
      hgroups.keys hw (ho.ends w hwire)
    exact ⟨_, by rw [hpoints]; rfl⟩
  obtain ⟨routes, hroute, hroutes⟩ := exists_mapM_eq_ok hpoints
  refine ⟨{
    mode := .graph
    archetype := d.archetype
    direction := style.directionFor d
    nodes := nodes
    groups := groups
    routes := routes
    bounds := (Canvas.around (nodes.values.map NodeBox.bounds ++ groups.values.map GroupBox.bounds)
      style).bounds
    width := (Canvas.around (nodes.values.map NodeBox.bounds ++ groups.values.map GroupBox.bounds)
      style).width
    height := (Canvas.around (nodes.values.map NodeBox.bounds ++ groups.values.map GroupBox.bounds)
      style).height }, filed, placed, origins, ?_, ?_⟩
  · rw [Layout.graph]
    simp only
    refine (bind_of_eq_ok (a := filed) (by rw [hfiles]; rfl)).trans ?_
    refine (bind_of_eq_ok (a := placed) hplaces).trans ?_
    refine (bind_of_eq_ok (a := origins) (by rw [horigin]; rfl)).trans ?_
    refine (bind_of_eq_ok (a := nodes) (by rw [hnode]; rfl)).trans ?_
    refine (bind_of_eq_ok (a := groups) (by rw [hgroup]; rfl)).trans ?_
    exact bind_of_eq_ok (a := routes) (by rw [hroute]; rfl)
  · refine ⟨hfiles, hplaces, hfiled, hplaced, horigins, hnodes, hgroups, hroutes.imp ?_, rfl⟩
    rintro ⟨w, place⟩ r hr
    obtain ⟨points, hps, heq⟩ := bind_eq_ok hr
    cases heq
    exact ⟨rfl, rfl, rfl, rfl, hps⟩

end Schematic
