import Schematic.Layout.Column
import Schematic.Proofs.Layout.Complete
import Schematic.Proofs.Layout.Gathering

/-!
# Two ways of laying out, one content

What a drawing shows apart from geometry is its content: nodes, groups and edges with their texts,
their order and what they belong to (`Layout.content`). The graph layout and the column layout both
succeed for every document, and both show the content of its outline, so they agree
(`Layout.graph_column_agree`). The graph layout comes to its boxes by going from container to
container and puts them into the order of the outline afterwards; that this loses nothing and adds
nothing is `Layout.IsGathered`.
-/

namespace Schematic

open Outline

/-! ## Content -/

/-- Nodes with their entities and whether they are made up, groups with the keys of their members
and their padding, and edges with their ids and the keys of their ends. -/
structure Content (α : Type) where
  nodes : List (String × Entity × Bool)
  groups : List (String × List String × α)
  edges : List (String × String × String × Edge)

/-- What a drawing shows, apart from where it shows it. The padding of a group is part of it, as it
is written beside the members, and the points of a line are not. -/
def Layout.content {α : Type} (L : Layout α) : Content α where
  nodes := L.nodes.entries.map fun e => (e.1, e.2.entity, e.2.stub)
  groups := L.groups.entries.map fun e => (e.1, e.2.members, e.2.padding)
  edges := L.routes.map fun r => (r.id, r.source, r.target, r.edge)

/-- What an outline gives a drawing to show: all nodes, the populated groups with the members that
take up space, and all wires. -/
def Outline.content {α : Type} (o : Outline) (padding : α) : Content α where
  nodes := o.nodes.entries.map fun e => (e.1, e.2.entity, e.2.stub)
  groups := (o.groups.filter fun e => o.isPopulated e.1).map fun e =>
    (e.1, (e.2.members.filter (takesSpace o.populated)).map Endpoint.key, padding)
  edges := o.wires.map fun w => ("edge_" ++ toString w.index, w.source.key, w.target.key, w.edge)

section

variable {α : Type} [Scalar α] {o : Outline} {padding : α} {nodes : KeyedList String (NodeBox α)}
  {groups : KeyedList String (GroupBox α)}

theorem IsGroups.content (h : IsGroups o padding nodes groups) :
    groups.entries.map (fun e => (e.1, e.2.members, e.2.padding)) = (o.content padding).groups := by
  refine KeyedList.map_entries_eq (f := fun k (box : GroupBox α) => (k, box.members, box.padding))
    (g := fun k (c : Container) =>
      (k, (c.members.filter (takesSpace o.populated)).map Endpoint.key, padding)) ?_ ?_
  · rw [h.keys, List.filter_map]
    rfl
  · intro k box c hbox hc
    obtain ⟨members, rects, bounds, hmembers, -, -, hget⟩ :=
      h.group k (KeyedList.mem_keys_of_get? hbox)
    have hcontainer : o.containers.get? k = some c :=
      KeyedList.get?_eq_some_iff.mpr (List.mem_filter.mp (List.mem_filter.mp hc).1).1
    rw [Outline.members, container_eq hcontainer] at hmembers
    obtain rfl := Except.ok.inj hmembers
    rw [hget] at hbox
    obtain rfl := Option.some.inj hbox
    rfl

/-- A drawing of the nodes of an outline, its groups and a line for each wire shows its content. -/
theorem Layout.content_eq {L : Layout α}
    (hnodes : L.nodes.entries.map (fun e => (e.1, e.2.entity, e.2.stub)) =
      o.nodes.entries.map fun e => (e.1, e.2.entity, e.2.stub))
    (hgroups : IsGroups o padding L.nodes L.groups)
    (hroutes : List.Forall₂ (fun w r => r.id = "edge_" ++ toString w.index ∧
      r.source = w.source.key ∧ r.target = w.target.key ∧ r.edge = w.edge) o.wires L.routes) :
    L.content = o.content padding := by
  refine (Content.mk.injEq ..).mpr ⟨hnodes, hgroups.content, ?_⟩
  refine (forall₂_map_eq hroutes fun w r hr => ?_).symm
  obtain ⟨hid, hsource, htarget, hedge⟩ := hr
  rw [hid, hsource, htarget, hedge]

end

/-! ## The column layout -/

namespace Column

variable {α : Type} [Scalar α]

theorem map_boxesFrom (style : ColumnStyle α) (y : α) (entries : List (String × Node)) :
    (boxesFrom style y entries).map (fun e => (e.1, e.2.entity, e.2.stub)) =
      entries.map fun e => (e.1, e.2.entity, e.2.stub) := by
  induction entries generalizing y with
  | nil => rfl
  | cons e rest ih =>
      obtain ⟨id, n⟩ := e
      rw [boxesFrom, List.map_cons, List.map_cons, ih]

theorem map_fst_boxesFrom (style : ColumnStyle α) (y : α) (entries : List (String × Node)) :
    (boxesFrom style y entries).map Prod.fst = entries.map Prod.fst := by
  have hmap := congrArg (List.map Prod.fst) (map_boxesFrom style y entries)
  rw [List.map_map, List.map_map] at hmap
  exact hmap

theorem entries_nodeBoxes (o : Outline) (style : ColumnStyle α) :
    (nodeBoxes o style).entries = boxesFrom style style.top o.nodes.entries :=
  KeyedList.entries_ofList (by rw [map_fst_boxesFrom]; exact o.nodes.nodup_keys)

theorem keys_nodeBoxes (o : Outline) (style : ColumnStyle α) :
    (nodeBoxes o style).keys = o.nodeIds := by
  rw [KeyedList.keys, entries_nodeBoxes, map_fst_boxesFrom]
  rfl

end Column

/-- The column layout succeeds and shows what the outline has: every node of the outline has a place
in the column, so every group is around boxes that are there and every wire joins two of them. -/
theorem Layout.exists_column {α : Type} [Metric α] (d : Document) (style : Style α) :
    ∃ C, Layout.column d style = .ok C ∧ C.content = (ofDocument d).content style.groupPadding := by
  have ho := ofDocument_isOutline d
  let nodes := Column.nodeBoxes (ofDocument d) style.column
  have hkeys : nodes.keys = (ofDocument d).nodeIds := Column.keys_nodeBoxes ..
  obtain ⟨groups, hgroup, hgroups⟩ := exists_groups ho.sound hkeys style.groupPadding
  have hpoints : ∀ w ∈ (ofDocument d).wires, ∃ r, (do
      return w.route (← w.straight nodes groups) style.cornerRadius) = Except.ok r := by
    intro w hw
    obtain ⟨hsource, htarget⟩ := ho.ends w hw
    obtain ⟨r, hr⟩ := Compound.exists_bounds_of_stands ho.sound hkeys hgroups.keys hsource
    obtain ⟨s, hs⟩ := Compound.exists_bounds_of_stands ho.sound hkeys hgroups.keys htarget
    exact ⟨_, by rw [Wire.straight, hr, hs]; rfl⟩
  obtain ⟨routes, hroute, hroutes⟩ := exists_mapM_eq_ok hpoints
  let canvas := Canvas.around
    (nodes.values.map NodeBox.bounds ++ groups.values.map GroupBox.bounds) style
  refine ⟨⟨.simple, d.archetype, .down, nodes, groups, routes, canvas.bounds, canvas.width,
    canvas.height⟩, ?_, Layout.content_eq ?_ hgroups (hroutes.imp ?_)⟩
  · rw [Layout.column]
    refine (bind_of_eq_ok (a := groups) (by rw [hgroup]; rfl)).trans ?_
    exact bind_of_eq_ok (a := routes) (by rw [hroute]; rfl)
  · show nodes.entries.map _ = _
    rw [Column.entries_nodeBoxes]
    exact Column.map_boxesFrom ..
  · intro w r hr
    obtain ⟨points, -, heq⟩ := bind_eq_ok hr
    cases heq
    exact ⟨rfl, rfl, rfl, rfl⟩

/-! ## The graph layout -/

theorem Layout.IsDrawing.content {α : Type} [Scalar α] {d : Document} {style : Style α}
    {filed : List (Wire × Compound.Filing)} {placed : KeyedList String (Ranked α)}
    {origins : KeyedList String (Point α)} {L : Layout α}
    (h : Layout.IsDrawing d style filed placed origins L) :
    L.content = (ofDocument d).content style.groupPadding := by
  refine Layout.content_eq ?_ h.isGroups ?_
  · refine KeyedList.map_entries_eq (f := fun k (box : NodeBox α) => (k, box.entity, box.stub))
      (g := fun k (n : Node) => (k, n.entity, n.stub)) h.isNodes.keys ?_
    intro id box n hbox hn
    obtain ⟨rect, -, hget⟩ := h.isNodes.box id n (KeyedList.get?_eq_some_iff.mpr hn)
    rw [hget] at hbox
    obtain rfl := Option.some.inj hbox
    rfl
  · rw [← h.wires, List.forall₂_map_left_iff]
    exact h.routes.imp fun f r hr => ⟨hr.1, hr.2.1, hr.2.2.1, hr.2.2.2.1⟩

/-- The nodes and groups of the graph layout are those that are gathered from the root, put into the
order of the outline. -/
structure Layout.IsGathered {α : Type} [Scalar α] (d : Document) (style : Style α) (L : Layout α) :
    Prop where
  nodes : ∃ filed placed gathered,
    ((ofDocument d).wires.mapM fun w => do return (w, ← Compound.file (ofDocument d) w)) =
      .ok filed ∧
    Compound.placeAll (ofDocument d) style (style.directionFor d) filed = .ok placed ∧
    Compound.gatherNodes (ofDocument d) style placed (ofDocument d).containers.keys.length root
      ⟨style.margin, style.margin⟩ = .ok gathered ∧
    L.nodes = .ofList ((ofDocument d).nodeIds.filterMap fun id =>
      ((KeyedList.ofList gathered).get? id).map fun box => (id, box))
  groups : ∃ gathered,
    GroupBox.gather (ofDocument d) style.groupPadding L.nodes
      (ofDocument d).containers.keys.length root = .ok gathered ∧
    L.groups = .ofList (((ofDocument d).groups.map Prod.fst).filterMap fun key =>
      ((KeyedList.ofList gathered.2).get? key).map fun box => (key, box))

theorem Layout.IsDrawing.isGathered {α : Type} [Scalar α] {d : Document} {style : Style α}
    {filed : List (Wire × Compound.Filing)} {placed : KeyedList String (Ranked α)}
    {origins : KeyedList String (Point α)} {L : Layout α}
    (h : Layout.IsDrawing d style filed placed origins L) : L.IsGathered d style := by
  have hs := (ofDocument_isOutline d).sound
  constructor
  · obtain ⟨gathered, hgathered, hboxes⟩ := h.isNodes.gather_root hs h.isPlaced h.isOrigins
    refine ⟨filed, placed, gathered, h.files, h.places, hgathered, ?_⟩
    refine (KeyedList.ofList_reorder hboxes (ofDocument d).nodes.nodup_keys ?_).symm
    rw [h.isNodes.keys, List.filter_eq_self.mpr]
    · rfl
    · intro id hid
      rw [KeyedList.contains_iff, h.isNodes.keys]
      exact hid
  · obtain ⟨gathered, hgathered, hboxes⟩ := h.isGroups.gather_root hs h.isNodes.keys
    have hnodup := (ofDocument d).containers.nodup_keys
    rw [hs.keys_eq] at hnodup
    refine ⟨gathered, hgathered,
      (KeyedList.ofList_reorder hboxes (List.nodup_cons.mp hnodup).2 ?_).symm⟩
    rw [h.isGroups.keys]
    refine List.filter_congr fun k hk => ?_
    rw [Bool.eq_iff_iff, KeyedList.contains_iff, h.isGroups.keys, List.mem_filter]
    exact (and_iff_right hk).symm

/-- Both ways of laying out succeed and show the same, namely what the outline of the document has.
The nodes and groups of the graph layout are those gathered from the root, put into the order of the
outline. -/
theorem Layout.graph_column_agree {α : Type} [Metric α] (d : Document) (style : Style α) :
    ∃ G C, Layout.graph d style = .ok G ∧ Layout.column d style = .ok C ∧
      G.content = C.content ∧ C.content = (ofDocument d).content style.groupPadding ∧
      ∃ gathered, GroupBox.gather (ofDocument d) style.groupPadding G.nodes
          (ofDocument d).containers.keys.length root = .ok gathered ∧
        (∀ k box, (k, box) ∈ gathered.2 ↔ G.groups.get? k = some box) ∧
        G.IsGathered d style := by
  obtain ⟨G, filed, placed, origins, hgraph, hdrawing⟩ := Layout.exists_isDrawing d style
  obtain ⟨C, hcolumn, hcontent⟩ := Layout.exists_column d style
  obtain ⟨gathered, hgathered, hboxes⟩ :=
    hdrawing.isGroups.gather_root (ofDocument_isOutline d).sound hdrawing.isNodes.keys
  exact ⟨G, C, hgraph, hcolumn, hdrawing.content.trans hcontent.symm, hcontent, gathered, hgathered,
    hboxes, hdrawing.isGathered⟩

end Schematic
