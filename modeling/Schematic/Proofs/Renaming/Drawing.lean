import Schematic.Layout.Compound
import Schematic.Proofs.Layout.Sizes
import Schematic.Proofs.Renaming.Outline
import Schematic.Proofs.Renaming.Placement

/-!
# Drawings under other names

The graph layout goes along with an injective map of names, step by step: wires are filed in the
same containers, every container is placed alike, positions are handed down alike, and groups and
routes end up where they were. Three things are asked for. The outline has to go along with the map;
nodes must be as wide as before, so they need labels; and the ids that placement makes up, those of
waypoints and of group boxes, have to stay as they are.
-/

namespace Schematic

open Outline

variable {α : Type}

/-! ## Renaming -/

def Compound.Filing.rename (f : String → String) : Compound.Filing → Compound.Filing
  | .detached => .detached
  | .within key source target => .within key (source.rename f) (target.rename f)

def NodeBox.rename (f : String → String) (b : NodeBox α) : NodeBox α :=
  { b with entity := b.entity.rename f }

/-- The box around the given members, under their new names. Its key comes from a group, so it stays
as it is. -/
def GroupBox.rename (f : String → String) (members : List Endpoint) (b : GroupBox α) : GroupBox α :=
  { b with members := members.map fun m => (m.rename f).key }

/-- The line of a wire, under the new names of its ends. Its points stay where they are. -/
def Route.rename (f : String → String) (w : Wire) (r : Route α) : Route α :=
  { r with
    source := (w.source.rename f).key
    target := (w.target.rename f).key
    edge := r.edge.rename f }

/-- The members of a container, none if there is no container. Every key of a box has one, so the
second case does not come up. -/
def Outline.membersOf (o : Outline) (key : String) : List Endpoint :=
  (o.members key).toOption.getD []

/-- The drawing with its nodes renamed and everything else in its place. The outline tells which of
the keys are those of nodes. -/
def Layout.rename (f : String → String) (o : Outline) (L : Layout α) : Layout α :=
  { L with
    nodes := .ofList (L.nodes.entries.map fun e => (f e.1, e.2.rename f))
    groups := L.groups.mapValues fun key b => b.rename f (o.membersOf key)
    routes := List.zipWith (Route.rename f) o.wires L.routes }

namespace Compound

/-- Reserved names stay as they are: those that placement makes up for waypoints and for boxes of
groups. -/
def Kept (σ : String ↪ String) : Prop := ∀ v, Reserved v = true → σ v = v

variable {σ : String ↪ String} {o : Outline} {e f : Endpoint} {filed : List (Wire × Filing)}

theorem Kept.waypoint (hσ : Kept σ) : Waypoint.Kept σ :=
  fun v hv => hσ v (Bool.or_eq_true_iff.mpr (Or.inr hv))

theorem Kept.boxId (hσ : Kept σ) (e : Endpoint) : boxId (e.rename σ) = σ (boxId e) := by
  cases e with
  | node id => rfl
  | group key => exact (hσ _ (Bool.or_eq_true_iff.mpr (Or.inl (startsWith_groupMark key)))).symm

/-! ## Filing -/

theorem swallows_rename {b : Bool} (h : swallows o e f = .ok b) :
    swallows (o.rename σ) (e.rename σ) (f.rename σ) = .ok b := by
  cases e with
  | node id => exact h
  | group key => exact encloses_rename h

theorem file_rename {w : Wire} {place : Filing} (h : file o w = .ok place) :
    file (o.rename σ) (w.rename σ) = .ok (place.rename σ) := by
  obtain ⟨b, hb, h⟩ := bind_eq_ok h
  obtain ⟨c, hc, h⟩ := bind_eq_ok h
  refine (bind_of_eq_ok (swallows_rename hb)).trans ((bind_of_eq_ok (swallows_rename hc)).trans ?_)
  split at h
  · next hbc =>
    rw [if_pos hbc]
    cases h
    rfl
  · next hbc =>
    rw [if_neg hbc]
    obtain ⟨key, hkey, h⟩ := bind_eq_ok h
    obtain ⟨x, hx, h⟩ := bind_eq_ok h
    obtain ⟨y, hy, h⟩ := bind_eq_ok h
    cases h
    refine (bind_of_eq_ok (commonContainer_rename hkey)).trans ?_
    exact (bind_of_eq_ok (lift_rename hx)).trans (bind_of_eq_ok (lift_rename hy))

theorem wires_of_files (h : (o.wires.mapM fun w => do return (w, ← file o w)) = .ok filed) :
    filed.map Prod.fst = o.wires := by
  have hmap := forall₂_map_eq (mapM_eq_ok_iff.mp h) (f := id) (g := Prod.fst) fun w r hr => by
    obtain ⟨place, -, hr⟩ := bind_eq_ok hr
    cases hr
    rfl
  rw [← hmap, List.map_id]

theorem files_rename (h : (o.wires.mapM fun w => do return (w, ← file o w)) = .ok filed) :
    ((o.rename σ).wires.mapM fun w => do return (w, ← file (o.rename σ) w)) =
      .ok (filed.map (Prod.map (Wire.rename σ) (Filing.rename σ))) := by
  refine mapM_map_eq_ok (fun w r hr => ?_) h
  obtain ⟨place, hplace, hr⟩ := bind_eq_ok hr
  cases hr
  exact bind_of_eq_ok (file_rename hplace)

/-! ## Placing -/

section

variable [Scalar α] {style : Style α} {direction : Direction} {key : String}
  {placed placed' : KeyedList String (Ranked α)} {origins origins' : KeyedList String (Point α)}

def renamePlaced (σ : String ↪ String) (placed : KeyedList String (Ranked α)) :
    KeyedList String (Ranked α) := placed.mapValues fun _ => Ranked.rename σ

omit [Scalar α] in
theorem get?_renamePlaced (placed : KeyedList String (Ranked α)) (key : String) :
    (renamePlaced σ placed).get? key = (placed.get? key).map (Ranked.rename σ) :=
  KeyedList.get?_mapValues ..

theorem nodeSize_rename (style : Style α) {n : Node} (h : Labelled n) (f : String → String) :
    nodeSize style (n.rename f) = nodeSize style n := by
  unfold nodeSize
  show (if n.stub = true then _ else (n.entity.rename f).size style) = _
  split
  · rfl
  · next hstub =>
    have hlabel := Entity.label_rename (h.resolve_left hstub) f
    unfold Entity.size
    rw [hlabel]
    rfl

variable (hσ : Kept σ)

include hσ

theorem memberBox_rename (hlabels : o.EveryNode fun _ n => Labelled n) {m : Endpoint}
    {n : RankNode α} (h : memberBox o style placed m = .ok n) :
    memberBox (o.rename σ) style (renamePlaced σ placed) (m.rename σ) = .ok (n.rename σ) := by
  cases m with
  | node id =>
      obtain ⟨node, hnode, h⟩ := bind_eq_ok h
      cases h
      have hget : o.nodes.get? id = some node := by
        unfold Outline.node at hnode
        split at hnode
        · next m hm =>
          cases hnode
          exact hm
        · cases hnode
      refine (bind_of_eq_ok (node_rename hnode)).trans ?_
      rw [nodeSize_rename style (hlabels id node hget)]
      rfl
  | group key =>
      obtain ⟨content, hcontent, h⟩ := bind_eq_ok h
      cases h
      have hcontent' : (renamePlaced σ placed).find key (.group key) = .ok (content.rename σ) := by
        rw [KeyedList.find_eq_ok_iff] at hcontent ⊢
        rw [get?_renamePlaced, hcontent]
        rfl
      refine (bind_of_eq_ok hcontent').trans ?_
      have hid : boxId (.group key) = σ (boxId (.group key)) := hσ.boxId (.group key)
      exact congrArg (fun id => Except.ok (RankNode.mk id _ _)) hid

omit [Scalar α] in
theorem edgesIn_rename (filed : List (Wire × Filing)) (key : String) :
    edgesIn (filed.map (Prod.map (Wire.rename σ) (Filing.rename σ))) key =
      (edgesIn filed key).map (RankEdge.rename σ) := by
  rw [edgesIn, edgesIn, List.filterMap_map, List.map_filterMap]
  refine List.filterMap_congr fun x _ => ?_
  obtain ⟨w, place⟩ := x
  cases place with
  | detached => rfl
  | within k source target =>
      simp only [Function.comp_apply, Prod.map, Filing.rename]
      split
      · rw [hσ.boxId, hσ.boxId]
        rfl
      · rfl

theorem placeContainer_rename (hlabels : o.EveryNode fun _ n => Labelled n)
    (h : placeContainer o style direction filed key placed = .ok placed') :
    placeContainer (o.rename σ) style direction
        (filed.map (Prod.map (Wire.rename σ) (Filing.rename σ))) key (renamePlaced σ placed) =
      .ok (renamePlaced σ placed') := by
  obtain ⟨members, hmembers, h⟩ := bind_eq_ok h
  obtain ⟨boxes, hboxes, h⟩ := bind_eq_ok h
  obtain ⟨ranked, hranked, h⟩ := bind_eq_ok h
  cases h
  rw [mapError_eq_ok_iff] at hmembers hboxes hranked
  have hmembers' : (o.rename σ).members key = .ok (members.map (Endpoint.rename σ)) := by
    rw [members_rename, hmembers]
    rfl
  have hboxes' := mapM_map_eq_ok (fun m n => memberBox_rename hσ hlabels (m := m) (n := n)) hboxes
  have hranked' := Ranked.place_rename hσ.waypoint style.gaps boxes (edgesIn filed key) hranked
  rw [← edgesIn_rename hσ] at hranked'
  refine (bind_of_eq_ok (mapError_eq_ok_iff.mpr hmembers')).trans ?_
  refine (bind_of_eq_ok (mapError_eq_ok_iff.mpr hboxes')).trans ?_
  refine (bind_of_eq_ok (mapError_eq_ok_iff.mpr hranked')).trans ?_
  exact congrArg Except.ok
    (KeyedList.put_mapValues placed (fun _ => Ranked.rename σ) key ranked)

theorem placeAll_rename (hlabels : o.EveryNode fun _ n => Labelled n)
    (h : placeAll o style direction filed = .ok placed) :
    placeAll (o.rename σ) style direction
        (filed.map (Prod.map (Wire.rename σ) (Filing.rename σ))) = .ok (renamePlaced σ placed) := by
  have hkeys : (o.rename σ).containers.keys = o.containers.keys := KeyedList.keys_mapValues ..
  unfold placeAll
  rw [hkeys]
  exact foldrM_eq_ok_of_step (g := renamePlaced σ)
    (fun _ _ _ => placeContainer_rename hσ hlabels) h

/-! ## Handing down positions -/

theorem boxAt_rename {r : Rect α} (h : boxAt placed origins key e = .ok r) :
    boxAt (renamePlaced σ placed) origins key (e.rename σ) = .ok r := by
  obtain ⟨content, q, s, hcontent, hq, hs, rfl⟩ := boxAt_eq_ok_iff.mp h
  refine boxAt_eq_ok_iff.mpr ⟨content.rename σ, q, s, ?_, hq, ?_, rfl⟩
  · rw [get?_renamePlaced, hcontent]
    rfl
  · rw [hσ.boxId, Ranked.rename, KeyedList.get?_rekey, hs]

theorem addOrigin_rename (h : addOrigin o style placed origins key = .ok origins') :
    addOrigin (o.rename σ) style (renamePlaced σ placed) origins key = .ok origins' := by
  unfold addOrigin at h ⊢
  rw [isPopulated_rename]
  split at h
  · next hpop =>
    rw [if_pos hpop]
    obtain ⟨home, hhome, h⟩ := bind_eq_ok h
    obtain ⟨r, hr, h⟩ := bind_eq_ok h
    refine (bind_of_eq_ok (home_rename (e := .group key) hhome)).trans ?_
    exact (bind_of_eq_ok (boxAt_rename hσ (e := .group key) hr)).trans h
  · next hpop =>
    rw [if_neg hpop]
    exact h

theorem origins_rename (h : Compound.origins o style placed = .ok origins) :
    Compound.origins (o.rename σ) style (renamePlaced σ placed) = .ok origins := by
  have hkeys : (o.rename σ).groups.map Prod.fst = o.groups.map Prod.fst := by
    rw [groups_rename, List.map_map]
    rfl
  unfold Compound.origins
  rw [hkeys]
  exact foldlM_eq_ok_of_step (g := id) (fun _ _ _ => addOrigin_rename hσ) h

end

/-! ## Drawing nodes -/

/-- The boxes of the nodes under their new names, in the order they had. -/
def renameBoxes (σ : String ↪ String) (nodes : KeyedList String (NodeBox α)) :
    KeyedList String (NodeBox α) := (nodes.mapValues fun _ => NodeBox.rename σ).rekey σ

theorem get?_renameBoxes (nodes : KeyedList String (NodeBox α)) (id : String) :
    (renameBoxes σ nodes).get? (σ id) = (nodes.get? id).map (NodeBox.rename σ) :=
  (KeyedList.get?_rekey ..).trans (KeyedList.get?_mapValues ..)

theorem ofList_renameBoxes (es : List (String × NodeBox α)) :
    KeyedList.ofList (es.map fun e => (σ e.1, e.2.rename σ)) =
      renameBoxes σ (KeyedList.ofList es) := by
  have hvalues := KeyedList.ofList_mapValues (fun _ => NodeBox.rename σ) es
  rw [renameBoxes, ← hvalues, ← KeyedList.ofList_rekey, List.map_map]
  rfl

theorem bounds_renameBoxes (nodes : KeyedList String (NodeBox α)) :
    (renameBoxes σ nodes).values.map NodeBox.bounds = nodes.values.map NodeBox.bounds := by
  rw [renameBoxes, KeyedList.values_rekey, KeyedList.values, KeyedList.values, List.map_map,
    List.map_map]
  exact List.map_map

theorem nodeBoxes_rename [Scalar α] {placed : KeyedList String (Ranked α)}
    {origins : KeyedList String (Point α)} {nodes : KeyedList String (NodeBox α)} (hσ : Kept σ)
    (h : nodeBoxes o placed origins = .ok nodes) :
    nodeBoxes (o.rename σ) (renamePlaced σ placed) origins = .ok (renameBoxes σ nodes) := by
  obtain ⟨boxes, hboxes, h⟩ := bind_eq_ok h
  cases h
  have hentries : (o.rename σ).nodes.entries =
      o.nodes.entries.map fun e => (σ e.1, e.2.rename σ) := List.map_map
  have hboxes' : ((o.rename σ).nodes.entries.mapM fun e => do
      let r ← boxAt (renamePlaced σ placed) origins e.2.home (.node e.1)
      return (e.1, (⟨e.2.entity, r, e.2.stub⟩ : NodeBox α))) =
      .ok (boxes.map fun e => (σ e.1, e.2.rename σ)) := by
    rw [hentries]
    refine mapM_map_eq_ok (fun e box he => ?_) hboxes
    obtain ⟨r, hr, he⟩ := bind_eq_ok he
    cases he
    exact bind_of_eq_ok (boxAt_rename hσ (e := .node e.1) hr)
  exact (bind_of_eq_ok hboxes').trans (congrArg Except.ok (ofList_renameBoxes boxes))

end Compound

/-! ## Drawing groups -/

section

open Compound

variable {σ : String ↪ String} {o : Outline} {key : String} {e : Endpoint}
  {nodes : KeyedList String (NodeBox α)} {groups groups' : KeyedList String (GroupBox α)}

def renameGroups (σ : String ↪ String) (o : Outline) (groups : KeyedList String (GroupBox α)) :
    KeyedList String (GroupBox α) :=
  groups.mapValues fun key b => b.rename σ (o.membersOf key)

theorem bounds_renameGroups (groups : KeyedList String (GroupBox α)) :
    (renameGroups σ o groups).values.map GroupBox.bounds = groups.values.map GroupBox.bounds := by
  simp [renameGroups, KeyedList.values, KeyedList.mapValues, GroupBox.rename]

theorem Endpoint.bounds_rename {r : Rect α} (h : e.bounds nodes groups = .ok r) :
    (e.rename σ).bounds (renameBoxes σ nodes) (renameGroups σ o groups) = .ok r := by
  cases e with
  | node id =>
      obtain ⟨box, hbox, h⟩ := bind_eq_ok h
      cases h
      have hbox' : (renameBoxes σ nodes).get? (σ id) = some (box.rename σ) := by
        rw [get?_renameBoxes, KeyedList.find_eq_ok_iff.mp hbox]
        rfl
      exact (Endpoint.bounds_node hbox' :)
  | group key =>
      obtain ⟨box, hbox, h⟩ := bind_eq_ok h
      cases h
      have hbox' : (renameGroups σ o groups).get? key = some (box.rename σ (o.membersOf key)) := by
        rw [renameGroups, KeyedList.get?_mapValues, KeyedList.find_eq_ok_iff.mp hbox]
        rfl
      exact (Endpoint.bounds_group hbox' :)

variable [Scalar α] {padding : α}

theorem GroupBox.add_rename (h : GroupBox.add o padding nodes groups key = .ok groups') :
    GroupBox.add (o.rename σ) padding (renameBoxes σ nodes) (renameGroups σ o groups) key =
      .ok (renameGroups σ o groups') := by
  obtain ⟨members, hmembers, hadd⟩ := bind_eq_ok h
  obtain ⟨rects, hrects, -⟩ := bind_eq_ok hadd
  have hmembers' : (o.rename σ).members key = .ok (members.map (Endpoint.rename σ)) := by
    rw [members_rename, hmembers]
    rfl
  have hrects' : (members.map (Endpoint.rename σ)).mapM
      (Endpoint.bounds (renameBoxes σ nodes) (renameGroups σ o groups)) = .ok (rects.map id) :=
    mapM_map_eq_ok (fun _ _ => Endpoint.bounds_rename) hrects
  rw [List.map_id] at hrects'
  rw [GroupBox.add_eq hmembers hrects] at h
  rw [GroupBox.add_eq hmembers' hrects']
  cases hpadded : Rect.padded rects padding with
  | none =>
      rw [hpadded] at h
      cases h
      rfl
  | some bounds =>
      rw [hpadded] at h
      cases h
      have hbox : GroupBox.mk ((members.map (Endpoint.rename σ)).map Endpoint.key) bounds padding =
          GroupBox.rename σ (o.membersOf key) ⟨members.map Endpoint.key, bounds, padding⟩ := by
        rw [List.map_map, membersOf, hmembers]
        rfl
      refine congrArg Except.ok ?_
      rw [hbox]
      exact KeyedList.put_mapValues groups (fun key b => b.rename σ (o.membersOf key)) key _

theorem GroupBox.all_rename (h : GroupBox.all o padding nodes = .ok groups) :
    GroupBox.all (o.rename σ) padding (renameBoxes σ nodes) = .ok (renameGroups σ o groups) := by
  obtain ⟨drawn, hdrawn, h⟩ := bind_eq_ok h
  cases h
  have hkeys : (o.rename σ).groups.map Prod.fst = o.groups.map Prod.fst := by
    rw [groups_rename, List.map_map]
    rfl
  have hdrawn' : (o.groups.map Prod.fst).reverse.foldlM
      (GroupBox.add (o.rename σ) padding (renameBoxes σ nodes)) (renameGroups σ o .empty) =
        .ok (renameGroups σ o drawn) :=
    foldlM_eq_ok_of_step (g := renameGroups σ o) (fun _ _ _ => GroupBox.add_rename) hdrawn
  rw [← hkeys] at hdrawn'
  refine (bind_of_eq_ok hdrawn').trans (congrArg Except.ok ?_)
  have hvalues := KeyedList.ofList_mapValues (fun key b => b.rename σ (o.membersOf key))
    ((o.groups.map Prod.fst).filterMap fun key => (drawn.get? key).map fun box => (key, box))
  rw [hkeys, renameGroups, renameGroups, ← hvalues, List.map_filterMap]
  refine congrArg KeyedList.ofList (List.filterMap_congr fun key _ => ?_)
  rw [KeyedList.get?_mapValues, Option.map_map, Option.map_map]
  rfl

end

/-! ## Drawing lines -/

namespace Compound

variable {σ : String ↪ String} {o : Outline} {w : Wire} {place : Filing}
  {nodes : KeyedList String (NodeBox α)} {groups : KeyedList String (GroupBox α)}
  {placed : KeyedList String (Ranked α)} {origins : KeyedList String (Point α)}
  {points : List (Point α)}

theorem wirePoints_rename [Scalar α]
    (h : wirePoints placed origins nodes groups w place = .ok points) :
    wirePoints (renamePlaced σ placed) origins (renameBoxes σ nodes) (renameGroups σ o groups)
      (w.rename σ) (place.rename σ) = .ok points := by
  cases place with
  | detached =>
      obtain ⟨r, hr, h⟩ := bind_eq_ok h
      obtain ⟨s, hs, h⟩ := bind_eq_ok h
      refine (bind_of_eq_ok (Endpoint.bounds_rename hr)).trans ?_
      exact (bind_of_eq_ok (Endpoint.bounds_rename hs)).trans h
  | within key source target =>
      simp only [wirePoints, Filing.rename, get?_renamePlaced] at h ⊢
      generalize placed.get? key = ranked, origins.get? key = origin at h ⊢
      cases ranked with
      | none => exact h
      | some ranked => cases origin <;> exact h

variable [Metric α] {filed : List (Wire × Filing)} {radius : α} {routes : List (Route α)}

theorem routes_rename
    (h : (filed.mapM fun (w, f) => do
      let points ← wirePoints placed origins nodes groups w f
      return w.route points radius) = .ok routes) :
    ((filed.map (Prod.map (Wire.rename σ) (Filing.rename σ))).mapM fun (w, f) => do
      let points ← wirePoints (renamePlaced σ placed) origins (renameBoxes σ nodes)
        (renameGroups σ o groups) w f
      return w.route points radius) =
      .ok (List.zipWith (Route.rename σ) (filed.map Prod.fst) routes) := by
  rw [mapM_eq_ok_iff] at h ⊢
  induction h with
  | nil => exact .nil
  | @cons f r _ _ hr _ ih =>
      obtain ⟨points, hpoints, hr⟩ := bind_eq_ok hr
      cases hr
      exact .cons (bind_of_eq_ok (wirePoints_rename hpoints)) ih

end Compound

/-! ## The whole drawing -/

open Compound in
/-- **Drawings under other names.** If the outline goes along with an injective map of names, the
drawing does: everything has the place it had, under its new name. All nodes need labels, since one
without is as wide as its id. -/
theorem Layout.graph_rename_embedding [Metric α] {σ : String ↪ String} (hσ : Kept σ) {d : Document}
    {style : Style α} {L : Layout α}
    (hlabels : ∀ e ∈ d.entities, e.hasLabel = true)
    (houtline : ofDocument (d.rename σ) = (ofDocument d).rename σ)
    (h : Layout.graph d style = .ok L) :
    Layout.graph (d.rename σ) style = .ok (L.rename σ (ofDocument d)) := by
  obtain ⟨filed, hfiled, h⟩ := bind_eq_ok h
  obtain ⟨placed, hplaced, h⟩ := bind_eq_ok h
  obtain ⟨origins, horigins, h⟩ := bind_eq_ok h
  obtain ⟨nodes, hnodes, h⟩ := bind_eq_ok h
  obtain ⟨groups, hgroups, h⟩ := bind_eq_ok h
  obtain ⟨routes, hroutes, h⟩ := bind_eq_ok h
  cases h
  rw [mapError_eq_ok_iff] at hfiled horigins hnodes hgroups hroutes
  have hnode := labelled_ofDocument hlabels
  unfold Layout.graph
  rw [houtline]
  refine (bind_of_eq_ok (mapError_eq_ok_iff.mpr (files_rename hfiled))).trans ?_
  refine (bind_of_eq_ok (placeAll_rename hσ hnode hplaced)).trans ?_
  refine (bind_of_eq_ok (mapError_eq_ok_iff.mpr (origins_rename hσ horigins))).trans ?_
  refine (bind_of_eq_ok (mapError_eq_ok_iff.mpr (nodeBoxes_rename hσ hnodes))).trans ?_
  refine (bind_of_eq_ok (mapError_eq_ok_iff.mpr (GroupBox.all_rename hgroups))).trans ?_
  refine (bind_of_eq_ok (mapError_eq_ok_iff.mpr (routes_rename hroutes))).trans ?_
  rw [Layout.rename, ofList_renameBoxes, KeyedList.ofList_entries, ← wires_of_files hfiled,
    bounds_renameBoxes, bounds_renameGroups]
  rfl

end Schematic
