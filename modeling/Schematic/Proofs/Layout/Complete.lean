import Mathlib.Data.Rat.Sqrt
import Schematic.Proofs.Layout.Sizes

/-!
# Every document lays out completely

The graph layout gives an answer for every document and every style, in whatever numbers, and leaves
nothing out: every node is drawn, every group that holds one, and every edge (`Layout.Complete`). It
does so without looking up anything that is not there (`Layout.Finds`). In exact numbers the line of
every edge has two points.
-/

namespace Schematic

open Outline

variable {α : Type}

/-- Exact numbers with some measure of length. Only the rounding of corners asks for it. -/
@[reducible] def exactMetric (length : Rat → Rat → Rat) : Metric Rat :=
  { toScalar := exactScalar, length := length }

/-- The length of a segment as a fraction, exact where there is one. -/
def diagonal (dx dy : Rat) : Rat := Rat.sqrt (dx * dx + dy * dy)

/-- The drawing has everything of the document: the nodes in their order; of the groups of the text,
from the outside to the inside, those in which some node lies; and for every edge, in order, a line
with points between things that are drawn. -/
structure Layout.Complete (d : Document) (L : Layout α) : Prop where
  nodes : L.nodes.keys = (ofDocument d).nodeIds
  preorder : (ofDocument d).groups.map (fun e => (e.2.name, e.2.blocks)) = d.blocks.groups
  groups : L.groups.keys.Sublist ((ofDocument d).groups.map Prod.fst)
  populated : ∀ key, key ∈ L.groups.keys ↔ key ∈ (ofDocument d).groups.map Prod.fst ∧
    ∃ id ∈ (ofDocument d).nodeIds, (ofDocument d).encloses key (.node id) = .ok true
  edges : L.routes.map Route.edge = d.edges
  ids : L.routes.map Route.id = (List.range d.edges.length).map fun i => "edge_" ++ toString i
  ends : ∀ r ∈ L.routes, (r.source ∈ L.nodes.keys ∨ r.source ∈ L.groups.keys) ∧
    (r.target ∈ L.nodes.keys ∨ r.target ∈ L.groups.keys)
  points : ∀ r ∈ L.routes, r.points ≠ []

/-- No look-up on the way to the drawing comes to nothing: not in the walk over the blocks, every
wire is filed between members of its container, and the placement of every container finds the
layers, places and chains it needs. -/
structure Layout.Finds [Scalar α] (d : Document) (style : Style α) : Prop where
  walk : start.WalkFinds root d.blocks
  placement : ∃ filed placed,
    ((ofDocument d).wires.mapM fun w => do return (w, ← Compound.file (ofDocument d) w)) =
      .ok filed ∧
    Compound.placeAll (ofDocument d) style (style.directionFor d) filed = .ok placed ∧
    (∀ w key source target, (w, Compound.Filing.within key source target) ∈ filed →
      ∃ members, (ofDocument d).members key = .ok members ∧ source ∈ members ∧ target ∈ members) ∧
    ∀ key ∈ (ofDocument d).containers.keys, ∃ members boxes layers,
      (ofDocument d).members key = .ok members ∧
      members.mapM (Compound.memberBox (ofDocument d) style placed) = .ok boxes ∧
      Ranked.Complete (style.directionFor d) style.gaps boxes (Compound.edgesIn filed key) layers

section

variable [Scalar α] {d : Document} {style : Style α} {filed : List (Wire × Compound.Filing)}
  {placed : KeyedList String (Ranked α)} {origins : KeyedList String (Point α)} {L : Layout α}

theorem Layout.IsDrawing.wires (h : Layout.IsDrawing d style filed placed origins L) :
    filed.map Prod.fst = (ofDocument d).wires := h.isFiled.wires

/-- A group is drawn if and only if some node lies in it, for a group is populated in exactly this
case and only populated groups are drawn. -/
theorem Layout.IsDrawing.mem_groups (h : Layout.IsDrawing d style filed placed origins L)
    {key : String} : key ∈ L.groups.keys ↔ key ∈ (ofDocument d).groups.map Prod.fst ∧
      ∃ id ∈ (ofDocument d).nodeIds, (ofDocument d).encloses key (.node id) = .ok true := by
  have hs := (ofDocument_isOutline d).sound
  rw [h.isGroups.keys, List.mem_filter]
  refine and_congr_right fun _ => ?_
  rw [isPopulated, List.contains_iff_mem, hs.mem_populated]
  have hencloses : ∀ id, id ∈ (ofDocument d).nodeIds →
      ((ofDocument d).encloses key (.node id) = .ok true ↔
        (ofDocument d).Below key (.node id)) := by
    intro id hid
    obtain ⟨ks, hks⟩ := hs.exists_chain (e := .node id) hid
    obtain ⟨b, hb, hiff⟩ := hs.encloses_iff (k := key) hks
    rw [hb, Except.ok.injEq, hiff]
  constructor
  · rintro ⟨id, hbelow⟩
    have hid : id ∈ (ofDocument d).nodeIds := by
      obtain ⟨ks, ⟨p, ps, -, hp, -⟩, -⟩ := hbelow
      exact hs.stands_node hp
    exact ⟨id, hid, (hencloses id hid).mpr hbelow⟩
  · rintro ⟨id, hid, hb⟩
    exact ⟨id, (hencloses id hid).mp hb⟩

/-- What takes part in the drawing is drawn: a node always does, and a group does if it is
populated. -/
theorem Layout.IsDrawing.key_mem (h : Layout.IsDrawing d style filed placed origins L)
    {e : Endpoint} (he : (ofDocument d).Stands e) :
    e.key ∈ L.nodes.keys ∨ e.key ∈ L.groups.keys := by
  have hs := (ofDocument_isOutline d).sound
  cases e with
  | node id =>
      rw [h.isNodes.keys]
      exact Or.inl he
  | group key => exact Or.inr ((h.isGroups.mem_keys_iff hs).mpr he)

/-- Every line is that of a wire, and the ends of the wire take part in the drawing. -/
theorem Layout.IsDrawing.exists_wire (h : Layout.IsDrawing d style filed placed origins L)
    {r : Route α} (hr : r ∈ L.routes) : ∃ w place, (w, place) ∈ filed ∧
      r.source = w.source.key ∧ r.target = w.target.key ∧
      (ofDocument d).Stands w.source ∧ (ofDocument d).Stands w.target ∧
      Compound.wirePoints placed origins L.nodes L.groups w place = .ok r.points := by
  obtain ⟨⟨w, place⟩, hw, -, hsource, htarget, -, hpoints⟩ := forall₂_exists_left h.routes hr
  have hwire : w ∈ (ofDocument d).wires := by
    rw [← h.wires]
    exact List.mem_map_of_mem hw
  obtain ⟨hs, ht⟩ := (ofDocument_isOutline d).ends w hwire
  exact ⟨w, place, hw, hsource, htarget, hs, ht, hpoints⟩

theorem Layout.IsDrawing.points_ne_nil (h : Layout.IsDrawing d style filed placed origins L)
    {r : Route α} (hr : r ∈ L.routes) : r.points ≠ [] := by
  obtain ⟨w, place, hw, -, -, -, -, hpoints⟩ := h.exists_wire hr
  cases place with
  | detached =>
      obtain ⟨s, -, hpoints⟩ := bind_eq_ok hpoints
      obtain ⟨t, -, hpoints⟩ := bind_eq_ok hpoints
      rw [← Except.ok.inj hpoints]
      exact List.cons_ne_nil _ _
  | within key x y =>
      obtain ⟨-, q, points, -, -, -, -, hne, heq⟩ := Compound.wirePoints_within L.nodes L.groups
        (ofDocument_isOutline d).sound h.isFiled h.isPlaced h.isOrigins hw
      rw [heq] at hpoints
      rw [← Except.ok.inj hpoints]
      simpa using hne

theorem Layout.IsDrawing.complete (h : Layout.IsDrawing d style filed placed origins L) :
    L.Complete d where
  nodes := h.isNodes.keys
  preorder := (ofDocument_isOutline d).declared
  groups := by
    rw [h.isGroups.keys]
    exact List.filter_sublist
  populated := fun _ => h.mem_groups
  edges := by
    have hmap := forall₂_map_eq h.routes (f := fun f => f.1.edge) fun _ _ hr => hr.2.2.2.1.symm
    rw [← hmap, ← (ofDocument_isOutline d).wired, ← h.wires, List.map_map]
    rfl
  ids := by
    have hmap := forall₂_map_eq h.routes (f := fun f => "edge_" ++ toString f.1.index)
      fun _ _ hr => hr.1.symm
    rw [← hmap, ← (ofDocument_isOutline d).indices, ← h.wires, List.map_map, List.map_map]
    rfl
  ends := fun r hr => by
    obtain ⟨w, place, -, hsource, htarget, hs, ht, -⟩ := h.exists_wire hr
    rw [hsource, htarget]
    exact ⟨h.key_mem hs, h.key_mem ht⟩
  points := fun _ hr => h.points_ne_nil hr

theorem Layout.IsDrawing.finds (h : Layout.IsDrawing d style filed placed origins L) :
    Layout.Finds d style := by
  have hs := (ofDocument_isOutline d).sound
  refine ⟨sound_start.walkFinds d.blocks sound_start.root_mem, filed, placed, h.files, h.places, ?_,
    ?_⟩
  · intro w key source target hw
    have hin := h.isFiled.within w key source target hw
    obtain ⟨members, hmembers, -, hmem⟩ := hs.members_eq hin.source.mem_keys
    exact ⟨members, hmembers, (hmem _).mpr ⟨hin.source, hin.stands.1⟩,
      (hmem _).mpr ⟨hin.target, hin.stands.2⟩⟩
  · intro key hkey
    obtain ⟨r, -, members, boxes, layers, hmembers, hboxes, hjoins, houtcome⟩ := h.isPlaced key hkey
    exact ⟨members, boxes, layers, hmembers, mapM_eq_ok_iff.mpr hboxes,
      houtcome.isLayering.complete hjoins _ _⟩

end

/-- In exact numbers the line of every edge has two points. A line between ranks crosses the gap
between them, which is more than the tolerance, so its ends stay apart; a line from a thing to what
encloses it is not simplified at all. -/
theorem Layout.IsDrawing.two_le_length {d : Document} {style : Style Rat}
    {filed : List (Wire × Compound.Filing)} {placed : KeyedList String (Ranked Rat)}
    {origins : KeyedList String (Point Rat)} {L : Layout Rat}
    (h : Layout.IsDrawing d style filed placed origins L) (hstyle : style.Unsigned)
    (hrank : Scalar.tolerance < style.gaps.rank)
    (hplain : ∀ id ∈ (ofDocument d).nodeIds, Reserved id = false) {r : Route Rat}
    (hr : r ∈ L.routes) : 2 ≤ r.points.length := by
  have hs := (ofDocument_isOutline d).sound
  obtain ⟨w, place, hw, -, -, -, -, hpoints⟩ := h.exists_wire hr
  cases place with
  | detached =>
      obtain ⟨s, -, hpoints⟩ := bind_eq_ok hpoints
      obtain ⟨t, -, hpoints⟩ := bind_eq_ok hpoints
      rw [← Except.ok.inj hpoints]
      exact le_refl 2
  | within key x y =>
      obtain ⟨content, q, points, hcontent, -, hedge, hroute, -, heq⟩ :=
        Compound.wirePoints_within L.nodes L.groups hs h.isFiled h.isPlaced h.isOrigins hw
      have hkey := (h.isFiled.within w key x y hw).source.mem_keys
      obtain ⟨-, boxes, layers, -, -, hsized, hjoins, houtcome⟩ :=
        h.isPlaced.sized hstyle hs hplain hkey hcontent
      rw [heq] at hpoints
      rw [← Except.ok.inj hpoints, List.length_map]
      exact houtcome.two_le_length hsized hjoins hrank hedge hroute

/-- The graph layout draws every document completely and finds everything it looks up. In exact
numbers, when no length is negative, the gap between ranks is more than the tolerance and no node
has a reserved name, every line has two points. -/
theorem Layout.graph_complete :
    (∀ {α : Type} [Metric α] (d : Document) (style : Style α),
      ∃ L, Layout.graph d style = .ok L ∧ L.Complete d ∧ Layout.Finds d style) ∧
    ∀ (length : Rat → Rat → Rat) (d : Document) (style : Style Rat), style.Unsigned →
      Scalar.tolerance < style.gaps.rank →
      (∀ id ∈ (ofDocument d).nodeIds, Reserved id = false) →
      ∃ L, @Layout.graph Rat (exactMetric length) d style = .ok L ∧
        ∀ r ∈ L.routes, 2 ≤ r.points.length := by
  constructor
  · intro α _ d style
    obtain ⟨L, filed, placed, origins, hL, h⟩ := Layout.exists_isDrawing d style
    exact ⟨L, hL, h.complete, h.finds⟩
  · intro length d style hstyle hrank hplain
    obtain ⟨L, filed, placed, origins, hL, h⟩ :=
      @Layout.exists_isDrawing Rat (exactMetric length) d style
    exact ⟨L, hL, fun r hr => h.two_le_length hstyle hrank hplain hr⟩

theorem Layout.graph_complete_tangled :
    (Style.standard : Style Rat).Unsigned ∧
      (Scalar.tolerance : Rat) < (Style.standard : Style Rat).gaps.rank ∧
      (∀ id ∈ (ofDocument .tangled).nodeIds, Reserved id = false) ∧
      ∃ L, @Layout.graph Rat (exactMetric diagonal) .tangled .standard = .ok L ∧
        ∀ r ∈ L.routes, 2 ≤ r.points.length := by
  have hrank : (Scalar.tolerance : Rat) < (Style.standard : Style Rat).gaps.rank := by
    decide +kernel
  have hplain : ∀ id ∈ (ofDocument .tangled).nodeIds, Reserved id = false :=
    fun _ hid => Document.tangled_plain.nodes hid
  exact ⟨Style.standard_unsigned, hrank, hplain,
    Layout.graph_complete.2 diagonal .tangled .standard Style.standard_unsigned hrank hplain⟩

end Schematic
