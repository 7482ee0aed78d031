import Schematic.Proofs.Layout.Enclosure
import Schematic.Proofs.Ranking.Routing

/-!
# Lines attach to what they connect

Routes lead from slot to slot, and a group is not drawn as large as its slot. Along the ranks it is:
by induction from the inside to the outside the members of a group reach from the beginning of its
region to its end (`ExactDrawing.along_eq_slot`), because in a placement the boxes do without the
lines. So a line begins and ends at the borders of what is drawn, in the middle of them where it is
a node, and goes on along the ranks from the one to the other.
-/

namespace Schematic

open Outline Compound

/-- The box `s` of `y` begins behind the end of the box `r` of `x` by the gap, and the line leads
from the one to the other along the ranks: from the far border of `r`, in the middle if `x` is a
node, to the near border of `s`, in the middle if `y` is a node, going on from each point to the
next. -/
structure Layout.Attached (direction : Direction) (gap : Rat) (x y : Endpoint) (r s : Rect Rat)
    (ps : List (Point Rat)) : Prop where
  before : r.far direction + gap ≤ s.near direction
  leaves : ∃ p, ps.head? = some p ∧ p.along direction = r.far direction ∧
    (x.isGroup = false → p.across direction = r.middle direction)
  reaches : ∃ p, ps.getLast? = some p ∧ p.along direction = s.near direction ∧
    (y.isGroup = false → p.across direction = s.middle direction)
  onward : ps.Pairwise fun p q => p.along direction < q.along direction

/-- The line of the wire attaches to the members of the smallest common container that its ends are
or lie in, from the source to the target or, where the target comes first, the other way. -/
def Layout.Attaches (d : Document) (style : Style Rat) (L : Layout Rat) (w : Wire)
    (ps : List (Point Rat)) : Prop :=
  ∃ key x y r s, (ofDocument d).commonContainer w.source w.target = .ok key ∧
    (ofDocument d).lift w.source key = .ok x ∧ (ofDocument d).lift w.target key = .ok y ∧
    x.bounds L.nodes L.groups = .ok r ∧ y.bounds L.nodes L.groups = .ok s ∧
    (Layout.Attached (style.directionFor d) style.gaps.rank x y r s ps ∨
      Layout.Attached (style.directionFor d) style.gaps.rank y x s r ps.reverse)

namespace Compound

theorem near_region (direction : Direction) (r : Ranked Rat) (q : Point Rat) :
    (region r q).near direction = q.along direction := by
  cases direction <;> rfl

theorem far_region (direction : Direction) (r : Ranked Rat) (q : Point Rat) :
    (region r q).far direction =
      Rect.far direction ⟨0, 0, r.width, r.height⟩ + q.along direction := by
  rw [← Rect.far_translate]
  simp only [region, Rect.translate, zero_add]

variable {o : Outline} {w : Wire} {key : String} {x y : Endpoint}

/-- Where a wire is filed neither end of which encloses the other: in the smallest container that
both lie in, between the members that they are or lie in. -/
theorem file_eq_within (hsource : swallows o w.source w.target = .ok false)
    (htarget : swallows o w.target w.source = .ok false)
    (hkey : o.commonContainer w.source w.target = .ok key) (hx : o.lift w.source key = .ok x)
    (hy : o.lift w.target key = .ok y) : file o w = .ok (.within key x y) := by
  rw [file, hsource, htarget]
  show (do
    let key ← o.commonContainer w.source w.target
    return Filing.within key (← o.lift w.source key) (← o.lift w.target key)) = _
  rw [hkey]
  show (do return Filing.within key (← o.lift w.source key) (← o.lift w.target key)) = _
  rw [hx, hy]
  rfl

/-- The numbers of the edges of a container are those of wires, each once. So the route of a number
is that of one edge only. -/
theorem keys_edgesIn_sublist (filed : List (Wire × Filing)) (key : String) :
    ((edgesIn filed key).map RankEdge.key).Sublist (filed.map fun f => f.1.index) := by
  induction filed with
  | nil => exact .slnil
  | cons f fs ih =>
      obtain ⟨w, place⟩ := f
      cases place with
      | detached => exact ih.cons w.index
      | within k x y =>
          by_cases hk : k = key
          · have hcons : edgesIn ((w, .within k x y) :: fs) key =
                ⟨w.index, boxId x, boxId y⟩ :: edgesIn fs key := by
              simp [edgesIn, hk]
            rw [hcons]
            exact ih.cons_cons w.index
          · have htail : edgesIn ((w, .within k x y) :: fs) key = edgesIn fs key := by
              simp [edgesIn, hk]
            rw [htail]
            exact ih.cons w.index

end Compound

section

variable {d : Document} {style : Style Rat} {filed : List (Wire × Compound.Filing)}
  {placed : KeyedList String (Ranked Rat)} {origins : KeyedList String (Point Rat)} {L : Layout Rat}
  {k : String} {e x y : Endpoint} {r s rx ry sx sy : Rect Rat} {ps : List (Point Rat)}

variable (h : ExactDrawing d style filed placed origins L)
  (hrank : Scalar.tolerance < style.gaps.rank)

include h

theorem ExactDrawing.nodup_keys (key : String) :
    ((edgesIn filed key).map RankEdge.key).Nodup := by
  have hindices : (filed.map fun f => f.1.index) = List.range d.edges.length := by
    rw [← (ofDocument_isOutline d).indices, ← h.isDrawing.wires, List.map_map]
    rfl
  exact (keys_edgesIn_sublist filed key).nodup (hindices ▸ List.nodup_range)

/-- If along the ranks the members of a group are drawn as large as their slots, then what is drawn
for them begins where the region of the group begins and ends where it ends. -/
theorem ExactDrawing.members_reach (hk : k ∈ (ofDocument d).containers.keys)
    {members : List Endpoint} {rects : List (Rect Rat)} {hull region : Rect Rat}
    (hmembers : (ofDocument d).members k = .ok members)
    (hrects : List.Forall₂ (fun m r => m.bounds L.nodes L.groups = .ok r) members rects)
    (hunion : Rect.union rects = some hull) (hregion : Region placed origins k region)
    (halong : ∀ m ∈ members, ∀ r s, Slot d placed origins m r →
      m.bounds L.nodes L.groups = .ok s →
      s.near (style.directionFor d) = r.near (style.directionFor d) ∧
        s.far (style.directionFor d) = r.far (style.directionFor d)) :
    hull.near (style.directionFor d) ≤ region.near (style.directionFor d) ∧
      region.far (style.directionFor d) ≤ hull.far (style.directionFor d) := by
  obtain ⟨content, q, hcontent, hq, rfl⟩ := hregion
  obtain ⟨members', boxes, layers, hmembers', hboxes, hsized, hjoins, houtcome⟩ :=
    h.placement hk hcontent
  obtain rfl := Except.ok.inj (hmembers.symm.trans hmembers')
  obtain ⟨-, hmem⟩ := (ofDocument_isOutline d).sound.of_members hk hmembers
  -- every box of the placement is drawn with its ends along the ranks
  have hdrawn : ∀ v box, content.rects.get? v = some box → ∃ t ∈ rects,
      t.near (style.directionFor d) =
        box.near (style.directionFor d) + q.along (style.directionFor d) ∧
      t.far (style.directionFor d) =
        box.far (style.directionFor d) + q.along (style.directionFor d) := by
    intro v box hbox
    have hv := houtcome.mem_keys_rects.mp (KeyedList.mem_keys_of_get? hbox)
    rw [ids_of_boxes hboxes] at hv
    obtain ⟨m, hm, rfl⟩ := List.mem_map.mp hv
    obtain ⟨t, ht, hmt⟩ := forall₂_exists_right hrects hm
    have hslot : Slot d placed origins m (box.translate q.x q.y) :=
      ⟨k, ((hmem m).mp hm).1, boxAt_eq_ok_iff.mpr ⟨content, q, box, hcontent, hq, hbox, rfl⟩⟩
    refine ⟨t, ht, ?_⟩
    rw [← Rect.near_translate, ← Rect.far_translate]
    exact halong m hm _ t hslot hmt
  have hne : boxes ≠ [] := by
    obtain ⟨t, ht, -⟩ := Rect.exists_near_of_union .down hunion
    obtain ⟨m, hm, -⟩ := forall₂_exists_left hrects ht
    obtain ⟨n, hn, -⟩ := forall₂_exists_right hboxes hm
    exact List.ne_nil_of_mem hn
  constructor
  · obtain ⟨v, box, hbox, hzero⟩ := houtcome.exists_near hsized hjoins hne
    obtain ⟨t, ht, hnear, -⟩ := hdrawn v box hbox
    have hle := Rect.near_le_of_contains (style.directionFor d) (Rect.contains_of_union hunion ht)
    rw [near_region]
    linarith
  · obtain ⟨v, box, hbox, hsize⟩ := houtcome.exists_far hsized hjoins hne
    obtain ⟨t, ht, -, hfar⟩ := hdrawn v box hbox
    have hle := Rect.far_le_of_contains (style.directionFor d) (Rect.contains_of_union hunion ht)
    rw [far_region]
    linarith

/-- Along the ranks a group is drawn as large as its slot. The induction goes up from the groups
that lie deepest: what is drawn in a group fills its region along the ranks, and the padding around
both is the same. -/
theorem ExactDrawing.group_along_eq (hk : k ∈ (ofDocument d).containers.keys) :
    ∀ r s, (ofDocument d).Stands (.group k) → Slot d placed origins (.group k) r →
      (Endpoint.group k).bounds L.nodes L.groups = .ok s →
      s.near (style.directionFor d) = r.near (style.directionFor d) ∧
        s.far (style.directionFor d) = r.far (style.directionFor d) := by
  have hsound := (ofDocument_isOutline d).sound
  induction k, hk using hsound.inner_induction with
  | step k hk ih =>
      intro r s hstands hr hb
      have hin := h.group_in_slot hk r s hstands hr hb
      obtain ⟨members, rects, hull, hmembers, hrects, hunion, rfl, -⟩ := h.exists_members hb
      obtain ⟨-, hmem⟩ := hsound.of_members hk hmembers
      obtain ⟨region, hregion⟩ := h.exists_region hstands.2
      obtain rfl := h.slot_eq_expand hstands hr hregion
      obtain ⟨hnear, hfar⟩ := h.members_reach hk hmembers hrects hunion hregion
        fun m hm r s hr hb => by
          cases m with
          | node id =>
              rw [h.node_in_slot hr hb]
              exact ⟨rfl, rfl⟩
          | group j =>
              obtain ⟨hheld, hmstands⟩ := (hmem _).mp hm
              exact ih j hheld r s hmstands hr hb
      refine ⟨le_antisymm ?_ (Rect.near_le_of_contains _ hin),
        le_antisymm (Rect.far_le_of_contains _ hin) ?_⟩
      · rw [Rect.near_expand, Rect.near_expand]
        linarith
      · rw [Rect.far_expand, Rect.far_expand]
        linarith

/-- Along the ranks everything is drawn as large as its slot: nodes are drawn in their slots, and
groups by the lemma before. -/
theorem ExactDrawing.along_eq_slot (hr : Slot d placed origins e r)
    (hb : e.bounds L.nodes L.groups = .ok s) :
    s.near (style.directionFor d) = r.near (style.directionFor d) ∧
      s.far (style.directionFor d) = r.far (style.directionFor d) := by
  cases e with
  | node id =>
      rw [h.node_in_slot hr hb]
      exact ⟨rfl, rfl⟩
  | group k =>
      obtain ⟨hstands, -⟩ := h.bounds_in_slot hb
      exact h.group_along_eq ((ofDocument_isOutline d).sound.populated_subset hstands.2) r s
        hstands hr hb

/-- What leads from slot to slot is attached to what is drawn. Along the ranks the borders are the
same; across them only a node is sure to have its middle where its slot has it. -/
theorem ExactDrawing.attached_of_leads (hx : Slot d placed origins x rx)
    (hy : Slot d placed origins y ry) (hbx : x.bounds L.nodes L.groups = .ok sx)
    (hby : y.bounds L.nodes L.groups = .ok sy)
    (hleads : Polyline.Leads (style.directionFor d) style.gaps.rank rx ry ps) :
    Layout.Attached (style.directionFor d) style.gaps.rank x y sx sy ps := by
  obtain ⟨hnearx, hfarx⟩ := h.along_eq_slot hx hbx
  obtain ⟨hneary, hfary⟩ := h.along_eq_slot hy hby
  have hmiddle : ∀ {e : Endpoint} {r s : Rect Rat}, Slot d placed origins e r →
      e.bounds L.nodes L.groups = .ok s → e.isGroup = false →
      r.middle (style.directionFor d) = s.middle (style.directionFor d) := by
    intro e r s hr hb he
    cases e with
    | node id => rw [h.node_in_slot hr hb]
    | group k => cases he
  obtain ⟨p, hp, halong, hacross⟩ := hleads.leaves
  obtain ⟨p', hp', halong', hacross'⟩ := hleads.reaches
  refine ⟨?_, ⟨p, hp, ?_, fun hnode => ?_⟩, ⟨p', hp', ?_, fun hnode => ?_⟩, hleads.onward⟩
  · rw [hfarx, hneary]
    exact hleads.before
  · rw [halong, hfarx]
  · rw [hacross, hmiddle hx hbx hnode]
  · rw [halong', hneary]
  · rw [hacross', hmiddle hy hby hnode]

include hrank

/-- The line of a wire that is filed in a container leads from slot to slot, in the direction of the
wire or, where the edge was reversed to break a cycle, against it. -/
theorem ExactDrawing.leads_of_within {w : Wire} {key : String}
    (hw : (w, Filing.within key x y) ∈ filed) (hxy : x ≠ y) (hx : Slot d placed origins x rx)
    (hy : Slot d placed origins y ry)
    (hps : wirePoints placed origins L.nodes L.groups w (.within key x y) = .ok ps) :
    Polyline.Leads (style.directionFor d) style.gaps.rank rx ry ps ∨
      Polyline.Leads (style.directionFor d) style.gaps.rank ry rx ps.reverse := by
  have hs := (ofDocument_isOutline d).sound
  have hin := h.isDrawing.isFiled.within w key x y hw
  obtain ⟨content, q, hcontent, hq, tx, htx, rfl⟩ := hx.exists_rect hin.source
  obtain ⟨content', q', hcontent', hq', ty, hty, rfl⟩ := hy.exists_rect hin.target
  obtain rfl := Option.some.inj (hcontent.symm.trans hcontent')
  obtain rfl := Option.some.inj (hq.symm.trans hq')
  obtain ⟨-, boxes, layers, -, -, hsized, hjoins, houtcome⟩ :=
    h.placement hin.source.mem_keys hcontent
  have hedge : (⟨w.index, boxId x, boxId y⟩ : RankEdge) ∈ edgesIn filed key :=
    List.mem_filterMap.mpr ⟨_, hw, by simp⟩
  obtain ⟨points, hpoints, -⟩ := houtcome.exists_route hedge
  have hne : boxId x ≠ boxId y := by
    have hname : ∀ {a : Endpoint}, (ofDocument d).Stands a →
        ∀ id, a = .node id → Reserved id = false := by
      rintro a ha id rfl
      exact h.plain id ha
    exact fun heq => hxy (boxId_injective (hname hin.stands.1) (hname hin.stands.2) heq)
  rw [wirePoints, hcontent, hq] at hps
  simp only [hpoints, Option.getD_some] at hps
  cases hps
  rw [← List.map_reverse]
  exact (houtcome.leads hsized hjoins hrank (h.nodup_keys key) hedge hne htx hty hpoints).imp
    (fun hleads => hleads.translate q) fun hleads => hleads.translate q

/-- The line of a wire between two things of which neither encloses the other attaches to what they
are or lie in. -/
theorem ExactDrawing.attaches {w : Wire} {place : Filing} (hw : (w, place) ∈ filed)
    (hne : w.source ≠ w.target) (hsource : swallows (ofDocument d) w.source w.target ≠ .ok true)
    (htarget : swallows (ofDocument d) w.target w.source ≠ .ok true)
    (hps : wirePoints placed origins L.nodes L.groups w place = .ok ps) :
    Layout.Attaches d style L w ps := by
  have hs := (ofDocument_isOutline d).sound
  obtain ⟨v, hv, hfile⟩ := forall₂_exists_left (mapM_eq_ok_iff.mp h.isDrawing.files) hw
  obtain ⟨place', hfile, heq⟩ := bind_eq_ok hfile
  cases heq
  obtain ⟨hstands, hstandt⟩ := (ofDocument_isOutline d).ends _ hv
  obtain ⟨key, x, y, hkey, hx, hy, hheldx, hheldy, hxs, hys, hxy, -, -⟩ :=
    hs.exists_lifts hstands hstandt hne (not_below_of_swallows hs hstandt hsource)
      (not_below_of_swallows hs hstands htarget)
  have hwithin := file_eq_within (swallows_eq_false hs hstandt hsource)
    (swallows_eq_false hs hstands htarget) hkey hx hy
  obtain rfl := Except.ok.inj (hfile.symm.trans hwithin)
  obtain ⟨sx, hsx⟩ := exists_bounds_of_stands hs h.isDrawing.isNodes.keys
    h.isDrawing.isGroups.keys hxs
  obtain ⟨sy, hsy⟩ := exists_bounds_of_stands hs h.isDrawing.isNodes.keys
    h.isDrawing.isGroups.keys hys
  refine ⟨key, x, y, sx, sy, hkey, hx, hy, hsx, hsy, ?_⟩
  obtain ⟨rx, hslotx⟩ := h.exists_slot hxs
  obtain ⟨ry, hsloty⟩ := h.exists_slot hys
  exact (h.leads_of_within hrank hw hxy hslotx hsloty hps).imp
    (h.attached_of_leads hslotx hsloty hsx hsy)
    (h.attached_of_leads hsloty hslotx hsy hsx)

end

/-- In exact numbers the lines of the graph layout attach to what they connect and run one way along
the ranks, for every document without reserved names and every style without negative lengths whose
gap between ranks is more than the tolerance: all but those from a thing to itself and those between
a group and something inside it. -/
theorem Layout.graph_attaches (length : Rat → Rat → Rat) (d : Document) (style : Style Rat)
    (hstyle : style.Unsigned) (hrank : Scalar.tolerance < style.gaps.rank) (hplain : d.Plain) :
    ∃ L, @Layout.graph Rat (exactMetric length) d style = .ok L ∧
      List.Forall₂ (fun w r => r.edge = w.edge ∧ (w.source ≠ w.target →
        swallows (ofDocument d) w.source w.target ≠ .ok true →
        swallows (ofDocument d) w.target w.source ≠ .ok true →
        Layout.Attaches d style L w r.points)) (ofDocument d).wires L.routes := by
  obtain ⟨L, filed, placed, origins, hL, h⟩ :=
    @Layout.exists_isDrawing Rat (exactMetric length) d style
  refine ⟨L, hL, ?_⟩
  rw [← h.wires, List.forall₂_map_left_iff]
  refine forall₂_imp_left h.routes fun f hf r hr => ?_
  obtain ⟨-, -, -, hedge, hpoints⟩ := hr
  exact ⟨hedge, fun hne hsource htarget =>
    (ExactDrawing.mk h hstyle fun _ hid => hplain.nodes hid).attaches hrank hf hne hsource htarget
      hpoints⟩

theorem Layout.graph_attaches_tangled :
    (Style.standard : Style Rat).Unsigned ∧
      (Scalar.tolerance : Rat) < (Style.standard : Style Rat).gaps.rank ∧
      Document.tangled.Plain ∧
      ∃ L, @Layout.graph Rat (exactMetric diagonal) .tangled .standard = .ok L ∧
        List.Forall₂ (fun w r => r.edge = w.edge ∧ (w.source ≠ w.target →
          swallows (ofDocument .tangled) w.source w.target ≠ .ok true →
          swallows (ofDocument .tangled) w.target w.source ≠ .ok true →
          Layout.Attaches .tangled .standard L w r.points)) (ofDocument .tangled).wires
          L.routes := by
  have hrank : (Scalar.tolerance : Rat) < (Style.standard : Style Rat).gaps.rank := by
    decide +kernel
  exact ⟨Style.standard_unsigned, hrank, Document.tangled_plain,
    Layout.graph_attaches diagonal .tangled .standard Style.standard_unsigned hrank
      Document.tangled_plain⟩

end Schematic
