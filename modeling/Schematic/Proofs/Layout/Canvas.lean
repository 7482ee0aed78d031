import Mathlib.Algebra.BigOperators.Group.List.Basic
import Schematic.Proofs.Layout.Attachment
import Schematic.Proofs.Ranking.Overhang

/-!
# Lines and the canvas

The canvas is as large as the boxes of the nodes and groups with the margin around them, and lines
are not asked. They lie in the region of the root, which begins at the margin and ends along the
ranks where the boxes end. Across the ranks the region of a container goes beyond what is drawn in
it by the overhangs of the containers on the way to some node (`ExactDrawing.exists_far_le`): each
container adds its own, because a group is drawn around its members and not around its region. So
the canvas covers the lines where these overhangs together are at most the margin, and where they
are more it need not (`Layout.graph_leaves_canvas`).
-/

namespace Schematic

open Outline Compound

/-- How far the lines in the containers go beyond the boxes in them, all together. A container that
nothing was placed in has no lines, and so adds nothing. -/
def Compound.overhangs (axis : Direction) (placed : KeyedList String (Ranked Rat))
    (keys : List String) : Rat :=
  (keys.map fun key => ((placed.get? key).map (Ranked.overhang axis)).getD 0).sum

/-- The canvas of a drawing. -/
def Layout.canvas (L : Layout Rat) : Rect Rat := ⟨0, 0, L.width, L.height⟩

/-- The points of all lines of a drawing. -/
def Layout.points (L : Layout Rat) : List (Point Rat) := L.routes.flatMap Route.points

@[simp] theorem Compound.overhangs_nil (axis : Direction)
    (placed : KeyedList String (Ranked Rat)) : overhangs axis placed [] = 0 := rfl

theorem Compound.overhangs_concat {axis : Direction} {placed : KeyedList String (Ranked Rat)}
    {key : String} {content : Ranked Rat} (h : placed.get? key = some content)
    (keys : List String) :
    overhangs axis placed (keys ++ [key]) = overhangs axis placed keys + content.overhang axis := by
  simp [overhangs, h]

/-- The containers around something are containers of the outline. -/
theorem Outline.Chain.mem_keys {o : Outline} (hs : Sound o) {e : Endpoint} {ks : List String}
    (hc : o.Chain e ks) : ∀ k ∈ ks, k ∈ o.containers.keys :=
  fun _ hk => Below.mem_keys hs ⟨ks, hc, hk⟩

/-- A straight line from one box to another begins in the one and ends in the other. Both of its
points are on borders, on the side that faces the other box. -/
theorem Rect.contains_of_mem_anchorRoute {r s : Rect Rat} (hr : ∀ axis, r.near axis ≤ r.far axis)
    (hs : ∀ axis, s.near axis ≤ s.far axis) {p : Point Rat} (hp : p ∈ Rect.anchorRoute r s) :
    r.contains (Rect.ofPoint p) = true ∨ s.contains (Rect.ofPoint p) = true := by
  have hmiddle : ∀ {t : Rect Rat}, t.y ≤ t.bottom →
      t.y ≤ t.y + t.height / (2 : Nat) ∧ t.y + t.height / (2 : Nat) ≤ t.bottom := by
    intro t ht
    simp only [bottom] at ht ⊢
    push_cast
    constructor <;> linarith
  rw [anchorRoute, List.mem_cons, List.mem_singleton] at hp
  rcases hp with rfl | rfl
  · refine Or.inl (contains_ofPoint_iff.mpr fun axis => ?_)
    cases axis
    · exact hmiddle (hr .down)
    · exact ⟨hr .right, le_refl _⟩
  · refine Or.inr (contains_ofPoint_iff.mpr fun axis => ?_)
    cases axis
    · exact hmiddle (hs .down)
    · exact ⟨le_refl _, hs .right⟩

section

variable {d : Document} {style : Style Rat} {filed : List (Wire × Compound.Filing)}
  {placed : KeyedList String (Ranked Rat)} {origins : KeyedList String (Point Rat)} {L : Layout Rat}
  {k key : String} {e : Endpoint} {r s : Rect Rat}

variable (h : ExactDrawing d style filed placed origins L)

include h

/-! ## Lines lie in the region of the root -/

/-- No slot ends before it begins, for what is measured and placed has no negative size. -/
theorem ExactDrawing.slot_near_le_far (hr : Slot d placed origins e r) (axis : Direction) :
    r.near axis ≤ r.far axis := by
  obtain ⟨p, hp, hbox⟩ := id hr
  obtain ⟨content, q, hcontent, -, t, ht, rfl⟩ := hr.exists_rect hp
  obtain ⟨-, boxes, layers, -, -, hsized, -, houtcome⟩ := h.placement hp.mem_keys hcontent
  obtain ⟨n, hn, hid⟩ := List.mem_map.mp
    (houtcome.mem_keys_rects.mp (KeyedList.mem_keys_of_get? ht))
  rw [← hid, houtcome.get?_eq_boxFor hsized hn] at ht
  cases ht
  exact Rect.near_le_far axis (hsized.width n hn) (hsized.height n hn)

theorem ExactDrawing.group_near_le_far (axis : Direction)
    (hk : k ∈ (ofDocument d).containers.keys) :
    ∀ s, (Endpoint.group k).bounds L.nodes L.groups = .ok s → s.near axis ≤ s.far axis := by
  have hsound := (ofDocument_isOutline d).sound
  induction k, hk using hsound.inner_induction with
  | step k hk ih =>
      intro s hb
      obtain ⟨members, rects, hull, hmembers, hrects, hunion, rfl, -⟩ := h.exists_members hb
      obtain ⟨-, hmem⟩ := hsound.of_members hk hmembers
      obtain ⟨t, ht, hnear⟩ := Rect.exists_near_of_union axis hunion
      obtain ⟨m, hm, hmt⟩ := forall₂_exists_left hrects ht
      have hle : t.near axis ≤ t.far axis := by
        cases m with
        | node id =>
            obtain ⟨-, r, hr, -⟩ := h.bounds_in_slot hmt
            rw [h.node_in_slot hr hmt]
            exact h.slot_near_le_far hr axis
        | group j => exact ih j ((hmem _).mp hm).1 t hmt
      have hfar := Rect.far_le_of_contains axis (Rect.contains_of_union hunion ht)
      rw [Rect.near_expand, Rect.far_expand]
      linarith [h.unsigned.groupPadding]

/-- Nothing is drawn that ends before it begins. -/
theorem ExactDrawing.near_le_far (hb : e.bounds L.nodes L.groups = .ok s) (axis : Direction) :
    s.near axis ≤ s.far axis := by
  obtain ⟨hstands, r, hr, -⟩ := h.bounds_in_slot hb
  cases e with
  | node id =>
      rw [h.node_in_slot hr hb]
      exact h.slot_near_le_far hr axis
  | group k =>
      exact h.group_near_le_far axis
        ((ofDocument_isOutline d).sound.populated_subset hstands.2) s hb

/-- Every slot lies in the region of the root. It lies in the region of its container, the slot of
which lies in the region of the next one, and so on up to the root. -/
theorem ExactDrawing.slot_in_root (he : (ofDocument d).Stands e) (hr : Slot d placed origins e r) :
    root ∈ (ofDocument d).populated ∧
      ∃ region, Region placed origins root region ∧ region.contains r = true := by
  have hsound := (ofDocument_isOutline d).sound
  have hbelow := hsound.below_root he
  have hpop := hsound.populated_of_below he hbelow
  obtain ⟨region, hregion⟩ := h.exists_region hpop
  exact ⟨hpop, region, hregion, h.slot_in_region_of_below he hbelow hr hregion⟩

theorem ExactDrawing.bounds_in_root (hb : e.bounds L.nodes L.groups = .ok s) :
    root ∈ (ofDocument d).populated ∧
      ∃ region, Region placed origins root region ∧ region.contains s = true := by
  obtain ⟨hstands, slot, hslot, hin⟩ := h.bounds_in_slot hb
  obtain ⟨hpop, region, hregion, hcontains⟩ := h.slot_in_root hstands hslot
  exact ⟨hpop, region, hregion, Rect.contains_trans hcontains hin⟩

/-- The region of a container in which something stands lies in that of the root. -/
theorem ExactDrawing.region_in_root (hkey : key ∈ (ofDocument d).populated)
    (hs : Region placed origins key s) : root ∈ (ofDocument d).populated ∧
      ∃ region, Region placed origins root region ∧ region.contains s = true := by
  by_cases hroot : key = root
  · subst hroot
    exact ⟨hkey, s, hs, Rect.contains_refl s⟩
  · have hstands : (ofDocument d).Stands (.group key) := ⟨hroot, hkey⟩
    obtain ⟨slot, hslot⟩ := h.exists_slot hstands
    obtain ⟨hpop, region, hregion, hcontains⟩ := h.slot_in_root hstands hslot
    exact ⟨hpop, region, hregion,
      Rect.contains_trans hcontains (h.region_in_slot hstands hslot hs)⟩

/-- Every point of a line lies in the region of the root. A line that is routed in a container stays
in its region, and one that joins a thing to what encloses it stays in the boxes of both. -/
theorem ExactDrawing.point_in_root {p : Point Rat} (hp : p ∈ L.points) :
    root ∈ (ofDocument d).populated ∧
      ∃ region, Region placed origins root region ∧
        region.contains (Rect.ofPoint p) = true := by
  have hsound := (ofDocument_isOutline d).sound
  obtain ⟨route, hroute, hp⟩ := List.mem_flatMap.mp hp
  obtain ⟨w, place, hw, -, -, -, -, hpoints⟩ := h.isDrawing.exists_wire hroute
  cases place with
  | detached =>
      obtain ⟨t, ht, hpoints⟩ := bind_eq_ok hpoints
      obtain ⟨u, hu, hpoints⟩ := bind_eq_ok hpoints
      rw [← Except.ok.inj hpoints] at hp
      rcases Rect.contains_of_mem_anchorRoute (h.near_le_far ht) (h.near_le_far hu) hp with
        hin | hin
      · obtain ⟨hpop, region, hregion, hcontains⟩ := h.bounds_in_root ht
        exact ⟨hpop, region, hregion, Rect.contains_trans hcontains hin⟩
      · obtain ⟨hpop, region, hregion, hcontains⟩ := h.bounds_in_root hu
        exact ⟨hpop, region, hregion, Rect.contains_trans hcontains hin⟩
  | within key x y =>
      have hin := h.isDrawing.isFiled.within w key x y hw
      have hpop := hin.populated hsound
      obtain ⟨inner, hinner⟩ := h.exists_region hpop
      obtain ⟨content, q, hcontent, hq, heq⟩ := id hinner
      rw [wirePoints, hcontent, hq] at hpoints
      rw [← Except.ok.inj hpoints] at hp
      obtain ⟨p', hp', rfl⟩ := List.mem_map.mp hp
      obtain ⟨hroot, region, hregion, hcontains⟩ := h.region_in_root hpop hinner
      refine ⟨hroot, region, hregion, Rect.contains_trans hcontains ?_⟩
      cases hget : content.routes.get? w.index with
      | none =>
          rw [hget] at hp'
          cases hp'
      | some points =>
          rw [hget] at hp'
          obtain ⟨-, boxes, layers, -, -, hsized, hjoins, houtcome⟩ :=
            h.placement hin.source.mem_keys hcontent
          have hinside := Rect.contains_translate (houtcome.contains_point hsized hjoins
            (List.mem_flatten_of_mem (KeyedList.mem_values_of_get? hget) hp')) q.x q.y
          rw [heq]
          simp only [Rect.translate, zero_add] at hinside
          exact hinside

/-! ## Where the region of the root ends -/

/-- Some member of a container has the slot behind which its region ends by the overhang: the boxes
that were placed have a hull, and one of them is where the hull ends. -/
theorem ExactDrawing.exists_last (axis : Direction) (hk : k ∈ (ofDocument d).populated)
    {content : Ranked Rat} (hcontent : placed.get? k = some content) {region : Rect Rat}
    (hregion : Region placed origins k region) :
    ∃ m s, (ofDocument d).Holds k m ∧ (ofDocument d).Stands m ∧ Slot d placed origins m s ∧
      region.far axis = s.far axis + content.overhang axis := by
  have hsound := (ofDocument_isOutline d).sound
  have hkeys := hsound.populated_subset hk
  obtain ⟨content', q, hcontent', hq, rfl⟩ := hregion
  obtain rfl := Option.some.inj (hcontent.symm.trans hcontent')
  obtain ⟨members, boxes, layers, hmembers, hboxes, hsized, hjoins, houtcome⟩ :=
    h.placement hkeys hcontent
  obtain ⟨-, hmem⟩ := hsound.of_members hkeys hmembers
  have hne : boxes ≠ [] := by
    obtain ⟨m, hm⟩ := List.exists_mem_of_ne_nil members
      ((hsound.populated_iff_members hmem).mp hk)
    obtain ⟨n, hn, -⟩ := forall₂_exists_right hboxes hm
    exact List.ne_nil_of_mem hn
  obtain ⟨v, box, hbox, hfar⟩ := houtcome.exists_far_add_overhang axis hne
  have hv := houtcome.mem_keys_rects.mp (KeyedList.mem_keys_of_get? hbox)
  rw [ids_of_boxes hboxes] at hv
  obtain ⟨m, hm, rfl⟩ := List.mem_map.mp hv
  obtain ⟨hheld, hstands⟩ := (hmem m).mp hm
  refine ⟨m, box.translate q.x q.y, hheld, hstands,
    ⟨k, hheld, boxAt_eq_ok_iff.mpr ⟨content, q, box, hcontent, hq, hbox, rfl⟩⟩, ?_⟩
  rw [far_region, hfar, Rect.far_translate]
  ring

/-- The region of a container goes beyond what is drawn in it by no more than the overhangs of the
containers on the way from some node up to it. -/
theorem ExactDrawing.exists_far_le (axis : Direction) (hk : k ∈ (ofDocument d).containers.keys) :
    ∀ post region limit, k ∈ (ofDocument d).populated → (ofDocument d).Around k post →
      Region placed origins k region →
      (∀ m r, (ofDocument d).Holds k m → m.bounds L.nodes L.groups = .ok r →
        r.far axis ≤ limit) →
      ∃ id pre, (ofDocument d).Chain (.node id) (pre ++ k :: post) ∧
        region.far axis ≤ limit + overhangs axis placed (pre ++ [k]) := by
  have hsound := (ofDocument_isOutline d).sound
  induction k, hk using hsound.inner_induction with
  | step k hk ih =>
      intro post region limit hpop hpost hregion hlimit
      obtain ⟨content, -, hcontent, -, -⟩ := id hregion
      obtain ⟨m, slot, hheld, hstands, hslot, hend⟩ :=
        h.exists_last axis hpop hcontent hregion
      obtain ⟨r, hr⟩ := exists_bounds_of_stands hsound h.isDrawing.isNodes.keys
        h.isDrawing.isGroups.keys hstands
      have hle := hlimit m r hheld hr
      cases m with
      | node id =>
          refine ⟨id, [], ⟨k, post, rfl, hheld, hpost⟩, ?_⟩
          rw [h.node_in_slot hslot hr] at hle
          rw [overhangs_concat hcontent, overhangs_nil, hend]
          linarith
      | group j =>
          obtain ⟨ps, hps, hj⟩ := (hsound.groups k j).mp hheld
          obtain rfl := hps.unique hpost
          obtain ⟨inner, hinner⟩ := h.exists_region hstands.2
          obtain ⟨members, rects, hull, hmembers, hrects, hunion, rfl, -⟩ := h.exists_members hr
          obtain ⟨-, hmem⟩ := hsound.of_members (hheld.group_mem_keys hsound) hmembers
          -- what is drawn in the group ends before the hull of its members
          obtain ⟨id, pre, hchain, hfar⟩ := ih j hheld (k :: ps) inner (hull.far axis) hstands.2 hj
            hinner fun m t hm ht => by
              obtain ⟨t', ht', hmt⟩ := forall₂_exists_right hrects
                ((hmem m).mpr ⟨hm, (h.bounds_in_slot ht).1⟩)
              obtain rfl := Except.ok.inj (ht.symm.trans hmt)
              exact Rect.far_le_of_contains axis (Rect.contains_of_union hunion ht')
          refine ⟨id, pre ++ [j], by rw [List.append_assoc]; exact hchain, ?_⟩
          rw [h.slot_eq_expand hstands hslot hinner, Rect.far_expand] at hend
          rw [Rect.far_expand] at hle
          rw [overhangs_concat hcontent, hend]
          linarith

/-! ## The canvas -/

/-- What is drawn in the root ends before the canvas by the margin, as the canvas is the hull of the
boxes with the margin around it. -/
theorem ExactDrawing.far_le_canvas (axis : Direction) (hb : e.bounds L.nodes L.groups = .ok s) :
    s.far axis ≤ L.canvas.far axis - style.margin := by
  obtain ⟨-, -, hright, hbottom⟩ := h.inside hb
  have hcanvas : L.canvas.right = L.width ∧ L.canvas.bottom = L.height :=
    ⟨zero_add _, zero_add _⟩
  cases axis
  · rw [Rect.far, Rect.far, hcanvas.2]
    exact hbottom
  · rw [Rect.far, Rect.far, hcanvas.1]
    exact hright

/-- On each axis a line goes beyond the margin of the canvas by no more than the overhangs of the
containers around some node. -/
theorem ExactDrawing.exists_along_le (axis : Direction) {p : Point Rat} (hp : p ∈ L.points) :
    style.margin ≤ p.along axis ∧ ∃ id ks, (ofDocument d).Chain (.node id) ks ∧
      p.along axis ≤ L.canvas.far axis - style.margin + overhangs axis placed ks := by
  have hsound := (ofDocument_isOutline d).sound
  obtain ⟨hpop, region, hregion, hin⟩ := h.point_in_root hp
  obtain ⟨hnear, hfar⟩ := Rect.contains_ofPoint_iff.mp hin axis
  obtain ⟨id, pre, hchain, hle⟩ := h.exists_far_le axis hsound.root_mem [] region
    (L.canvas.far axis - style.margin) hpop hsound.around_root hregion
    fun m r _ hr => h.far_le_canvas axis hr
  refine ⟨?_, id, _, hchain, le_trans hfar hle⟩
  obtain ⟨content, q, -, hq, rfl⟩ := hregion
  rw [h.isDrawing.isOrigins.atRoot] at hq
  obtain rfl := Option.some.inj hq
  rw [near_region] at hnear
  refine le_trans (le_of_eq ?_) hnear
  cases axis <;> rfl

/-- Along the ranks nothing goes beyond the boxes. Lines lead from rank to rank and loops leave a
node sideways, so that the overhangs are zero on this axis. -/
theorem ExactDrawing.overhangs_along {ks : List String}
    (hks : ∀ k ∈ ks, k ∈ (ofDocument d).containers.keys) :
    overhangs (style.directionFor d) placed ks = 0 := by
  refine List.sum_eq_zero fun x hx => ?_
  obtain ⟨k, hk, rfl⟩ := List.mem_map.mp hx
  obtain ⟨content, hcontent, -⟩ := h.isDrawing.isPlaced k (hks k hk)
  obtain ⟨-, boxes, layers, -, -, hsized, hjoins, houtcome⟩ := h.placement (hks k hk) hcontent
  rw [hcontent]
  exact houtcome.overhang_along hsized hjoins

end

/-- No edge that is routed in the container has waypoints: all lead to the layer before or behind,
or back to where they begin. -/
def Compound.Straight (o : Outline) (style : Style Rat) (filed : List (Wire × Filing))
    (placed : KeyedList String (Ranked Rat)) (key : String) : Prop :=
  ∀ members boxes layers, o.members key = .ok members →
    members.mapM (memberBox o style placed) = .ok boxes →
    (Ranked.graph boxes (edgesIn filed key)).acyclic.layers? = some layers →
    ∀ e ∈ edgesIn filed key, Ranked.waypoints boxes (edgesIn filed key) layers e = []

/-- Where the lines of a drawing lie on its canvas. They keep the margin where the canvas begins and
along the ranks. Across the ranks they go beyond it by no more than the overhangs of the containers
around some node, so that the canvas covers them if these are at most the margin. A container has an
overhang because of waypoints or, if no edge in it has any, because of loops. -/
structure Layout.Spread (d : Document) (style : Style Rat) (filed : List (Wire × Filing))
    (placed : KeyedList String (Ranked Rat)) (L : Layout Rat) : Prop where
  near : ∀ p ∈ L.points, style.margin ≤ p.x ∧ style.margin ≤ p.y
  along : ∀ p ∈ L.points, p.along (style.directionFor d) ≤
    L.canvas.far (style.directionFor d) - style.margin
  across : ∀ p ∈ L.points, ∃ id ∈ (ofDocument d).nodeIds, ∃ ks,
    (ofDocument d).chain (.node id) = .ok ks ∧ p.across (style.directionFor d) ≤
      L.canvas.far (style.directionFor d).across - style.margin +
        overhangs (style.directionFor d).across placed ks
  covered : 0 ≤ style.margin →
    (∀ id ∈ (ofDocument d).nodeIds, ∀ ks, (ofDocument d).chain (.node id) = .ok ks →
      overhangs (style.directionFor d).across placed ks ≤ style.margin) →
    ∀ p ∈ L.points, L.canvas.contains (Rect.ofPoint p) = true
  overhang : ∀ key ∈ (ofDocument d).containers.keys, ∃ content, placed.get? key = some content ∧
    0 ≤ content.overhang (style.directionFor d).across ∧
    (Straight (ofDocument d) style filed placed key →
      content.overhang (style.directionFor d).across ≤ Ranked.loopSize ∧
      ((∀ e ∈ edgesIn filed key, e.source ≠ e.target) →
        content.overhang (style.directionFor d).across = 0))

section

variable {d : Document} {style : Style Rat} {filed : List (Wire × Compound.Filing)}
  {placed : KeyedList String (Ranked Rat)} {origins : KeyedList String (Point Rat)} {L : Layout Rat}

variable (h : ExactDrawing d style filed placed origins L)

include h

/-- What the overhang of a container comes from. Without waypoints every line between two members
stays within their hull, and a loop leaves it by no more than its own size. -/
theorem ExactDrawing.exists_overhang {key : String} (hkey : key ∈ (ofDocument d).containers.keys) :
    ∃ content, placed.get? key = some content ∧
      0 ≤ content.overhang (style.directionFor d).across ∧
      (Straight (ofDocument d) style filed placed key →
        content.overhang (style.directionFor d).across ≤ Ranked.loopSize ∧
        ((∀ e ∈ edgesIn filed key, e.source ≠ e.target) →
          content.overhang (style.directionFor d).across = 0)) := by
  obtain ⟨content, hcontent, -⟩ := h.isDrawing.isPlaced key hkey
  obtain ⟨members, boxes, layers, hmembers, hboxes, hsized, hjoins, houtcome⟩ :=
    h.placement hkey hcontent
  refine ⟨content, hcontent, houtcome.overhang_nonneg _, fun hstraight => ?_⟩
  have hpoints := hstraight members boxes layers hmembers (mapM_eq_ok_iff.mpr hboxes)
    houtcome.isLayering.found
  exact ⟨houtcome.overhang_across_le hsized hjoins hpoints,
    houtcome.overhang_across_eq_zero hsized hjoins hpoints⟩

theorem ExactDrawing.spread : L.Spread d style filed placed := by
  have hsound := (ofDocument_isOutline d).sound
  have hnear : ∀ p ∈ L.points, ∀ axis, style.margin ≤ p.along axis :=
    fun p hp axis => (h.exists_along_le axis hp).1
  have halong : ∀ p ∈ L.points, p.along (style.directionFor d) ≤
      L.canvas.far (style.directionFor d) - style.margin := by
    intro p hp
    obtain ⟨-, id, ks, hks, hle⟩ := h.exists_along_le (style.directionFor d) hp
    rw [h.overhangs_along (hks.mem_keys hsound), add_zero] at hle
    exact hle
  have hacross : ∀ p ∈ L.points, ∃ id ∈ (ofDocument d).nodeIds, ∃ ks,
      (ofDocument d).chain (.node id) = .ok ks ∧ p.across (style.directionFor d) ≤
        L.canvas.far (style.directionFor d).across - style.margin +
          overhangs (style.directionFor d).across placed ks := by
    intro p hp
    obtain ⟨-, id, ks, hks, hle⟩ := h.exists_along_le (style.directionFor d).across hp
    obtain ⟨q, qs, rfl, hq, hqs⟩ := hks
    rw [Point.along_across] at hle
    exact ⟨id, hsound.stands_node hq, _, hsound.chain_eq ⟨q, qs, rfl, hq, hqs⟩, hle⟩
  refine ⟨fun p hp => ⟨hnear p hp .right, hnear p hp .down⟩, halong, hacross, ?_,
    fun key hkey => h.exists_overhang hkey⟩
  intro hmargin hsum p hp
  obtain ⟨id, hid, ks, hks, hle⟩ := hacross p hp
  have hks := hsum id hid ks hks
  have hle' := halong p hp
  rw [← Point.along_across] at hle
  rw [Rect.contains_ofPoint_iff]
  refine fun axis => ⟨?_, ?_⟩
  · have hzero : L.canvas.near axis = 0 := by cases axis <;> rfl
    rw [hzero]
    exact le_trans hmargin (hnear p hp axis)
  · rcases Direction.eq_or_eq_across (style.directionFor d) axis with rfl | rfl
    · linarith
    · linarith

end

/-- In exact numbers the lines of the graph layout lie on the canvas, off its borders by the margin,
but for what they go beyond the boxes across the ranks: for every document without reserved names
and every style without negative lengths. -/
theorem Layout.graph_spread (length : Rat → Rat → Rat) (d : Document) (style : Style Rat)
    (hstyle : style.Unsigned) (hplain : d.Plain) :
    ∃ L filed placed, @Layout.graph Rat (exactMetric length) d style = .ok L ∧
      ((ofDocument d).wires.mapM fun w => do return (w, ← file (ofDocument d) w)) = .ok filed ∧
      placeAll (ofDocument d) style (style.directionFor d) filed = .ok placed ∧
      L.Spread d style filed placed := by
  obtain ⟨L, filed, placed, origins, hL, h⟩ :=
    @Layout.exists_isDrawing Rat (exactMetric length) d style
  exact ⟨L, filed, placed, hL, h.files, h.places,
    (ExactDrawing.mk h hstyle fun _ hid => hplain.nodes hid).spread⟩

theorem Layout.graph_spread_tangled :
    (Style.standard : Style Rat).Unsigned ∧ Document.tangled.Plain ∧
      ∃ L filed placed, @Layout.graph Rat (exactMetric diagonal) .tangled .standard = .ok L ∧
        ((ofDocument .tangled).wires.mapM fun w => do return (w, ← file (ofDocument .tangled) w)) =
          .ok filed ∧
        placeAll (ofDocument .tangled) .standard
          ((Style.standard : Style Rat).directionFor .tangled) filed = .ok placed ∧
        L.Spread .tangled .standard filed placed :=
  ⟨Style.standard_unsigned, Document.tangled_plain,
    Layout.graph_spread diagonal .tangled .standard Style.standard_unsigned
      Document.tangled_plain⟩

/-- Loops on a node, on the group around it and on the group around that. -/
def Document.nestedLoops : Document :=
  let loop (name : String) : Edge := ⟨name, name, .directed, none, none⟩
  { archetype := .graph
    metadata := .empty
    blocks := .group "G" (.group "H" (.entity (.bare "A") .nil) .nil) .nil
    edges := [loop "A", loop "H", loop "G"]
    dialect := .native
    lineCount := 8 }

theorem Document.nestedLoops_plain : Document.nestedLoops.Plain := by
  have names : ∀ name ∈ ["A", "H", "G"], Reserved name = false := by
    decide +kernel
  constructor
  · intro e he
    exact names _ ((by decide : ∀ e ∈ nestedLoops.entities, e.id ∈ _) e he)
  · intro e he
    exact (by decide : ∀ e ∈ nestedLoops.edges, e.source ∈ _ ∧ e.target ∈ _) e he |>.imp
      (names _) (names _)

/-- With three loops inside one another the outermost one leaves the canvas: three overhangs of a
loop are more than the standard margin. -/
theorem Layout.graph_leaves_canvas :
    (Style.standard : Style Rat).Unsigned ∧ 0 ≤ (Style.standard : Style Rat).margin ∧
      Document.nestedLoops.Plain ∧
      ∃ L, @Layout.graph Rat (exactMetric diagonal) .nestedLoops .standard = .ok L ∧
        ∃ p ∈ L.points, L.canvas.contains (Rect.ofPoint p) = false := by
  refine ⟨Style.standard_unsigned, Nat.cast_nonneg _, Document.nestedLoops_plain, ?_⟩
  have houtside : (match @Layout.graph Rat (exactMetric diagonal) .nestedLoops .standard with
      | .error _ => false
      | .ok L => L.points.any fun p => !L.canvas.contains (Rect.ofPoint p)) = true := by
    decide +kernel
  split at houtside
  · cases houtside
  · next L hL =>
    obtain ⟨p, hp, hout⟩ := List.any_eq_true.mp houtside
    exact ⟨L, hL, p, hp, by simpa using hout⟩

end Schematic
