import Schematic.Proofs.Layout.Complete

/-!
# Boxes enclose and keep their distance

The box that a group is drawn with is not the box that took part in the placement of the container
around it. The latter, the slot of the group, is its content with padding, and the content includes
lines; the former is drawn around the members alone. So the argument goes by slots. The slot of an
endpoint lies in the region of its container, and the region of a group, grown by the padding, is
the slot of the group. Hence slots are nested as the containers are, and by induction from the
inside to the outside what is drawn lies in its slot. Two endpoints that are not one in the other
lie in the slots of two members of one container, and these are apart because ranked placement keeps
them apart.
-/

namespace Schematic

open Outline Compound

/-- The part of the plane that the content of a container fills, its lines included. It begins where
the content was moved to and is as large as the placement says. -/
def Compound.region (r : Ranked Rat) (q : Point Rat) : Rect Rat := ⟨q.x, q.y, r.width, r.height⟩

theorem Rect.contains_expand_self {a : Rat} (h : 0 ≤ a) (r : Rect Rat) :
    (r.expand a).contains r = true := by
  rw [Rect.contains_iff]
  simp only [Rect.expand, Rect.right, Rect.bottom]
  push_cast
  exact ⟨by linarith, by linarith, by linarith, by linarith⟩

section

variable {d : Document} {style : Style Rat} {filed : List (Wire × Compound.Filing)}
  {placed : KeyedList String (Ranked Rat)} {origins : KeyedList String (Point Rat)} {L : Layout Rat}
  {p k key : String} {e f : Endpoint} {r s : Rect Rat}

/-- The slot of an endpoint: its box in the placement of its container, where the container is
drawn. -/
def Slot (d : Document) (placed : KeyedList String (Ranked Rat))
    (origins : KeyedList String (Point Rat)) (e : Endpoint) (r : Rect Rat) : Prop :=
  ∃ p, (ofDocument d).Holds p e ∧ boxAt placed origins p e = .ok r

/-- The region of a container. -/
def Region (placed : KeyedList String (Ranked Rat)) (origins : KeyedList String (Point Rat))
    (key : String) (r : Rect Rat) : Prop :=
  ∃ content q, placed.get? key = some content ∧ origins.get? key = some q ∧
    r = Compound.region content q

theorem Slot.unique (hr : Slot d placed origins e r) (hs : Slot d placed origins e s) : r = s := by
  obtain ⟨p, hp, hr⟩ := hr
  obtain ⟨q, hq, hs⟩ := hs
  obtain rfl := (ofDocument_isOutline d).sound.holds_unique hp hq
  rw [hr] at hs
  exact Except.ok.inj hs

/-- The box in the placement of its container that the slot of an endpoint is the image of. -/
theorem Slot.exists_rect (hr : Slot d placed origins e r) (hp : (ofDocument d).Holds p e) :
    ∃ content q, placed.get? p = some content ∧ origins.get? p = some q ∧
      ∃ t, content.rects.get? (boxId e) = some t ∧ r = t.translate q.x q.y := by
  obtain ⟨p', hp', hbox⟩ := hr
  obtain rfl := (ofDocument_isOutline d).sound.holds_unique hp hp'
  obtain ⟨content, q, t, hcontent, hq, ht, rfl⟩ := boxAt_eq_ok_iff.mp hbox
  exact ⟨content, q, hcontent, hq, t, ht, rfl⟩

theorem Region.unique (hr : Region placed origins key r) (hs : Region placed origins key s) :
    r = s := by
  obtain ⟨content, q, hcontent, hq, rfl⟩ := hr
  obtain ⟨content', q', hcontent', hq', rfl⟩ := hs
  rw [hcontent] at hcontent'
  rw [hq] at hq'
  cases hcontent'
  cases hq'
  rfl

/-- A drawing in exact numbers, without reserved names for nodes, in a style without negative
lengths. -/
structure ExactDrawing (d : Document) (style : Style Rat) (filed : List (Wire × Compound.Filing))
    (placed : KeyedList String (Ranked Rat)) (origins : KeyedList String (Point Rat))
    (L : Layout Rat) : Prop where
  isDrawing : Layout.IsDrawing d style filed placed origins L
  unsigned : style.Unsigned
  plain : ∀ id ∈ (ofDocument d).nodeIds, Reserved id = false

variable (h : ExactDrawing d style filed placed origins L)

include h

theorem ExactDrawing.exists_slot (he : (ofDocument d).Stands e) :
    ∃ r, Slot d placed origins e r := by
  have hs := (ofDocument_isOutline d).sound
  obtain ⟨ks, p, ps, rfl, hp, -⟩ := hs.exists_chain he
  have hpop := hs.populated_of_below he hp.below
  obtain ⟨r, hr⟩ := exists_boxAt h.isDrawing.isPlaced hs hp he (h.isDrawing.isOrigins.mem_keys hpop)
  exact ⟨r, p, hp, hr⟩

/-- Every container in which something stands has a region. -/
theorem ExactDrawing.exists_region (hkey : key ∈ (ofDocument d).populated) :
    ∃ r, Region placed origins key r := by
  have hs := (ofDocument_isOutline d).sound
  obtain ⟨content, hcontent, -⟩ := h.isDrawing.isPlaced key (hs.populated_subset hkey)
  obtain ⟨q, hq⟩ := KeyedList.mem_keys_iff.mp (h.isDrawing.isOrigins.mem_keys hkey)
  exact ⟨_, content, q, hcontent, hq, rfl⟩

/-- The placement of a container. -/
theorem ExactDrawing.placement (hp : p ∈ (ofDocument d).containers.keys) {content : Ranked Rat}
    (hcontent : placed.get? p = some content) :
    ∃ members boxes layers, (ofDocument d).members p = .ok members ∧
      List.Forall₂ (fun m n => memberBox (ofDocument d) style placed m = .ok n) members boxes ∧
      Ranked.Sized style.gaps boxes ∧ Ranked.Joins boxes (edgesIn filed p) ∧
      Ranked.Outcome (style.directionFor d) style.gaps boxes (edgesIn filed p) layers content :=
  h.isDrawing.isPlaced.sized h.unsigned (ofDocument_isOutline d).sound h.plain hp hcontent

/-! ## Slots and regions -/

/-- A slot lies in the region of its container, because the boxes of a ranked placement lie within
its width and height and all of it is moved by the same way. -/
theorem ExactDrawing.slot_in_region (hp : (ofDocument d).Holds p e) (hr : Slot d placed origins e r)
    (hs : Region placed origins p s) : s.contains r = true := by
  obtain ⟨content, q, hcontent, hq, t, ht, rfl⟩ := hr.exists_rect hp
  have hregion := Region.unique hs ⟨content, q, hcontent, hq, rfl⟩
  obtain ⟨-, boxes, layers, -, -, hsized, hjoins, houtcome⟩ := h.placement hp.mem_keys hcontent
  have hinside := Rect.contains_translate (houtcome.inside hsized hjoins ht) q.x q.y
  rw [hregion]
  simp only [Rect.translate, zero_add] at hinside
  exact hinside

/-- The box that a group has in the placement of its container is as large as its content with the
padding around it. -/
theorem ExactDrawing.size_group (hp : (ofDocument d).Holds p (.group k))
    (hk : (ofDocument d).Stands (.group k)) {content inner : Ranked Rat}
    (hcontent : placed.get? p = some content) (hinner : placed.get? k = some inner)
    (hr : content.rects.get? (boxId (.group k)) = some r) :
    r.width = inner.width + 2 * style.groupPadding ∧
      r.height = inner.height + 2 * style.groupPadding := by
  have hs := (ofDocument_isOutline d).sound
  obtain ⟨members, boxes, layers, hmembers, hboxes, hsized, -, houtcome⟩ :=
    h.placement hp.mem_keys hcontent
  obtain ⟨-, hmem⟩ := hs.of_members hp.mem_keys hmembers
  obtain ⟨n, hn, hbox⟩ := forall₂_exists_right hboxes ((hmem _).mpr ⟨hp, hk⟩)
  obtain ⟨g, hg, heq⟩ := bind_eq_ok hbox
  rw [KeyedList.find_eq_ok_iff, hinner] at hg
  cases hg
  cases heq
  have hget := (houtcome.get?_rects hsized.nodup hn).symm.trans hr
  rw [← Option.some.inj hget]
  exact ⟨rfl, rfl⟩

/-- The slot of a group is its region with the padding around it: the box that was placed for the
group has this size, and its content begins behind the padding. -/
theorem ExactDrawing.slot_eq_expand (hk : (ofDocument d).Stands (.group k))
    (hr : Slot d placed origins (.group k) r) (hs : Region placed origins k s) :
    r = s.expand style.groupPadding := by
  obtain ⟨p, rect, hp, hbox, horigin⟩ := h.isDrawing.isOrigins.inner k hk.2 hk.1
  obtain rfl := hr.unique ⟨p, hp, hbox⟩
  obtain ⟨inner, q, hinner, hq, rfl⟩ := hs
  rw [horigin] at hq
  cases hq
  obtain ⟨content, q, t, hcontent, -, ht, rfl⟩ := boxAt_eq_ok_iff.mp hbox
  obtain ⟨hwidth, hheight⟩ := h.size_group hp hk hcontent hinner ht
  simp only [Compound.region, Rect.expand, Rect.translate, Rect.mk.injEq]
  exact ⟨by ring, by ring, hwidth, hheight⟩

/-- The region of a group lies in its slot. -/
theorem ExactDrawing.region_in_slot (hk : (ofDocument d).Stands (.group k))
    (hr : Slot d placed origins (.group k) r) (hs : Region placed origins k s) :
    r.contains s = true := by
  rw [h.slot_eq_expand hk hr hs]
  exact Rect.contains_expand_self h.unsigned.groupPadding s

/-- A slot lies in the regions of all containers around it. The induction goes up the chain of
containers, from a region to the slot around it and on to the next region. -/
theorem ExactDrawing.slot_in_region_of_below (he : (ofDocument d).Stands e)
    (hb : (ofDocument d).Below key e) (hr : Slot d placed origins e r)
    (hs : Region placed origins key s) : s.contains r = true := by
  have hsound := (ofDocument_isOutline d).sound
  obtain ⟨ks, hc, hkey⟩ := hb
  induction ks generalizing e r with
  | nil => cases hkey
  | cons p ps ih =>
      obtain ⟨p', ps', heq, hp, hps⟩ := id hc
      cases heq
      rcases List.mem_cons.mp hkey with rfl | hkey
      · exact h.slot_in_region hp hr hs
      · cases ps with
        | nil => cases hkey
        | cons q qs =>
            have hstands : (ofDocument d).Stands (.group p) :=
              ⟨hsound.ne_root_of_around_cons hps, hsound.populated_of_below he hp.below⟩
            -- one step up is from the slot to the region of its container, and on to its slot
            obtain ⟨slot, hslot⟩ := h.exists_slot hstands
            obtain ⟨region, hregion⟩ := h.exists_region hstands.2
            have houter := ih hstands hslot (hsound.chain_tail hc) hkey
            have hmiddle := h.region_in_slot hstands hslot hregion
            exact Rect.contains_trans houter
              (Rect.contains_trans hmiddle (h.slot_in_region hp hr hregion))

/-- What an endpoint lies in has its slot around that of the endpoint. -/
theorem ExactDrawing.slot_in_slot (he : (ofDocument d).Stands e) (hf : (ofDocument d).Stands f)
    (hc : (ofDocument d).Covers f e) (hr : Slot d placed origins e r)
    (hs : Slot d placed origins f s) : s.contains r = true := by
  rcases hc with rfl | ⟨k, rfl, hb⟩
  · rw [hr.unique hs]
    exact Rect.contains_refl s
  · obtain ⟨region, hregion⟩ := h.exists_region hf.2
    exact Rect.contains_trans (h.region_in_slot hf hs hregion)
      (h.slot_in_region_of_below he hb hr hregion)

/-! ## What is drawn lies in its slot -/

theorem ExactDrawing.node_in_slot {id : String} (hr : Slot d placed origins (.node id) r)
    (hb : (Endpoint.node id).bounds L.nodes L.groups = .ok s) : s = r := by
  have hsound := (ofDocument_isOutline d).sound
  obtain ⟨p, hp, hbox⟩ := hr
  obtain ⟨n, hn, rfl⟩ := (hsound.nodes p id).mp hp
  obtain ⟨rect, hrect, hget⟩ := h.isDrawing.isNodes.box id n hn
  rw [hbox] at hrect
  cases hrect
  rw [Endpoint.bounds_node hget] at hb
  exact (Except.ok.inj hb).symm

/-- The members of a group, and the bounds it is drawn with around them. -/
theorem ExactDrawing.exists_members (hb : (Endpoint.group k).bounds L.nodes L.groups = .ok s) :
    ∃ members rects hull, (ofDocument d).members k = .ok members ∧
      List.Forall₂ (fun m r => m.bounds L.nodes L.groups = .ok r) members rects ∧
      Rect.union rects = some hull ∧ s = hull.expand style.groupPadding ∧
      ∃ box, L.groups.get? k = some box ∧ box.members = members.map Endpoint.key := by
  obtain ⟨box, hfind, hb⟩ := bind_eq_ok hb
  cases hb
  have hget := KeyedList.find_eq_ok_iff.mp hfind
  obtain ⟨members, rects, hull, hmembers, hkeys, hrects, hunion, hbounds⟩ :=
    h.isDrawing.isGroups.exists_members hget
  exact ⟨members, rects, hull, hmembers, hrects, hunion, hbounds, box, hget, hkeys⟩

theorem ExactDrawing.group_in_slot (hk : k ∈ (ofDocument d).containers.keys) :
    ∀ r s, (ofDocument d).Stands (.group k) → Slot d placed origins (.group k) r →
      (Endpoint.group k).bounds L.nodes L.groups = .ok s → r.contains s = true := by
  have hsound := (ofDocument_isOutline d).sound
  induction k, hk using hsound.inner_induction with
  | step k hk ih =>
      intro r s hstands hr hb
      obtain ⟨members, rects, hull, hmembers, hrects, hunion, rfl, -⟩ := h.exists_members hb
      obtain ⟨region, hregion⟩ := h.exists_region hstands.2
      rw [h.slot_eq_expand hstands hr hregion]
      refine Rect.contains_expand (Rect.contains_union hunion fun q hq => ?_) _
      obtain ⟨m, hm, hmq⟩ := forall₂_exists_left hrects hq
      obtain ⟨-, hmem⟩ := hsound.of_members hk hmembers
      obtain ⟨hheld, hmstands⟩ := (hmem m).mp hm
      obtain ⟨slot, hslot⟩ := h.exists_slot hmstands
      refine Rect.contains_trans (h.slot_in_region hheld hslot hregion) ?_
      -- a node fills its slot, a group lies in its own by induction
      cases m with
      | node id =>
          rw [h.node_in_slot hslot hmq]
          exact Rect.contains_refl slot
      | group j => exact ih j hheld slot q hmstands hslot hmq

/-- Whatever is drawn takes part in the drawing and lies in its slot. A node is drawn in its slot; a
group is drawn around members that lie in theirs, all of them in the region of the group, and both
get the padding around them. -/
theorem ExactDrawing.bounds_in_slot (hb : e.bounds L.nodes L.groups = .ok s) :
    (ofDocument d).Stands e ∧ ∃ r, Slot d placed origins e r ∧ r.contains s = true := by
  have hsound := (ofDocument_isOutline d).sound
  have hstands := h.isDrawing.isGroups.stands_of_bounds h.isDrawing.isNodes.keys hb
  obtain ⟨r, hr⟩ := h.exists_slot hstands
  refine ⟨hstands, r, hr, ?_⟩
  cases e with
  | node id =>
      rw [h.node_in_slot hr hb]
      exact Rect.contains_refl r
  | group k =>
      exact h.group_in_slot (hsound.populated_subset hstands.2) r s hstands hr hb

/-! ## The drawing as a whole -/

/-- Two things of which neither encloses the other are apart. They lie in the slots of two members
of their smallest common container, and these keep one of the gaps between them. -/
theorem ExactDrawing.apart (hr : e.bounds L.nodes L.groups = .ok r)
    (hs : f.bounds L.nodes L.groups = .ok s) (hne : e ≠ f)
    (hef : swallows (ofDocument d) e f ≠ .ok true)
    (hfe : swallows (ofDocument d) f e ≠ .ok true) :
    Rect.Apart (min style.gaps.node style.gaps.rank) r s := by
  have hsound := (ofDocument_isOutline d).sound
  obtain ⟨he, re, hslote, hre⟩ := h.bounds_in_slot hr
  obtain ⟨hf, rf, hslotf, hrf⟩ := h.bounds_in_slot hs
  obtain ⟨key, x, y, -, -, -, hx, hy, hxs, hys, hxy, hxe, hyf⟩ := hsound.exists_lifts he hf hne
    (not_below_of_swallows hsound hf hef) (not_below_of_swallows hsound he hfe)
  obtain ⟨rx, hslotx⟩ := h.exists_slot hxs
  obtain ⟨ry, hsloty⟩ := h.exists_slot hys
  refine Rect.Apart.of_contains (r := rx) (s := ry) ?_
    (Rect.contains_trans (h.slot_in_slot he hxs hxe hslote hslotx) hre)
    (Rect.contains_trans (h.slot_in_slot hf hys hyf hslotf hsloty) hrf)
  obtain ⟨content, q, hcontent, hq, tx, htx, rfl⟩ := hslotx.exists_rect hx
  obtain ⟨content', q', hcontent', hq', ty, hty, rfl⟩ := hsloty.exists_rect hy
  rw [hcontent] at hcontent'
  rw [hq] at hq'
  cases hcontent'
  cases hq'
  obtain ⟨-, boxes, layers, -, -, hsized, hjoins, houtcome⟩ := h.placement hx.mem_keys hcontent
  have hname : ∀ {a : Endpoint}, (ofDocument d).Stands a →
      ∀ id, a = .node id → Reserved id = false := by
    rintro a ha id rfl
    exact h.plain id ha
  refine (houtcome.apart hsized hjoins htx hty fun heq => hxy ?_).translate q.x q.y
  exact boxId_injective (hname hxs) (hname hys) heq

/-- Everything that is drawn lies on the canvas, off its borders by the margin: the region of the
root begins at the margin, and the canvas ends the margin behind all boxes. -/
theorem ExactDrawing.inside (hr : e.bounds L.nodes L.groups = .ok r) :
    style.margin ≤ r.x ∧ style.margin ≤ r.y ∧ r.right ≤ L.width - style.margin ∧
      r.bottom ≤ L.height - style.margin := by
  have hsound := (ofDocument_isOutline d).sound
  obtain ⟨he, slot, hslot, hin⟩ := h.bounds_in_slot hr
  have hbelow := hsound.below_root he
  obtain ⟨region, hregion⟩ := h.exists_region (hsound.populated_of_below he hbelow)
  have hcontains := Rect.contains_trans (h.slot_in_region_of_below he hbelow hslot hregion) hin
  obtain ⟨content, q, -, hq, rfl⟩ := hregion
  rw [h.isDrawing.isOrigins.atRoot] at hq
  cases hq
  obtain ⟨hx, hy, -, -⟩ := Rect.contains_iff.mp hcontains
  have hmem : r ∈ L.nodes.values.map NodeBox.bounds ++ L.groups.values.map GroupBox.bounds := by
    cases e with
    | node id =>
        obtain ⟨box, hfind, heq⟩ := bind_eq_ok hr
        cases heq
        refine List.mem_append_left _ (List.mem_map_of_mem (List.mem_map.mpr ⟨(id, box), ?_, rfl⟩))
        exact KeyedList.get?_eq_some_iff.mp (KeyedList.find_eq_ok_iff.mp hfind)
    | group k =>
        obtain ⟨box, hfind, heq⟩ := bind_eq_ok hr
        cases heq
        refine List.mem_append_right _ (List.mem_map_of_mem (List.mem_map.mpr ⟨(k, box), ?_, rfl⟩))
        exact KeyedList.get?_eq_some_iff.mp (KeyedList.find_eq_ok_iff.mp hfind)
  have hcanvas := h.isDrawing.canvas
  obtain ⟨hull, hunion⟩ := Rect.exists_union hmem
  obtain ⟨-, -, hright, hbottom⟩ := Rect.contains_iff.mp (Rect.contains_of_union hunion hmem)
  simp only [Canvas.around, hunion, Canvas.mk.injEq] at hcanvas
  obtain ⟨-, hwidth, hheight⟩ := hcanvas
  refine ⟨hx, hy, ?_, ?_⟩
  · rw [hwidth]
    linarith
  · rw [hheight]
    linarith

end

/-- In the drawing every group lies around its members with the padding between, things that do not
enclose one another are apart by the smaller one of the gaps between nodes and between ranks, and
all is off the borders of the canvas by the margin. -/
structure Layout.Separated (d : Document) (style : Style Rat) (L : Layout Rat) : Prop where
  members : ∀ key box, L.groups.get? key = some box →
    ∃ members, (ofDocument d).members key = .ok members ∧
      box.members = members.map Endpoint.key ∧
      ∀ m ∈ members, ∃ r, m.bounds L.nodes L.groups = .ok r ∧
        box.bounds.contains (r.expand style.groupPadding) = true
  apart : ∀ (e f : Endpoint) (r s : Rect Rat), e.bounds L.nodes L.groups = .ok r →
    f.bounds L.nodes L.groups = .ok s → e ≠ f → swallows (ofDocument d) e f ≠ .ok true →
    swallows (ofDocument d) f e ≠ .ok true → Rect.Apart (min style.gaps.node style.gaps.rank) r s
  inside : ∀ (e : Endpoint) (r : Rect Rat), e.bounds L.nodes L.groups = .ok r →
    style.margin ≤ r.x ∧ style.margin ≤ r.y ∧ r.right ≤ L.width - style.margin ∧
      r.bottom ≤ L.height - style.margin

theorem ExactDrawing.separated {d : Document} {style : Style Rat}
    {filed : List (Wire × Compound.Filing)} {placed : KeyedList String (Ranked Rat)}
    {origins : KeyedList String (Point Rat)} {L : Layout Rat}
    (h : ExactDrawing d style filed placed origins L) : L.Separated d style where
  members := by
    intro key box hbox
    obtain ⟨members, rects, hull, hmembers, hrects, hunion, hbounds, box', hbox', hkeys⟩ :=
      h.exists_members (Endpoint.bounds_group hbox)
    rw [hbox] at hbox'
    cases hbox'
    refine ⟨members, hmembers, hkeys, fun m hm => ?_⟩
    obtain ⟨r, hr, hmr⟩ := forall₂_exists_right hrects hm
    refine ⟨r, hmr, ?_⟩
    rw [hbounds]
    exact Rect.contains_expand (Rect.contains_of_union hunion hr) _
  apart := fun _ _ _ _ hr hs hne hef hfe => h.apart hr hs hne hef hfe
  inside := fun _ _ hr => h.inside hr

/-- The graph layout in exact numbers separates what does not enclose one another and encloses what
does, for every document without reserved names and every style without negative lengths. -/
theorem Layout.graph_separated (length : Rat → Rat → Rat) (d : Document) (style : Style Rat)
    (hstyle : style.Unsigned) (hplain : d.Plain) :
    ∃ L, @Layout.graph Rat (exactMetric length) d style = .ok L ∧ L.Separated d style := by
  obtain ⟨L, filed, placed, origins, hL, h⟩ :=
    @Layout.exists_isDrawing Rat (exactMetric length) d style
  exact ⟨L, hL, ExactDrawing.separated ⟨h, hstyle, fun _ hid => hplain.nodes hid⟩⟩

theorem Layout.graph_separated_tangled :
    (Style.standard : Style Rat).Unsigned ∧ Document.tangled.Plain ∧
      ∃ L, @Layout.graph Rat (exactMetric diagonal) .tangled .standard = .ok L ∧
        L.Separated .tangled .standard :=
  ⟨Style.standard_unsigned, Document.tangled_plain,
    Layout.graph_separated diagonal .tangled .standard Style.standard_unsigned
      Document.tangled_plain⟩

end Schematic
