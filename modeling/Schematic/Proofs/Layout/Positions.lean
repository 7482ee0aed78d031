import Schematic.Proofs.Layout.Placing

/-!
# Handing down positions

The content of a container begins inside the box that the container has in the one around it. Going
through the containers from the outside to the inside, the outer one has always been seen before, so
every populated container gets its origin and every node its box. What was noted does not change, so
in the end the origins satisfy the equation they were computed by (`Compound.IsOrigins`).
-/

namespace Schematic

namespace Compound

open Outline

variable {α : Type} [Scalar α] {o : Outline} {style : Style α} {direction : Direction}
  {filed : List (Wire × Filing)} {placed : KeyedList String (Ranked α)}
  {origins : KeyedList String (Point α)} {key p k : String} {e : Endpoint}

/-- In the placement of a container every member that is drawn has its box. -/
theorem IsContent.exists_rect {r : Ranked α} (h : IsContent o style direction filed placed p r)
    (hs : Sound o) (hp : o.Holds p e) (he : o.Stands e) :
    ∃ rect, r.rects.get? (boxId e) = some rect := by
  obtain ⟨members, boxes, layers, hmembers, hboxes, -, houtcome⟩ := h
  obtain ⟨-, hmem⟩ := hs.of_members hp.mem_keys hmembers
  rw [← KeyedList.mem_keys_iff, houtcome.mem_keys_rects, ids_of_boxes hboxes]
  exact List.mem_map_of_mem ((hmem e).mpr ⟨hp, he⟩)

/-- The box of an endpoint is its box in the placement of its container, moved to the origin. -/
theorem boxAt_eq_ok_iff {rect : Rect α} : boxAt placed origins p e = .ok rect ↔
    ∃ r q s, placed.get? p = some r ∧ origins.get? p = some q ∧
      r.rects.get? (boxId e) = some s ∧ rect = s.translate q.x q.y := by
  constructor
  · intro h
    obtain ⟨r, hr, h⟩ := bind_eq_ok h
    obtain ⟨q, hq, h⟩ := bind_eq_ok h
    obtain ⟨s, hs, h⟩ := bind_eq_ok h
    cases h
    exact ⟨r, q, s, KeyedList.find_eq_ok_iff.mp hr, KeyedList.find_eq_ok_iff.mp hq,
      KeyedList.find_eq_ok_iff.mp hs, rfl⟩
  · rintro ⟨r, q, s, hr, hq, hs, rfl⟩
    rw [boxAt, KeyedList.find_eq_ok_iff.mpr hr, KeyedList.find_eq_ok_iff.mpr hq]
    show (do
      let t ← r.rects.find (boxId e) (.node (boxId e))
      return t.translate q.x q.y) = _
    rw [KeyedList.find_eq_ok_iff.mpr hs]
    rfl

theorem exists_boxAt (hplaced : IsPlaced o style direction filed placed) (hs : Sound o)
    (hp : o.Holds p e) (he : o.Stands e) (horigin : p ∈ origins.keys) :
    ∃ rect, boxAt placed origins p e = .ok rect := by
  obtain ⟨r, hr, hcontent⟩ := hplaced p hp.mem_keys
  obtain ⟨q, hq⟩ := KeyedList.mem_keys_iff.mp horigin
  obtain ⟨rect, hrect⟩ := hcontent.exists_rect hs hp he
  exact ⟨_, boxAt_eq_ok_iff.mpr ⟨r, q, rect, hr, hq, hrect, rfl⟩⟩

theorem boxAt_put (q : Point α) (h : p ≠ key) :
    boxAt placed (origins.put key q) p e = boxAt placed origins p e := by
  rw [boxAt, boxAt, KeyedList.find, KeyedList.find, KeyedList.find, KeyedList.get?_put_of_ne h]

/-! ## Origins -/

/-- The content of a group begins inside its box, moved in by the padding. The box is the one that
it has in the placement of its container, moved to where that container begins. -/
def IsOrigin (o : Outline) (style : Style α) (placed : KeyedList String (Ranked α))
    (origins : KeyedList String (Point α)) (key : String) : Prop :=
  ∃ p rect, o.Holds p (.group key) ∧ boxAt placed origins p (.group key) = .ok rect ∧
    origins.get? key = some ⟨rect.x + style.groupPadding, rect.y + style.groupPadding⟩

/-- The content of the root begins at the margin, that of each populated group in its box. Both
sides of the equation for a group look into the same origins, so it holds of the final ones only. -/
structure IsOrigins (o : Outline) (style : Style α) (placed : KeyedList String (Ranked α))
    (origins : KeyedList String (Point α)) : Prop where
  atRoot : origins.get? root = some ⟨style.margin, style.margin⟩
  inner : ∀ key ∈ o.populated, key ≠ root → IsOrigin o style placed origins key

theorem IsOrigins.mem_keys (h : IsOrigins o style placed origins) (hkey : key ∈ o.populated) :
    key ∈ origins.keys := by
  by_cases hroot : key = root
  · rw [hroot]
    exact KeyedList.mem_keys_of_get? h.atRoot
  · obtain ⟨p, rect, -, -, hget⟩ := h.inner key hkey hroot
    exact KeyedList.mem_keys_of_get? hget

/-- What holds after some groups have got their origins, those that are `done`. The last field says
that nothing else was noted, which is what keeps an origin from being written twice. -/
structure OriginsOf (o : Outline) (style : Style α) (placed : KeyedList String (Ranked α))
    (done : List String) (origins : KeyedList String (Point α)) : Prop where
  atRoot : origins.get? root = some ⟨style.margin, style.margin⟩
  inner : ∀ key ∈ done, key ∈ o.populated → IsOrigin o style placed origins key
  keys : ∀ key ∈ origins.keys, key = root ∨ key ∈ done

theorem OriginsOf.mem_keys {done : List String} (h : OriginsOf o style placed done origins)
    (hkey : key = root ∨ key ∈ done) (hpop : key ∈ o.populated) : key ∈ origins.keys := by
  rcases hkey with rfl | hkey
  · exact KeyedList.mem_keys_of_get? h.atRoot
  · obtain ⟨p, rect, -, -, hget⟩ := h.inner key hkey hpop
    exact KeyedList.mem_keys_of_get? hget

/-- A group that holds no node gets no origin. -/
theorem OriginsOf.skip {done : List String} (h : OriginsOf o style placed done origins)
    (hpop : key ∉ o.populated) : OriginsOf o style placed (done ++ [key]) origins := by
  refine ⟨h.atRoot, fun k hk hkpop => ?_, fun k hk => ?_⟩
  · rcases List.mem_append.mp hk with hk | hk
    · exact h.inner k hk hkpop
    · rw [List.mem_singleton.mp hk] at hkpop
      exact absurd hkpop hpop
  · exact (h.keys k hk).imp_right (List.mem_append_left _)

/-- A group gets its origin after the container around it, so its origin matters to none before. The
outline lists a container before those in it, and the fold follows that order. -/
theorem OriginsOf.put {done : List String} (h : OriginsOf o style placed done origins)
    (hnot : key ∉ root :: done) (hp : o.Holds p (.group key)) {rect : Rect α}
    (hrect : boxAt placed origins p (.group key) = .ok rect) :
    OriginsOf o style placed (done ++ [key])
      (origins.put key ⟨rect.x + style.groupPadding, rect.y + style.groupPadding⟩) := by
  have hroot : root ≠ key := fun heq => hnot (heq ▸ List.mem_cons_self ..)
  have hput : ∀ {q e s} (x : Point α), boxAt placed origins q e = .ok s →
      boxAt placed (origins.put key x) q e = .ok s := by
    intro q e s x hs
    -- the origin that this box was computed from is noted already
    obtain ⟨-, origin, -, -, horigin, -⟩ := boxAt_eq_ok_iff.mp hs
    have hq : q ≠ key := fun heq =>
      hnot (List.mem_cons.mpr (h.keys key (heq ▸ KeyedList.mem_keys_of_get? horigin)))
    exact (boxAt_put x hq).trans hs
  refine ⟨(KeyedList.get?_put_of_ne hroot).trans h.atRoot, fun k hk hkpop => ?_, fun k hk => ?_⟩
  · rcases List.mem_append.mp hk with hk | hk
    · obtain ⟨q, s, hq, hs, hget⟩ := h.inner k hk hkpop
      have hne : k ≠ key := fun heq => hnot (List.mem_cons_of_mem _ (heq ▸ hk))
      exact ⟨q, s, hq, hput _ hs, (KeyedList.get?_put_of_ne hne).trans hget⟩
    · rw [List.mem_singleton.mp hk]
      exact ⟨p, rect, hp, hput _ hrect, KeyedList.get?_put_self⟩
  · rcases KeyedList.mem_keys_put.mp hk with rfl | hk
    · exact Or.inr (List.mem_append_right _ (List.mem_singleton.mpr rfl))
    · exact (h.keys k hk).imp_right (List.mem_append_left _)

theorem OriginsOf.step {done todo : List String} (h : OriginsOf o style placed done origins)
    (hs : Sound o) (hplaced : IsPlaced o style direction filed placed)
    (hsplit : o.groups.map Prod.fst = done ++ key :: todo) :
    ∃ origins', addOrigin o style placed origins key = .ok origins' ∧
      OriginsOf o style placed (done ++ [key]) origins' := by
  have hkeys : o.containers.keys = (root :: done) ++ key :: todo := by
    rw [hs.keys_eq, hsplit, List.cons_append]
  have hnodup := o.containers.nodup_keys
  have hnot : key ∉ root :: done := by
    rw [hkeys] at hnodup
    exact fun hmem => (List.nodup_append.mp hnodup).2.2 key hmem key (List.mem_cons_self ..) rfl
  unfold addOrigin
  split
  · next hpop =>
    have hpop := List.contains_iff_mem.mp hpop
    have hroot : key ≠ root := fun heq => hnot (heq ▸ List.mem_cons_self ..)
    obtain ⟨p, hp⟩ := hs.exists_holds (hs.populated_subset hpop) hroot
    have houter := (mem_of_idxOf_lt hkeys hnodup).1 p (hs.idxOf_lt_of_holds hp)
    have hppop := hs.populated_of_below (e := .group key) ⟨hroot, hpop⟩ hp.below
    obtain ⟨rect, hrect⟩ := exists_boxAt hplaced hs hp ⟨hroot, hpop⟩
      (h.mem_keys (List.mem_cons.mp houter) hppop)
    refine ⟨_, ?_, h.put hnot hp hrect⟩
    rw [hs.home_eq hp]
    show (do
      let r ← boxAt placed origins p (.group key)
      return origins.put key ⟨r.x + style.groupPadding, r.y + style.groupPadding⟩) = _
    rw [hrect]
    rfl
  · next hpop => exact ⟨origins, rfl, h.skip fun hmem => hpop (List.contains_iff_mem.mpr hmem)⟩

theorem exists_origins (hs : Sound o) (hplaced : IsPlaced o style direction filed placed) :
    ∃ origins, Compound.origins o style placed = .ok origins ∧
      IsOrigins o style placed origins := by
  have hstart : OriginsOf o style placed [] (.ofList [(root, ⟨style.margin, style.margin⟩)]) := by
    refine ⟨KeyedList.get?_put_self, fun k hk => absurd hk List.not_mem_nil, fun k hk => ?_⟩
    rw [KeyedList.mem_keys_ofList] at hk
    exact Or.inl (List.mem_singleton.mp hk)
  obtain ⟨origins, hfold, horigins⟩ := exists_foldlM_eq_ok (I := OriginsOf o style placed)
    (f := addOrigin o style placed) (o.groups.map Prod.fst) hstart
    fun done key todo origins hsplit h => h.step hs hplaced hsplit
  refine ⟨origins, hfold, horigins.atRoot, fun key hkey hroot => ?_⟩
  have hmem := hs.populated_subset hkey
  rw [hs.keys_eq, List.mem_cons] at hmem
  exact horigins.inner key (hmem.resolve_left hroot) hkey

/-! ## Nodes -/

/-- Every node has the box that its container gives it, with the entity that the outline has for it
and in the order of the outline. -/
structure IsNodes (o : Outline) (placed : KeyedList String (Ranked α))
    (origins : KeyedList String (Point α)) (nodes : KeyedList String (NodeBox α)) : Prop where
  keys : nodes.keys = o.nodeIds
  box : ∀ id n, o.nodes.get? id = some n → ∃ rect,
    boxAt placed origins n.home (.node id) = .ok rect ∧
      nodes.get? id = some ⟨n.entity, rect, n.stub⟩

theorem exists_nodeBoxes (hs : Sound o) (hplaced : IsPlaced o style direction filed placed)
    (horigins : IsOrigins o style placed origins) :
    ∃ nodes, nodeBoxes o placed origins = .ok nodes ∧ IsNodes o placed origins nodes := by
  have hbox : ∀ e ∈ o.nodes.entries, ∃ box : String × NodeBox α, (do
      let r ← boxAt placed origins e.2.home (.node e.1)
      return (e.1, (⟨e.2.entity, r, e.2.stub⟩ : NodeBox α))) = Except.ok box := by
    rintro ⟨id, n⟩ hmem
    have hp := hs.holds_home (KeyedList.get?_eq_some_iff.mpr hmem)
    have hstands := hs.stands_node hp
    have horigin := horigins.mem_keys (hs.populated_of_below hstands hp.below)
    obtain ⟨rect, hrect⟩ := exists_boxAt hplaced hs hp hstands horigin
    exact ⟨_, by rw [hrect]; rfl⟩
  obtain ⟨boxes, hmap, hall⟩ := exists_mapM_eq_ok hbox
  have hanswer : ∀ (e : String × Node) (box : String × NodeBox α), (do
      let r ← boxAt placed origins e.2.home (.node e.1)
      return (e.1, (⟨e.2.entity, r, e.2.stub⟩ : NodeBox α))) = Except.ok box →
      ∃ rect, boxAt placed origins e.2.home (.node e.1) = .ok rect ∧
        box = (e.1, ⟨e.2.entity, rect, e.2.stub⟩) := by
    intro e box h
    obtain ⟨rect, hrect, heq⟩ := bind_eq_ok h
    cases heq
    exact ⟨rect, hrect, rfl⟩
  have hkeys : boxes.map Prod.fst = o.nodes.keys := by
    refine (forall₂_map_eq hall fun e box h => ?_).symm
    obtain ⟨rect, -, rfl⟩ := hanswer e box h
    rfl
  have hnodup : (boxes.map Prod.fst).Nodup := by
    rw [hkeys]
    exact o.nodes.nodup_keys
  have hentries := KeyedList.entries_ofList hnodup
  refine ⟨.ofList boxes, by rw [nodeBoxes]; exact bind_of_eq_ok hmap, ?_, ?_⟩
  · rw [KeyedList.keys, hentries]
    exact hkeys
  · intro id n hn
    obtain ⟨box, hmem, h⟩ := forall₂_exists_right hall (KeyedList.get?_eq_some_iff.mp hn)
    obtain ⟨rect, hrect, rfl⟩ := hanswer _ box h
    exact ⟨rect, hrect, by rw [KeyedList.get?_eq_some_iff, hentries]; exact hmem⟩

end Compound

end Schematic
