import Schematic.Proofs.Layout.Positions

/-!
# Groups around their members

Groups are drawn from the inside to the outside, so the members of a group have their boxes when it
is drawn. A group has members that take up space exactly if it is populated; so the groups of a
drawing are the populated ones, in the order of the outline, each around the final boxes of its
members (`IsGroups`).
-/

namespace Schematic

open Outline

variable {α : Type} {o : Outline} {padding : α} {nodes : KeyedList String (NodeBox α)}
  {groups drawn : KeyedList String (GroupBox α)} {key k : String} {m : Endpoint}

theorem Endpoint.bounds_node {box : NodeBox α} {id : String} (h : nodes.get? id = some box) :
    (Endpoint.node id).bounds nodes groups = .ok box.bounds := by
  rw [Endpoint.bounds, KeyedList.find_eq_ok_iff.mpr h]
  rfl

theorem Endpoint.bounds_group {box : GroupBox α} (h : groups.get? key = some box) :
    (Endpoint.group key).bounds nodes groups = .ok box.bounds := by
  rw [Endpoint.bounds, KeyedList.find_eq_ok_iff.mpr h]
  rfl

/-- Only the box of the group itself can change what an endpoint is drawn as. -/
theorem Endpoint.bounds_congr {groups' : KeyedList String (GroupBox α)}
    (h : ∀ k, m = .group k → groups'.get? k = groups.get? k) :
    m.bounds nodes groups' = m.bounds nodes groups := by
  cases m with
  | node id => rfl
  | group k => rw [Endpoint.bounds, Endpoint.bounds, KeyedList.find, KeyedList.find, h k rfl]

section

variable [Scalar α]

/-- A group is drawn around its members. The bounds of these are looked up in the drawing itself, so
this speaks of the final boxes and not of those that were there when the group was drawn. -/
def IsGroup (o : Outline) (padding : α) (nodes : KeyedList String (NodeBox α))
    (groups : KeyedList String (GroupBox α)) (key : String) : Prop :=
  ∃ members rects bounds, o.members key = .ok members ∧
    List.Forall₂ (fun m r => m.bounds nodes groups = .ok r) members rects ∧
    Rect.padded rects padding = some bounds ∧
    groups.get? key = some ⟨members.map Endpoint.key, bounds, padding⟩

/-- Another box does not matter to a group in which it is not a member. This is what lets the fold
go on: what it draws later belongs to groups further out. -/
theorem IsGroup.congr {groups' : KeyedList String (GroupBox α)}
    (h : IsGroup o padding nodes groups key) (hs : Sound o) (hkey : key ∈ o.containers.keys)
    (hself : groups'.get? key = groups.get? key)
    (hsame : ∀ k, o.Holds key (.group k) → groups'.get? k = groups.get? k) :
    IsGroup o padding nodes groups' key := by
  obtain ⟨members, rects, bounds, hmembers, hrects, hpadded, hget⟩ := h
  obtain ⟨-, hmem⟩ := hs.of_members hkey hmembers
  refine ⟨members, rects, bounds, hmembers, forall₂_imp_left hrects fun m hm r hmr => ?_, hpadded,
    hself.trans hget⟩
  rw [Endpoint.bounds_congr, hmr]
  rintro k rfl
  exact hsame k ((hmem _).mp hm).1

/-- What holds after some groups are drawn, those that are `done`. The induction is on the fold from
the inside to the outside. -/
structure GroupsOf (o : Outline) (padding : α) (nodes : KeyedList String (NodeBox α))
    (done : List String) (drawn : KeyedList String (GroupBox α)) : Prop where
  keys : ∀ k, k ∈ drawn.keys ↔ k ∈ done ∧ k ∈ o.populated
  group : ∀ k ∈ done, k ∈ o.populated → IsGroup o padding nodes drawn k

omit [Scalar α] in
/-- The members of a container have bounds if the groups among them are drawn. The nodes among them
have theirs from the start. -/
theorem exists_bounds (hnodes : nodes.keys = o.nodeIds) {members : List Endpoint}
    (hmem : ∀ e, e ∈ members ↔ o.Holds key e ∧ o.Stands e)
    (hdrawn : ∀ k, o.Holds key (.group k) → k ∈ o.populated → k ∈ drawn.keys) :
    ∃ rects, members.mapM (Endpoint.bounds nodes drawn) = .ok rects ∧
      List.Forall₂ (fun m r => m.bounds nodes drawn = .ok r) members rects := by
  refine exists_mapM_eq_ok fun m hm => ?_
  obtain ⟨hheld, hstands⟩ := (hmem m).mp hm
  cases m with
  | node id =>
      have hid : id ∈ nodes.keys := by
        rw [hnodes]
        exact hstands
      obtain ⟨box, hbox⟩ := KeyedList.mem_keys_iff.mp hid
      exact ⟨_, Endpoint.bounds_node hbox⟩
  | group k =>
      obtain ⟨box, hbox⟩ := KeyedList.mem_keys_iff.mp (hdrawn k hheld hstands.2)
      exact ⟨_, Endpoint.bounds_group hbox⟩

theorem GroupBox.add_eq {members : List Endpoint} {rects : List (Rect α)}
    (hmembers : o.members key = .ok members)
    (hrects : members.mapM (Endpoint.bounds nodes drawn) = .ok rects) :
    GroupBox.add o padding nodes drawn key = match Rect.padded rects padding with
      | none => .ok drawn
      | some bounds => .ok (drawn.put key ⟨members.map Endpoint.key, bounds, padding⟩) := by
  rw [GroupBox.add, hmembers]
  show (do
    let rects ← members.mapM (Endpoint.bounds nodes drawn)
    match Rect.padded rects padding with
    | none => return drawn
    | some bounds => return drawn.put key ⟨members.map Endpoint.key, bounds, padding⟩) = _
  rw [hrects]
  rfl

/-- A group that holds no node is not drawn. It has no members that take up space, hence no hull,
and nothing is written for it. -/
theorem GroupsOf.skip {done : List String} (h : GroupsOf o padding nodes done drawn)
    (hpop : key ∉ o.populated) : GroupsOf o padding nodes (key :: done) drawn := by
  refine ⟨fun k => ?_, fun k hk hkpop => ?_⟩
  · rw [h.keys, List.mem_cons]
    constructor
    · rintro ⟨hk, hkpop⟩
      exact ⟨Or.inr hk, hkpop⟩
    · rintro ⟨rfl | hk, hkpop⟩
      · exact absurd hkpop hpop
      · exact ⟨hk, hkpop⟩
  · rcases List.mem_cons.mp hk with rfl | hk
    · exact absurd hkpop hpop
    · exact h.group k hk hkpop

/-- A group is drawn after those in it, so its box matters to none that is drawn already. -/
theorem GroupsOf.put {done : List String} (h : GroupsOf o padding nodes done drawn) (hs : Sound o)
    (hpop : key ∈ o.populated) (hturn : o.Turn key done) {members : List Endpoint}
    {rects : List (Rect α)} {bounds : Rect α} (hmembers : o.members key = .ok members)
    (hrects : List.Forall₂ (fun m r => m.bounds nodes drawn = .ok r) members rects)
    (hpadded : Rect.padded rects padding = some bounds) :
    GroupsOf o padding nodes (key :: done)
      (drawn.put key ⟨members.map Endpoint.key, bounds, padding⟩) := by
  have hput : ∀ k ∈ done,
      (drawn.put key ⟨members.map Endpoint.key, bounds, padding⟩).get? k = drawn.get? k :=
    fun k hk => KeyedList.get?_put_of_ne fun heq => hturn.fresh (heq ▸ hk)
  refine ⟨fun k => ?_, fun k hk hkpop => ?_⟩
  · rw [KeyedList.mem_keys_put, h.keys, List.mem_cons]
    constructor
    · rintro (rfl | ⟨hk, hkpop⟩)
      · exact ⟨Or.inl rfl, hpop⟩
      · exact ⟨Or.inr hk, hkpop⟩
    · rintro ⟨rfl | hk, hkpop⟩
      · exact Or.inl rfl
      · exact Or.inr ⟨hk, hkpop⟩
  · rcases List.mem_cons.mp hk with rfl | hk
    · obtain ⟨-, hmem⟩ := hs.of_members (hs.populated_subset hpop) hmembers
      refine ⟨members, rects, bounds, hmembers, forall₂_imp_left hrects fun m hm r hmr => ?_,
        hpadded, KeyedList.get?_put_self⟩
      rw [Endpoint.bounds_congr, hmr]
      rintro j rfl
      exact hput j (hturn.inner k (List.mem_cons_self ..) j ((hmem _).mp hm).1)
    · have hin := List.mem_cons_of_mem key hk
      exact (h.group k hk hkpop).congr hs (hturn.mem_keys k hin) (hput k hk) fun j hj =>
        hput j (hturn.inner k hin j hj)

theorem GroupsOf.step {done : List String} (h : GroupsOf o padding nodes done drawn)
    (hs : Sound o) (hnodes : nodes.keys = o.nodeIds) (hturn : o.Turn key done) :
    ∃ drawn', GroupBox.add o padding nodes drawn key = .ok drawn' ∧
      GroupsOf o padding nodes (key :: done) drawn' := by
  obtain ⟨members, hmembers, -, hmem⟩ :=
    hs.members_eq (hturn.mem_keys key (List.mem_cons_self ..))
  obtain ⟨rects, hmap, hrects⟩ := exists_bounds hnodes hmem fun k hk hpop =>
    (h.keys k).mpr ⟨hturn.inner key (List.mem_cons_self ..) k hk, hpop⟩
  rw [GroupBox.add_eq hmembers hmap]
  cases hpadded : Rect.padded rects padding with
  | none =>
      refine ⟨drawn, rfl, h.skip fun hpop => (hs.populated_iff_members hmem).mp hpop ?_⟩
      cases hrects with
      | nil => rfl
      | cons _ _ => cases hpadded
  | some bounds =>
      have hpop : key ∈ o.populated := by
        refine (hs.populated_iff_members hmem).mpr fun hnil => ?_
        rw [hnil] at hrects
        cases hrects
        cases hpadded
      exact ⟨_, rfl, h.put hs hpop hturn hmembers hrects hpadded⟩

/-- The groups of a drawing are the populated ones in the order of the outline, each drawn around
its members. -/
structure IsGroups (o : Outline) (padding : α) (nodes : KeyedList String (NodeBox α))
    (groups : KeyedList String (GroupBox α)) : Prop where
  keys : groups.keys = (o.groups.map Prod.fst).filter o.isPopulated
  group : ∀ k ∈ groups.keys, IsGroup o padding nodes groups k

/-- What has bounds takes part in the drawing. -/
theorem IsGroups.stands_of_bounds {r : Rect α} (h : IsGroups o padding nodes groups)
    (hnodes : nodes.keys = o.nodeIds) (hb : m.bounds nodes groups = .ok r) : o.Stands m := by
  cases m with
  | node id =>
      obtain ⟨box, hfind, -⟩ := bind_eq_ok hb
      have hid := KeyedList.mem_keys_of_get? (KeyedList.find_eq_ok_iff.mp hfind)
      rw [hnodes] at hid
      exact hid
  | group k =>
      obtain ⟨box, hfind, -⟩ := bind_eq_ok hb
      have hkey := KeyedList.mem_keys_of_get? (KeyedList.find_eq_ok_iff.mp hfind)
      rw [h.keys, List.mem_filter] at hkey
      refine ⟨fun hroot => ?_, List.contains_iff_mem.mp hkey.2⟩
      obtain ⟨entry, hentry, rfl⟩ := List.mem_map.mp hkey.1
      have hne := (List.mem_filter.mp hentry).2
      simp [hroot] at hne

/-- The groups that are drawn are those that take part in the drawing. -/
theorem IsGroups.mem_keys_iff (h : IsGroups o padding nodes groups) (hs : Sound o) :
    key ∈ groups.keys ↔ o.Stands (.group key) := by
  rw [h.keys, List.mem_filter, isPopulated, List.contains_iff_mem]
  constructor
  · rintro ⟨hkey, hpop⟩
    obtain ⟨e, he, rfl⟩ := List.mem_map.mp hkey
    exact ⟨by simpa using (List.mem_filter.mp he).2, hpop⟩
  · rintro ⟨hne, hpop⟩
    have hmem := hs.populated_subset hpop
    rw [hs.keys_eq, List.mem_cons] at hmem
    exact ⟨hmem.resolve_left hne, hpop⟩

/-- The members of a group, and the hull of their bounds that it is drawn around. -/
theorem IsGroups.exists_members {box : GroupBox α} (h : IsGroups o padding nodes groups)
    (hbox : groups.get? key = some box) :
    ∃ members rects hull, o.members key = .ok members ∧ box.members = members.map Endpoint.key ∧
      List.Forall₂ (fun m r => m.bounds nodes groups = .ok r) members rects ∧
      Rect.union rects = some hull ∧ box.bounds = hull.expand padding := by
  obtain ⟨members, rects, bounds, hmembers, hrects, hpadded, hget⟩ :=
    h.group key (KeyedList.mem_keys_of_get? hbox)
  rw [hbox] at hget
  cases hget
  obtain ⟨hull, hunion, rfl⟩ := Option.map_eq_some_iff.mp hpadded
  exact ⟨members, rects, hull, hmembers, rfl, hrects, hunion, rfl⟩

theorem exists_groups (hs : Sound o) (hnodes : nodes.keys = o.nodeIds) (padding : α) :
    ∃ groups, GroupBox.all o padding nodes = .ok groups ∧ IsGroups o padding nodes groups := by
  have hstart : GroupsOf o padding nodes [] .empty :=
    ⟨fun k => by simp [KeyedList.keys, KeyedList.empty], fun k hk => absurd hk List.not_mem_nil⟩
  have hstep : ∀ todo key done drawn, o.groups.map Prod.fst = todo ++ key :: done →
      GroupsOf o padding nodes done drawn → ∃ drawn',
        GroupBox.add o padding nodes drawn key = .ok drawn' ∧
          GroupsOf o padding nodes (key :: done) drawn' := by
    intro todo key done drawn hsplit h
    have hkeys : o.containers.keys = (root :: todo) ++ key :: done := by
      rw [hs.keys_eq, hsplit, List.cons_append]
    exact h.step hs hnodes (hs.turn hkeys)
  obtain ⟨drawn, hfold, hdrawn⟩ := exists_foldrM_eq_ok (I := GroupsOf o padding nodes)
    (f := fun key drawn => GroupBox.add o padding nodes drawn key) hstart hstep
  have hnodup : (o.groups.map Prod.fst).Nodup := by
    have hkeys := o.containers.nodup_keys
    rw [hs.keys_eq] at hkeys
    exact (List.nodup_cons.mp hkeys).2
  have hget := fun k =>
    KeyedList.get?_reorder drawn hnodup (fun k hk => ((hdrawn.keys k).mp hk).1) k
  -- the groups were drawn backwards and are put in the order of the outline at the end
  refine ⟨_, by rw [GroupBox.all, List.foldlM_reverse]; exact bind_of_eq_ok hfold, ?_, ?_⟩
  · rw [KeyedList.keys_reorder drawn hnodup]
    refine List.filter_congr fun k hk => ?_
    have hiff := (KeyedList.contains_iff (m := drawn) (k := k)).trans (hdrawn.keys k)
    rw [Bool.eq_iff_iff, hiff, isPopulated, List.contains_iff_mem]
    simp [hk]
  · intro k hk
    rw [KeyedList.keys_reorder drawn hnodup, List.mem_filter, KeyedList.contains_iff,
      hdrawn.keys] at hk
    obtain ⟨-, hkdone, hkpop⟩ := hk
    exact (hdrawn.group k hkdone hkpop).congr hs (hs.populated_subset hkpop) (hget k)
      fun j _ => hget j

end

end Schematic
