import Schematic.Layout.Compound
import Schematic.Proofs.Layout.Steps

/-!
# Gathering the boxes of a drawing

The model computes the boxes of the nodes one by one and those of the groups in one pass backwards
over the outline. A program can as well go down from the root into the members, and from there into
theirs: it takes along where the content of a container begins, picks up the boxes of the nodes on
its way down and those of the groups on its way back. What is gathered comes in the order in which
the boxes were visited; put back into the order of the outline it is what the model computes
(`Compound.IsNodes.gather_root`, `IsGroups.gather_root`).
-/

namespace Schematic

namespace KeyedList

variable {κ β : Type} [DecidableEq κ] {m : KeyedList κ β} {es : List (κ × β)} {ks : List κ}

theorem get?_ofList_of_mem_iff (h : ∀ k x, (k, x) ∈ es ↔ m.get? k = some x) (k : κ) :
    (ofList es).get? k = m.get? k := by
  cases hx : m.get? k with
  | none =>
      rw [get?_eq_none_iff, mem_keys_ofList]
      intro hk
      obtain ⟨⟨j, y⟩, hmem, rfl⟩ := List.mem_map.mp hk
      rw [(h j y).mp hmem] at hx
      cases hx
  | some x =>
      have hmem : k ∈ (ofList es).keys := mem_keys_ofList.mpr (List.mem_map_of_mem ((h k x).mpr hx))
      obtain ⟨y, hy⟩ := mem_keys_iff.mp hmem
      rw [hy, ← hx, (h k y).mp (mem_of_get?_ofList hy)]

/-- Entries that were found in any order, put into an order of their keys. Each key is found once,
as it has one value only, so going through the keys in their order picks every entry up where it
belongs. -/
theorem ofList_reorder (h : ∀ k x, (k, x) ∈ es ↔ m.get? k = some x) (hks : ks.Nodup)
    (hkeys : m.keys = ks.filter m.contains) :
    ofList (ks.filterMap fun k => ((ofList es).get? k).map fun x => (k, x)) = m := by
  simp only [get?_ofList_of_mem_iff h]
  have hsub : ∀ k ∈ m.keys, k ∈ ks := fun k hk => by
    rw [hkeys] at hk
    exact (List.mem_filter.mp hk).1
  have hsame := (keys_reorder m hks).trans hkeys.symm
  have hentries := map_entries_eq (f := Prod.mk) (g := Prod.mk) hsame fun k x y hx hy => by
    rw [get?_reorder m hks hsub, get?_eq_some_iff.mpr hy] at hx
    rw [Option.some.inj hx]
  exact ext_entries ((List.map_id _).symm.trans (hentries.trans (List.map_id _)))

end KeyedList

open Outline

section

variable {α : Type} [Scalar α] {o : Outline} {padding : α} {nodes : KeyedList String (NodeBox α)}
  {groups : KeyedList String (GroupBox α)} {key : String} {e : Endpoint}

/-! ## Groups -/

/-- The box of a member and, with their keys, the boxes of the groups that it is or holds; of a
group, what is gathered in it is known. -/
def GroupBox.part (o : Outline) (padding : α) (nodes : KeyedList String (NodeBox α))
    (gathered : String → Except Missing (List (Rect α) × List (String × GroupBox α))) :
    Endpoint → Except Missing (List (Rect α) × List (String × GroupBox α))
  | .node id => do return ([(← nodes.find id (.node id)).bounds], [])
  | .group key => do
    let (rects, boxes) ← gathered key
    match Rect.padded rects padding with
    | none => return ([], boxes)
    | some bounds =>
      let members ← o.members key
      return ([bounds], boxes ++ [(key, ⟨members.map Endpoint.key, bounds, padding⟩)])

/-- The boxes of the members of a container and, with their keys, those of all groups below it, by
going down through at most `depth` containers. -/
def GroupBox.gather (o : Outline) (padding : α) (nodes : KeyedList String (NodeBox α)) :
    Nat → String → Except Missing (List (Rect α) × List (String × GroupBox α))
  | 0, _ => .ok ([], [])
  | depth + 1, key => do
    let members ← o.members key
    let parts ← members.mapM (GroupBox.part o padding nodes (gather o padding nodes depth))
    return (parts.flatMap Prod.fst, parts.flatMap Prod.snd)

/-- What is gathered in a container: the bounds of its members and the boxes of the groups in it.
The bounds come in the order of the members, as they do where the group is drawn, and the boxes in
whatever order they were visited. -/
structure IsGathered (o : Outline) (nodes : KeyedList String (NodeBox α))
    (groups : KeyedList String (GroupBox α)) (key : String)
    (gathered : List (Rect α) × List (String × GroupBox α)) : Prop where
  rects : ∀ members, o.members key = .ok members →
    List.Forall₂ (fun m r => m.bounds nodes groups = .ok r) members gathered.1
  boxes : ∀ k box, (k, box) ∈ gathered.2 ↔ groups.get? k = some box ∧ o.Below key (.group k)

/-- What a member contributes: its bounds, and the groups that it covers. -/
theorem IsGroups.part (h : IsGroups o padding nodes groups) (hs : Sound o)
    (hnodes : nodes.keys = o.nodeIds) (he : o.Stands e)
    (gathered : String → Except Missing (List (Rect α) × List (String × GroupBox α)))
    (hinner : ∀ k, e = .group k → ∃ g, gathered k = .ok g ∧ IsGathered o nodes groups k g) :
    ∃ p, GroupBox.part o padding nodes gathered e = .ok p ∧
      (∃ r, p.1 = [r] ∧ e.bounds nodes groups = .ok r) ∧
      ∀ x, x ∈ p.2 ↔ groups.get? x.1 = some x.2 ∧ o.Covers e (.group x.1) := by
  cases e with
  | node id =>
      have hid : id ∈ nodes.keys := by
        rw [hnodes]
        exact he
      obtain ⟨box, hbox⟩ := KeyedList.mem_keys_iff.mp hid
      refine ⟨([box.bounds], []), ?_, ⟨box.bounds, rfl, Endpoint.bounds_node hbox⟩, ?_⟩
      · rw [GroupBox.part, KeyedList.find_eq_ok_iff.mpr hbox]
        rfl
      · simp [Covers]
  | group key =>
      obtain ⟨⟨rects, boxes⟩, hgathered, hrects, hboxes⟩ := hinner key rfl
      obtain ⟨members, rects', bounds, hmembers, hrects', hpadded, hget⟩ :=
        h.group key ((h.mem_keys_iff hs).mpr he)
      -- both are the bounds of the members, which have only one each
      obtain rfl : rects = rects' := List.right_unique_forall₂'
        (fun _ _ _ hr hs => Except.ok.inj (hr.symm.trans hs)) (hrects members hmembers) hrects'
      refine ⟨([bounds], boxes ++ [(key, ⟨members.map Endpoint.key, bounds, padding⟩)]), ?_,
        ⟨bounds, rfl, Endpoint.bounds_group hget⟩, ?_⟩
      · rw [GroupBox.part, hgathered]
        show (match Rect.padded rects padding with
          | none => _
          | some bounds => _) = _
        rw [hpadded, hmembers]
        rfl
      · rintro ⟨k, box⟩
        rw [List.mem_append, hboxes, List.mem_singleton, Prod.mk.injEq]
        constructor
        · rintro (⟨hbox, hbelow⟩ | ⟨rfl, rfl⟩)
          · exact ⟨hbox, Or.inr ⟨key, rfl, hbelow⟩⟩
          · exact ⟨hget, Or.inl rfl⟩
        · rintro ⟨hbox, hkk | ⟨j, hj, hbelow⟩⟩
          · cases hkk
            rw [hget] at hbox
            exact Or.inr ⟨rfl, (Option.some.inj hbox).symm⟩
          · cases hj
            exact Or.inl ⟨hbox, hbelow⟩

theorem forall₂_flatMap_singletons {β γ δ : Type} {R : β → γ → Prop} {xs : List β}
    {ps : List (List γ × δ)} (h : List.Forall₂ (fun x p => ∃ r, p.1 = [r] ∧ R x r) xs ps) :
    List.Forall₂ R xs (ps.flatMap Prod.fst) := by
  induction h with
  | nil => exact .nil
  | cons hp _ ih =>
      obtain ⟨r, hr, hxr⟩ := hp
      rw [List.flatMap_cons, hr]
      exact .cons hxr ih

/-- Gathering goes down far enough if no more containers come behind the one it starts from. -/
theorem IsGroups.gather (h : IsGroups o padding nodes groups) (hs : Sound o)
    (hnodes : nodes.keys = o.nodeIds) {depth : Nat} (hkey : key ∈ o.containers.keys)
    (hdepth : o.containers.keys.length ≤ o.containers.keys.idxOf key + depth) :
    ∃ g, GroupBox.gather o padding nodes depth key = .ok g ∧ IsGathered o nodes groups key g := by
  induction depth generalizing key with
  | zero =>
      have hlt := List.idxOf_lt_length_iff.mpr hkey
      omega
  | succ depth ih =>
      obtain ⟨members, hmembers, -, hmem⟩ := hs.members_eq hkey
      obtain ⟨parts, hparts, hall⟩ := exists_mapM_forall₂ members fun e he => by
        obtain ⟨hheld, hstands⟩ := (hmem e).mp he
        refine h.part hs hnodes hstands (GroupBox.gather o padding nodes depth) fun k hk => ?_
        subst hk
        have hlt := hs.idxOf_lt_of_holds hheld
        exact ih (hheld.group_mem_keys hs) (by omega)
      refine ⟨(parts.flatMap Prod.fst, parts.flatMap Prod.snd), ?_, ?_, ?_⟩
      · rw [GroupBox.gather, hmembers]
        exact bind_of_eq_ok hparts
      · intro members' hmembers'
        obtain rfl := Except.ok.inj (hmembers.symm.trans hmembers')
        exact forall₂_flatMap_singletons (hall.imp fun _ _ hp => hp.1)
      · intro k box
        rw [mem_flatMap_of_forall₂ hall (fun _ _ hp => hp.2) (k, box)]
        exact hs.exists_covers_iff hmem fun hget =>
          (h.mem_keys_iff hs).mp (KeyedList.mem_keys_of_get? hget)

/-- Gathering from the root finds all groups of a drawing. -/
theorem IsGroups.gather_root (h : IsGroups o padding nodes groups) (hs : Sound o)
    (hnodes : nodes.keys = o.nodeIds) :
    ∃ g, GroupBox.gather o padding nodes o.containers.keys.length root = .ok g ∧
      ∀ k box, (k, box) ∈ g.2 ↔ groups.get? k = some box := by
  obtain ⟨g, hg, hgathered⟩ := h.gather hs hnodes hs.root_mem (Nat.le_add_left _ _)
  refine ⟨g, hg, fun k box => ?_⟩
  rw [hgathered.boxes]
  refine and_iff_left_of_imp fun hget => ?_
  exact hs.below_root ((h.mem_keys_iff hs).mp (KeyedList.mem_keys_of_get? hget))

end

/-! ## Nodes -/

namespace Compound

variable {α : Type} [Scalar α] {o : Outline} {style : Style α} {direction : Direction}
  {filed : List (Wire × Filing)} {placed : KeyedList String (Ranked α)}
  {origins : KeyedList String (Point α)} {nodes : KeyedList String (NodeBox α)}
  {key : String} {e : Endpoint}

/-- The boxes of the nodes that a member is or holds, given the placement of its container and where
the content of the container begins; inside a group the content begins at the corner of the group's
box, moved in by the padding. -/
def nodePart (o : Outline) (style : Style α) (ranked : Ranked α) (origin : Point α)
    (gathered : String → Point α → Except Missing (List (String × NodeBox α))) (e : Endpoint) :
    Except Missing (List (String × NodeBox α)) := do
  let r ← ranked.rects.find (boxId e) (.node (boxId e))
  let rect := r.translate origin.x origin.y
  match e with
  | .node id =>
    let n ← o.node id
    return [(id, ⟨n.entity, rect, n.stub⟩)]
  | .group key => gathered key ⟨rect.x + style.groupPadding, rect.y + style.groupPadding⟩

/-- The boxes of all nodes in a container and below it, in the order in which they are visited, by
going down through at most `depth` containers. -/
def gatherNodes (o : Outline) (style : Style α) (placed : KeyedList String (Ranked α)) :
    Nat → String → Point α → Except Missing (List (String × NodeBox α))
  | 0, _, _ => .ok []
  | depth + 1, key, origin => do
    let ranked ← placed.find key (.group key)
    let members ← o.members key
    let parts ← members.mapM (nodePart o style ranked origin (gatherNodes o style placed depth))
    return parts.flatten

/-- The boxes of the nodes below a container. -/
def AreNodesBelow (o : Outline) (nodes : KeyedList String (NodeBox α)) (key : String)
    (gathered : List (String × NodeBox α)) : Prop :=
  ∀ x, x ∈ gathered ↔ nodes.get? x.1 = some x.2 ∧ o.Below key (.node x.1)

theorem IsNodes.stands {id : String} {box : NodeBox α} (h : IsNodes o placed origins nodes)
    (hget : nodes.get? id = some box) : o.Stands (.node id) := by
  have hmem := KeyedList.mem_keys_of_get? hget
  rw [h.keys] at hmem
  exact hmem

/-- What a member contributes: the nodes that it covers, where the drawing has them. -/
theorem IsNodes.part (h : IsNodes o placed origins nodes) (hs : Sound o)
    (horigins : IsOrigins o style placed origins) {ranked : Ranked α} {origin : Point α}
    (hranked : placed.get? key = some ranked)
    (hcontent : IsContent o style direction filed placed key ranked)
    (horigin : origins.get? key = some origin) (hheld : o.Holds key e) (hstands : o.Stands e)
    (gathered : String → Point α → Except Missing (List (String × NodeBox α)))
    (hinner : ∀ k q, e = .group k → origins.get? k = some q →
      ∃ g, gathered k q = .ok g ∧ AreNodesBelow o nodes k g) :
    ∃ p, nodePart o style ranked origin gathered e = .ok p ∧
      ∀ x, x ∈ p ↔ nodes.get? x.1 = some x.2 ∧ o.Covers e (.node x.1) := by
  obtain ⟨r, hr⟩ := hcontent.exists_rect hs hheld hstands
  have hbox : boxAt placed origins key e = .ok (r.translate origin.x origin.y) :=
    boxAt_eq_ok_iff.mpr ⟨ranked, origin, r, hranked, horigin, hr, rfl⟩
  have hfind : ranked.rects.find (boxId e) (.node (boxId e)) = .ok r :=
    KeyedList.find_eq_ok_iff.mpr hr
  cases e with
  | node id =>
      obtain ⟨n, hn⟩ := KeyedList.mem_keys_iff.mp hstands
      obtain ⟨rect, hrect, hget⟩ := h.box id n hn
      obtain rfl := hs.holds_unique (hs.holds_home hn) hheld
      rw [hbox, Except.ok.injEq] at hrect
      refine ⟨[(id, ⟨n.entity, r.translate origin.x origin.y, n.stub⟩)], ?_, ?_⟩
      · rw [nodePart, hfind]
        exact bind_of_eq_ok (node_eq hn)
      · rintro ⟨i, box⟩
        rw [List.mem_singleton, Prod.mk.injEq, hrect]
        constructor
        · rintro ⟨rfl, rfl⟩
          exact ⟨hget, Or.inl rfl⟩
        · rintro ⟨hbox, hcovers⟩
          obtain rfl : id = i := by simpa [Covers] using hcovers
          rw [hget] at hbox
          exact ⟨rfl, (Option.some.inj hbox).symm⟩
  | group k =>
      obtain ⟨p, rect, hp, hrect, hget⟩ := horigins.inner k hstands.2 hstands.1
      obtain rfl := hs.holds_unique hp hheld
      rw [hbox, Except.ok.injEq] at hrect
      obtain ⟨g, hg, hbelow⟩ := hinner k _ rfl hget
      refine ⟨g, ?_, ?_⟩
      · rw [nodePart, hfind]
        show gathered k ⟨(r.translate origin.x origin.y).x + style.groupPadding,
          (r.translate origin.x origin.y).y + style.groupPadding⟩ = _
        rw [hrect, hg]
      · intro x
        rw [hbelow x]
        refine and_congr_right fun _ => ⟨fun hb => Or.inr ⟨k, rfl, hb⟩, ?_⟩
        rintro (heq | ⟨j, heq, hb⟩)
        · cases heq
        · cases heq
          exact hb

/-- Going down reaches the same corner of every container that the model notes for it. The walk
takes the corner along as an argument where the model writes it down, and both add the same offsets.
-/
theorem IsNodes.gather (h : IsNodes o placed origins nodes) (hs : Sound o)
    (hplaced : IsPlaced o style direction filed placed)
    (horigins : IsOrigins o style placed origins) {depth : Nat} {origin : Point α}
    (hkey : key ∈ o.containers.keys) (horigin : origins.get? key = some origin)
    (hdepth : o.containers.keys.length ≤ o.containers.keys.idxOf key + depth) :
    ∃ g, gatherNodes o style placed depth key origin = .ok g ∧ AreNodesBelow o nodes key g := by
  induction depth generalizing key origin with
  | zero =>
      have hlt := List.idxOf_lt_length_iff.mpr hkey
      omega
  | succ depth ih =>
      obtain ⟨members, hmembers, -, hmem⟩ := hs.members_eq hkey
      obtain ⟨ranked, hranked, hcontent⟩ := hplaced key hkey
      obtain ⟨parts, hparts, hall⟩ := exists_mapM_forall₂ members fun e he => by
        obtain ⟨hheld, hstands⟩ := (hmem e).mp he
        refine h.part hs horigins hranked hcontent horigin hheld hstands
          (gatherNodes o style placed depth) fun k q hk hq => ?_
        subst hk
        have hlt := hs.idxOf_lt_of_holds hheld
        exact ih (hheld.group_mem_keys hs) hq (by omega)
      refine ⟨parts.flatMap id, ?_, fun x => ?_⟩
      · rw [gatherNodes, KeyedList.find_eq_ok_iff.mpr hranked, List.flatMap_id]
        exact (bind_of_eq_ok hmembers).trans (bind_of_eq_ok hparts)
      · rw [mem_flatMap_of_forall₂ (f := id) hall (fun _ _ hp => hp) x]
        exact hs.exists_covers_iff hmem h.stands

/-- Gathering from the root finds all nodes of a drawing. -/
theorem IsNodes.gather_root (h : IsNodes o placed origins nodes) (hs : Sound o)
    (hplaced : IsPlaced o style direction filed placed)
    (horigins : IsOrigins o style placed origins) :
    ∃ g, gatherNodes o style placed o.containers.keys.length root
        ⟨style.margin, style.margin⟩ = .ok g ∧
      ∀ id box, (id, box) ∈ g ↔ nodes.get? id = some box := by
  obtain ⟨g, hg, hbelow⟩ := h.gather hs hplaced horigins hs.root_mem horigins.atRoot
    (Nat.le_add_left _ _)
  refine ⟨g, hg, fun id box => (hbelow (id, box)).trans (and_iff_left_of_imp fun hget => ?_)⟩
  exact hs.below_root (h.stands hget)

end Compound

end Schematic
