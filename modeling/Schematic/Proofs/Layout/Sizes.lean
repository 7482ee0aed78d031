import Schematic.Proofs.Layout.Steps
import Schematic.Proofs.Ranking.Separation

/-!
# Boxes that ranked placement keeps apart

In exact numbers, with a style without negative lengths and names that are not reserved, the boxes
of the members of every container are fit for ranked placement: no size is negative, no two have one
id, and none is called like a waypoint. The size of a group is that of its content, so this goes by
induction from the inner containers to the outer ones.
-/

namespace Schematic

open Outline

/-! ## Styles and names -/

/-- No length is negative that the graph layout places boxes by. The defaults are like that, and a
style that breaks it can put boxes over one another. -/
structure Style.Unsigned (style : Style Rat) : Prop where
  node : 0 ≤ style.gaps.node
  rank : 0 ≤ style.gaps.rank
  edge : 0 ≤ style.gaps.edge
  minNodeWidth : 0 ≤ style.minNodeWidth
  nodeHeight : 0 ≤ style.nodeHeight
  rowHeight : 0 ≤ style.rowHeight
  stubWidth : 0 ≤ style.stubWidth
  stubHeight : 0 ≤ style.stubHeight
  groupPadding : 0 ≤ style.groupPadding

/-- The name begins like the id of the box of a group or of a waypoint. The program makes up such
ids and takes them apart again by how they begin. -/
def Reserved (name : String) : Bool :=
  name.startsWith Compound.groupMark || name.startsWith Waypoint.mark

/-- No entity and no end of an edge has a reserved name. -/
def Document.Plain (d : Document) : Prop :=
  (∀ e ∈ d.entities, Reserved e.id = false) ∧
    ∀ e ∈ d.edges, Reserved e.source = false ∧ Reserved e.target = false

/-- Then no node has one: the nodes of the outline are named by entities and by the ends of edges.
-/
theorem Document.Plain.nodes {d : Document} (h : d.Plain) {id : String}
    (hid : id ∈ (ofDocument d).nodes.keys) : Reserved id = false := by
  rcases (ofDocument_isOutline d).named id hid with ⟨e, he, rfl⟩ | ⟨e, he, rfl | rfl⟩
  · exact h.1 e he
  · exact (h.2 e he).1
  · exact (h.2 e he).2

theorem Style.standard_unsigned : (Style.standard : Style Rat).Unsigned := by
  constructor <;> exact Nat.cast_nonneg _

/-- A cycle through a group in a group, an edge between a group and what lies in it, an edge from a
node to itself and one from a name that nothing has. -/
def Document.tangled : Document :=
  let edge (source target : String) : Edge := ⟨source, target, .directed, none, none⟩
  { archetype := .graph
    metadata := .empty
    blocks := .group "A" (.group "B" (.entity (.bare "x") .nil) (.entity (.bare "y") .nil))
      (.entity (.bare "z") .nil)
    edges := [edge "x" "y", edge "y" "z", edge "z" "x", edge "A" "x", edge "z" "z", edge "p.q" "B"]
    dialect := .native
    lineCount := 12 }

theorem Document.tangled_plain : Document.tangled.Plain := by
  have names : ∀ name ∈ ["x", "y", "z", "A", "B", "p.q"], Reserved name = false := by
    decide +kernel
  constructor
  · intro e he
    exact names _ ((by decide : ∀ e ∈ tangled.entities, e.id ∈ _) e he)
  · intro e he
    exact (by decide : ∀ e ∈ tangled.edges, e.source ∈ _ ∧ e.target ∈ _) e he |>.imp
      (names _) (names _)

/-! ## Ids of boxes -/

namespace Compound

theorem startsWith_groupMark (key : String) : (groupMark ++ key).startsWith groupMark = true := by
  rw [String.startsWith_string_iff, String.toList_append]
  exact List.prefix_append _ _

/-- The id of a group's box is not that of a waypoint, nor is a name that is not reserved. -/
theorem isId_boxId {e : Endpoint} (h : ∀ id, e = .node id → Reserved id = false) :
    Waypoint.isId (boxId e) = false := by
  cases e with
  | node id => exact (Bool.or_eq_false_iff.mp (h id rfl)).2
  | group key =>
      rw [← Bool.not_eq_true]
      intro hstarts
      rw [boxId, Waypoint.isId, String.startsWith_string_iff, String.toList_append] at hstarts
      have hmark : Waypoint.mark.toList = '_' :: '_' :: 'd' :: "ummy_".toList := by decide
      have hgroup : groupMark.toList = '_' :: '_' :: 's' :: "g_".toList := by decide
      rw [hmark, hgroup] at hstarts
      simp at hstarts

theorem ne_groupMark_append {id : String} (h : Reserved id = false) (key : String) :
    id ≠ groupMark ++ key := by
  rintro rfl
  have hmark := (Bool.or_eq_false_iff.mp h).1
  rw [startsWith_groupMark] at hmark
  cases hmark

/-- Boxes of different endpoints have different ids. The mark in front of the name of a group keeps
it apart from every name that is not reserved. -/
theorem boxId_injective {e f : Endpoint} (he : ∀ id, e = .node id → Reserved id = false)
    (hf : ∀ id, f = .node id → Reserved id = false) (h : boxId e = boxId f) : e = f := by
  cases e with
  | node id =>
      cases f with
      | node j => exact congrArg Endpoint.node h
      | group key => exact absurd h (ne_groupMark_append (he id rfl) key)
  | group key =>
      cases f with
      | node j => exact absurd h.symm (ne_groupMark_append (hf j rfl) key)
      | group k => exact congrArg Endpoint.group ((String.append_right_inj groupMark).mp h)

/-! ## Sizes -/

variable {o : Outline} {style : Style Rat} {direction : Direction}
  {filed : List (Wire × Filing)} {placed : KeyedList String (Ranked Rat)} {key : String}

theorem size_nonneg (h : style.Unsigned) (e : Entity) :
    0 ≤ (e.size style).width ∧ 0 ≤ (e.size style).height := by
  have hwidth : ∀ x : Rat, 0 ≤ max x style.minNodeWidth := fun x =>
    le_trans h.minNodeWidth (le_max_right _ _)
  unfold Entity.size
  simp only
  split
  · exact ⟨hwidth _, h.nodeHeight⟩
  · refine ⟨le_trans (hwidth _) (le_max_left _ _), add_nonneg h.nodeHeight ?_⟩
    exact mul_nonneg (Nat.cast_nonneg _) h.rowHeight

theorem nodeSize_nonneg (h : style.Unsigned) (n : Node) :
    0 ≤ (nodeSize style n).width ∧ 0 ≤ (nodeSize style n).height := by
  unfold nodeSize
  split
  · exact ⟨h.stubWidth, h.stubHeight⟩
  · exact size_nonneg h n.entity

theorem memberBox_nonneg (h : style.Unsigned) {m : Endpoint} {n : RankNode Rat}
    (hinner : ∀ k, m = .group k → ∀ r, placed.get? k = some r → 0 ≤ r.width ∧ 0 ≤ r.height)
    (hn : memberBox o style placed m = .ok n) : 0 ≤ n.width ∧ 0 ≤ n.height := by
  cases m with
  | node id =>
      obtain ⟨node, -, heq⟩ := bind_eq_ok hn
      cases heq
      exact nodeSize_nonneg h node
  | group k =>
      obtain ⟨content, hfind, heq⟩ := bind_eq_ok hn
      cases heq
      obtain ⟨hwidth, hheight⟩ := hinner k rfl content (KeyedList.find_eq_ok_iff.mp hfind)
      have := h.groupPadding
      push_cast
      constructor <;> linarith

/-- The boxes of a container are fit for placement if the groups in it have sizes. Nodes are
measured, so theirs is never negative. -/
theorem sized_of_inner (h : style.Unsigned) (hs : Sound o)
    (hplain : ∀ id ∈ o.nodes.keys, Reserved id = false) (hkey : key ∈ o.containers.keys)
    (hinner : ∀ k, o.Holds key (.group k) → ∀ r, placed.get? k = some r →
      0 ≤ r.width ∧ 0 ≤ r.height)
    {members : List Endpoint} {boxes : List (RankNode Rat)} (hmembers : o.members key = .ok members)
    (hboxes : List.Forall₂ (fun m n => memberBox o style placed m = .ok n) members boxes) :
    Ranked.Sized style.gaps boxes := by
  obtain ⟨hnodup, hmem⟩ := hs.of_members hkey hmembers
  have hname : ∀ m ∈ members, ∀ id, m = .node id → Reserved id = false := by
    rintro m hm id rfl
    exact hplain id ((hmem _).mp hm).2
  have hbox : ∀ n ∈ boxes, 0 ≤ n.width ∧ 0 ≤ n.height := by
    intro n hn
    obtain ⟨m, hm, hmn⟩ := forall₂_exists_left hboxes hn
    exact memberBox_nonneg h (fun k heq => hinner k (heq ▸ ((hmem m).mp hm).1)) hmn
  refine ⟨h.node, h.rank, h.edge, fun n hn => (hbox n hn).1, fun n hn => (hbox n hn).2, ?_, ?_⟩
  · rw [ids_of_boxes hboxes]
    refine List.Nodup.map_on (fun e he f hf heq => ?_) hnodup
    exact boxId_injective (hname e he) (hname f hf) heq
  · intro n hn
    obtain ⟨m, hm, hmn⟩ := forall₂_exists_left hboxes hn
    rw [memberBox_id hmn]
    exact isId_boxId (hname m hm)

/-- The content of a container has a size. The induction goes from the inner containers to the outer
ones: the boxes of groups have the size of what was placed in them before. -/
theorem content_size_nonneg (h : style.Unsigned) (hs : Sound o)
    (hplain : ∀ id ∈ o.nodes.keys, Reserved id = false)
    (hplaced : IsPlaced o style direction filed placed) (hkey : key ∈ o.containers.keys) :
    ∀ r, placed.get? key = some r → 0 ≤ r.width ∧ 0 ≤ r.height := by
  induction key, hkey using hs.inner_induction with
  | step p hp ih =>
      intro r hr
      obtain ⟨s, hs', members, boxes, layers, hmembers, hboxes, hjoins, houtcome⟩ := hplaced p hp
      rw [hr] at hs'
      cases hs'
      exact houtcome.size_nonneg (sized_of_inner h hs hplain hp ih hmembers hboxes) hjoins

/-- The placement of a container in exact numbers. -/
theorem IsPlaced.sized (hplaced : IsPlaced o style direction filed placed) (h : style.Unsigned)
    (hs : Sound o) (hplain : ∀ id ∈ o.nodes.keys, Reserved id = false)
    (hkey : key ∈ o.containers.keys) {r : Ranked Rat} (hr : placed.get? key = some r) :
    ∃ members boxes layers, o.members key = .ok members ∧
      List.Forall₂ (fun m n => memberBox o style placed m = .ok n) members boxes ∧
      Ranked.Sized style.gaps boxes ∧ Ranked.Joins boxes (edgesIn filed key) ∧
      Ranked.Outcome direction style.gaps boxes (edgesIn filed key) layers r := by
  obtain ⟨s, hs', members, boxes, layers, hmembers, hboxes, hjoins, houtcome⟩ := hplaced key hkey
  rw [hr] at hs'
  cases hs'
  refine ⟨members, boxes, layers, hmembers, hboxes,
    sized_of_inner h hs hplain hkey (fun k hk => ?_) hmembers hboxes, hjoins, houtcome⟩
  exact content_size_nonneg h hs hplain hplaced (hk.group_mem_keys hs)

end Compound

end Schematic
