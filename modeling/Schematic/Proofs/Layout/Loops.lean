import Schematic.Proofs.Layout.Filing
import Schematic.Proofs.Outline.Ancestry

/-!
# Loops among the boxes of a container

A wire that is filed in a container joins there the boxes of the two members that stand for its
ends. The members are different unless the ends are the same, since one end in the other is not
filed (`Meet.same`). But boxes are known by their ids, and that of a group may be the id of a node
as well: then the wire is a loop although its ends are different (`Compound.meets_ofDocument`,
`Compound.loop_of_distinct_ends`).
-/

namespace Schematic

open Outline

namespace Compound

variable {o : Outline} {as bs : List String} {key : String} {x y e f : Endpoint} {w : Wire}

/-! ## Ids of boxes -/

/-- The node has the id that the box of the group gets. Nothing keeps a text from naming a node like
that. -/
def SharesId (x y : Endpoint) : Prop := ∃ g, x = .node ("__sg_" ++ g) ∧ y = .group g

theorem boxId_eq_iff : boxId x = boxId y ↔ x = y ∨ SharesId x y ∨ SharesId y x := by
  cases x with
  | node i =>
      cases y with
      | node j => simp [boxId, SharesId]
      | group k => simp [boxId, SharesId, groupMark]
  | group k =>
      cases y with
      | node j => simp [boxId, SharesId, groupMark, eq_comm]
      | group j => simp [boxId, SharesId, groupMark, String.append_right_inj]

/-! ## Filing -/

theorem swallows_iff_contains (h : Sound o) (hf : o.Stands f) :
    ∃ b, swallows o e f = .ok b ∧ (b = true ↔ o.Contains e f) := by
  obtain ⟨b, hb, hiff⟩ := swallows_eq (e := e) h hf
  obtain ⟨ks, hks⟩ := h.exists_chain hf
  exact ⟨b, hb, hiff.trans (h.contains_iff hks).symm⟩

/-- A wire is detached if one end lies in the other, and else filed where its ends meet. Where they
meet is said by the way up from both (`Meet`), which does not mention the program. -/
theorem file_of_meet (h : Sound o) (hs : o.Stands w.source) (ht : o.Stands w.target)
    (hmeet : o.Meet w.source w.target as bs key x y) :
    ∃ place, file o w = .ok place ∧
      (place = .detached ↔ o.Contains w.source w.target ∨ o.Contains w.target w.source) ∧
      (place = .detached ∨ place = .within key x y) := by
  obtain ⟨b, hb, hbiff⟩ := swallows_iff_contains (e := w.source) h ht
  obtain ⟨c, hc, hciff⟩ := swallows_iff_contains (e := w.target) h hs
  rw [← hbiff, ← hciff, ← Bool.or_eq_true]
  have hfile : file o w = if b || c then .ok .detached else .ok (.within key x y) := by
    rw [file, hb, hc, hmeet.common]
    show (if b || c then Except.ok Filing.detached else do
      return Filing.within key (← o.lift w.source key) (← o.lift w.target key)) = _
    rw [hmeet.left.lift, hmeet.right.lift]
    rfl
  rw [hfile]
  cases b || c with
  | true => exact ⟨.detached, rfl, by simp, Or.inl rfl⟩
  | false => exact ⟨.within key x y, rfl, by simp, Or.inr rfl⟩

/-! ## Boxes and edges between them -/

/-- The wire is the edge `r` between the boxes of the container `key`. -/
structure RanksAs (o : Outline) (key : String) (w : Wire) (r : RankEdge) (x y : Endpoint) :
    Prop where
  kept : ¬ o.Contains w.source w.target ∧ ¬ o.Contains w.target w.source
  meet : ∃ as bs, o.Meet w.source w.target as bs key x y
  edge : r = ⟨w.index, boxId x, boxId y⟩
  /-- It is a loop if the ends are the same, or if the two members share an id. -/
  loop : r.source = r.target ↔ w.source = w.target ∨ SharesId x y ∨ SharesId y x

theorem ranksAs_of_meet (hmeet : o.Meet w.source w.target as bs key x y)
    (hkept : ¬ (o.Contains w.source w.target ∨ o.Contains w.target w.source)) :
    RanksAs o key w ⟨w.index, boxId x, boxId y⟩ x y := by
  refine ⟨not_or.mp hkept, ⟨as, bs, hmeet⟩, rfl, ?_⟩
  rw [boxId_eq_iff, hmeet.same, or_iff_left hkept]

theorem mem_edgesIn {filed : List (Wire × Filing)} {r : RankEdge} :
    r ∈ edgesIn filed key ↔
      ∃ w x y, (w, Filing.within key x y) ∈ filed ∧ r = ⟨w.index, boxId x, boxId y⟩ := by
  rw [edgesIn, List.mem_filterMap]
  constructor
  · rintro ⟨⟨w, place⟩, hmem, hr⟩
    cases place with
    | detached => cases hr
    | within k x y =>
        by_cases hk : k = key
        · subst hk
          simp only [if_true, Option.some_inj] at hr
          exact ⟨w, x, y, hmem, hr.symm⟩
        · simp only [if_neg hk] at hr
          cases hr
  · rintro ⟨w, x, y, hmem, rfl⟩
    exact ⟨_, hmem, if_pos rfl⟩

/-- The wires with their places, as they are drawn. -/
structure IsRanked (o : Outline) (filed : List (Wire × Filing)) : Prop where
  wires : filed.map Prod.fst = o.wires
  /-- A wire is left out if one end lies in the other. -/
  detached : ∀ w place, (w, place) ∈ filed →
    (place = .detached ↔ o.Contains w.source w.target ∨ o.Contains w.target w.source)
  /-- Each of the others is an edge in the container where its ends meet. -/
  kept : ∀ w place, (w, place) ∈ filed → place ≠ .detached →
    ∃ key x y, ∃ r ∈ edgesIn filed key, RanksAs o key w r x y
  /-- There are no other edges. -/
  edges : ∀ key, ∀ r ∈ edgesIn filed key, ∃ w ∈ o.wires, ∃ x y, RanksAs o key w r x y

theorem exists_meet (h : Sound o) (he : o.Stands e) (hf : o.Stands f) :
    ∃ as bs key x y, o.WayUp e as ∧ o.WayUp f bs ∧ o.Meet e f as bs key x y := by
  obtain ⟨as, has⟩ := h.exists_chain he
  obtain ⟨bs, hbs⟩ := h.exists_chain hf
  obtain ⟨key, x, y, hmeet⟩ := h.meet he hf has hbs
  exact ⟨as, bs, key, x, y, h.wayUp has, h.wayUp hbs, hmeet⟩

theorem exists_ranked {blocks : Forest} {edges : List Edge} (h : IsOutline o blocks edges) :
    ∃ filed, (o.wires.mapM fun w => do return (w, ← file o w)) = .ok filed ∧ IsRanked o filed := by
  obtain ⟨filed, hmap, hfiled⟩ := exists_filed h
  have hmeets : ∀ w place, (w, place) ∈ filed →
      (place = .detached ↔ o.Contains w.source w.target ∨ o.Contains w.target w.source) ∧
        (place = .detached ∨ ∃ key x y, place = .within key x y ∧
          ∃ as bs, o.Meet w.source w.target as bs key x y) := by
    intro w place hmem
    obtain ⟨hw, hplace⟩ := file_of_mem hmap hmem
    obtain ⟨hs, ht⟩ := h.ends w hw
    obtain ⟨as, bs, key, x, y, -, -, hmeet⟩ := exists_meet h.sound hs ht
    obtain ⟨place', hplace', hdetached, hcases⟩ := file_of_meet h.sound hs ht hmeet
    rw [hplace] at hplace'
    cases hplace'
    exact ⟨hdetached, hcases.imp_right fun heq => ⟨key, x, y, heq, as, bs, hmeet⟩⟩
  refine ⟨filed, hmap, hfiled.wires, fun w place hmem => (hmeets w place hmem).1, ?_, ?_⟩
  · intro w place hmem hne
    obtain ⟨hdetached, hcases⟩ := hmeets w place hmem
    obtain ⟨key, x, y, rfl, as, bs, hmeet⟩ := hcases.resolve_left hne
    exact ⟨key, x, y, _, mem_edgesIn.mpr ⟨w, x, y, hmem, rfl⟩,
      ranksAs_of_meet hmeet fun hnot => hne (hdetached.mpr hnot)⟩
  · intro key r hr
    obtain ⟨w, x, y, hmem, rfl⟩ := mem_edgesIn.mp hr
    obtain ⟨hdetached, hcases⟩ := hmeets w _ hmem
    obtain ⟨key', x', y', heq, as, bs, hmeet⟩ := hcases.resolve_left nofun
    cases heq
    exact ⟨w, (file_of_mem hmap hmem).1, x, y,
      ranksAs_of_meet hmeet fun hnot => Filing.noConfusion (hdetached.mpr hnot)⟩

/-! ## Whole documents -/

/-- **Two ends meet in their deepest container in common.** There each is lifted to a member, and
these are the same only if the ends are or one lies in the other. A wire that is kept is a loop
there only if its ends are the same, or if the id of a node is that of the box of a group. -/
theorem meets_ofDocument (d : Document) :
    (∀ a b, (ofDocument d).Stands a → (ofDocument d).Stands b → ∃ as bs key x y,
      (ofDocument d).WayUp a as ∧ (ofDocument d).WayUp b bs ∧
        (ofDocument d).Meet a b as bs key x y) ∧
      ∃ filed, ((ofDocument d).wires.mapM fun w => do return (w, ← file (ofDocument d) w)) =
        .ok filed ∧ IsRanked (ofDocument d) filed :=
  ⟨fun _ _ ha hb => exists_meet (ofDocument_isOutline d).sound ha hb,
    exists_ranked (ofDocument_isOutline d)⟩

end Compound

/-- A node in a group in a group, and a node beside the inner one. -/
def Document.court : Document where
  archetype := .graph
  metadata := .empty
  blocks := .group "G" (.group "H" (.entity (.bare "A") .nil) (.entity (.bare "B") .nil)) .nil
  edges := [⟨"A", "B", .directed, none, none⟩]
  dialect := .native
  lineCount := 6

/-- A node that is called like the box of the group beside it. -/
def Document.lookalike : Document where
  archetype := .graph
  metadata := .empty
  blocks := .group "G" (.entity (.bare "A") .nil) .nil
  edges := [⟨"__sg_G", "G", .directed, none, none⟩]
  dialect := .native
  lineCount := 4

namespace Compound

/-- The two nodes meet in the outer group, where the inner one stands for the node in it. It is a
case of `meets_ofDocument` with ends at different depths. -/
theorem meets_ofDocument_court :
    (ofDocument .court).Stands (.node "A") ∧ (ofDocument .court).Stands (.node "B") ∧
      ∃ as bs, (ofDocument .court).WayUp (.node "A") as ∧
        (ofDocument .court).WayUp (.node "B") bs ∧
        (ofDocument .court).Meet (.node "A") (.node "B") as bs "G" (.group "H") (.node "B") := by
  have hA : (ofDocument .court).Stands (.node "A") := by
    unfold Stands
    decide +kernel
  have hB : (ofDocument .court).Stands (.node "B") := by
    unfold Stands
    decide +kernel
  obtain ⟨as, bs, key, x, y, has, hbs, hmeet⟩ := (meets_ofDocument .court).1 _ _ hA hB
  obtain rfl : "G" = key := by
    refine Except.ok.inj (Eq.trans ?_ hmeet.common)
    decide +kernel
  obtain rfl : .group "H" = x := by
    refine Except.ok.inj (Eq.trans ?_ hmeet.left.lift)
    decide +kernel
  obtain rfl : .node "B" = y := by
    refine Except.ok.inj (Eq.trans ?_ hmeet.right.lift)
    decide +kernel
  exact ⟨hA, hB, as, bs, has, hbs, hmeet⟩

/-- The ends of a wire that is kept are a node and a group, and it is a loop, since the box of the
group has the id of the node. -/
theorem loop_of_distinct_ends :
    ∃ filed, ((ofDocument .lookalike).wires.mapM fun w => do
        return (w, ← file (ofDocument .lookalike) w)) = .ok filed ∧
      filed.map (fun f => (f.1.index, f.1.source, f.1.target)) =
        [(0, .node "__sg_G", .group "G")] ∧
      edgesIn filed "" = [⟨0, "__sg_G", "__sg_G"⟩] := by
  refine ⟨[(⟨0, ⟨"__sg_G", "G", .directed, none, none⟩, .node "__sg_G", .group "G"⟩,
    .within "" (.node "__sg_G") (.group "G"))], ?_, rfl, ?_⟩
  all_goals decide +kernel

end Compound

end Schematic
