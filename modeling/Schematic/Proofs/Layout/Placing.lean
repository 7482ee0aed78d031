import Schematic.Proofs.Layout.Filing
import Schematic.Proofs.Ranking.Placement

/-!
# Placing all containers

Containers are placed from the inside to the outside. When a container has its turn, the groups in
it are placed, so every member has a box, and the edges that are filed in it join these boxes; hence
ranked placement succeeds. What it was given does not change afterwards, so in the end the placement
of each container is one of the final boxes of its members (`Compound.IsContent`).
-/

namespace Schematic

theorem KeyedList.find_eq_ok_iff {κ β : Type} [DecidableEq κ] {m : KeyedList κ β} {k : κ}
    {e : Missing} {x : β} : m.find k e = .ok x ↔ m.get? k = some x := by
  unfold KeyedList.find
  split
  · next h => rw [h, Except.ok.injEq, Option.some.injEq]
  · next h => simp [h]

namespace Compound

open Outline

variable {α : Type} [Scalar α] {o : Outline} {style : Style α} {direction : Direction}
  {filed : List (Wire × Filing)} {placed : KeyedList String (Ranked α)} {key k : String}

/-- The placement of the content of a container: its members have boxes, the edges filed in it join
them, and `r` is a placement of both. -/
def IsContent (o : Outline) (style : Style α) (direction : Direction) (filed : List (Wire × Filing))
    (placed : KeyedList String (Ranked α)) (key : String) (r : Ranked α) : Prop :=
  ∃ members boxes layers, o.members key = .ok members ∧
    List.Forall₂ (fun m n => memberBox o style placed m = .ok n) members boxes ∧
    Ranked.Joins boxes (edgesIn filed key) ∧
    Ranked.Outcome direction style.gaps boxes (edgesIn filed key) layers r

/-- What holds after some containers are placed, those that are `done`: each has a placement that is
one of the boxes its members have now. -/
def PlacedOf (o : Outline) (style : Style α) (direction : Direction) (filed : List (Wire × Filing))
    (done : List String) (placed : KeyedList String (Ranked α)) : Prop :=
  ∀ key ∈ done, ∃ r, placed.get? key = some r ∧ IsContent o style direction filed placed key r

/-- Every container is placed. -/
def IsPlaced (o : Outline) (style : Style α) (direction : Direction) (filed : List (Wire × Filing))
    (placed : KeyedList String (Ranked α)) : Prop :=
  PlacedOf o style direction filed o.containers.keys placed

theorem memberBox_id {m : Endpoint} {n : RankNode α} (h : memberBox o style placed m = .ok n) :
    n.id = boxId m := by
  cases m with
  | node id =>
      obtain ⟨node, -, heq⟩ := bind_eq_ok h
      cases heq
      rfl
  | group key =>
      obtain ⟨content, -, heq⟩ := bind_eq_ok h
      cases heq
      rfl

theorem ids_of_boxes {members : List Endpoint} {boxes : List (RankNode α)}
    (h : List.Forall₂ (fun m n => memberBox o style placed m = .ok n) members boxes) :
    boxes.map RankNode.id = members.map boxId :=
  (forall₂_map_eq h fun _ _ hmn => (memberBox_id hmn).symm).symm

/-- Placing another container does not change the boxes of members: the box of a group has the size
of its own content, and that of a node is measured. -/
theorem memberBox_put {m : Endpoint} {r : Ranked α} (h : m ≠ .group key) :
    memberBox o style (placed.put key r) m = memberBox o style placed m := by
  cases m with
  | node id => rfl
  | group k =>
      have hne : k ≠ key := fun heq => h (heq ▸ rfl)
      rw [memberBox, memberBox, KeyedList.find, KeyedList.find, KeyedList.get?_put_of_ne hne]

theorem IsContent.put {p : String} {r s : Ranked α}
    (h : IsContent o style direction filed placed p r) (hs : Sound o)
    (hp : p ∈ o.containers.keys) (hne : ∀ k, o.Holds p (.group k) → k ≠ key) :
    IsContent o style direction filed (placed.put key s) p r := by
  obtain ⟨members, boxes, layers, hmembers, hboxes, hrest⟩ := h
  obtain ⟨-, hmem⟩ := hs.of_members hp hmembers
  refine ⟨members, boxes, layers, hmembers, forall₂_imp_left hboxes fun m hm n hmn => ?_, hrest⟩
  rw [memberBox_put, hmn]
  rintro rfl
  exact hne key ((hmem _).mp hm).1 rfl

omit [Scalar α] in
/-- The edges filed in a container join its members, for they were lifted to them. So no edge has an
end that ranked placement does not know. -/
theorem joins_edgesIn (hfiled : IsFiled o filed) {members : List Endpoint}
    (hmem : ∀ e, e ∈ members ↔ o.Holds key e ∧ o.Stands e) {boxes : List (RankNode α)}
    (hids : boxes.map RankNode.id = members.map boxId) :
    Ranked.Joins boxes (edgesIn filed key) := by
  intro e he
  obtain ⟨⟨w, place⟩, hw, heq⟩ := List.mem_filterMap.mp he
  cases place with
  | detached => cases heq
  | within k x y =>
      simp only [Option.ite_none_right_eq_some, Option.some.injEq] at heq
      obtain ⟨rfl, rfl⟩ := heq
      have hin := hfiled.within w k x y hw
      rw [hids]
      exact ⟨List.mem_map_of_mem ((hmem x).mpr ⟨hin.source, hin.stands.1⟩),
        List.mem_map_of_mem ((hmem y).mpr ⟨hin.target, hin.stands.2⟩)⟩

/-- A container in which all groups are placed can be placed. Its members have boxes then, the edges
filed in it join these, and ranked placement finds all it looks up (`Ranked.Complete`). -/
theorem exists_placeContainer (style : Style α) (direction : Direction) (hs : Sound o)
    (hfiled : IsFiled o filed) (hkey : key ∈ o.containers.keys)
    (hplaced : ∀ k, o.Holds key (.group k) → k ∈ placed.keys) :
    ∃ r, placeContainer o style direction filed key placed = .ok (placed.put key r) ∧
      IsContent o style direction filed placed key r := by
  obtain ⟨members, hmembers, -, hmem⟩ := hs.members_eq hkey
  have hbox : ∀ m ∈ members, ∃ n, memberBox o style placed m = .ok n := by
    intro m hm
    obtain ⟨hholds, hstands⟩ := (hmem m).mp hm
    cases m with
    | node id =>
        obtain ⟨n, hn⟩ := KeyedList.mem_keys_iff.mp hstands
        exact ⟨_, by rw [memberBox, node_eq hn]; rfl⟩
    | group k =>
        obtain ⟨content, hcontent⟩ := KeyedList.mem_keys_iff.mp (hplaced k hholds)
        exact ⟨_, by rw [memberBox, KeyedList.find_eq_ok_iff.mpr hcontent]; rfl⟩
  obtain ⟨boxes, hmap, hboxes⟩ := exists_mapM_eq_ok hbox
  have hjoins : Ranked.Joins boxes (edgesIn filed key) :=
    joins_edgesIn hfiled hmem (ids_of_boxes hboxes)
  obtain ⟨layers, r, hplace, houtcome⟩ := Ranked.exists_outcome direction style.gaps hjoins
  refine ⟨r, ?_, members, boxes, layers, hmembers, hboxes, hjoins, houtcome⟩
  rw [placeContainer, hmembers]
  show (do
    let boxes ← (members.mapM (memberBox o style placed)).mapError LayoutFailure.missing
    let ranked ← (Ranked.place direction style.gaps boxes (edgesIn filed key)).mapError .ofRanks
    return placed.put key ranked) = _
  rw [hmap]
  show (do
    let ranked ← (Ranked.place direction style.gaps boxes (edgesIn filed key)).mapError
      LayoutFailure.ofRanks
    return placed.put key ranked) = _
  rw [hplace]
  rfl

/-- Placing a container does not matter to those that are placed already: it is a member of none of
them, as they were placed from the inside to the outside. -/
theorem PlacedOf.step {done : List String} (h : PlacedOf o style direction filed done placed)
    (hs : Sound o) (hfiled : IsFiled o filed) (hturn : o.Turn key done) :
    ∃ placed', placeContainer o style direction filed key placed = .ok placed' ∧
      PlacedOf o style direction filed (key :: done) placed' := by
  have hkey := hturn.mem_keys key (List.mem_cons_self ..)
  obtain ⟨r, hplace, hr⟩ := exists_placeContainer style direction hs hfiled hkey fun k hk => by
    obtain ⟨s, hget, -⟩ := h k (hturn.inner key (List.mem_cons_self ..) k hk)
    exact KeyedList.mem_keys_of_get? hget
  refine ⟨placed.put key r, hplace, fun k hk => ?_⟩
  have hne : ∀ j, o.Holds k (.group j) → j ≠ key := fun j hj => hturn.ne hk hj
  have hmem := hturn.mem_keys k hk
  rcases List.mem_cons.mp hk with rfl | hdone
  · exact ⟨r, KeyedList.get?_put_self, hr.put hs hmem hne⟩
  · obtain ⟨s, hget, hcontent⟩ := h k hdone
    have hput : k ≠ key := fun heq => hturn.fresh (heq ▸ hdone)
    exact ⟨s, (KeyedList.get?_put_of_ne hput).trans hget, hcontent.put hs hmem hne⟩

theorem exists_placeAll (hs : Sound o) (hfiled : IsFiled o filed) (style : Style α)
    (direction : Direction) : ∃ placed, placeAll o style direction filed = .ok placed ∧
      IsPlaced o style direction filed placed :=
  exists_foldrM_eq_ok (I := PlacedOf o style direction filed)
    (f := placeContainer o style direction filed) (fun _ hk => absurd hk List.not_mem_nil)
    fun _ _ _ _ hsplit h => h.step hs hfiled (hs.turn hsplit)

end Compound

end Schematic
