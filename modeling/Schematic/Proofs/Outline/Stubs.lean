import Schematic.Proofs.Outline.Document

/-!
# Nodes that are declared and nodes that are made up

Of the nodes of an outline some are declared by the blocks and the others are made up because an
edge names them. Resolving edges makes up nodes at the root, and otherwise leaves the containers as
the blocks gave them (`Stubbed`): so whether a group is populated is settled by the blocks, and only
the root can become populated later (`Stubbed.mem_populated_iff`).
-/

namespace Schematic

namespace Outline

variable {o w : Outline} {key k name id : String} {ks : List String}

/-! ## Declared nodes -/

theorem stub_declare {e : Entity} (hstub : ∀ id n, o.nodes.get? id = some n → n.stub = false)
    {n : Node} (hn : (o.declare e key).nodes.get? id = some n) : n.stub = false := by
  unfold Outline.declare at hn
  split at hn
  · replace hn : (o.nodes.put e.id ⟨e, key, false⟩).get? id = some n := hn
    rw [KeyedList.get?_put] at hn
    split at hn
    · cases hn
      rfl
    · exact hstub id n hn
  · next m hm =>
    replace hn : (o.nodes.put e.id { m with entity := m.entity.merge e, home := key }).get? id =
        some n := by
      simp only at hn
      split at hn <;> exact hn
    rw [KeyedList.get?_put] at hn
    split at hn
    · cases hn
      exact hstub e.id m hm
    · exact hstub id n hn

theorem mem_nodes_declare_iff {e : Entity} :
    id ∈ (o.declare e key).nodes.keys ↔ id ∈ o.nodes.keys ∨ id = e.id := by
  refine ⟨mem_nodes_declare, fun hid => ?_⟩
  have hput : ∀ n : Node, id ∈ (o.nodes.put e.id n).keys :=
    fun n => KeyedList.mem_keys_put.mpr hid.symm
  unfold Outline.declare
  split
  · exact hput _
  · simp only
    split
    · exact hput _
    · exact hput _

theorem stub_walk (blocks : Forest) {o : Outline} {key : String}
    (hstub : ∀ id n, o.nodes.get? id = some n → n.stub = false) :
    ∀ id n, (o.walk key blocks).nodes.get? id = some n → n.stub = false := by
  induction blocks generalizing o key with
  | nil => exact hstub
  | entity e rest ih => exact ih fun id n hn => stub_declare hstub hn
  | group name members rest ihMembers ihRest => exact ihRest (ihMembers hstub)

/-- The nodes after a walk are those from before and the entities of the blocks. -/
theorem mem_nodes_walk_iff (blocks : Forest) {o : Outline} {key : String} :
    id ∈ (o.walk key blocks).nodes.keys ↔
      id ∈ o.nodes.keys ∨ ∃ e ∈ blocks.entities, e.id = id := by
  refine ⟨mem_nodes_walk blocks o key, ?_⟩
  induction blocks generalizing o key with
  | nil =>
      rintro (hid | ⟨e, he, -⟩)
      · exact hid
      · exact absurd he List.not_mem_nil
  | entity e rest ih =>
      intro hid
      refine ih ?_
      rw [mem_nodes_declare_iff]
      rcases hid with hid | ⟨f, hf, rfl⟩
      · exact Or.inl (Or.inl hid)
      · rcases List.mem_cons.mp hf with rfl | hf
        · exact Or.inl (Or.inr rfl)
        · exact Or.inr ⟨f, hf, rfl⟩
  | group name members rest ihMembers ihRest =>
      intro hid
      refine ihRest ?_
      rcases hid with hid | ⟨f, hf, rfl⟩
      · exact Or.inl (ihMembers (Or.inl hid))
      · rcases List.mem_append.mp hf with hf | hf
        · exact Or.inl (ihMembers (Or.inr ⟨f, hf, rfl⟩))
        · exact Or.inr ⟨f, hf, rfl⟩

/-! ## Made-up nodes -/

/-- What resolving edges makes of an outline: nodes are made up at the root, and the containers
stay. -/
structure Stubbed (w o : Outline) : Prop where
  keys : o.containers.keys = w.containers.keys
  around : ∀ k ks, o.Around k ks ↔ w.Around k ks
  kept : ∀ id ∈ w.nodes.keys, o.nodes.get? id = w.nodes.get? id
  made : ∀ id, id ∉ w.nodes.keys → ∀ n, o.nodes.get? id = some n → n = ⟨.bare id, root, true⟩

theorem Stubbed.refl (w : Outline) : Stubbed w w :=
  ⟨rfl, fun _ _ => Iff.rfl, fun _ _ => rfl,
    fun _ hid _ hn => absurd (KeyedList.mem_keys_of_get? hn) hid⟩

theorem Stubbed.addStub (h : Stubbed w o) (hname : name ∉ o.nodes.keys) :
    Stubbed w (o.addStub name) := by
  have hget : ∀ id, (o.addStub name).nodes.get? id =
      if id = name then some ⟨.bare name, root, true⟩ else o.nodes.get? id :=
    fun id => KeyedList.get?_put
  refine ⟨keys_addMember.trans h.keys, fun k ks => around_addMember.trans (h.around k ks), ?_, ?_⟩
  · intro id hid
    have hne : id ≠ name := by
      rintro rfl
      obtain ⟨n, hn⟩ := KeyedList.mem_keys_iff.mp hid
      exact hname (KeyedList.mem_keys_of_get? ((h.kept id hid).trans hn))
    rw [hget, if_neg hne]
    exact h.kept id hid
  · intro id hid n hn
    rw [hget] at hn
    split at hn
    · next heq =>
      cases hn
      rw [heq]
    · exact h.made id hid n hn

theorem Stubbed.resolve (h : Stubbed w o) (name : String) :
    Stubbed w (o.resolve name).2 := by
  unfold Outline.resolve
  split
  · exact h
  · next hname =>
    split
    · exact h
    · split
      · exact h
      · exact h.addStub fun hmem => hname (KeyedList.contains_iff.mpr hmem)

theorem Stubbed.addEdge (h : Stubbed w o) (e : Edge) : Stubbed w (o.addEdge e) := by
  have hboth := (h.resolve e.source).resolve e.target
  unfold Outline.addEdge
  simp only
  exact ⟨hboth.keys, hboth.around, hboth.kept, hboth.made⟩

theorem Stubbed.foldl (h : Stubbed w o) (es : List Edge) :
    Stubbed w (es.foldl Outline.addEdge o) := by
  induction es generalizing o with
  | nil => exact h
  | cons e es ih => exact ih (h.addEdge e)

/-- A node lies in its own container and in those around it. The outline answers this by the home of
the node and the way up that is kept with the home. -/
theorem Sound.below_node_iff (h : Sound o) :
    o.Below k (.node id) ↔
      ∃ n ks, o.nodes.get? id = some n ∧ o.Around n.home ks ∧ k ∈ n.home :: ks := by
  constructor
  · rintro ⟨_, ⟨p, ps, rfl, hp, hps⟩, hk⟩
    obtain ⟨n, hn, rfl⟩ := (h.nodes p id).mp hp
    exact ⟨n, ps, hn, hps, hk⟩
  · rintro ⟨n, ks, hn, hks, hk⟩
    exact ⟨_, ⟨n.home, ks, rfl, h.holds_home hn, hks⟩, hk⟩

/-- A made-up node is in the root and in nothing else, so no group becomes populated by one. It may
be the first node in the root, which is then populated because of it. -/
theorem Stubbed.mem_populated_iff (h : Stubbed w o) (hw : Sound w) (ho : Sound o) :
    k ∈ o.populated ↔ k ∈ w.populated ∨ k = root ∧ ∃ id ∈ o.nodes.keys, id ∉ w.nodes.keys := by
  rw [ho.mem_populated, hw.mem_populated]
  constructor
  · rintro ⟨id, hid⟩
    obtain ⟨n, ks, hn, hks, hk⟩ := ho.below_node_iff.mp hid
    by_cases hmem : id ∈ w.nodes.keys
    · rw [h.kept id hmem] at hn
      exact Or.inl ⟨id, hw.below_node_iff.mpr ⟨n, ks, hn, (h.around _ _).mp hks, hk⟩⟩
    · obtain rfl := h.made id hmem n hn
      cases hks.unique ho.around_root
      exact Or.inr ⟨List.mem_singleton.mp hk, id, KeyedList.mem_keys_of_get? hn, hmem⟩
  · rintro (⟨id, hid⟩ | ⟨rfl, id, hid, hnot⟩)
    · obtain ⟨n, ks, hn, hks, hk⟩ := hw.below_node_iff.mp hid
      rw [← h.kept id (KeyedList.mem_keys_of_get? hn)] at hn
      exact ⟨id, ho.below_node_iff.mpr ⟨n, ks, hn, (h.around _ _).mpr hks, hk⟩⟩
    · obtain ⟨n, hn⟩ := KeyedList.mem_keys_iff.mp hid
      obtain rfl := h.made id hnot n hn
      exact ⟨id, ho.below_node_iff.mpr ⟨_, [], hn, ho.around_root, List.mem_singleton.mpr rfl⟩⟩

end Outline

end Schematic
