import Mathlib.Data.List.Nodup
import Schematic.Proofs.Outline.Addresses
import Schematic.Proofs.Outline.Marks

/-!
# The containment tree

In a sound outline each member says of itself where it is, and the addresses of the containers are
the nesting of the text. Together this makes the outline a tree in which every node and every
container but the root has one place (`ofDocument_isTree`). Which containers are populated follows
from the tree; for a group it is settled by the blocks alone, since the nodes that are made up for
edges all lie at the root.
-/

namespace Schematic

namespace Outline

variable {o w : Outline} {key p k name id : String} {ks : List String} {e : Endpoint}

/-! ## One place for everything -/

/-- The member lists of all containers, one after the other. -/
def listed (o : Outline) : List Endpoint := o.containers.values.flatMap Container.members

theorem mem_listed_iff : e ∈ o.listed ↔ ∃ p, o.Holds p e := by
  rw [listed, List.mem_flatMap]
  constructor
  · rintro ⟨c, hc, he⟩
    obtain ⟨⟨p, d⟩, hd, rfl⟩ := List.mem_map.mp hc
    exact ⟨p, d, KeyedList.get?_eq_some_iff.mpr hd, he⟩
  · rintro ⟨p, c, hc, he⟩
    exact ⟨c, List.mem_map.mpr ⟨(p, c), KeyedList.get?_eq_some_iff.mp hc, rfl⟩, he⟩

/-- Nothing is listed twice: not by one container, and not by two since a member is in one only. -/
theorem Sound.nodup_listed (h : Sound o) : o.listed.Nodup := by
  rw [listed, KeyedList.values, List.nodup_flatMap]
  constructor
  · rintro c hc
    obtain ⟨⟨p, d⟩, hd, rfl⟩ := List.mem_map.mp hc
    exact h.distinct p d (KeyedList.get?_eq_some_iff.mpr hd)
  · rw [List.pairwise_map]
    refine (List.pairwise_map.mp o.containers.nodup_keys).imp_of_mem ?_
    rintro ⟨p, c⟩ ⟨q, d⟩ hc hd hne e hec hed
    exact hne (h.holds_unique ⟨c, KeyedList.get?_eq_some_iff.mpr hc, hec⟩
      ⟨d, KeyedList.get?_eq_some_iff.mpr hd, hed⟩)

theorem Sound.count_listed_node (h : Sound o) (id : String) :
    o.listed.count (.node id) = if id ∈ o.nodeIds then 1 else 0 := by
  have hiff : .node id ∈ o.listed ↔ id ∈ o.nodeIds := by
    rw [mem_listed_iff]
    constructor
    · rintro ⟨p, hp⟩
      exact h.stands_node hp
    · intro hid
      obtain ⟨n, hn⟩ := KeyedList.mem_keys_iff.mp hid
      exact ⟨n.home, h.holds_home hn⟩
  simp only [h.nodup_listed.count, hiff]

theorem Sound.count_listed_group (h : Sound o) (key : String) :
    o.listed.count (.group key) = if key ∈ o.containers.keys ∧ key ≠ root then 1 else 0 := by
  have hiff : .group key ∈ o.listed ↔ key ∈ o.containers.keys ∧ key ≠ root := by
    rw [mem_listed_iff]
    constructor
    · rintro ⟨p, hp⟩
      exact ⟨hp.group_mem_keys h, h.ne_root_of_holds hp⟩
    · exact fun hkey => h.exists_holds hkey.1 hkey.2
  simp only [h.nodup_listed.count, hiff]

/-! ## The tree -/

/-- The container right around a container. The root has none. -/
def parent? (o : Outline) (key : String) : Option String :=
  (o.containers.get? key).bind fun c => c.enclosing.head?

/-- The links to the parents lead from the container to the root. As this is inductive, there is no
way around in a circle. -/
inductive Rooted (o : Outline) : String → Prop where
  | root : Rooted o root
  | link {key p : String} (hp : o.parent? key = some p) (h : Rooted o p) : Rooted o key

theorem parent?_eq (hk : o.Around k ks) : o.parent? k = ks.head? := by
  obtain ⟨c, hc, rfl⟩ := around_iff.mp hk
  rw [parent?, hc]
  rfl

theorem Sound.holds_group_iff (h : Sound o) : o.Holds p (.group k) ↔ o.parent? k = some p := by
  rw [h.groups]
  constructor
  · rintro ⟨ps, -, hk⟩
    exact parent?_eq hk
  · intro hp
    obtain ⟨c, hc, hhead⟩ := Option.bind_eq_some_iff.mp hp
    obtain ⟨ps, hps⟩ := List.head?_eq_some_iff.mp hhead
    have hk : o.Around k (p :: ps) := around_iff.mpr ⟨c, hc, hps⟩
    exact ⟨ps, h.around_tail hk, hk⟩

theorem Sound.rooted (h : Sound o) (hk : o.Around k ks) : o.Rooted k := by
  induction ks generalizing k with
  | nil =>
      by_cases hroot : k = root
      · rw [hroot]
        exact .root
      · obtain ⟨p, ps, heq, -⟩ := h.parent k [] hk hroot
        cases heq
  | cons p ps ih => exact .link (parent?_eq hk) (ih (h.around_tail hk))

/-- The containers of some blocks are a tree with the nesting of the text, and each node and each
container has its one place in it. -/
structure IsTree (o : Outline) (blocks : Forest) : Prop where
  /-- No two containers share a key, and the root has the empty one. -/
  keys : o.containers.keys.Nodup ∧ ∃ rest, o.containers.keys = "" :: rest ∧ "" ∉ rest
  /-- The containers are the root and the groups of the text, nested as they are there. -/
  groups : o.groups.map (fun e => (e.2.name, e.2.blocks)) = blocks.groups
  addresses : o.addresses = [0] :: blocks.addresses [0] 1
  /-- A link to a parent is a member of the parent, and the links lead to the root. -/
  links : ∀ p k, o.parent? k = some p ↔ o.Holds p (.group k)
  rooted : ∀ k ∈ o.containers.keys, o.Rooted k
  /-- A declared or made-up node is listed once, where it says it is, and nothing else is. -/
  nodes : ∀ id, o.listed.count (.node id) = if id ∈ o.nodeIds then 1 else 0
  homes : ∀ id ∈ o.nodeIds, ∃ p, o.home (.node id) = .ok p ∧ o.Holds p (.node id)
  declared : ∀ id n, o.nodes.get? id = some n → (n.stub = false ↔ ∃ e ∈ blocks.entities, e.id = id)
  /-- A container but the root is listed once, by its parent. -/
  containers : ∀ k, o.listed.count (.group k) = if k ∈ o.containers.keys ∧ k ≠ "" then 1 else 0
  parents : ∀ k ∈ o.containers.keys, k ≠ "" →
    ∃ p, o.parent? k = some p ∧ o.home (.group k) = .ok p ∧ o.Holds p (.group k)
  /-- A container is populated if it is on the way up from a node. For a group this is settled by
  the blocks alone. -/
  populated : ∀ k, o.isPopulated k = true ↔
    ∃ id ∈ o.nodeIds, ∃ ks, o.chain (.node id) = .ok ks ∧ k ∈ ks
  settled : ∀ k, k ≠ "" → o.isPopulated k = (start.walk root blocks).isPopulated k
  /-- If the answers are stored when the walk is over, and for the root whenever a node is made up,
  resolving the edges by what is stored gives the same outline with the same members, and what is
  stored stays right. -/
  marks : ∃ m, Marked.ofBlocks blocks (o.wires.map Wire.edge) = .ok m ∧ m.outline = o ∧
    (∀ k ∈ o.containers.keys, m.isMarked k = o.isPopulated k) ∧ ∀ k, m.members k = o.members k

theorem Sound.isPopulated_iff (h : Sound o) (k : String) :
    o.isPopulated k = true ↔ ∃ id ∈ o.nodeIds, ∃ ks, o.chain (.node id) = .ok ks ∧ k ∈ ks := by
  rw [isPopulated, List.contains_iff_mem, h.mem_populated]
  constructor
  · rintro ⟨id, ks, hks, hk⟩
    have hchain := hks
    obtain ⟨p, ps, -, hp, -⟩ := hchain
    exact ⟨id, h.stands_node hp, ks, h.chain_eq hks, hk⟩
  · rintro ⟨id, hid, ks, hks, hk⟩
    obtain ⟨ls, hls⟩ := h.exists_chain (e := .node id) hid
    rw [h.chain_eq hls] at hks
    cases hks
    exact ⟨id, ks, hls, hk⟩

/-- The outline of every document is a tree. The conditions are read off soundness, but for the
addresses, which come from the walk, and the marks, which come from storing the answers. -/
theorem ofDocument_isTree (d : Document) : IsTree (ofDocument d) d.blocks := by
  have hblocks := isOutline_walk d.blocks
  have hd := ofDocument_isOutline d
  have hstubbed : Stubbed (start.walk root d.blocks) (ofDocument d) :=
    (Stubbed.refl _).foldl d.edges
  have hnodup := (ofDocument d).containers.nodup_keys
  obtain ⟨rest, hrest⟩ := hd.sound.first
  refine ⟨⟨hnodup, rest, hrest, ?_⟩, hd.declared, ?_, fun p k => hd.sound.holds_group_iff.symm,
    ?_, hd.sound.count_listed_node, ?_, ?_, hd.sound.count_listed_group, ?_,
    hd.sound.isPopulated_iff, ?_, ?_⟩
  · rw [hrest] at hnodup
    exact (List.nodup_cons.mp hnodup).1
  · rw [hblocks.sound.addresses_eq hstubbed.keys hstubbed.around,
      sound_start.addresses_walk d.blocks sound_start.root_mem, addresses_start]
    rfl
  · intro k hk
    obtain ⟨ks, hks⟩ := exists_around_iff.mpr hk
    exact hd.sound.rooted hks
  · intro id hid
    obtain ⟨n, hn⟩ := KeyedList.mem_keys_iff.mp hid
    have hheld := hd.sound.holds_home hn
    exact ⟨n.home, hd.sound.home_eq hheld, hheld⟩
  · intro id n hn
    have hmem : id ∈ (start.walk root d.blocks).nodes.keys ↔
        ∃ e ∈ d.blocks.entities, e.id = id := by
      rw [mem_nodes_walk_iff]
      exact ⟨fun hid => hid.resolve_left List.not_mem_nil, Or.inr⟩
    rw [← hmem]
    by_cases hid : id ∈ (start.walk root d.blocks).nodes.keys
    · rw [hstubbed.kept id hid] at hn
      have hstub := stub_walk d.blocks (o := start) (fun id n hn => by cases hn) id n hn
      exact ⟨fun _ => hid, fun _ => hstub⟩
    · rw [hstubbed.made id hid n hn]
      exact ⟨fun hfalse => absurd hfalse Bool.noConfusion, fun hmem => absurd hmem hid⟩
  · intro k hk hroot
    obtain ⟨p, hp⟩ := hd.sound.exists_holds hk hroot
    exact ⟨p, hd.sound.holds_group_iff.mp hp, hd.sound.home_eq hp, hp⟩
  · intro k hroot
    have hiff := hstubbed.mem_populated_iff (k := k) hblocks.sound hd.sound
    rw [Bool.eq_iff_iff, isPopulated, isPopulated, List.contains_iff_mem, List.contains_iff_mem,
      hiff]
    exact or_iff_left fun hboth => hroot hboth.1
  · obtain ⟨m, hm, houtline, hright⟩ := Marked.exists_ofBlocks d.blocks d.edges
    have heq : m.outline = ofDocument d := houtline
    refine ⟨m, by rw [hd.wired, hm], heq, ?_, ?_⟩
    · rw [← heq]
      exact hright.marks
    · rw [← heq]
      exact hright.members_eq

end Outline

end Schematic
