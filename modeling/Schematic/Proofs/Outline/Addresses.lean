import Schematic.Proofs.Outline.Document

/-!
# Addresses of containers

The containers of an outline are numbered in their order, the root with 0. An address leads from a
container up to the root, by the numbers of the containers on the way. A text gives each of its
groups an address by the way its groups are nested (`Forest.addresses`), and walking over the blocks
gives the containers the same addresses (`Sound.addresses_walk`).
-/

namespace Schematic

namespace Forest

/-- The address of every group, an outer one before the groups inside it; `outer` is the address of
the container that the forest is in, and `next` the number of its first group. -/
def addresses (outer : List Nat) (next : Nat) : Forest → List (List Nat)
  | .nil => []
  | .entity _ rest => rest.addresses outer next
  | .group _ members rest =>
    (next :: outer) :: (members.addresses (next :: outer) (next + 1) ++
      rest.addresses outer (next + 1 + members.groups.length))

theorem length_addresses (blocks : Forest) (outer : List Nat) (next : Nat) :
    (blocks.addresses outer next).length = blocks.groups.length := by
  induction blocks generalizing outer next with
  | nil => rfl
  | entity e rest ih => exact ih outer next
  | group name members rest ihMembers ihRest =>
      simp only [addresses, groups, List.length_cons, List.length_append, ihMembers, ihRest]

end Forest

namespace Outline

variable {o : Outline} {key p k name : String} {ks : List String}

/-- The number of a container is its place in the list of all containers; its address starts with
this number and goes on with those of the containers around it, up to the root. -/
def address (o : Outline) (key : String) : List Nat :=
  (o.path key).map o.containers.keys.idxOf

/-- The addresses of all containers. -/
def addresses (o : Outline) : List (List Nat) := o.containers.keys.map o.address

theorem length_addresses (o : Outline) : o.addresses.length = o.containers.keys.length :=
  List.length_map _

theorem idxOf_of_getElem? {i : Nat} (hkey : o.containers.keys[i]? = some key) :
    o.containers.keys.idxOf key = i := by
  obtain ⟨hi, rfl⟩ := List.getElem?_eq_some_iff.mp hkey
  exact o.containers.nodup_keys.idxOf_getElem i hi

theorem Sound.mem_keys_of_around (h : Sound o) (hk : o.Around k ks) :
    ∀ p ∈ ks, p ∈ o.containers.keys := by
  induction ks generalizing k with
  | nil => exact fun p hp => absurd hp List.not_mem_nil
  | cons q qs ih =>
      have htail := h.around_tail hk
      intro p hp
      rcases List.mem_cons.mp hp with rfl | hp
      · exact htail.mem_keys
      · exact ih htail p hp

/-- Containers that come later change nothing about an address: they get further numbers, and the
containers around `k` keep theirs. -/
theorem Sound.address_congr {o' : Outline} {more : List String} (h : Sound o)
    (hkeys : o'.containers.keys = o.containers.keys ++ more) (hk : o.Around k ks)
    (hk' : o'.Around k ks) : o'.address k = o.address k := by
  unfold address
  rw [hk.path_eq, hk'.path_eq, hkeys]
  refine List.map_congr_left fun p hp => List.idxOf_append_of_mem ?_
  rcases List.mem_cons.mp hp with rfl | hp
  · exact hk.mem_keys
  · exact h.mem_keys_of_around hk p hp

theorem Sound.addresses_congr {o' : Outline} {more : List String} (h : Sound o)
    (hkeys : o'.containers.keys = o.containers.keys ++ more)
    (haround : ∀ k ks, o.Around k ks → o'.Around k ks) :
    o'.addresses = o.addresses ++ more.map o'.address := by
  unfold addresses
  rw [hkeys, List.map_append]
  congr 1
  refine List.map_congr_left fun k hk => ?_
  obtain ⟨ks, hks⟩ := exists_around_iff.mpr hk
  exact h.address_congr hkeys hks (haround k ks hks)

theorem Sound.addresses_eq {o' : Outline} (h : Sound o)
    (hkeys : o'.containers.keys = o.containers.keys)
    (haround : ∀ k ks, o'.Around k ks ↔ o.Around k ks) : o'.addresses = o.addresses := by
  rw [h.addresses_congr (hkeys.trans (List.append_nil _).symm) fun k ks => (haround k ks).mpr,
    List.map_nil, List.append_nil]

/-! ## Walking -/

theorem around_declare (o : Outline) (e : Entity) (key : String) :
    (o.declare e key).Around k ks ↔ o.Around k ks := by
  unfold Outline.declare
  split
  · exact around_addMember
  · simp only
    split
    · exact Iff.rfl
    · exact around_addMember.trans around_removeMember

theorem keys_addGroup {blocks : Forest} (hkey : key ∉ o.containers.keys) :
    (o.addGroup key name p blocks).containers.keys = o.containers.keys ++ [key] :=
  keys_addMember.trans (keys_putContainer hkey)

theorem around_addGroup {blocks : Forest} (hkey : key ∉ o.containers.keys) :
    (o.addGroup key name p blocks).Around k ks ↔ o.Around k ks ∨ k = key ∧ ks = o.path p :=
  around_addMember.trans (around_putContainer hkey)

/-- A walk puts its containers behind those that are there. -/
theorem exists_keys_walk (blocks : Forest) (o : Outline) (key : String) :
    ∃ more, (o.walk key blocks).containers.keys = o.containers.keys ++ more := by
  induction blocks generalizing o key with
  | nil => exact ⟨[], (List.append_nil _).symm⟩
  | entity e rest ih =>
      obtain ⟨more, hmore⟩ := ih (o.declare e key) key
      rw [keys_declare] at hmore
      exact ⟨more, hmore⟩
  | group name members rest ihMembers ihRest =>
      obtain ⟨inner, hinner⟩ := ihMembers (o.addGroup (o.freshKey name) name key members)
        (o.freshKey name)
      obtain ⟨more, hmore⟩ := ihRest ((o.addGroup (o.freshKey name) name key members).walk
        (o.freshKey name) members) key
      rw [hinner, keys_addGroup (o.freshKey_not_mem name), List.append_assoc,
        List.append_assoc] at hmore
      exact ⟨_, hmore⟩

theorem around_walk (blocks : Forest) {o : Outline} (key : String) (hk : o.Around k ks) :
    (o.walk key blocks).Around k ks := by
  induction blocks generalizing o key with
  | nil => exact hk
  | entity e rest ih => exact ih key ((around_declare o e key).mpr hk)
  | group name members rest ihMembers ihRest =>
      have hadd : (o.addGroup (o.freshKey name) name key members).Around k ks :=
        (around_addGroup (o.freshKey_not_mem name)).mpr (Or.inl hk)
      exact ihRest key (ihMembers (o.freshKey name) hadd)

/-- The containers that are there keep their addresses. -/
theorem Sound.address_declare (h : Sound o) (e : Entity) (key : String)
    (hk : k ∈ o.containers.keys) : (o.declare e key).address k = o.address k := by
  obtain ⟨ks, hks⟩ := exists_around_iff.mpr hk
  exact h.address_congr ((keys_declare o e key).trans (List.append_nil _).symm) hks
    ((around_declare o e key).mpr hks)

theorem Sound.address_addGroup_of_mem (h : Sound o) (hkey : key ∉ o.containers.keys)
    (hk : k ∈ o.containers.keys) (name : String) (blocks : Forest) :
    (o.addGroup key name p blocks).address k = o.address k := by
  obtain ⟨ks, hks⟩ := exists_around_iff.mpr hk
  exact h.address_congr (keys_addGroup hkey) hks ((around_addGroup hkey).mpr (Or.inl hks))

theorem Sound.address_walk (blocks : Forest) (h : Sound o) (key : String)
    (hk : k ∈ o.containers.keys) : (o.walk key blocks).address k = o.address k := by
  obtain ⟨ks, hks⟩ := exists_around_iff.mpr hk
  obtain ⟨more, hmore⟩ := exists_keys_walk blocks o key
  exact h.address_congr hmore hks (around_walk blocks key hks)

/-- The address of a new group is that of its parent with the number of the group in front, which is
how many containers were there before it. -/
theorem Sound.address_addGroup (h : Sound o) (hkey : key ∉ o.containers.keys)
    (hp : p ∈ o.containers.keys) (name : String) (blocks : Forest) :
    (o.addGroup key name p blocks).address key = o.containers.keys.length :: o.address p := by
  obtain ⟨ps, hps⟩ := exists_around_iff.mpr hp
  have haround : (o.addGroup key name p blocks).Around key (o.path p) :=
    (around_addGroup hkey).mpr (Or.inr ⟨rfl, rfl⟩)
  have hparent : (o.addGroup key name p blocks).Around p ps :=
    (around_addGroup hkey).mpr (Or.inl hps)
  have hkeys : (o.addGroup key name p blocks).containers.keys = o.containers.keys ++ [key] :=
    keys_addGroup hkey
  rw [← h.address_congr hkeys hps hparent]
  unfold address
  rw [haround.path_eq, hparent.path_eq, hps.path_eq, List.map_cons, hkeys,
    List.idxOf_append_of_notMem hkey, List.idxOf_cons_self, Nat.add_zero]

theorem Sound.addresses_addGroup (h : Sound o) (hkey : key ∉ o.containers.keys)
    (hp : p ∈ o.containers.keys) (name : String) (blocks : Forest) :
    (o.addGroup key name p blocks).addresses =
      o.addresses ++ [o.containers.keys.length :: o.address p] := by
  rw [h.addresses_congr (keys_addGroup hkey) fun k ks hk => (around_addGroup hkey).mpr (Or.inl hk),
    List.map_singleton, h.address_addGroup hkey hp]

/-- A walk gives the groups the addresses that they have in the text. The induction is on the
blocks: the walk of the members of a group comes before that of the blocks behind it, so the numbers
go on from the one to the other. -/
theorem Sound.addresses_walk (blocks : Forest) {o : Outline} (h : Sound o) {key : String}
    (hkey : key ∈ o.containers.keys) :
    (o.walk key blocks).addresses =
      o.addresses ++ blocks.addresses (o.address key) o.containers.keys.length := by
  induction blocks generalizing o key with
  | nil => exact (List.append_nil _).symm
  | entity e rest ih =>
      have hkeys := keys_declare o e key
      have hkey' : key ∈ (o.declare e key).containers.keys := hkeys ▸ hkey
      have hrest := ih (h.declare e hkey) hkey'
      rw [h.addresses_eq hkeys fun k ks => around_declare o e key, h.address_declare e key hkey,
        hkeys] at hrest
      exact hrest
  | group name members rest ihMembers ihRest =>
      have hfresh := o.freshKey_not_mem name
      let added := o.addGroup (o.freshKey name) name key members
      have hadd : Sound added := h.addGroup hfresh hkey name members
      have hinner : o.freshKey name ∈ added.containers.keys :=
        mem_keys_addGroup hfresh (Or.inl rfl)
      have hlength : added.containers.keys.length = o.containers.keys.length + 1 := by
        rw [keys_addGroup hfresh, List.length_append, List.length_singleton]
      -- the members, inside the new group
      let walked := added.walk (o.freshKey name) members
      have hmembers : walked.addresses = _ := ihMembers hadd hinner
      rw [h.addresses_addGroup hfresh hkey, h.address_addGroup hfresh hkey, hlength] at hmembers
      -- the rest, beside it: the walk over the members has left the container as it was
      have hmem : key ∈ added.containers.keys := mem_keys_addGroup hfresh (Or.inr hkey)
      have houter : walked.address key = o.address key :=
        (hadd.address_walk members _ hmem).trans
          (h.address_addGroup_of_mem hfresh hkey name members)
      have hcount : walked.containers.keys.length =
          o.containers.keys.length + 1 + members.groups.length := by
        rw [← length_addresses, hmembers]
        simp only [List.length_append, List.length_singleton, length_addresses,
          Forest.length_addresses]
      have hkey' : key ∈ walked.containers.keys := mem_keys_walk members _ _ hmem
      have hrest := ihRest (hadd.walk members hinner) hkey'
      rw [houter, hcount, hmembers] at hrest
      refine hrest.trans ?_
      simp only [Forest.addresses, List.append_assoc, List.cons_append, List.nil_append]

theorem addresses_start : start.addresses = [[0]] := by decide

/-- A group, one inside it, and one beside it. -/
example : Forest.addresses [0] 1 (.group "a" (.group "b" .nil .nil) (.group "c" .nil .nil)) =
    [[1, 0], [2, 1, 0], [3, 0]] := rfl

end Outline

end Schematic
