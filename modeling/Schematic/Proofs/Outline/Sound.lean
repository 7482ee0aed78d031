import Schematic.Proofs.Outline.Containers

/-!
# Outlines are sound

The containers form a tree below the root, and what a container lists as its members is what says of
itself that it is there (`Outline.Sound`). Every step of building keeps this: a new group goes into
a container that is there, a repeated declaration takes the node out of the one container that lists
it, and a made-up node goes to the root. So walking over blocks keeps an outline sound
(`Sound.walk`), and the walk finds everything it looks for (`Sound.walkFinds`).
-/

namespace Schematic

namespace Outline

variable {o : Outline} {key p k name id : String} {ks : List String}

/-- The containers form a tree in which outer ones come first, and the members of a container are
the nodes that are at home there and the groups right below it. -/
structure Sound (o : Outline) : Prop where
  first : ∃ rest, o.containers.keys = root :: rest
  around_root : o.Around root []
  parent : ∀ k ks, o.Around k ks → k ≠ root →
    ∃ p ps, ks = p :: ps ∧ o.Around p ps ∧ o.containers.keys.idxOf p < o.containers.keys.idxOf k
  groups : ∀ p k, o.Holds p (.group k) ↔ ∃ ps, o.Around p ps ∧ o.Around k (p :: ps)
  nodes : ∀ p id, o.Holds p (.node id) ↔ ∃ n, o.nodes.get? id = some n ∧ n.home = p
  distinct : o.Distinct

theorem Sound.root_mem (h : Sound o) : root ∈ o.containers.keys := h.around_root.mem_keys

theorem Sound.ne_root_of_around_cons (h : Sound o) (hk : o.Around k (p :: ks)) : k ≠ root := by
  rintro rfl
  cases hk.unique h.around_root

/-- The containers are the root and then the groups. The root is the first that was put there, and
nothing is ever taken away. -/
theorem Sound.keys_eq (h : Sound o) : o.containers.keys = root :: o.groups.map Prod.fst := by
  obtain ⟨rest, hrest⟩ := h.first
  have hnodup := o.containers.nodup_keys
  rw [hrest, List.nodup_cons] at hnodup
  have hgroups : o.groups.map Prod.fst = o.containers.keys.filter fun k => k != root := by
    rw [Outline.groups, KeyedList.keys, List.filter_map]
    rfl
  rw [hgroups, hrest, List.filter_cons_of_neg (by simp)]
  congr 1
  refine (List.filter_eq_self.mpr fun k hk => ?_).symm
  have hne : k ≠ root := fun heq => hnodup.1 (heq ▸ hk)
  simpa using hne

theorem sound_start : Sound start := by
  have hget : ∀ k, start.containers.get? k =
      if k = root then some ⟨"", [], .nil, []⟩ else none := by
    intro k
    rw [start, KeyedList.get?_put]
    rfl
  have haround : ∀ k ks, start.Around k ks ↔ k = root ∧ ks = [] := by
    intro k ks
    rw [Around, hget]
    split
    · next hk => simp [hk, eq_comm]
    · next hk => simp [hk]
  have hholds : ∀ p e, ¬ start.Holds p e := by
    rintro p e ⟨c, hc, he⟩
    rw [hget] at hc
    split at hc
    · cases hc
      cases he
    · cases hc
  refine ⟨⟨[], rfl⟩, (haround _ _).mpr ⟨rfl, rfl⟩, ?_, ?_, ?_, ?_⟩
  · intro k ks hk hne
    exact absurd ((haround k ks).mp hk).1 hne
  · intro p k
    refine ⟨fun h => absurd h (hholds _ _), ?_⟩
    rintro ⟨ps, -, hk⟩
    exact absurd ((haround k _).mp hk).2 (List.cons_ne_nil _ _)
  · intro p id
    refine ⟨fun h => absurd h (hholds _ _), ?_⟩
    rintro ⟨n, hn, -⟩
    cases hn
  · intro p c hc
    rw [hget] at hc
    split at hc
    · cases hc
      exact List.nodup_nil
    · cases hc

/-! ## Groups -/

theorem idxOf_append_singleton_lt {keys : List String} {a b c : String} (hb : b ∈ keys)
    (h : keys.idxOf a < keys.idxOf b) : (keys ++ [c]).idxOf a < (keys ++ [c]).idxOf b := by
  have ha : a ∈ keys := by
    rw [← List.idxOf_lt_length_iff]
    exact Nat.lt_trans h (List.idxOf_lt_length_iff.mpr hb)
  rw [List.idxOf_append_of_mem ha, List.idxOf_append_of_mem hb]
  exact h

/-- A new group in a container that is there. Its way up is that of its parent with the parent in
front, and it is listed by the parent only. -/
theorem Sound.addGroup (h : Sound o) (hkey : key ∉ o.containers.keys)
    (hparent : p ∈ o.containers.keys) (name : String) (blocks : Forest) :
    Sound (o.addGroup key name p blocks) := by
  obtain ⟨ps, hps⟩ := exists_around_iff.mpr hparent
  have haround : ∀ k ks, (o.addGroup key name p blocks).Around k ks ↔
      o.Around k ks ∨ k = key ∧ ks = p :: ps := by
    intro k ks
    refine around_addMember.trans ((around_putContainer hkey).trans ?_)
    rw [hps.path_eq]
  have hparent' : p ∈ (o.putContainer key ⟨name, o.path p, blocks, []⟩).containers.keys := by
    rw [keys_putContainer hkey]
    exact List.mem_append_left _ hparent
  have hholds : ∀ q e, (o.addGroup key name p blocks).Holds q e ↔
      o.Holds q e ∨ q = p ∧ e = .group key := by
    intro q e
    refine (holds_addMember hparent').trans ?_
    rw [holds_putContainer hkey rfl]
  have hkeys : (o.addGroup key name p blocks).containers.keys = o.containers.keys ++ [key] :=
    keys_addMember.trans (keys_putContainer hkey)
  refine ⟨?_, (haround _ _).mpr (Or.inl h.around_root), ?_, ?_, ?_, ?_⟩
  · obtain ⟨rest, hrest⟩ := h.first
    exact ⟨rest ++ [key], by rw [hkeys, hrest]; rfl⟩
  · intro k ks hk hroot
    rw [hkeys]
    rcases (haround k ks).mp hk with hk | ⟨rfl, rfl⟩
    · obtain ⟨q, qs, rfl, hq, hlt⟩ := h.parent k ks hk hroot
      exact ⟨q, qs, rfl, (haround _ _).mpr (Or.inl hq), idxOf_append_singleton_lt hk.mem_keys hlt⟩
    · refine ⟨p, ps, rfl, (haround _ _).mpr (Or.inl hps), ?_⟩
      rw [List.idxOf_append_of_mem hparent, List.idxOf_append_of_notMem hkey]
      exact Nat.lt_of_lt_of_le (List.idxOf_lt_length_iff.mpr hparent) (Nat.le_add_right _ _)
  · intro q k
    rw [hholds, h.groups]
    constructor
    · rintro (⟨qs, hq, hk⟩ | ⟨rfl, hk⟩)
      · exact ⟨qs, (haround _ _).mpr (Or.inl hq), (haround _ _).mpr (Or.inl hk)⟩
      · cases hk
        exact ⟨ps, (haround _ _).mpr (Or.inl hps), (haround _ _).mpr (Or.inr ⟨rfl, rfl⟩)⟩
    · rintro ⟨qs, hq, hk⟩
      rcases (haround _ _).mp hk with hold | ⟨rfl, heq⟩
      · rcases (haround _ _).mp hq with hq' | ⟨rfl, -⟩
        · exact Or.inl ⟨qs, hq', hold⟩
        · obtain ⟨r, rs, heq, hr, -⟩ := h.parent k _ hold (h.ne_root_of_around_cons hold)
          cases heq
          exact absurd hr.mem_keys hkey
      · cases heq
        exact Or.inr ⟨rfl, rfl⟩
  · intro q id
    rw [hholds, h.nodes]
    constructor
    · rintro (hn | ⟨-, hn⟩)
      · exact hn
      · cases hn
    · exact Or.inl
  · refine distinct_addMember (distinct_putContainer h.distinct rfl) fun hheld => ?_
    obtain ⟨qs, -, hk⟩ := (h.groups p key).mp ((holds_putContainer hkey rfl).mp hheld)
    exact hkey hk.mem_keys

/-! ## Nodes -/

/-- A change that moves nodes about and leaves the tree of containers as it is. What has to be shown
of the nodes is that each is listed where it says it is. -/
theorem Sound.congr {o' : Outline} (h : Sound o)
    (hkeys : o'.containers.keys = o.containers.keys)
    (haround : ∀ k ks, o'.Around k ks ↔ o.Around k ks)
    (hgroups : ∀ p k, o'.Holds p (.group k) ↔ o.Holds p (.group k))
    (hnodes : ∀ p id, o'.Holds p (.node id) ↔ ∃ n, o'.nodes.get? id = some n ∧ n.home = p)
    (hdistinct : o'.Distinct) : Sound o' := by
  refine ⟨?_, (haround _ _).mpr h.around_root, ?_, ?_, hnodes, hdistinct⟩
  · rw [hkeys]
    exact h.first
  · intro k ks hk hroot
    obtain ⟨p, ps, rfl, hp, hlt⟩ := h.parent k ks ((haround _ _).mp hk) hroot
    exact ⟨p, ps, rfl, (haround _ _).mpr hp, by rw [hkeys]; exact hlt⟩
  · intro p k
    rw [hgroups, h.groups]
    simp only [haround]

/-- A new node in a container that is there. -/
theorem Sound.addNode (h : Sound o) (hid : id ∉ o.nodes.keys) {n : Node}
    (hhome : n.home ∈ o.containers.keys) :
    Sound (addMember { o with nodes := o.nodes.put id n } n.home (.node id)) := by
  have hholds : ∀ p e,
      (addMember { o with nodes := o.nodes.put id n } n.home (.node id)).Holds p e ↔
        o.Holds p e ∨ p = n.home ∧ e = .node id := fun p e => holds_addMember (o := { o with
          nodes := o.nodes.put id n }) hhome
  refine h.congr keys_addMember (fun k ks => around_addMember) ?_ ?_ ?_
  · intro p k
    rw [hholds]
    simp
  · intro p j
    rw [hholds, h.nodes]
    show _ ↔ ∃ m, (o.nodes.put id n).get? j = some m ∧ m.home = p
    rw [KeyedList.get?_put]
    by_cases hj : j = id
    · rw [if_pos hj, hj, KeyedList.get?_eq_none_iff.mpr hid]
      simp [eq_comm]
    · rw [if_neg hj]
      simp [hj]
  · refine distinct_addMember h.distinct fun hheld => hid ?_
    obtain ⟨m, hm, -⟩ := (h.nodes n.home id).mp hheld
    exact KeyedList.mem_keys_of_get? hm

/-- A node that changes and stays where it is. -/
theorem Sound.keepNode (h : Sound o) {n m : Node} (hn : o.nodes.get? id = some n)
    (hhome : m.home = n.home) : Sound { o with nodes := o.nodes.put id m } := by
  refine h.congr rfl (fun _ _ => Iff.rfl) (fun _ _ => Iff.rfl) ?_ h.distinct
  intro p j
  refine (h.nodes p j).trans ?_
  show _ ↔ ∃ m', (o.nodes.put id m).get? j = some m' ∧ m'.home = p
  rw [KeyedList.get?_put]
  by_cases hj : j = id
  · rw [if_pos hj, hj, hn]
    simp [hhome]
  · rw [if_neg hj]

/-- A node that changes and goes to another container. It is taken out of the list of the one before
it is put into that of the other, so that no two list it. -/
theorem Sound.moveNode (h : Sound o) {n m : Node} (hn : o.nodes.get? id = some n)
    (hhome : m.home ∈ o.containers.keys) (hne : n.home ≠ m.home) :
    Sound ((removeMember { o with nodes := o.nodes.put id m } n.home (.node id)).addMember m.home
      (.node id)) := by
  have hdistinct : Distinct { o with nodes := o.nodes.put id m } := h.distinct
  -- the node is gone from its old container before it comes into the new one
  have hremove : ∀ p e, (removeMember { o with nodes := o.nodes.put id m } n.home
      (.node id)).Holds p e ↔ o.Holds p e ∧ ¬ (p = n.home ∧ e = .node id) :=
    fun p e => holds_removeMember hdistinct
  have hkeys : (removeMember { o with nodes := o.nodes.put id m } n.home (.node id)).containers.keys
      = o.containers.keys := keys_removeMember
  have hholds : ∀ p e, ((removeMember { o with nodes := o.nodes.put id m } n.home
      (.node id)).addMember m.home (.node id)).Holds p e ↔
        (o.Holds p e ∧ ¬ (p = n.home ∧ e = .node id)) ∨ p = m.home ∧ e = .node id := by
    intro p e
    rw [holds_addMember (by rw [hkeys]; exact hhome), hremove]
  refine h.congr (keys_addMember.trans keys_removeMember)
    (fun k ks => around_addMember.trans around_removeMember) ?_ ?_ ?_
  · intro p k
    rw [hholds]
    simp
  · intro p j
    rw [hholds, h.nodes]
    show _ ↔ ∃ m', (o.nodes.put id m).get? j = some m' ∧ m'.home = p
    rw [KeyedList.get?_put]
    by_cases hj : j = id
    · rw [if_pos hj, hj, hn]
      constructor
      · rintro (⟨⟨n', hn', rfl⟩, hnot⟩ | ⟨rfl, -⟩)
        · cases hn'
          exact absurd ⟨rfl, rfl⟩ hnot
        · exact ⟨m, rfl, rfl⟩
      · rintro ⟨m', hm', rfl⟩
        cases hm'
        exact Or.inr ⟨rfl, rfl⟩
    · rw [if_neg hj]
      simp [hj]
  · refine distinct_addMember (distinct_removeMember hdistinct) fun hheld => ?_
    obtain ⟨n', hn', heq⟩ := (h.nodes m.home id).mp ((hremove _ _).mp hheld).1
    rw [hn] at hn'
    cases hn'
    exact hne heq

theorem Sound.declare (h : Sound o) (e : Entity) (hkey : key ∈ o.containers.keys) :
    Sound (o.declare e key) := by
  unfold Outline.declare
  cases hn : o.nodes.get? e.id with
  | none => exact h.addNode (n := ⟨e, key, false⟩) (KeyedList.get?_eq_none_iff.mp hn) hkey
  | some n =>
      simp only
      split
      · next hhome => exact h.keepNode hn hhome.symm
      · next hne =>
        exact h.moveNode (m := { n with entity := n.entity.merge e, home := key }) hn hkey hne

theorem keys_declare (o : Outline) (e : Entity) (key : String) :
    (o.declare e key).containers.keys = o.containers.keys := by
  unfold Outline.declare
  split
  · exact keys_addMember
  · simp only
    split
    · rfl
    · exact keys_addMember.trans keys_removeMember

theorem Sound.addStub (h : Sound o) (hid : id ∉ o.nodes.keys) : Sound (o.addStub id) :=
  h.addNode (n := ⟨.bare id, root, true⟩) hid h.root_mem

/-! ## Walking -/

theorem mem_keys_addGroup {blocks : Forest} (hkey : key ∉ o.containers.keys)
    (hk : k = key ∨ k ∈ o.containers.keys) :
    k ∈ (o.addGroup key name p blocks).containers.keys := by
  rw [addGroup, keys_addMember]
  show k ∈ (o.putContainer key ⟨name, o.path p, blocks, []⟩).containers.keys
  rw [keys_putContainer hkey, List.mem_append, List.mem_singleton]
  exact hk.symm

/-- Walking keeps the containers that are there. -/
theorem mem_keys_walk (blocks : Forest) (o : Outline) (key : String) {k : String}
    (hk : k ∈ o.containers.keys) : k ∈ (o.walk key blocks).containers.keys := by
  induction blocks generalizing o key with
  | nil => exact hk
  | entity e rest ih =>
      refine ih (o.declare e key) key ?_
      rw [keys_declare]
      exact hk
  | group name members rest ihMembers ihRest =>
      refine ihRest _ key (ihMembers _ _ ?_)
      exact mem_keys_addGroup (o.freshKey_not_mem name) (Or.inr hk)

theorem Sound.walk (blocks : Forest) {o : Outline} (h : Sound o) {key : String}
    (hkey : key ∈ o.containers.keys) : Sound (o.walk key blocks) := by
  induction blocks generalizing o key with
  | nil => exact h
  | entity e rest ih =>
      refine ih (h.declare e hkey) ?_
      rw [keys_declare]
      exact hkey
  | group name members rest ihMembers ihRest =>
      have hfresh := o.freshKey_not_mem name
      have hadd := h.addGroup hfresh hkey name members
      refine ihRest (ihMembers hadd ?_) (mem_keys_walk members _ _ ?_)
      · exact mem_keys_addGroup hfresh (Or.inl rfl)
      · exact mem_keys_addGroup hfresh (Or.inr hkey)

/-- Every look-up of the walk finds what it looks for: the container that is walked is there, a node
that is declared again is where it says it is, and the key for a new group is free. -/
def WalkFinds (o : Outline) (key : String) : Forest → Prop
  | .nil => True
  | .entity e rest =>
    key ∈ o.containers.keys ∧
      (∀ n, o.nodes.get? e.id = some n → o.Holds n.home (.node e.id)) ∧
      (o.declare e key).WalkFinds key rest
  | .group name members rest =>
    let inner := o.freshKey name
    key ∈ o.containers.keys ∧ inner ∉ o.containers.keys ∧
      (o.addGroup inner name key members).WalkFinds inner members ∧
      ((o.addGroup inner name key members).walk inner members).WalkFinds key rest

theorem Sound.walkFinds (blocks : Forest) {o : Outline} (h : Sound o) {key : String}
    (hkey : key ∈ o.containers.keys) : o.WalkFinds key blocks := by
  induction blocks generalizing o key with
  | nil => trivial
  | entity e rest ih =>
      refine ⟨hkey, fun n hn => (h.nodes _ _).mpr ⟨n, hn, rfl⟩, ih (h.declare e hkey) ?_⟩
      rw [keys_declare]
      exact hkey
  | group name members rest ihMembers ihRest =>
      have hfresh := o.freshKey_not_mem name
      have hadd := h.addGroup hfresh hkey name members
      have hinner : o.freshKey name ∈
          (o.addGroup (o.freshKey name) name key members).containers.keys :=
        mem_keys_addGroup hfresh (Or.inl rfl)
      exact ⟨hkey, hfresh, ihMembers hadd hinner, ihRest (hadd.walk members hinner)
        (mem_keys_walk members _ _ (mem_keys_addGroup hfresh (Or.inr hkey)))⟩

end Outline

end Schematic
