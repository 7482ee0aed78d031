import Schematic.Proofs.FirstOccurrences
import Schematic.Proofs.Outline.Tree

/-!
# Declarations

A text declares an entity as often as it likes, in whatever groups (`Forest.declarations`). The walk
over the blocks merges each declaration into the node that is there and moves the node to the
container of the declaration, so what it leaves of a node is the fold of this step over its
declarations (`Sound.placed?_walk`). Of the fold only this is left at the end: the attributes of all
declarations with the later value of each key, the last body, and the last container
(`exists_merged`).
-/

namespace Schematic

namespace Forest

/-- Every declaration of an entity with the address of the container it is made in, in the order of
the text; `outer` and `next` are those of `addresses`. -/
def declarations (outer : List Nat) (next : Nat) : Forest → List (Entity × List Nat)
  | .nil => []
  | .entity e rest => (e, outer) :: rest.declarations outer next
  | .group _ members rest =>
    members.declarations (next :: outer) (next + 1) ++
      rest.declarations outer (next + 1 + members.groups.length)

theorem map_fst_declarations (blocks : Forest) (outer : List Nat) (next : Nat) :
    (blocks.declarations outer next).map Prod.fst = blocks.entities := by
  induction blocks generalizing outer next with
  | nil => rfl
  | entity e rest ih => exact congrArg (e :: ·) (ih outer next)
  | group name members rest ihMembers ihRest =>
      rw [declarations, List.map_append, ihMembers, ihRest, entities]

/-- The declarations of the entity `id`. -/
def declarationsOf (blocks : Forest) (id : String) : List (Entity × List Nat) :=
  (blocks.declarations [0] 1).filter fun d => d.1.id == id

theorem map_fst_declarationsOf (blocks : Forest) (id : String) :
    (blocks.declarationsOf id).map Prod.fst = blocks.entities.filter fun e => e.id == id := by
  rw [← map_fst_declarations blocks [0] 1, List.filter_map]
  rfl

/-- The address of the container in which the entity is declared last. -/
def lastAddress? (blocks : Forest) (id : String) : Option (List Nat) :=
  (blocks.declarationsOf id).getLast?.map Prod.snd

end Forest

/-! ## Declaring again -/

/-- What a declaration makes of what is known of its entity and of the address it is at: the
entities are merged, and the address is the new one. -/
def redeclare : Option (Entity × List Nat) → Entity × List Nat → Option (Entity × List Nat)
  | none, d => some d
  | some known, d => some (known.1.merge d.1, d.2)

/-- The entity is made of the given declarations: the last id, of each key the last value, the keys
in the order in which they came in, and the last body. -/
structure IsMerged (declarations : List Entity) (e : Entity) : Prop where
  id : declarations.getLast?.map Entity.id = some e.id
  attributes : ∀ k, e.attributes.get? k =
    declarations.reverse.findSome? fun d => d.attributes.get? k
  keys : e.attributes.keys = (declarations.flatMap fun d => d.attributes.keys).eraseDups
  fields : e.fields = declarations.reverse.findSome? Entity.fields

theorem IsMerged.id_eq {ds : List Entity} {e : Entity} (h : IsMerged ds e) {id : String}
    (hds : ∀ d ∈ ds, d.id = id) : e.id = id := by
  obtain ⟨d, hd, heq⟩ := Option.map_eq_some_iff.mp h.id
  rw [← heq]
  exact hds d (List.mem_of_getLast? hd)

theorem isMerged_singleton (e : Entity) : IsMerged [e] e := by
  refine ⟨rfl, fun k => ?_, ?_, ?_⟩
  · simp
  · rw [List.flatMap_singleton, eraseDups_of_nodup e.attributes.nodup_keys]
  · simp

theorem IsMerged.merge {ds : List Entity} {known : Entity} (h : IsMerged ds known) (e : Entity) :
    IsMerged (ds ++ [e]) (known.merge e) := by
  refine ⟨by rw [List.getLast?_concat]; rfl, fun k => ?_, ?_, ?_⟩
  · rw [List.reverse_concat, List.findSome?_cons]
    show (known.attributes.update e.attributes).get? k = _
    rw [KeyedList.get?_update, h.attributes]
    cases e.attributes.get? k <;> rfl
  · show (known.attributes.update e.attributes).keys = _
    rw [KeyedList.keys_update, h.keys, eraseDups_eraseDups_append, List.flatMap_append,
      List.flatMap_singleton]
  · rw [List.reverse_concat, List.findSome?_cons]
    show e.fields.or known.fields = _
    rw [h.fields]
    cases e.fields <;> rfl

/-- Declaring over and over leaves the declarations merged, at the last address. The induction puts
one more declaration behind the others. -/
theorem exists_merged {ds : List (Entity × List Nat)} (h : ds ≠ []) :
    ∃ e a, ds.foldl redeclare none = some (e, a) ∧ IsMerged (ds.map Prod.fst) e ∧
      ds.getLast?.map Prod.snd = some a := by
  induction ds using List.reverseRecOn with
  | nil => exact absurd rfl h
  | append_singleton ds d ih =>
      rw [List.foldl_concat, List.getLast?_concat, List.map_append, List.map_singleton]
      cases ds with
      | nil => exact ⟨d.1, d.2, rfl, isMerged_singleton d.1, rfl⟩
      | cons c cs =>
          obtain ⟨e, a, hfold, hmerged, -⟩ := ih (List.cons_ne_nil c cs)
          rw [hfold]
          exact ⟨e.merge d.1, d.2, rfl, hmerged.merge d.1, rfl⟩

namespace Outline

variable {o w : Outline} {key p k name id : String} {ks : List String}

/-- What the outline knows of a node: its entity and the address of its container. -/
def placed? (o : Outline) (id : String) : Option (Entity × List Nat) :=
  (o.nodes.get? id).map fun n => (n.entity, o.address n.home)

theorem Sound.home_mem_keys (h : Sound o) {n : Node} (hn : o.nodes.get? id = some n) :
    n.home ∈ o.containers.keys := (h.holds_home hn).mem_keys

/-- Nodes that are the same are placed the same if the containers keep their addresses. -/
theorem Sound.placed?_congr {o' : Outline} (h : Sound o)
    (hnode : o'.nodes.get? id = o.nodes.get? id)
    (haddress : ∀ k ∈ o.containers.keys, o'.address k = o.address k) :
    o'.placed? id = o.placed? id := by
  unfold placed?
  rw [hnode]
  cases hn : o.nodes.get? id with
  | none => rfl
  | some n => rw [Option.map_some, Option.map_some, haddress n.home (h.home_mem_keys hn)]

/-! ## The steps of the walk -/

theorem get?_node_declare (o : Outline) (e : Entity) (key id : String) :
    (o.declare e key).nodes.get? id =
      if id = e.id then
        match o.nodes.get? e.id with
        | none => some ⟨e, key, false⟩
        | some n => some { n with entity := n.entity.merge e, home := key }
      else o.nodes.get? id := by
  unfold Outline.declare
  cases hn : o.nodes.get? e.id with
  | none => exact KeyedList.get?_put
  | some n =>
      simp only
      split <;> exact KeyedList.get?_put

theorem nodeIds_declare (o : Outline) (e : Entity) (key : String) :
    (o.declare e key).nodeIds = (o.nodeIds ++ [e.id]).eraseDups := by
  unfold Outline.declare
  split
  · exact KeyedList.keys_put ..
  · simp only
    split <;> exact KeyedList.keys_put ..

theorem Sound.placed?_declare (h : Sound o) (e : Entity) (hkey : key ∈ o.containers.keys)
    (id : String) :
    (o.declare e key).placed? id =
      if e.id = id then redeclare (o.placed? id) (e, o.address key) else o.placed? id := by
  by_cases hid : id = e.id
  · subst hid
    have haddress := h.address_declare e key hkey
    rw [if_pos rfl, placed?, placed?, get?_node_declare, if_pos rfl]
    cases o.nodes.get? e.id with
    | none => rw [Option.map_some, haddress]; rfl
    | some n => rw [Option.map_some, haddress]; rfl
  · have hnode := get?_node_declare o e key id
    rw [if_neg hid] at hnode
    rw [if_neg (Ne.symm hid)]
    exact h.placed?_congr hnode fun k hk => h.address_declare e key hk

theorem Sound.length_keys_walk (blocks : Forest) (h : Sound o) (hkey : key ∈ o.containers.keys) :
    (o.walk key blocks).containers.keys.length =
      o.containers.keys.length + blocks.groups.length := by
  rw [← length_addresses, h.addresses_walk blocks hkey, List.length_append, length_addresses,
    Forest.length_addresses]

/-! ## The walk -/

/-- A walk leaves of a node what its declarations make of it one after the other. The induction is
on the blocks, for all outlines and containers that the walk may begin with, since a group walks its
members in a larger outline. -/
theorem Sound.placed?_walk (blocks : Forest) {o : Outline} (h : Sound o) {key : String}
    (hkey : key ∈ o.containers.keys) (id : String) :
    (o.walk key blocks).placed? id =
      ((blocks.declarations (o.address key) o.containers.keys.length).filter
        fun d => d.1.id == id).foldl redeclare (o.placed? id) := by
  induction blocks generalizing o key with
  | nil => rfl
  | entity e rest ih =>
      have hkey' : key ∈ (o.declare e key).containers.keys := by
        rw [keys_declare]
        exact hkey
      rw [Outline.walk, ih (h.declare e hkey) hkey', h.address_declare e key hkey, keys_declare,
        h.placed?_declare e hkey, Forest.declarations]
      by_cases hid : e.id = id
      · rw [if_pos hid, List.filter_cons_of_pos (by simpa using hid), List.foldl_cons]
      · rw [if_neg hid, List.filter_cons_of_neg (by simpa using hid)]
  | group name members rest ihMembers ihRest =>
      have hfresh := o.freshKey_not_mem name
      let added := o.addGroup (o.freshKey name) name key members
      have hadd : Sound added := h.addGroup hfresh hkey name members
      have hinner : o.freshKey name ∈ added.containers.keys :=
        mem_keys_addGroup hfresh (Or.inl rfl)
      have houter : key ∈ added.containers.keys := mem_keys_addGroup hfresh (Or.inr hkey)
      have hlength : added.containers.keys.length = o.containers.keys.length + 1 := by
        rw [keys_addGroup hfresh, List.length_append, List.length_singleton]
      have hplaced : added.placed? id = o.placed? id :=
        h.placed?_congr rfl fun k hk => h.address_addGroup_of_mem hfresh hk name members
      -- the rest begins with what the members have left, so the two folds are one
      rw [Outline.walk, ihRest (hadd.walk members hinner) (mem_keys_walk members _ _ houter),
        hadd.address_walk members _ houter, hadd.length_keys_walk members hinner,
        ihMembers hadd hinner, hplaced, h.address_addGroup hfresh hkey,
        h.address_addGroup_of_mem hfresh hkey, hlength, ← List.foldl_append, ← List.filter_append]
      rfl

theorem nodeIds_walk (blocks : Forest) (o : Outline) (key : String) :
    (o.walk key blocks).nodeIds =
      (o.nodeIds ++ blocks.entities.map Entity.id).eraseDups := by
  induction blocks generalizing o key with
  | nil =>
      rw [Forest.entities, List.map_nil, List.append_nil]
      exact (eraseDups_of_nodup o.nodes.nodup_keys).symm
  | entity e rest ih =>
      rw [walk, ih, nodeIds_declare, eraseDups_eraseDups_append, List.append_assoc,
        Forest.entities, List.map_cons, List.singleton_append]
  | group name members rest ihMembers ihRest =>
      rw [walk, ihRest, ihMembers, eraseDups_eraseDups_append, List.append_assoc, Forest.entities,
        List.map_append]
      rfl

/-! ## Whole documents -/

/-- The blocks of a document leave of a node what its declarations make of it. -/
theorem placed?_blocks (blocks : Forest) (id : String) :
    (start.walk root blocks).placed? id = (blocks.declarationsOf id).foldl redeclare none := by
  rw [sound_start.placed?_walk blocks sound_start.root_mem]
  rfl

theorem lastAddress?_eq (blocks : Forest) (id : String) :
    blocks.lastAddress? id = ((start.walk root blocks).placed? id).map Prod.snd := by
  rw [placed?_blocks, Forest.lastAddress?]
  by_cases hds : blocks.declarationsOf id = []
  · rw [hds]
    rfl
  · obtain ⟨e, a, hfold, -, hlast⟩ := exists_merged hds
    rw [hfold, hlast]
    rfl

/-- Resolving edges moves no container. -/
theorem Stubbed.address (h : Stubbed w o) (hw : Sound w) (hk : k ∈ w.containers.keys) :
    o.address k = w.address k := by
  obtain ⟨ks, hks⟩ := exists_around_iff.mpr hk
  exact hw.address_congr (h.keys.trans (List.append_nil _).symm) hks ((h.around k ks).mpr hks)

/-- Resolving edges leaves the declared nodes as they are: the nodes that it makes up are new, and
none is merged into another. -/
theorem Stubbed.placed? (h : Stubbed w o) (hw : Sound w) (hid : id ∈ w.nodeIds) :
    o.placed? id = w.placed? id :=
  hw.placed?_congr (h.kept id hid) fun _ hk => h.address hw hk

end Outline

end Schematic
