import Schematic.Proofs.Outline.Tree

/-!
# Pre-order

The groups of a text can be listed in three ways: by recursion on the blocks (`Forest.groups`), with
a stack of the blocks that are still to be looked at (`Forest.fromStack`), and by a search of the
containers that goes from each container to the groups among its members (`Outline.Preorder`). All
three list them in the same order: `Forest.fromStack_top`, `preorder_ofDocument`.
-/

namespace Schematic

/-! ## With a stack -/

/-- A block: an entity, or a group with its name and its blocks. -/
inductive Block where
  | entity (e : Entity)
  | group (name : String) (members : Forest)
deriving Repr, DecidableEq

namespace Forest

/-- The outermost blocks. -/
def top : Forest → List Block
  | .nil => []
  | .entity e rest => .entity e :: rest.top
  | .group name members rest => .group name members :: rest.top

/-- The number of all blocks, at whatever depth. -/
def size : Forest → Nat
  | .nil => 0
  | .entity _ rest => 1 + rest.size
  | .group _ members rest => 1 + members.size + rest.size

end Forest

/-- The number of blocks that a block is made of, with itself. -/
def Block.size : Block → Nat
  | .entity _ => 1
  | .group _ members => 1 + members.size

namespace Forest

/-- The number of blocks on a stack, with those that they are made of. -/
def stackSize : List Block → Nat
  | [] => 0
  | block :: stack => block.size + stackSize stack

theorem stackSize_top_append (blocks : Forest) (stack : List Block) :
    stackSize (blocks.top ++ stack) = blocks.size + stackSize stack := by
  induction blocks with
  | nil => rw [top, List.nil_append, size, Nat.zero_add]
  | entity e rest ih => rw [top, List.cons_append, stackSize, ih, size, Block.size, Nat.add_assoc]
  | group name members rest _ ih =>
      rw [top, List.cons_append, stackSize, ih, size, Block.size, ← Nat.add_assoc]

/-- The groups among the blocks of a stack and inside them: the uppermost block is taken away, and
if it is a group, its blocks are put on the stack, the first one uppermost. -/
def fromStack : List Block → List (String × Forest)
  | [] => []
  | .entity _ :: stack => fromStack stack
  | .group name members :: stack => (name, members) :: fromStack (members.top ++ stack)
termination_by stack => stackSize stack
decreasing_by
  · rw [stackSize, Block.size]
    omega
  · rw [stackSize, stackSize_top_append, Block.size]
    omega

/-- The blocks of a forest give its groups, and then it is the turn of the rest of the stack. The
induction is on the blocks, for every stack: what stands behind a group waits there while the
members of the group are looked at. -/
theorem fromStack_top_append (blocks : Forest) (stack : List Block) :
    fromStack (blocks.top ++ stack) = blocks.groups ++ fromStack stack := by
  induction blocks generalizing stack with
  | nil => rfl
  | entity e rest ih => rw [top, List.cons_append, fromStack, ih, groups]
  | group name members rest ihMembers ihRest =>
      rw [top, List.cons_append, fromStack, ihMembers, ihRest, groups, List.cons_append,
        List.append_assoc]

theorem fromStack_top (blocks : Forest) : fromStack blocks.top = blocks.groups := by
  have h := fromStack_top_append blocks []
  rwa [List.append_nil, fromStack, List.append_nil] at h

end Forest

namespace Outline

variable {o : Outline} {key p k q name id : String} {ks visited : List String}

/-! ## From container to container -/

/-- The keys of the groups in a list of members. -/
def groupKeys : List Endpoint → List String :=
  List.filterMap fun
    | .node _ => none
    | .group k => some k

/-- The groups among the members of a container, in their order. -/
def subgroups (o : Outline) (key : String) : List String :=
  match o.containers.get? key with
  | none => []
  | some c => groupKeys c.members

/-- A search in depth that has the containers `todo` still to visit: the first of them, then
whatever is reached from it, then the others. -/
inductive Preorder (o : Outline) : (todo visited : List String) → Prop
  | nil : Preorder o [] []
  | cons {key : String} {todo inner visited : List String}
      (hinner : Preorder o (o.subgroups key) inner) (h : Preorder o todo visited) :
      Preorder o (key :: todo) (key :: (inner ++ visited))

/-- There is one such search only, as every step is determined by the container that is visited and
by what is still to be visited. -/
theorem Preorder.unique {visited' : List String} (h : Preorder o ks visited)
    (h' : Preorder o ks visited') : visited' = visited := by
  induction h generalizing visited' with
  | nil =>
      cases h'
      rfl
  | cons _ _ ihInner ihRest =>
      cases h' with
      | cons hinner hrest => rw [ihInner hinner, ihRest hrest]

/-- Only the groups in the containers that are visited matter. So a change in another container
leaves the search as it is. -/
theorem Preorder.congr {o' : Outline} (h : Preorder o ks visited)
    (heq : ∀ k ∈ visited, o'.subgroups k = o.subgroups k) : Preorder o' ks visited := by
  induction h with
  | nil => exact .nil
  | @cons key _ inner visited _ _ ihInner ihRest =>
      have hinner : Preorder o' (o'.subgroups key) inner := by
        rw [heq key (List.mem_cons_self ..)]
        exact ihInner fun k hk => heq k (List.mem_cons_of_mem _ (List.mem_append_left _ hk))
      exact .cons hinner
        (ihRest fun k hk => heq k (List.mem_cons_of_mem _ (List.mem_append_right _ hk)))

/-! ## What the steps do to the groups in a container -/

theorem subgroups_modifyMembers {g : List Endpoint → List Endpoint} :
    (o.modifyMembers key g).subgroups k =
      match o.containers.get? k with
      | none => []
      | some c => groupKeys (if k = key then g c.members else c.members) := by
  unfold subgroups modifyMembers
  simp only [KeyedList.get?_modify]
  cases o.containers.get? k with
  | none => rfl
  | some c =>
      simp only [Option.map_some]
      split <;> rfl

/-- Nodes come and go, and the groups stay. -/
theorem subgroups_congr {g : List Endpoint → List Endpoint}
    (hg : ∀ members, groupKeys (g members) = groupKeys members) :
    (o.modifyMembers key g).subgroups k = o.subgroups k := by
  rw [subgroups_modifyMembers, subgroups]
  cases o.containers.get? k with
  | none => rfl
  | some c =>
      simp only
      split
      · exact hg c.members
      · rfl

theorem subgroups_addNode : (o.addMember key (.node id)).subgroups k = o.subgroups k := by
  refine subgroups_congr (g := fun members => members ++ [.node id]) fun members => ?_
  rw [groupKeys, List.filterMap_append]
  exact List.append_nil _

theorem subgroups_removeNode : (o.removeMember key (.node id)).subgroups k = o.subgroups k := by
  refine subgroups_congr (g := fun members => members.erase (.node id)) fun members => ?_
  induction members with
  | nil => rfl
  | cons e es ih =>
      rw [List.erase_cons]
      split
      · next he =>
        rw [eq_of_beq he]
        rfl
      · cases e with
        | node _ => exact ih
        | group k => exact congrArg (k :: ·) ih

theorem subgroups_declare (o : Outline) (e : Entity) (key k : String) :
    (o.declare e key).subgroups k = o.subgroups k := by
  unfold Outline.declare
  split
  · exact subgroups_addNode
  · simp only
    split
    · rfl
    · exact subgroups_addNode.trans subgroups_removeNode

theorem subgroups_of_not_mem (hk : k ∉ o.containers.keys) : o.subgroups k = [] := by
  rw [subgroups, KeyedList.get?_eq_none_iff.mpr hk]

/-- A new group has no groups in it and comes last in its container; it is added before its own
members are walked. -/
theorem subgroups_addGroup (hkey : key ∉ o.containers.keys) (hp : p ∈ o.containers.keys)
    (name : String) (blocks : Forest) (k : String) :
    (o.addGroup key name p blocks).subgroups k =
      if k = p then o.subgroups k ++ [key] else o.subgroups k := by
  let put := o.putContainer key ⟨name, o.path p, blocks, []⟩
  have hget : ∀ k, put.containers.get? k =
      if k = key then some ⟨name, o.path p, blocks, []⟩ else o.containers.get? k :=
    fun k => KeyedList.get?_put
  have hput : put.subgroups k = o.subgroups k := by
    by_cases hk : k = key
    · rw [subgroups, hget, if_pos hk, hk, subgroups_of_not_mem hkey]
      rfl
    · rw [subgroups, hget, if_neg hk, subgroups]
  refine (subgroups_modifyMembers (o := put) (g := fun members => members ++ [.group key])).trans ?_
  by_cases hk : k = p
  · obtain ⟨c, hc⟩ := KeyedList.mem_keys_iff.mp hp
    have hne : k ≠ key := fun heq => hkey (heq ▸ hk ▸ hp)
    rw [if_pos hk, hget, if_neg hne, hk, hc, subgroups, hc]
    simp only [if_true]
    exact List.filterMap_append
  · rw [if_neg hk, ← hput]
    simp only [if_neg hk, subgroups]

theorem subgroups_addStub (o : Outline) (id k : String) :
    (o.addStub id).subgroups k = o.subgroups k := subgroups_addNode

theorem subgroups_resolve (o : Outline) (name k : String) :
    (o.resolve name).2.subgroups k = o.subgroups k := by
  unfold Outline.resolve
  split
  · rfl
  · split
    · rfl
    · split
      · rfl
      · exact subgroups_addStub o name k

theorem subgroups_addEdge (o : Outline) (e : Edge) (k : String) :
    (o.addEdge e).subgroups k = o.subgroups k := by
  rw [addEdge_eq]
  exact (subgroups_resolve (o.resolve e.source).2 e.target k).trans (subgroups_resolve o e.source k)

theorem subgroups_foldl (es : List Edge) (o : Outline) (k : String) :
    (es.foldl addEdge o).subgroups k = o.subgroups k := by
  induction es generalizing o with
  | nil => rfl
  | cons e es ih => exact (ih (o.addEdge e)).trans (subgroups_addEdge o e k)

/-! ## The walk -/

/-- A walk adds groups to the container `key`, its other containers are what is reached from these,
and each of them comes when a search in depth gets to it. -/
theorem exists_preorder_walk (blocks : Forest) {o : Outline} {key : String}
    (hkey : key ∈ o.containers.keys) :
    ∃ tops more, (o.walk key blocks).containers.keys = o.containers.keys ++ more ∧
      (∀ k ∈ o.containers.keys, (o.walk key blocks).subgroups k =
        if k = key then o.subgroups k ++ tops else o.subgroups k) ∧
      (o.walk key blocks).Preorder tops more := by
  induction blocks generalizing o key with
  | nil =>
      refine ⟨[], [], (List.append_nil _).symm, fun k _ => ?_, .nil⟩
      rw [List.append_nil, ite_self]
      rfl
  | entity e rest ih =>
      have hkeys := keys_declare o e key
      obtain ⟨tops, more, hmore, hgroups, hsearch⟩ := ih (o := o.declare e key) (hkeys ▸ hkey)
      refine ⟨tops, more, hkeys ▸ hmore, fun k hk => ?_, hsearch⟩
      rw [← subgroups_declare o e key k]
      exact hgroups k (hkeys ▸ hk)
  | group name members rest ihMembers ihRest =>
      let inner := o.freshKey name
      have hfresh : inner ∉ o.containers.keys := o.freshKey_not_mem name
      let added := o.addGroup inner name key members
      have hadded : added.containers.keys = o.containers.keys ++ [inner] := keys_addGroup hfresh
      have haddedGroups := subgroups_addGroup hfresh hkey name members
      -- the members, inside the new group
      let walked := added.walk inner members
      have hinner : inner ∈ added.containers.keys := mem_keys_addGroup hfresh (Or.inl rfl)
      obtain ⟨topsIn, moreIn, hkeysIn, hgroupsIn, hsearchIn⟩ := ihMembers hinner
      -- the rest, beside it
      have houter : key ∈ walked.containers.keys :=
        mem_keys_walk members _ _ (mem_keys_addGroup hfresh (Or.inr hkey))
      obtain ⟨tops, more, hkeys, hgroups, hsearch⟩ := ihRest (o := walked) houter
      have hsplit : walked.containers.keys = o.containers.keys ++ inner :: moreIn := by
        rw [hkeysIn, hadded, List.append_assoc, List.singleton_append]
      have hnew : ∀ k ∈ inner :: moreIn, k ∈ walked.containers.keys ∧ k ≠ key := by
        intro k hk
        have hnodup := walked.containers.nodup_keys
        rw [hsplit] at hnodup ⊢
        exact ⟨List.mem_append_right _ hk,
          fun heq => (List.nodup_append.mp hnodup).2.2 key hkey k hk heq.symm⟩
      -- the rest changes nothing about the new group and what is inside it
      have hkept : ∀ k ∈ inner :: moreIn,
          (walked.walk key rest).subgroups k = walked.subgroups k := by
        intro k hk
        rw [hgroups k (hnew k hk).1, if_neg (hnew k hk).2]
      have htops : (walked.walk key rest).subgroups inner = topsIn := by
        have hne := (hnew inner (List.mem_cons_self ..)).2
        rw [hkept inner (List.mem_cons_self ..),
          hgroupsIn inner hinner, if_pos rfl, haddedGroups, if_neg hne,
          subgroups_of_not_mem hfresh, List.nil_append]
      refine ⟨inner :: tops, inner :: (moreIn ++ more), ?_, fun k hk => ?_, .cons ?_ hsearch⟩
      · show (walked.walk key rest).containers.keys = _
        rw [hkeys, hsplit, List.append_assoc, List.cons_append]
      · have hne : k ≠ inner := fun heq => hfresh (heq ▸ hk)
        show (walked.walk key rest).subgroups k = _
        rw [hgroups k (mem_keys_walk members _ _ (mem_keys_addGroup hfresh (Or.inr hk))),
          hgroupsIn k (mem_keys_addGroup hfresh (Or.inr hk)), if_neg hne, haddedGroups]
        split
        · rw [List.append_assoc, List.singleton_append]
        · rfl
      · show (walked.walk key rest).Preorder ((walked.walk key rest).subgroups inner) moreIn
        rw [htops]
        exact hsearchIn.congr fun k hk => hkept k (List.mem_cons_of_mem _ hk)

/-- The containers of a document come in the order of a search in depth that begins at the root: the
walk adds a group when it meets it and goes on with the members of that group at once. -/
theorem preorder_ofDocument (d : Document) :
    (ofDocument d).Preorder [root] (ofDocument d).containers.keys := by
  obtain ⟨tops, more, hkeys, hgroups, hsearch⟩ :=
    exists_preorder_walk d.blocks sound_start.root_mem
  have hedges : ∀ k, (ofDocument d).subgroups k = (start.walk root d.blocks).subgroups k :=
    subgroups_foldl d.edges _
  have hkept : (ofDocument d).containers.keys = (start.walk root d.blocks).containers.keys :=
    ((Stubbed.refl _).foldl d.edges).keys
  have hroot : (ofDocument d).subgroups root = tops := by
    rw [hedges, hgroups root sound_start.root_mem, if_pos rfl]
    rfl
  rw [hkept, hkeys]
  show (ofDocument d).Preorder [root] (root :: more)
  rw [← List.append_nil more]
  refine .cons ?_ .nil
  rw [hroot]
  exact hsearch.congr fun k _ => hedges k

end Outline

end Schematic
