import Mathlib.Data.List.Find
import Schematic.Proofs.Outline.Document
import Schematic.Proofs.Renaming.Keys
import Schematic.Proofs.Success
import Schematic.Proofs.Text.Words

/-!
# Outlines under other names

A document under other names has the outline of the document under these names: containers keep
their keys, which come from the names of groups, and the nodes stand in the same order in the same
containers. This asks that distinct names stay distinct, that a name of a group stays as it is, and
that the names in edges hold no points, since a name with points may stand for a part of it.
-/

namespace Schematic

/-! ## Renaming -/

def Endpoint.rename (f : String → String) : Endpoint → Endpoint
  | .node id => .node (f id)
  | .group key => .group key

def Entity.rename (f : String → String) (e : Entity) : Entity := { e with id := f e.id }

/-- The forest with its entities renamed; groups keep their names, and so the keys of containers
stay. -/
def Forest.rename (f : String → String) : Forest → Forest
  | .nil => .nil
  | .entity e rest => .entity (e.rename f) (rest.rename f)
  | .group name members rest => .group name (members.rename f) (rest.rename f)

def Edge.rename (f : String → String) (e : Edge) : Edge :=
  { e with source := f e.source, target := f e.target }

/-- The document with its entities and the ends of its edges renamed. Labels and all else stay as
they are. -/
def Document.rename (f : String → String) (d : Document) : Document :=
  { d with blocks := d.blocks.rename f, edges := d.edges.map (Edge.rename f) }

def Node.rename (f : String → String) (n : Node) : Node := { n with entity := n.entity.rename f }

def Container.rename (f : String → String) (c : Container) : Container :=
  { c with blocks := c.blocks.rename f, members := c.members.map (Endpoint.rename f) }

def Wire.rename (f : String → String) (w : Wire) : Wire :=
  { w with edge := w.edge.rename f, source := w.source.rename f, target := w.target.rename f }

theorem Endpoint.rename_injective (σ : String ↪ String) :
    Function.Injective (Endpoint.rename σ) := by
  intro a b h
  cases a with
  | node id =>
      cases b with
      | node id' => rw [σ.injective (Endpoint.node.inj h)]
      | group key => cases h
  | group key =>
      cases b with
      | node id => cases h
      | group key' => exact h

theorem KeyedList.modify_mapValues {β γ : Type} (m : KeyedList String β) {h : β → γ} (key : String)
    {f : β → β} {g : γ → γ} (hf : ∀ x, g (h x) = h (f x)) :
    (m.mapValues fun _ => h).modify key g = (m.modify key f).mapValues fun _ => h := by
  refine ext_entries ?_
  simp only [modify, mapValues, List.map_map]
  refine List.map_congr_left fun e _ => ?_
  simp only [Function.comp_apply]
  split
  · rw [hf]
  · rfl

namespace Outline

def rename (σ : String ↪ String) (o : Outline) : Outline where
  nodes := (o.nodes.mapValues fun _ => Node.rename σ).rekey σ
  containers := o.containers.mapValues fun _ => Container.rename σ
  wires := o.wires.map (Wire.rename σ)

variable (σ : String ↪ String) (o : Outline)

/-! ## Looking up -/

theorem get?_node_rename (id : String) :
    (o.rename σ).nodes.get? (σ id) = (o.nodes.get? id).map (Node.rename σ) :=
  (KeyedList.get?_rekey σ _ id).trans (KeyedList.get?_mapValues ..)

theorem contains_node_rename (id : String) :
    (o.rename σ).nodes.contains (σ id) = o.nodes.contains id :=
  (KeyedList.contains_rekey σ _ id).trans (KeyedList.contains_mapValues ..)

theorem get?_container_rename (key : String) :
    (o.rename σ).containers.get? key = (o.containers.get? key).map (Container.rename σ) :=
  KeyedList.get?_mapValues ..

/-! ## Containers -/

theorem rename_start : start.rename σ = start := rfl

theorem modifyMembers_rename (key : String) {f g : List Endpoint → List Endpoint}
    (h : ∀ ms, g (ms.map (Endpoint.rename σ)) = (f ms).map (Endpoint.rename σ)) :
    (o.rename σ).modifyMembers key g = (o.modifyMembers key f).rename σ := by
  have hmodify := KeyedList.modify_mapValues o.containers (h := Container.rename σ) key
    (f := fun c => { c with members := f c.members })
    (g := fun c => { c with members := g c.members }) fun c => by simp [Container.rename, h]
  exact congrArg (fun containers => { o.rename σ with containers }) hmodify

theorem addMember_rename (key : String) (e : Endpoint) :
    (o.rename σ).addMember key (e.rename σ) = (o.addMember key e).rename σ :=
  modifyMembers_rename σ o key (f := fun ms => ms ++ [e]) (g := fun ms => ms ++ [e.rename σ])
    fun ms => by rw [List.map_append, List.map_singleton]

theorem removeMember_rename (key : String) (e : Endpoint) :
    (o.rename σ).removeMember key (e.rename σ) = (o.removeMember key e).rename σ :=
  modifyMembers_rename σ o key (f := fun ms => ms.erase e) (g := fun ms => ms.erase (e.rename σ))
    fun ms => (List.map_erase (Endpoint.rename_injective σ) (a := e) ms).symm

theorem freshKey_rename (name : String) : (o.rename σ).freshKey name = o.freshKey name := by
  have hcontains : (fun key => !(o.rename σ).containers.contains key) =
      fun key => !o.containers.contains key :=
    funext fun key => congrArg (!·) (KeyedList.contains_mapValues ..)
  have hlength : (o.rename σ).containers.entries.length = o.containers.entries.length :=
    List.length_map _
  rw [freshKey, hcontains, hlength, freshKey]

theorem path_rename (key : String) : (o.rename σ).path key = o.path key := by
  rw [path, get?_container_rename, Option.map_map, path]
  rfl

theorem addGroup_rename (key name parent : String) (blocks : Forest) :
    (o.rename σ).addGroup key name parent (blocks.rename σ) =
      (o.addGroup key name parent blocks).rename σ := by
  have hput := KeyedList.put_mapValues o.containers (fun _ => Container.rename σ) key
    ⟨name, o.path parent, blocks, []⟩
  have hcontainers : { o.rename σ with
      containers := (o.rename σ).containers.put key
        ⟨name, o.path parent, blocks.rename σ, []⟩ } =
      ({ o with containers := o.containers.put key ⟨name, o.path parent, blocks, []⟩ }
        : Outline).rename σ :=
    congrArg (fun containers => { o.rename σ with containers }) hput
  rw [addGroup, path_rename, hcontainers]
  exact addMember_rename σ _ parent (.group key)

/-! ## Nodes -/

theorem putNode_rename (id : String) (n : Node) :
    { o.rename σ with nodes := (o.rename σ).nodes.put (σ id) (n.rename σ) } =
      ({ o with nodes := o.nodes.put id n } : Outline).rename σ := by
  have hput : (o.rename σ).nodes.put (σ id) (n.rename σ) =
      ((o.nodes.put id n).mapValues fun _ => Node.rename σ).rekey σ := by
    rw [← KeyedList.put_mapValues, ← KeyedList.put_rekey]
    rfl
  exact congrArg (fun nodes => { o.rename σ with nodes }) hput

theorem declare_rename (e : Entity) (key : String) :
    (o.rename σ).declare (e.rename σ) key = (o.declare e key).rename σ := by
  have hget : (o.rename σ).nodes.get? (e.rename σ).id =
      (o.nodes.get? e.id).map (Node.rename σ) := get?_node_rename σ o e.id
  cases hn : o.nodes.get? e.id with
  | none =>
      have hput := putNode_rename σ o e.id ⟨e, key, false⟩
      simp only [declare, hget, hn, Option.map_none]
      rw [← addMember_rename, ← hput]
      rfl
  | some n =>
      have hput := putNode_rename σ o e.id { n with entity := n.entity.merge e, home := key }
      simp only [declare, hget, hn, Option.map_some]
      by_cases hhome : n.home = key
      · rw [if_pos hhome, if_pos (show (n.rename σ).home = key from hhome), ← hput]
        rfl
      · rw [if_neg hhome, if_neg (show (n.rename σ).home ≠ key from hhome), ← addMember_rename,
          ← removeMember_rename, ← hput]
        rfl

theorem walk_rename (key : String) (blocks : Forest) :
    (o.rename σ).walk key (blocks.rename σ) = (o.walk key blocks).rename σ := by
  induction blocks generalizing o key with
  | nil => rfl
  | entity e rest ih => rw [Forest.rename, walk, declare_rename, ih, walk]
  | group name members rest ihMembers ihRest =>
      rw [Forest.rename, walk, walk]
      simp only [freshKey_rename, addGroup_rename]
      rw [ihMembers, ihRest]

/-! ## Members -/

theorem takesSpace_rename (known : List String) (e : Endpoint) :
    takesSpace known (e.rename σ) = takesSpace known e := by
  cases e <;> rfl

theorem populated_rename : (o.rename σ).populated = o.populated := by
  let visit (e : String × Container) (known : List String) : List String :=
    if e.2.members.any (takesSpace known) then e.1 :: known else known
  have hvisit (e : String × Container) (known : List String) :
      visit (e.1, e.2.rename σ) known = visit e known := by
    have hany : (e.2.members.map (Endpoint.rename σ)).any (takesSpace known) =
        e.2.members.any (takesSpace known) := by
      rw [List.any_map]
      exact congrArg (List.any _) (funext fun m => takesSpace_rename σ known m)
    simp only [visit, Container.rename, hany]
  show (o.containers.entries.map fun e => (e.1, e.2.rename σ)).foldr visit [] =
    o.containers.entries.foldr visit []
  rw [List.foldr_map]
  simp only [hvisit]

theorem isPopulated_rename (key : String) : (o.rename σ).isPopulated key = o.isPopulated key := by
  rw [isPopulated, populated_rename, isPopulated]

theorem groups_rename : (o.rename σ).groups = o.groups.map fun e => (e.1, e.2.rename σ) :=
  List.filter_map

/-! ## Edges -/

/-- The names of groups stay as they are. An end of an edge that names a group still finds it. -/
def KeepsGroups : Prop := ∀ e ∈ o.groups, σ e.2.name = e.2.name

variable {σ o}

theorem keepsGroups_of_declared {o' : Outline} (h : o.KeepsGroups σ)
    (hdeclared : o'.declared = o.declared) : o'.KeepsGroups σ := by
  intro e he
  have hmem : (e.2.name, e.2.blocks) ∈ o'.declared := List.mem_map.mpr ⟨e, he, rfl⟩
  rw [hdeclared] at hmem
  obtain ⟨e', he', heq⟩ := List.mem_map.mp hmem
  rw [← (Prod.mk.inj heq).1]
  exact h e' he'

theorem groupNamed?_rename (h : o.KeepsGroups σ) (name : String) :
    (o.rename σ).groupNamed? (σ name) = o.groupNamed? name := by
  have hfind : (o.groups.map fun e => (e.1, e.2.rename σ)).find?
      (fun e => e.2.name == σ name && (o.rename σ).isPopulated e.1) =
        (o.groups.find? fun e => e.2.name == name && o.isPopulated e.1).map
          fun e => (e.1, e.2.rename σ) := by
    rw [List.find?_map]
    refine congrArg (Option.map _) (List.find?_congr fun e he => ?_)
    have heq : e.2.name = σ name ↔ e.2.name = name := by
      rw [← σ.apply_eq_iff_eq e.2.name name, h e he]
    have hname : (e.2.name == σ name) = (e.2.name == name) := by simp [beq_eq_decide, heq]
    simp only [Function.comp_apply, isPopulated_rename, Container.rename, hname]
  rw [groupNamed?, groups_rename, hfind, Option.map_map, groupNamed?]
  rfl

theorem shortenings_eq_nil {name : String} (h : '.' ∉ name.toList) : shortenings name = [] := by
  have hpieces : pieces (· == '.') name.toList = [name.toList] :=
    Text.pieces_of_forall fun c hc => beq_eq_false_iff_ne.mpr fun he => h (he ▸ hc)
  simp [shortenings, hpieces]

theorem resolve_rename (h : o.KeepsGroups σ) {name : String} (hname : '.' ∉ name.toList)
    (hname' : '.' ∉ (σ name).toList) :
    (o.rename σ).resolve (σ name) =
      ((o.resolve name).1.rename σ, (o.resolve name).2.rename σ) := by
  unfold resolve
  rw [contains_node_rename, groupNamed?_rename h, shortenings_eq_nil hname,
    shortenings_eq_nil hname']
  split
  · rfl
  · split
    · rfl
    · refine Prod.ext rfl ?_
      show (o.rename σ).addStub (σ name) = (o.addStub name).rename σ
      have hput := putNode_rename σ o name ⟨.bare name, root, true⟩
      rw [addStub, addStub, ← addMember_rename, ← hput]
      rfl

theorem addEdge_rename (hs : Sound o) (h : o.KeepsGroups σ) {e : Edge}
    (he : ∀ name ∈ [e.source, e.target], '.' ∉ name.toList ∧ '.' ∉ (σ name).toList) :
    (o.rename σ).addEdge (e.rename σ) = (o.addEdge e).rename σ := by
  obtain ⟨hresolved, -⟩ := hs.resolve e.source
  have hsource := he e.source (by simp)
  have htarget := he e.target (by simp)
  have h' := keepsGroups_of_declared h hresolved.declared
  simp only [addEdge, Edge.rename, resolve_rename h hsource.1 hsource.2,
    resolve_rename h' htarget.1 htarget.2]
  simp [rename, Wire.rename, Edge.rename]

/-- **Outlines under other names.** A document under other names has the outline of the document,
under these names. Names of groups must stay, and the ends of edges must have no points, old or new.
-/
theorem ofDocument_rename {d : Document} (hgroups : ∀ name ∈ d.groupNames, σ name = name)
    (hdots : ∀ e ∈ d.edges, ∀ name ∈ [e.source, e.target],
      '.' ∉ name.toList ∧ '.' ∉ (σ name).toList) :
    ofDocument (d.rename σ) = (ofDocument d).rename σ := by
  have hfold (es : List Edge) (hes : ∀ e ∈ es, e ∈ d.edges) (done : List Edge) (o : Outline)
      (ho : IsOutline o d.blocks done) :
      (es.map (Edge.rename σ)).foldl addEdge (o.rename σ) =
        (es.foldl addEdge o).rename σ := by
    induction es generalizing o done with
    | nil => rfl
    | cons e es ih =>
        have hkeeps : o.KeepsGroups σ := by
          intro g hg
          refine hgroups _ ?_
          have hmem : (g.2.name, g.2.blocks) ∈ o.declared := List.mem_map.mpr ⟨g, hg, rfl⟩
          rw [ho.declared] at hmem
          exact List.mem_map.mpr ⟨_, hmem, rfl⟩
        rw [List.map_cons, List.foldl_cons, List.foldl_cons,
          addEdge_rename ho.sound hkeeps (hdots e (hes e (List.mem_cons_self ..)))]
        exact ih (fun e' he' => hes e' (List.mem_cons_of_mem e he')) _ _ (ho.addEdge e)
  have hwalk := walk_rename σ start root d.blocks
  rw [rename_start] at hwalk
  rw [ofDocument, ofDocument, ← hfold d.edges (fun _ he => he) [] _ (isOutline_walk d.blocks),
    ← hwalk]
  rfl

/-! ## Questions -/

variable {e f : Endpoint} {key : String}

theorem node_rename {id : String} {n : Node} (h : o.node id = .ok n) :
    (o.rename σ).node (σ id) = .ok (n.rename σ) := by
  unfold node at h ⊢
  rw [get?_node_rename]
  split at h
  · next m hm =>
    cases h
    rw [hm]
    rfl
  · cases h

theorem container_rename (σ : String ↪ String) (o : Outline) (key : String) :
    (o.rename σ).container key = (o.container key).map (Container.rename σ) := by
  unfold container
  rw [get?_container_rename]
  cases o.containers.get? key <;> rfl

theorem members_rename (σ : String ↪ String) (o : Outline) (key : String) :
    (o.rename σ).members key = (o.members key).map (List.map (Endpoint.rename σ)) := by
  unfold members
  rw [container_rename, populated_rename]
  cases o.container key with
  | error _ => rfl
  | ok c =>
      refine congrArg Except.ok ?_
      show (c.members.map (Endpoint.rename σ)).filter _ = _
      rw [List.filter_map]
      exact congrArg (List.map _) (List.filter_congr fun m _ => takesSpace_rename σ _ m)

theorem home_rename {k : String} (h : o.home e = .ok k) :
    (o.rename σ).home (e.rename σ) = .ok k := by
  cases e with
  | node id =>
      obtain ⟨n, hn, h⟩ := bind_eq_ok h
      exact (bind_of_eq_ok (node_rename hn)).trans h
  | group key =>
      obtain ⟨c, hc, h⟩ := bind_eq_ok h
      have hc' : (o.rename σ).container key = .ok (c.rename σ) := by
        rw [container_rename, hc]
        rfl
      exact (bind_of_eq_ok hc').trans h

theorem chain_rename {ks : List String} (h : o.chain e = .ok ks) :
    (o.rename σ).chain (e.rename σ) = .ok ks := by
  obtain ⟨k, hk, h⟩ := bind_eq_ok h
  obtain ⟨c, hc, h⟩ := bind_eq_ok h
  have hc' : (o.rename σ).container k = .ok (c.rename σ) := by
    rw [container_rename, hc]
    rfl
  exact (bind_of_eq_ok (home_rename hk)).trans ((bind_of_eq_ok hc').trans h)

theorem commonContainer_rename (h : o.commonContainer e f = .ok key) :
    (o.rename σ).commonContainer (e.rename σ) (f.rename σ) = .ok key := by
  obtain ⟨as, has, h⟩ := bind_eq_ok h
  obtain ⟨bs, hbs, h⟩ := bind_eq_ok h
  exact (bind_of_eq_ok (chain_rename has)).trans ((bind_of_eq_ok (chain_rename hbs)).trans h)

theorem liftAlong_rename (σ : String ↪ String) (key : String) (e : Endpoint) (ks : List String) :
    liftAlong key (e.rename σ) ks = (liftAlong key e ks).rename σ := by
  induction ks generalizing e with
  | nil => rfl
  | cons k ks ih =>
      have hgroup := ih (.group k)
      unfold liftAlong
      split
      · rfl
      · exact hgroup

theorem lift_rename (h : o.lift e key = .ok f) :
    (o.rename σ).lift (e.rename σ) key = .ok (f.rename σ) := by
  obtain ⟨ks, hks, h⟩ := bind_eq_ok h
  cases h
  refine (bind_of_eq_ok (chain_rename hks)).trans ?_
  rw [liftAlong_rename]
  rfl

theorem encloses_rename {b : Bool} (h : o.encloses key e = .ok b) :
    (o.rename σ).encloses key (e.rename σ) = .ok b := by
  have hgroup : e.rename σ = .group key ↔ e = .group key :=
    (Endpoint.rename_injective σ).eq_iff (b := .group key)
  unfold encloses at h ⊢
  split at h
  · next he =>
    rw [if_pos (hgroup.mpr he)]
    exact h
  · next he =>
    rw [if_neg fun he' => he (hgroup.mp he')]
    obtain ⟨ks, hks, h⟩ := bind_eq_ok h
    exact (bind_of_eq_ok (chain_rename hks)).trans h

end Outline

/-! ## Labels -/

/-- The entity has a label that is not empty, and so is not drawn by its id. Its box is then as wide
under every id. -/
def Entity.hasLabel (e : Entity) : Bool := (e.attributes.get? "label").any fun l => !l.isEmpty

theorem Entity.label_rename {e : Entity} (h : e.hasLabel = true) (f : String → String) :
    (e.rename f).label = e.label := by
  have hattributes : (e.rename f).attributes = e.attributes := rfl
  unfold hasLabel at h
  unfold label
  rw [hattributes]
  cases hl : e.attributes.get? "label" with
  | none => simp [hl] at h
  | some l =>
      have hne : l.isEmpty = false := by simpa [hl] using h
      simp [hne]

theorem Entity.hasLabel_merge {later : Entity} (earlier : Entity) (h : later.hasLabel = true) :
    (earlier.merge later).hasLabel = true := by
  unfold hasLabel at h ⊢
  cases hl : later.attributes.get? "label" with
  | none => simp [hl] at h
  | some l =>
      have hput : (earlier.attributes.update later.attributes).get? "label" = some l :=
        KeyedList.get?_putAll_of_mem later.attributes.distinct (KeyedList.get?_eq_some_iff.mp hl)
      rw [hl] at h
      show ((earlier.attributes.update later.attributes).get? "label").any _ = true
      rw [hput]
      exact h

/-! ## Nodes of a document -/

namespace Outline

/-- Every node has the property, together with the id that it is found under. Building an outline
keeps such a property if declaring and making up nodes do. -/
def EveryNode (P : String → Node → Prop) (o : Outline) : Prop :=
  ∀ id n, o.nodes.get? id = some n → P id n

section

variable {P : String → Node → Prop} {o : Outline}

theorem EveryNode.put (h : o.EveryNode P) {n : Node} {id : String} (hn : P id n) :
    ({ o with nodes := o.nodes.put id n } : Outline).EveryNode P := by
  intro j m hm
  rw [KeyedList.get?_put] at hm
  split at hm
  · next hj =>
    cases hm
    exact hj ▸ hn
  · exact h j m hm

/-- What declaring an entity makes of nodes: a new one, or one that has the entity merged in and
another home. -/
structure Declares (P : String → Node → Prop) (e : Entity) : Prop where
  new : ∀ key, P e.id ⟨e, key, false⟩
  again : ∀ n key, P e.id n → P e.id { n with entity := n.entity.merge e, home := key }

theorem EveryNode.declare (h : o.EveryNode P) {e : Entity} (he : Declares P e) (key : String) :
    (o.declare e key).EveryNode P := by
  unfold Outline.declare
  split
  · exact h.put (he.new key)
  · next n hn =>
    have hput := h.put (he.again n key (h e.id n hn))
    simp only
    split
    · exact hput
    · exact hput

theorem EveryNode.walk {blocks : Forest} (h : o.EveryNode P)
    (hblocks : ∀ e ∈ blocks.entities, Declares P e) (key : String) :
    (o.walk key blocks).EveryNode P := by
  induction blocks generalizing o key with
  | nil => exact h
  | entity e rest ih =>
      obtain ⟨he, hrest⟩ := List.forall_mem_cons.mp hblocks
      exact ih (h.declare he key) hrest key
  | group name members rest ihMembers ihRest =>
      obtain ⟨hmembers, hrest⟩ := List.forall_mem_append.mp hblocks
      have hgroup : (o.addGroup (o.freshKey name) name key members).EveryNode P := h
      exact ihRest (ihMembers hgroup hmembers _) hrest key

variable (hstub : ∀ name, P name ⟨.bare name, root, true⟩)

include hstub

theorem EveryNode.resolve (h : o.EveryNode P) (name : String) :
    (o.resolve name).2.EveryNode P := by
  unfold Outline.resolve
  split
  · exact h
  · split
    · exact h
    · split
      · exact h
      · exact h.put (hstub name)

theorem EveryNode.addEdge (h : o.EveryNode P) (e : Edge) : (o.addEdge e).EveryNode P := by
  intro id n hn
  -- the nodes of `addEdge` stand under two pairs, which `exact` alone is slow to take apart
  unfold Outline.addEdge at hn
  simp only at hn
  exact (h.resolve hstub e.source).resolve hstub e.target id n hn

/-- What holds of made-up nodes and of declared ones, at first and again, holds of all nodes of a
document. -/
theorem everyNode_ofDocument {d : Document} (hentities : ∀ e ∈ d.entities, Declares P e) :
    (ofDocument d).EveryNode P := by
  have hwalk : (start.walk root d.blocks).EveryNode P :=
    EveryNode.walk (o := start) (fun _ _ hn => by cases hn) hentities root
  unfold ofDocument
  generalize start.walk root d.blocks = o at hwalk
  induction d.edges generalizing o with
  | nil => exact hwalk
  | cons e es ih => exact ih (o.addEdge e) (hwalk.addEdge hstub e)

end

/-- The node is made up or has a label. A made-up node has a size of its own, whatever it is called.
-/
def Labelled (n : Node) : Prop := n.stub = true ∨ n.entity.hasLabel = true

theorem labelled_ofDocument {d : Document} (h : ∀ e ∈ d.entities, e.hasLabel = true) :
    (ofDocument d).EveryNode fun _ n => Labelled n :=
  everyNode_ofDocument (fun _ => Or.inl rfl) fun e he =>
    ⟨fun _ => Or.inr (h e he), fun n _ _ => Or.inr (Entity.hasLabel_merge n.entity (h e he))⟩

/-- Every node is found under the id of its entity, the made-up ones too. -/
theorem named_ofDocument (d : Document) : (ofDocument d).EveryNode fun id n => n.entity.id = id :=
  everyNode_ofDocument (P := fun id n => n.entity.id = id) (fun _ => rfl)
    fun _ _ => ⟨fun _ => rfl, fun _ _ _ => rfl⟩

end Outline

end Schematic
