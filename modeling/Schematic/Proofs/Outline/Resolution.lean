import Schematic.Proofs.Outline.Declarations
import Schematic.Proofs.Outline.Shortenings

/-!
# What the ends of edges mean

The names at the ends of the edges are settled one after the other, by rules that look at nothing
but the text, the ids of the nodes so far, and the keys of the groups (`Outline.Leads`): a node of
this name, the first group of this name that holds a node, the node of the longest shortening, a new
node. While this goes on the nodes grow, but a group holds a node or not by the blocks alone, once
all declarations are made (`Stage.isPopulated_iff`). So each step of the outline is a step of the
rules (`Stage.leads_cons`), and the edges as a whole are a run of them (`Stage.leads_foldl`). The
rules leave no choice (`Leads.unique`).
-/

namespace Schematic

/-- The names at the ends of an edge, the source before the target. -/
def Edge.ends (e : Edge) : List String := [e.source, e.target]

/-- The ids that a document declares, in the order of their first declaration. -/
def Document.declaredIds (d : Document) : List String := (d.entities.map Entity.id).eraseDups

/-- What the ends of a wire were resolved to, the source before the target. -/
def Wire.ends (w : Wire) : List Endpoint := [w.source, w.target]

/-! ## The rules -/

namespace Forest

/-- In the container with the number `k`, or in one inside it, some entity has its last declaration.
The root has the number 0, and the groups follow in their order. -/
def HoldsNode (blocks : Forest) (k : Nat) : Prop :=
  ∃ id a, blocks.lastAddress? id = some a ∧ k ∈ a

/-- The group at the place `i`, which is the container with the next number, has the name and holds
a node. -/
def Offers (blocks : Forest) (name : String) (i : Nat) : Prop :=
  (blocks.groups[i]?).map Prod.fst = some name ∧ blocks.HoldsNode (i + 1)

/-- The group at the place `i` is the first one to have the name and to hold a node. Groups may
share their names, and empty ones are passed over. -/
def OffersFirst (blocks : Forest) (name : String) (i : Nat) : Prop :=
  blocks.Offers name i ∧ ∀ j < i, ¬ blocks.Offers name j

theorem OffersFirst.unique {blocks : Forest} {name : String} {i j : Nat}
    (hi : blocks.OffersFirst name i) (hj : blocks.OffersFirst name j) : i = j := by
  rcases Nat.lt_trichotomy i j with hlt | heq | hlt
  · exact absurd hi.1 (hj.2 i hlt)
  · exact heq
  · exact absurd hj.1 (hi.2 j hlt)

end Forest

namespace Outline

/-- Where a list of names leads, one name after the other: `known` are the ids of the nodes there
are at the beginning, `ends` what the names mean, and `made` the ids of the nodes made up on the
way. The groups of `blocks` have the keys `keys`. -/
inductive Leads (blocks : Forest) (keys : List String) :
    (known names : List String) → (ends : List Endpoint) → (made : List String) → Prop
  | nil {known : List String} : Leads blocks keys known [] [] []
  /-- A name that is known means the node. -/
  | node {known names : List String} {ends : List Endpoint} {made : List String} {name : String}
      (hname : name ∈ known) (h : Leads blocks keys known names ends made) :
      Leads blocks keys known (name :: names) (.node name :: ends) made
  /-- Else it means the first group of this name that holds a node. -/
  | group {known names : List String} {ends : List Endpoint} {made : List String}
      {name key : String} {i : Nat} (hname : name ∉ known) (hfirst : blocks.OffersFirst name i)
      (hkey : keys[i]? = some key) (h : Leads blocks keys known names ends made) :
      Leads blocks keys known (name :: names) (.group key :: ends) made
  /-- Else it means the node whose id is the longest that a point follows in the name. -/
  | part {known names : List String} {ends : List Endpoint} {made : List String}
      {name id : String} (hname : name ∉ known) (hgroup : ∀ i, ¬ blocks.Offers name i)
      (hpart : IsLongest known name id) (h : Leads blocks keys known names ends made) :
      Leads blocks keys known (name :: names) (.node id :: ends) made
  /-- Else it means a new node, which is known from then on. -/
  | stub {known names : List String} {ends : List Endpoint} {made : List String} {name : String}
      (hname : name ∉ known) (hgroup : ∀ i, ¬ blocks.Offers name i)
      (hpart : ∀ id ∈ known, ¬ Shortens id name)
      (h : Leads blocks keys (known ++ [name]) names ends made) :
      Leads blocks keys known (name :: names) (.node name :: ends) (name :: made)

section

variable {blocks : Forest} {keys known names made : List String} {ends : List Endpoint}

/-- The rules leave no choice. One case per rule: each asks that the ones before it do not apply,
and what it takes is determined by the text and the nodes so far. -/
theorem Leads.unique (h : Leads blocks keys known names ends made) :
    ∀ {ends' : List Endpoint} {made' : List String},
      Leads blocks keys known names ends' made' → ends' = ends ∧ made' = made := by
  induction h with
  | nil =>
      rintro _ _ ⟨⟩
      exact ⟨rfl, rfl⟩
  | node hname _ ih =>
      intro ends' made' h'
      cases h' with
      | node _ h' => exact (ih h').imp (congrArg _) id
      | group hnot => exact absurd hname hnot
      | part hnot => exact absurd hname hnot
      | stub hnot => exact absurd hname hnot
  | group hnot hfirst hkey _ ih =>
      intro ends' made' h'
      cases h' with
      | node hname => exact absurd hname hnot
      | group _ hfirst' hkey' h' =>
          obtain rfl := hfirst.unique hfirst'
          rw [hkey] at hkey'
          cases hkey'
          exact (ih h').imp (congrArg _) id
      | part _ hgroup => exact absurd hfirst.1 (hgroup _)
      | stub _ hgroup => exact absurd hfirst.1 (hgroup _)
  | part hnot hgroup hpart _ ih =>
      intro ends' made' h'
      cases h' with
      | node hname => exact absurd hname hnot
      | group _ hfirst => exact absurd hfirst.1 (hgroup _)
      | part _ _ hpart' h' =>
          obtain rfl := hpart.unique hpart'
          exact (ih h').imp (congrArg _) id
      | stub _ _ hnone => exact absurd hpart.shortens (hnone _ hpart.mem)
  | stub hnot hgroup hnone _ ih =>
      intro ends' made' h'
      cases h' with
      | node hname => exact absurd hname hnot
      | group _ hfirst => exact absurd hfirst.1 (hgroup _)
      | part _ _ hpart => exact absurd hpart.shortens (hnone _ hpart.mem)
      | stub _ _ _ h' => exact (ih h').imp (congrArg _) (congrArg _)

/-- A node is made up only for a name that means nothing else, also after other nodes have been made
up. -/
theorem Leads.means_nothing (h : Leads blocks keys known names ends made) :
    ∀ id ∈ made, id ∉ known ∧ (∀ i, ¬ blocks.Offers id i) ∧ ∀ p ∈ known, ¬ Shortens p id := by
  induction h with
  | nil => exact fun id hid => absurd hid List.not_mem_nil
  | node _ _ ih => exact ih
  | group _ _ _ _ ih => exact ih
  | part _ _ _ _ ih => exact ih
  | stub hnot hgroup hnone _ ih =>
      intro id hid
      rcases List.mem_cons.mp hid with rfl | hid
      · exact ⟨hnot, hgroup, hnone⟩
      · obtain ⟨hfresh, hoffers, hshortens⟩ := ih id hid
        exact ⟨fun hmem => hfresh (List.mem_append_left _ hmem), hoffers,
          fun p hp => hshortens p (List.mem_append_left _ hp)⟩

/-- No name has a node made up for it twice, since a name is a node after it was made up. -/
theorem Leads.nodup (h : Leads blocks keys known names ends made) : made.Nodup := by
  induction h with
  | nil => exact List.nodup_nil
  | node _ _ ih => exact ih
  | group _ _ _ _ ih => exact ih
  | part _ _ _ _ ih => exact ih
  | stub _ _ _ hrest ih =>
      refine List.nodup_cons.mpr ⟨fun hmem => ?_, ih⟩
      exact (hrest.means_nothing _ hmem).1 (List.mem_append_right _ (List.mem_singleton.mpr rfl))

end

/-! ## Stages -/

variable {o : Outline} {blocks : Forest} {key name : String} {i : Nat}

/-- An outline after the blocks and some of the edges. This is the invariant of the edges: adding
one keeps all three. -/
structure Stage (blocks : Forest) (o : Outline) : Prop where
  sound : Sound o
  declared : o.declared = blocks.groups
  stubbed : Stubbed (start.walk root blocks) o

theorem stage_walk (blocks : Forest) : Stage blocks (start.walk root blocks) :=
  ⟨(isOutline_walk blocks).sound, (isOutline_walk blocks).declared, .refl _⟩

theorem Stage.resolve (h : Stage blocks o) (name : String) : Stage blocks (o.resolve name).2 :=
  let resolved := (h.sound.resolve name).1
  ⟨resolved.sound, resolved.declared.trans h.declared, h.stubbed.resolve name⟩

theorem Stage.addEdge (h : Stage blocks o) (e : Edge) : Stage blocks (o.addEdge e) := by
  have hboth := (h.resolve e.source).resolve e.target
  rw [addEdge_eq]
  exact ⟨hboth.sound.congr rfl (fun _ _ => Iff.rfl) (fun _ _ => Iff.rfl) hboth.sound.nodes
    hboth.sound.distinct, hboth.declared, hboth.stubbed.keys, hboth.stubbed.around,
    hboth.stubbed.kept, hboth.stubbed.made⟩

/-- The keys of the groups are those that the blocks gave them. -/
theorem Stage.keys_groups (h : Stage blocks o) :
    o.groups.map Prod.fst = (start.walk root blocks).groups.map Prod.fst := by
  have hkeys := h.stubbed.keys
  rw [h.sound.keys_eq, (stage_walk blocks).sound.keys_eq] at hkeys
  exact (List.cons.inj hkeys).2

/-! ## Groups that hold a node -/

/-- What lies in a container has the number of the container in the address of its home. So whether
a group holds a node can be read off the text. -/
theorem Sound.exists_below_iff (h : Sound o) {k : Nat} (hkey : o.containers.keys[k]? = some key) :
    (∃ id, o.Below key (.node id)) ↔ ∃ id e a, o.placed? id = some (e, a) ∧ k ∈ a := by
  have hindex := idxOf_of_getElem? hkey
  refine exists_congr fun id => ?_
  rw [h.below_node_iff]
  constructor
  · rintro ⟨n, ks, hn, hks, hmem⟩
    refine ⟨n.entity, o.address n.home, by rw [placed?, hn, Option.map_some], ?_⟩
    rw [address, hks.path_eq, ← hindex]
    exact List.mem_map_of_mem hmem
  · rintro ⟨e, a, hplaced, hmem⟩
    obtain ⟨n, hn, heq⟩ := Option.map_eq_some_iff.mp hplaced
    cases heq
    obtain ⟨ks, hks⟩ := exists_around_iff.mpr (h.home_mem_keys hn)
    rw [address, hks.path_eq] at hmem
    obtain ⟨p, hp, hpk⟩ := List.mem_map.mp hmem
    have hpmem : p ∈ o.containers.keys := by
      rcases List.mem_cons.mp hp with rfl | hp
      · exact hks.mem_keys
      · exact h.mem_keys_of_around hks p hp
    obtain rfl : p = key := by
      refine (List.idxOf_inj hpmem).mp (hpk.trans hindex.symm)
    exact ⟨n, ks, hn, hks, hp⟩

/-- A group holds a node or not by the blocks alone, with all declarations made and before any node
is made up. -/
theorem Stage.isPopulated_iff (h : Stage blocks o) {g : String × Container}
    (hg : o.groups[i]? = some g) : o.isPopulated g.1 = true ↔ blocks.HoldsNode (i + 1) := by
  have hblocks := stage_walk blocks
  have hroot : g.1 ≠ root := by
    have hmem := List.mem_of_getElem? hg
    simpa using (List.mem_filter.mp hmem).2
  have hkey : (start.walk root blocks).containers.keys[i + 1]? = some g.1 := by
    rw [hblocks.sound.keys_eq, List.getElem?_cons_succ, ← h.keys_groups, List.getElem?_map, hg]
    rfl
  rw [isPopulated, List.contains_iff_mem, h.stubbed.mem_populated_iff hblocks.sound h.sound,
    or_iff_left fun hboth => hroot hboth.1, hblocks.sound.mem_populated,
    hblocks.sound.exists_below_iff hkey]
  refine exists_congr fun id => ?_
  simp only [lastAddress?_eq, Option.map_eq_some_iff]
  constructor
  · rintro ⟨e, a, hplaced, hmem⟩
    exact ⟨a, ⟨(e, a), hplaced, rfl⟩, hmem⟩
  · rintro ⟨_, ⟨⟨e, a⟩, hplaced, rfl⟩, hmem⟩
    exact ⟨e, a, hplaced, hmem⟩

theorem Stage.offers_iff (h : Stage blocks o) {g : String × Container}
    (hg : o.groups[i]? = some g) :
    blocks.Offers name i ↔ (g.2.name == name && o.isPopulated g.1) = true := by
  have hdeclared : blocks.groups[i]? = some (g.2.name, g.2.blocks) := by
    rw [← h.declared, Outline.declared, List.getElem?_map, hg]
    rfl
  rw [Bool.and_eq_true, h.isPopulated_iff hg, beq_iff_eq, Forest.Offers, hdeclared,
    Option.map_some, Option.some_inj]

theorem Stage.exists_group (h : Stage blocks o) (hoffers : blocks.Offers name i) :
    ∃ g, o.groups[i]? = some g := by
  obtain ⟨⟨name', members⟩, hmember, -⟩ := Option.map_eq_some_iff.mp hoffers.1
  rw [← h.declared, Outline.declared, List.getElem?_map] at hmember
  obtain ⟨g, hg, -⟩ := Option.map_eq_some_iff.mp hmember
  exact ⟨g, hg⟩

/-- The outline finds the first group of the name that holds a node. It looks through its groups in
their order, which is that of the text. -/
theorem Stage.offersFirst_of_groupNamed? (h : Stage blocks o)
    (hkey : o.groupNamed? name = some key) :
    ∃ i, blocks.OffersFirst name i ∧ (o.groups.map Prod.fst)[i]? = some key := by
  obtain ⟨g, hfind, rfl⟩ := Option.map_eq_some_iff.mp hkey
  obtain ⟨hg, i, hi, heq, hbefore⟩ := List.find?_eq_some_iff_getElem.mp hfind
  have hget : o.groups[i]? = some g := by rw [List.getElem?_eq_getElem hi, heq]
  refine ⟨i, ⟨(h.offers_iff hget).mpr hg, fun j hj hoffers => ?_⟩, ?_⟩
  · have hget' : o.groups[j]? = some o.groups[j] := List.getElem?_eq_getElem (Nat.lt_trans hj hi)
    have hno := hbefore j hj
    rw [(h.offers_iff hget').mp hoffers] at hno
    cases hno
  · rw [List.getElem?_map, hget, Option.map_some]

theorem Stage.not_offers_of_groupNamed? (h : Stage blocks o) (hnone : o.groupNamed? name = none) :
    ∀ i, ¬ blocks.Offers name i := by
  intro i hoffers
  obtain ⟨g, hg⟩ := h.exists_group hoffers
  have hfind := List.find?_eq_none.mp (Option.map_eq_none_iff.mp hnone) g (List.mem_of_getElem? hg)
  exact hfind ((h.offers_iff hg).mp hoffers)

/-! ## Running -/

theorem nodeIds_addStub (o : Outline) (hname : name ∉ o.nodeIds) :
    (o.addStub name).nodeIds = o.nodeIds ++ [name] := KeyedList.keys_put_of_not_mem hname

/-- What the outline does with a name is a step of the rules. One case per rule, in the order in
which the outline tries them; each failing try is what the later rules ask for. -/
theorem Stage.leads_cons (h : Stage blocks o) (name : String) {names made : List String}
    {ends : List Endpoint}
    (hrest : Leads blocks (o.groups.map Prod.fst) (o.resolve name).2.nodeIds names ends made) :
    ∃ made', Leads blocks (o.groups.map Prod.fst) o.nodeIds (name :: names)
        ((o.resolve name).1 :: ends) made' ∧
      o.nodeIds ++ made' = (o.resolve name).2.nodeIds ++ made := by
  unfold Outline.resolve at hrest ⊢
  split
  · next hname =>
    rw [if_pos hname] at hrest
    exact ⟨made, .node (KeyedList.contains_iff.mp hname) hrest, rfl⟩
  · next hname =>
    rw [if_neg hname] at hrest
    have hnot : name ∉ o.nodeIds := fun hmem => hname (KeyedList.contains_iff.mpr hmem)
    split
    · next key hkey =>
      rw [hkey] at hrest
      obtain ⟨i, hfirst, hget⟩ := h.offersFirst_of_groupNamed? hkey
      exact ⟨made, .group hnot hfirst hget hrest, rfl⟩
    · next hnone =>
      rw [hnone] at hrest
      have hgroup := h.not_offers_of_groupNamed? hnone
      have hknown : ∀ id, o.nodes.contains id = true ↔ id ∈ o.nodeIds :=
        fun id => KeyedList.contains_iff
      split
      · next id hid =>
        rw [hid] at hrest
        exact ⟨made, .part hnot hgroup (longest_of_find?_shortenings hknown hid) hrest, rfl⟩
      · next hnone =>
        rw [hnone] at hrest
        simp only at hrest
        rw [nodeIds_addStub o hnot] at hrest
        refine ⟨name :: made, .stub hnot hgroup (fun id hid hshort => ?_) hrest, ?_⟩
        · exact List.find?_eq_none.mp hnone id (mem_shortenings.mpr hshort) ((hknown id).mpr hid)
        · simp only
          rw [nodeIds_addStub o hnot, List.append_assoc, List.singleton_append]

theorem nodeIds_addEdge (o : Outline) (e : Edge) :
    (o.addEdge e).nodeIds = ((o.resolve e.source).2.resolve e.target).2.nodeIds := by
  rw [addEdge_eq]
  rfl

theorem wires_addEdge (o : Outline) (e : Edge) :
    (o.addEdge e).wires =
      let after := ((o.resolve e.source).2.resolve e.target).2
      after.wires ++ [⟨after.wires.length, e, (o.resolve e.source).1,
        ((o.resolve e.source).2.resolve e.target).1⟩] := by
  rw [addEdge_eq]

theorem Stage.leads_addEdge (h : Stage blocks o) (e : Edge) {names made : List String}
    {ends : List Endpoint}
    (hrest : Leads blocks (o.groups.map Prod.fst) (o.addEdge e).nodeIds names ends made) :
    ∃ w made', (o.addEdge e).wires = o.wires ++ [w] ∧ w.edge = e ∧
      Leads blocks (o.groups.map Prod.fst) o.nodeIds (e.ends ++ names) (w.ends ++ ends) made' ∧
      o.nodeIds ++ made' = (o.addEdge e).nodeIds ++ made := by
  have hsource := h.resolve e.source
  have hkeys := hsource.keys_groups.trans h.keys_groups.symm
  have hwires : ((o.resolve e.source).2.resolve e.target).2.wires = o.wires :=
    (hsource.sound.resolve e.target).1.wires.trans (h.sound.resolve e.source).1.wires
  rw [← hkeys, nodeIds_addEdge] at hrest
  obtain ⟨madeT, hleadsT, hmadeT⟩ := hsource.leads_cons e.target hrest
  rw [hkeys] at hleadsT
  obtain ⟨madeS, hleadsS, hmadeS⟩ := h.leads_cons e.source hleadsT
  rw [nodeIds_addEdge, ← hmadeT]
  refine ⟨⟨o.wires.length, e, (o.resolve e.source).1, ((o.resolve e.source).2.resolve e.target).1⟩,
    madeS, ?_, rfl, hleadsS, hmadeS⟩
  simp only [wires_addEdge, hwires]

/-- Adding the edges is a run of the rules. The induction is on the edges, and every edge is two
steps of the run, its source and its target. -/
theorem Stage.leads_foldl (h : Stage blocks o) (es : List Edge) :
    ∃ ws made, (es.foldl Outline.addEdge o).wires = o.wires ++ ws ∧ ws.map Wire.edge = es ∧
      Leads blocks (o.groups.map Prod.fst) o.nodeIds (es.flatMap Edge.ends)
        (ws.flatMap Wire.ends) made ∧
      (es.foldl Outline.addEdge o).nodeIds = o.nodeIds ++ made := by
  induction es generalizing o with
  | nil => exact ⟨[], [], (List.append_nil _).symm, rfl, .nil, (List.append_nil _).symm⟩
  | cons e es ih =>
      have hstage := h.addEdge e
      -- the run over the other edges begins with the nodes that this edge leaves
      obtain ⟨ws, made, hwires, hedges, hleads, hmade⟩ := ih hstage
      rw [hstage.keys_groups, ← h.keys_groups] at hleads
      obtain ⟨w, made', hwire, rfl, hleads', hmade'⟩ := h.leads_addEdge e hleads
      refine ⟨w :: ws, made', ?_, congrArg _ hedges, hleads', hmade.trans hmade'.symm⟩
      rw [List.foldl_cons, hwires, hwire, List.append_assoc, List.singleton_append]

/-! ## Whole documents -/

/-- A node is a stub if the blocks do not declare it; a later edge that names it changes nothing
about that. -/
theorem Stage.stub_iff (h : Stage blocks o) {id : String} {n : Node}
    (hn : o.nodes.get? id = some n) :
    n.stub = true ↔ id ∉ (start.walk root blocks).nodeIds := by
  by_cases hid : id ∈ (start.walk root blocks).nodeIds
  · rw [h.stubbed.kept id hid] at hn
    have hstub := stub_walk blocks (o := start) (fun _ _ hnone => by cases hnone) id n hn
    rw [hstub]
    exact iff_of_false Bool.false_ne_true fun hnot => hnot hid
  · obtain rfl := h.stubbed.made id hid n hn
    exact iff_of_true rfl hid

theorem stage_ofDocument (d : Document) : Stage d.blocks (ofDocument d) :=
  ⟨(ofDocument_isOutline d).sound, (ofDocument_isOutline d).declared,
    (stage_walk d.blocks).stubbed.foldl d.edges⟩

theorem nodeIds_blocks (d : Document) : (start.walk root d.blocks).nodeIds = d.declaredIds :=
  nodeIds_walk d.blocks start root

/-- The edges of a document are a run of the rules that begins with the declared ids. -/
theorem exists_leads (d : Document) :
    ∃ made, Leads d.blocks ((ofDocument d).groups.map Prod.fst) d.declaredIds
        (d.edges.flatMap Edge.ends) ((ofDocument d).wires.flatMap Wire.ends) made ∧
      (ofDocument d).nodeIds = d.declaredIds ++ made := by
  obtain ⟨ws, made, hwires, -, hleads, hnodes⟩ := (stage_walk d.blocks).leads_foldl d.edges
  rw [wires_walk d.blocks start root] at hwires
  obtain rfl : (ofDocument d).wires = ws := hwires
  rw [← (stage_ofDocument d).keys_groups, nodeIds_blocks] at hleads
  exact ⟨made, hleads, nodeIds_blocks d ▸ hnodes⟩

/-- The stubs are the nodes that the rules made up: declared ids and made-up ones have no name in
common. -/
theorem stub_iff_mem_made {d : Document} {names made : List String} {ends : List Endpoint}
    {keys : List String} (hleads : Leads d.blocks keys d.declaredIds names ends made)
    (hnodes : (ofDocument d).nodeIds = d.declaredIds ++ made) {id : String} {n : Node}
    (hn : (ofDocument d).nodes.get? id = some n) : n.stub = true ↔ id ∈ made := by
  have hmem : id ∈ (ofDocument d).nodeIds := KeyedList.mem_keys_of_get? hn
  rw [hnodes, List.mem_append] at hmem
  rw [(stage_ofDocument d).stub_iff hn, nodeIds_blocks]
  exact ⟨hmem.resolve_left, fun hid => (hleads.means_nothing id hid).1⟩

/-- The ends of the edges of a document are what the rules make of them, where `made` are the ids of
the nodes made up. -/
structure FollowsRules (o : Outline) (d : Document) (made : List String) : Prop where
  /-- Each edge has its wire and each group its key. -/
  wired : o.wires.map Wire.edge = d.edges
  grouped : (o.groups.map fun e => (e.2.name, e.2.blocks)) = d.blocks.groups
  /-- The rules, begun with the declared ids, give these ends and no others. -/
  leads : Leads d.blocks (o.groups.map Prod.fst) d.declaredIds (d.edges.flatMap Edge.ends)
    (o.wires.flatMap Wire.ends) made
  only : ∀ ends made', Leads d.blocks (o.groups.map Prod.fst) d.declaredIds
    (d.edges.flatMap Edge.ends) ends made' → ends = o.wires.flatMap Wire.ends ∧ made' = made
  /-- The nodes are the declared ones and those made up, each made up once and none declared. -/
  nodes : o.nodeIds = d.declaredIds ++ made
  once : made.Nodup
  undeclared : ∀ id ∈ made, id ∉ d.declaredIds
  /-- What is made up is a bare node in the root, and nothing else is a stub. -/
  stubs : ∀ id ∈ made, o.nodes.get? id = some ⟨.bare id, "", true⟩ ∧ o.Holds "" (.node id)
  flagged : ∀ id n, o.nodes.get? id = some n → (n.stub = true ↔ id ∈ made)
  /-- Every end is a node or a populated container. -/
  ends : ∀ e ∈ o.wires.flatMap Wire.ends,
    (∃ id ∈ o.nodeIds, e = .node id) ∨
      ∃ key, e = .group key ∧ key ≠ "" ∧ o.isPopulated key = true

/-- **The ends of edges follow the precedence.** The rules are run over the ends of all edges in
their order, each with the nodes that are known by then. -/
theorem ofDocument_followsRules (d : Document) : ∃ made, FollowsRules (ofDocument d) d made := by
  have houtline := ofDocument_isOutline d
  have hstage := stage_ofDocument d
  obtain ⟨made, hleads, hnodes⟩ := exists_leads d
  have hmade : ∀ id ∈ made, id ∉ d.declaredIds := fun id hid => (hleads.means_nothing id hid).1
  refine ⟨made, houtline.wired, houtline.declared, hleads, fun _ _ h => hleads.unique h, hnodes,
    hleads.nodup, hmade, ?_, fun _ _ => stub_iff_mem_made hleads hnodes, ?_⟩
  · intro id hid
    have hmem : id ∈ (ofDocument d).nodes.keys := by
      refine (congrArg (id ∈ ·) hnodes).mpr ?_
      exact List.mem_append_right _ hid
    obtain ⟨n, hn⟩ := KeyedList.mem_keys_iff.mp hmem
    have hnot := hmade id hid
    rw [← nodeIds_blocks] at hnot
    obtain rfl := hstage.stubbed.made id hnot n hn
    exact ⟨hn, hstage.sound.holds_home hn⟩
  · intro e he
    obtain ⟨w, hw, hend⟩ := List.mem_flatMap.mp he
    have hstands : (ofDocument d).Stands e := by
      obtain ⟨hs, ht⟩ := houtline.ends w hw
      rcases List.mem_pair.mp hend with rfl | rfl
      · exact hs
      · exact ht
    cases e with
    | node id => exact Or.inl ⟨id, hstands, rfl⟩
    | group key => exact Or.inr ⟨key, rfl, hstands.1, List.contains_iff_mem.mpr hstands.2⟩

end Outline

end Schematic
