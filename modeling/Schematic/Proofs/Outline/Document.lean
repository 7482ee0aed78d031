import Schematic.Proofs.Outline.Queries

/-!
# The outline of a document

Walking the blocks makes a group of every group of the text, in the order of the text. Then the
edges are resolved one after the other, and what an end was resolved to stands from then on: nodes
are only added, and a made-up node populates no group. So the outline of a document is sound, has
one wire for every edge, and both ends of every wire take part in the drawing
(`ofDocument_isOutline`).
-/

namespace Schematic

namespace Outline

variable {o : Outline} {key p k name id : String} {ks : List String} {e : Endpoint}

/-! ## Blocks -/

theorem declared_declare (o : Outline) (e : Entity) (key : String) :
    (o.declare e key).declared = o.declared := by
  unfold Outline.declare
  split
  · exact declared_addMember
  · simp only
    split
    · rfl
    · exact declared_addMember.trans declared_removeMember

theorem declared_walk (blocks : Forest) {o : Outline} (key : String)
    (hroot : root ∈ o.containers.keys) :
    (o.walk key blocks).declared = o.declared ++ blocks.groups := by
  induction blocks generalizing o key with
  | nil => exact (List.append_nil _).symm
  | entity e rest ih =>
      refine (ih key ?_).trans ?_
      · rw [keys_declare]
        exact hroot
      · rw [declared_declare]
        rfl
  | group name members rest ihMembers ihRest =>
      have hfresh := o.freshKey_not_mem name
      have hne : o.freshKey name ≠ root := fun heq => hfresh (heq ▸ hroot)
      have hadd : (o.addGroup (o.freshKey name) name key members).declared =
          o.declared ++ [(name, members)] :=
        declared_addMember.trans (declared_putContainer hfresh hne)
      have hroot' : root ∈ (o.addGroup (o.freshKey name) name key members).containers.keys :=
        mem_keys_addGroup hfresh (Or.inr hroot)
      rw [walk, ihRest key (mem_keys_walk members _ _ hroot'), ihMembers _ hroot', hadd]
      simp [Forest.groups]

theorem wires_declare (o : Outline) (e : Entity) (key : String) :
    (o.declare e key).wires = o.wires := by
  unfold Outline.declare
  split
  · rfl
  · simp only
    split <;> rfl

theorem wires_walk (blocks : Forest) (o : Outline) (key : String) :
    (o.walk key blocks).wires = o.wires := by
  induction blocks generalizing o key with
  | nil => rfl
  | entity e rest ih => exact (ih _ key).trans (wires_declare o e key)
  | group name members rest ihMembers ihRest => exact (ihRest _ key).trans (ihMembers _ _)

theorem mem_nodes_declare {e : Entity} :
    id ∈ (o.declare e key).nodes.keys → id ∈ o.nodes.keys ∨ id = e.id := by
  have hput : ∀ n : Node, id ∈ (o.nodes.put e.id n).keys → id ∈ o.nodes.keys ∨ id = e.id :=
    fun n hmem => (KeyedList.mem_keys_put.mp hmem).symm
  unfold Outline.declare
  split
  · exact hput _
  · simp only
    split
    · exact hput _
    · exact hput _

theorem mem_nodes_walk (blocks : Forest) (o : Outline) (key : String)
    (hid : id ∈ (o.walk key blocks).nodes.keys) :
    id ∈ o.nodes.keys ∨ ∃ e ∈ blocks.entities, e.id = id := by
  induction blocks generalizing o key with
  | nil => exact Or.inl hid
  | entity e rest ih =>
      rcases ih _ key hid with hmem | ⟨f, hf, heq⟩
      · rcases mem_nodes_declare hmem with hmem | rfl
        · exact Or.inl hmem
        · exact Or.inr ⟨e, List.mem_cons_self .., rfl⟩
      · exact Or.inr ⟨f, List.mem_cons_of_mem _ hf, heq⟩
  | group name members rest ihMembers ihRest =>
      rcases ihRest _ key hid with hmem | ⟨f, hf, heq⟩
      · rcases ihMembers _ _ hmem with hmem | ⟨f, hf, heq⟩
        · exact Or.inl hmem
        · exact Or.inr ⟨f, List.mem_append_left _ hf, heq⟩
      · exact Or.inr ⟨f, List.mem_append_right _ hf, heq⟩

/-! ## Names -/

/-- What finding the meaning of `name` may do to an outline: at most a node of this name is added,
and all that took part in the drawing still does. -/
structure Resolved (o : Outline) (name : String) (o' : Outline) : Prop where
  sound : Sound o'
  stands : ∀ e, o.Stands e → o'.Stands e
  wires : o'.wires = o.wires
  declared : o'.declared = o.declared
  nodes : ∀ id ∈ o'.nodes.keys, id ∈ o.nodes.keys ∨ id = name

theorem Sound.resolved_self (h : Sound o) (name : String) : Resolved o name o :=
  ⟨h, fun _ he => he, rfl, rfl, fun _ hid => Or.inl hid⟩

theorem Sound.resolved_addStub (h : Sound o) (hname : name ∉ o.nodes.keys) :
    Resolved o name (o.addStub name) := by
  have hsound := h.addStub hname
  have hholds : ∀ p e, o.Holds p e → (o.addStub name).Holds p e := fun p e hp =>
    (holds_addMember (o := { o with nodes := o.nodes.put name ⟨.bare name, root, true⟩ })
      h.root_mem).mpr (Or.inl hp)
  have hbelow : ∀ k e, o.Below k e → (o.addStub name).Below k e := by
    rintro k e ⟨ks, ⟨p, ps, rfl, hp, hps⟩, hk⟩
    exact ⟨_, ⟨p, ps, rfl, hholds p e hp, around_addMember.mpr hps⟩, hk⟩
  refine ⟨hsound, ?_, rfl, declared_addMember, ?_⟩
  · intro e he
    cases e with
    | node id => exact KeyedList.mem_keys_put.mpr (Or.inr he)
    | group k =>
        obtain ⟨id, hid⟩ := h.mem_populated.mp he.2
        exact ⟨he.1, hsound.mem_populated.mpr ⟨id, hbelow _ _ hid⟩⟩
  · exact fun id hid => (KeyedList.mem_keys_put.mp hid).symm

/-- Whatever a name means, it means something that takes part in the drawing: a node, a group that
is populated, or else a node that is made up for it. -/
theorem Sound.resolve (h : Sound o) (name : String) :
    Resolved o name (o.resolve name).2 ∧ (o.resolve name).2.Stands (o.resolve name).1 := by
  unfold Outline.resolve
  split
  · next hname => exact ⟨h.resolved_self name, KeyedList.contains_iff.mp hname⟩
  · next hname =>
    have hname : name ∉ o.nodes.keys := fun hmem => hname (KeyedList.contains_iff.mpr hmem)
    split
    · next key hkey =>
      refine ⟨h.resolved_self name, ?_⟩
      rw [groupNamed?, Option.map_eq_some_iff] at hkey
      obtain ⟨entry, hfind, rfl⟩ := hkey
      have hpopulated := List.find?_some hfind
      have hgroup := (List.mem_filter.mp (List.mem_of_find?_eq_some hfind)).2
      rw [Bool.and_eq_true] at hpopulated
      exact ⟨by simpa using hgroup, List.contains_iff_mem.mp hpopulated.2⟩
    · split
      · next id hid =>
        exact ⟨h.resolved_self name, KeyedList.contains_iff.mp (List.find?_some hid)⟩
      · exact ⟨h.resolved_addStub hname, KeyedList.mem_keys_put.mpr (Or.inl rfl)⟩

/-! ## Edges -/

/-- The text names this id: as that of an entity or at an end of an edge. Every node of the outline
is named in one of these ways. -/
def Named (blocks : Forest) (edges : List Edge) (id : String) : Prop :=
  (∃ e ∈ blocks.entities, e.id = id) ∨ ∃ e ∈ edges, e.source = id ∨ e.target = id

/-- The outline of some blocks and edges: sound, with the groups of the blocks in order, a wire for
each edge in order whose ends take part in the drawing, and no node that the text does not name. -/
structure IsOutline (o : Outline) (blocks : Forest) (edges : List Edge) : Prop where
  sound : Sound o
  declared : o.declared = blocks.groups
  wired : o.wires.map Wire.edge = edges
  indices : o.wires.map Wire.index = List.range edges.length
  ends : ∀ w ∈ o.wires, o.Stands w.source ∧ o.Stands w.target
  named : ∀ id ∈ o.nodes.keys, Named blocks edges id

theorem isOutline_walk (blocks : Forest) : IsOutline (start.walk root blocks) blocks [] := by
  have hroot : root ∈ start.containers.keys := sound_start.root_mem
  have hwires : (start.walk root blocks).wires = [] := wires_walk blocks start root
  refine ⟨sound_start.walk blocks hroot, declared_walk blocks root hroot, ?_, ?_, ?_, ?_⟩
  · rw [hwires]
    rfl
  · rw [hwires]
    rfl
  · rw [hwires]
    exact fun w hw => absurd hw List.not_mem_nil
  · intro id hid
    rcases mem_nodes_walk blocks start root hid with hmem | hmem
    · cases hmem
    · exact Or.inl hmem

/-- The source is resolved first, and the target in what that leaves. -/
theorem addEdge_eq (o : Outline) (e : Edge) :
    o.addEdge e =
      let after := ((o.resolve e.source).2.resolve e.target).2
      { after with wires := after.wires ++ [⟨after.wires.length, e, (o.resolve e.source).1,
        ((o.resolve e.source).2.resolve e.target).1⟩] } := by
  unfold Outline.addEdge
  rfl

theorem IsOutline.addEdge {blocks : Forest} {edges : List Edge} (h : IsOutline o blocks edges)
    (e : Edge) : IsOutline (o.addEdge e) blocks (edges ++ [e]) := by
  obtain ⟨hsource, hstandsSource⟩ := h.sound.resolve e.source
  obtain ⟨htarget, hstandsTarget⟩ := hsource.sound.resolve e.target
  have hwires : (((o.resolve e.source).2).resolve e.target).2.wires = o.wires :=
    htarget.wires.trans hsource.wires
  have hlength : o.wires.length = edges.length := by
    rw [← h.wired, List.length_map]
  unfold Outline.addEdge
  simp only
  refine ⟨htarget.sound.congr rfl (fun _ _ => Iff.rfl) (fun _ _ => Iff.rfl) htarget.sound.nodes
      htarget.sound.distinct, htarget.declared.trans (hsource.declared.trans h.declared), ?_, ?_,
      ?_, ?_⟩
  · simp only [hwires, List.map_append, h.wired, List.map_cons, List.map_nil]
  · simp only [hwires, List.map_append, h.indices, List.map_cons, List.map_nil, hlength,
      List.length_append, List.length_cons, List.length_nil, Nat.zero_add, List.range_succ]
  · intro w hw
    rw [hwires] at hw
    rcases List.mem_append.mp hw with hw | hw
    · obtain ⟨hs, ht⟩ := h.ends w hw
      exact ⟨htarget.stands _ (hsource.stands _ hs), htarget.stands _ (hsource.stands _ ht)⟩
    · rw [List.mem_singleton.mp hw]
      exact ⟨htarget.stands _ hstandsSource, hstandsTarget⟩
  · intro id hid
    rcases htarget.nodes id hid with hid | rfl
    · rcases hsource.nodes id hid with hid | rfl
      · refine (h.named id hid).imp_right fun ⟨f, hf, hends⟩ => ?_
        exact ⟨f, List.mem_append_left _ hf, hends⟩
      · exact Or.inr ⟨e, List.mem_append_right _ (List.mem_singleton.mpr rfl), Or.inl rfl⟩
    · exact Or.inr ⟨e, List.mem_append_right _ (List.mem_singleton.mpr rfl), Or.inr rfl⟩

theorem IsOutline.foldl {blocks : Forest} {edges : List Edge} (h : IsOutline o blocks edges)
    (es : List Edge) : IsOutline (es.foldl Outline.addEdge o) blocks (edges ++ es) := by
  induction es generalizing o edges with
  | nil =>
      rw [List.append_nil]
      exact h
  | cons e es ih =>
      have htail := ih (h.addEdge e)
      rw [List.append_assoc, List.singleton_append] at htail
      exact htail

theorem ofDocument_isOutline (d : Document) : IsOutline (ofDocument d) d.blocks d.edges :=
  (isOutline_walk d.blocks).foldl d.edges

end Outline

end Schematic
