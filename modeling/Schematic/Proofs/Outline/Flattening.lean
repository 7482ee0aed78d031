import Schematic.Proofs.Outline.Preorder
import Schematic.Proofs.Outline.Resolution

/-!
# Nothing is lost

What a document says about its entities and groups is all in its outline, and nothing else is
(`Outline.Flattens`): the nodes come in the order of their first declaration and then in the order
of their first mention, every node has what its declarations say of it and is where the last one
puts it, and the groups are those of the text in their order, each below the one around it.
-/

namespace Schematic

namespace Outline

variable {o : Outline}

/-! ## First mentions -/

/-- The nodes that are made up come in the order in which the edges name them first. Resolving a
name again finds the node that was made up for it, so a name makes one node at most. -/
theorem Leads.first_mentions {blocks : Forest} {keys known names made : List String}
    {ends : List Endpoint} (h : Leads blocks keys known names ends made) {p : String → Bool}
    (hp : ∀ name ∈ names, p name = true ↔ name ∈ made) : (names.filter p).eraseDups = made := by
  have hskip : ∀ {name : String} {names made : List String} {p : String → Bool},
      (∀ n ∈ name :: names, p n = true ↔ n ∈ made) → name ∉ made →
        (name :: names).filter p = names.filter p := fun hp hnot =>
    List.filter_cons_of_neg fun htrue => hnot ((hp _ (List.mem_cons_self ..)).mp htrue)
  induction h generalizing p with
  | nil => rfl
  | node hname hrest ih =>
      rw [hskip hp fun hmem => (hrest.means_nothing _ hmem).1 hname]
      exact ih fun n hn => hp n (List.mem_cons_of_mem _ hn)
  | group _ hfirst _ hrest ih =>
      rw [hskip hp fun hmem => (hrest.means_nothing _ hmem).2.1 _ hfirst.1]
      exact ih fun n hn => hp n (List.mem_cons_of_mem _ hn)
  | part _ _ hpart hrest ih =>
      rw [hskip hp fun hmem => (hrest.means_nothing _ hmem).2.2 _ hpart.mem hpart.shortens]
      exact ih fun n hn => hp n (List.mem_cons_of_mem _ hn)
  | @stub known names ends made name hname hgroup hpart hrest ih =>
      have hfresh : name ∉ made := fun hmem =>
        (hrest.means_nothing _ hmem).1 (List.mem_append_right _ (List.mem_singleton.mpr rfl))
      -- later mentions of the name are no first ones, so the rest is filtered without it
      rw [List.filter_cons_of_pos ((hp name (List.mem_cons_self ..)).mpr (List.mem_cons_self ..)),
        List.eraseDups_cons, List.filter_filter]
      refine congrArg (name :: ·) (ih fun n hn => ?_)
      rw [Bool.and_eq_true, hp n (List.mem_cons_of_mem _ hn), List.mem_cons]
      constructor
      · rintro ⟨hne, heq | hmem⟩
        · simp [heq] at hne
        · exact hmem
      · intro hmem
        have hne : n ≠ name := fun heq => hfresh (heq ▸ hmem)
        exact ⟨by simpa using hne, Or.inr hmem⟩

/-! ## Parents -/

/-- The way up from a group that the addresses give is that of the links to the parents, so the two
ways to say what a group lies in agree. -/
theorem Sound.exists_parent (h : Sound o) {i : Nat} {g : String × Container}
    (hg : o.groups[i]? = some g) :
    ∃ k a p, o.addresses[i + 1]? = some ((i + 1) :: k :: a) ∧ o.containers.keys[k]? = some p ∧
      o.parent? g.1 = some p := by
  have hkey : o.containers.keys[i + 1]? = some g.1 := by
    rw [h.keys_eq, List.getElem?_cons_succ, List.getElem?_map, hg]
    rfl
  have hroot : g.1 ≠ root := by
    have hmem := (List.mem_filter.mp (List.mem_of_getElem? hg)).2
    simpa using hmem
  obtain ⟨ks, hks⟩ := exists_around_iff.mpr (List.mem_of_getElem? hkey)
  obtain ⟨p, ps, rfl, hp, -⟩ := h.parent _ ks hks hroot
  refine ⟨o.containers.keys.idxOf p, ps.map o.containers.keys.idxOf, p, ?_, ?_, parent?_eq hks⟩
  · rw [addresses, List.getElem?_map, hkey, Option.map_some, address, hks.path_eq, List.map_cons,
      List.map_cons, idxOf_of_getElem? hkey]
  · exact List.getElem?_idxOf hp.mem_keys

/-! ## Whole documents -/

/-- The node is there because an edge names it. -/
def isStub (o : Outline) (id : String) : Bool := (o.nodes.get? id).any Node.stub

/-- The nodes, containers and parents are what the blocks and the edges say. -/
structure Flattens (o : Outline) (d : Document) : Prop where
  /-- First the declared nodes by their first declaration, then the made-up ones by their first
  mention. -/
  nodes : o.nodeIds = d.declaredIds ++ ((d.edges.flatMap Edge.ends).filter o.isStub).eraseDups
  /-- A declared node is what its declarations make of it, in the container of the last one. -/
  declared : ∀ id ∈ d.declaredIds, ∃ n, o.nodes.get? id = some n ∧ n.stub = false ∧
    n.entity.id = id ∧ IsMerged (d.entities.filter fun e => e.id == id) n.entity ∧
    n.home ∈ o.containers.keys ∧ d.blocks.lastAddress? id = some (o.address n.home)
  /-- The groups are those that the blocks give with a stack, in this order, and it is the order of
  the search in depth from the root. -/
  groups : (o.groups.map fun e => (e.2.name, e.2.blocks)) = Forest.fromStack d.blocks.top
  keys : o.containers.keys = "" :: o.groups.map Prod.fst
  searched : o.Preorder [""] o.containers.keys
  only : ∀ visited, o.Preorder [""] visited → visited = o.containers.keys
  /-- Each has the group around it as its parent. -/
  parents : ∀ (i : Nat) (g : String × Container), o.groups[i]? = some g → ∃ k a p,
    (d.blocks.addresses [0] 1)[i]? = some ((i + 1) :: k :: a) ∧
      o.containers.keys[k]? = some p ∧ o.parent? g.1 = some p

theorem isStub_iff {d : Document} {names made : List String} {ends : List Endpoint}
    {keys : List String} (hleads : Leads d.blocks keys d.declaredIds names ends made)
    (hnodes : (ofDocument d).nodeIds = d.declaredIds ++ made) (id : String) :
    (ofDocument d).isStub id = true ↔ id ∈ made := by
  rw [isStub]
  cases hn : (ofDocument d).nodes.get? id with
  | none =>
      refine iff_of_false Bool.false_ne_true fun hid => KeyedList.get?_eq_none_iff.mp hn ?_
      show id ∈ (ofDocument d).nodeIds
      rw [hnodes]
      exact List.mem_append_right _ hid
  | some n => exact stub_iff_mem_made hleads hnodes hn

theorem Stage.addresses {blocks : Forest} (h : Stage blocks o) :
    o.addresses = [0] :: blocks.addresses [0] 1 := by
  rw [(stage_walk blocks).sound.addresses_eq h.stubbed.keys h.stubbed.around,
    sound_start.addresses_walk blocks sound_start.root_mem, addresses_start]
  rfl

/-- A declared node is as its declarations left it. The edges come after all declarations and change
no node that is there. -/
theorem exists_declared (d : Document) {id : String} (hid : id ∈ d.declaredIds) :
    ∃ n, (ofDocument d).nodes.get? id = some n ∧
      IsMerged (d.entities.filter fun e => e.id == id) n.entity ∧
      d.blocks.lastAddress? id = some ((ofDocument d).address n.home) := by
  have hstage := stage_ofDocument d
  rw [← nodeIds_blocks] at hid
  have hplaced := hstage.stubbed.placed? (stage_walk d.blocks).sound hid
  have hlast : d.blocks.lastAddress? id = ((ofDocument d).placed? id).map Prod.snd := by
    rw [hplaced, lastAddress?_eq]
  obtain ⟨m, hm⟩ := KeyedList.mem_keys_iff.mp hid
  rw [← hstage.stubbed.kept id hid] at hm
  have hnode : (ofDocument d).placed? id = some (m.entity, (ofDocument d).address m.home) := by
    rw [Outline.placed?, hm, Option.map_some]
  rw [placed?_blocks, hnode] at hplaced
  have hsome : d.blocks.declarationsOf id ≠ [] := by
    intro hnil
    rw [hnil] at hplaced
    cases hplaced
  obtain ⟨e, a, hfold, hmerged, -⟩ := exists_merged hsome
  rw [hfold] at hplaced
  cases hplaced
  rw [Forest.map_fst_declarationsOf] at hmerged
  exact ⟨m, hm, hmerged, by rw [hlast, hnode, Option.map_some]⟩

/-- **Flattening a document loses nothing.** Nodes and groups are found by the walk over the blocks;
what the edges add comes behind the declared nodes and at the root. -/
theorem ofDocument_flattens (d : Document) : Flattens (ofDocument d) d := by
  have hstage := stage_ofDocument d
  obtain ⟨made, hleads, hnodes⟩ := exists_leads d
  refine ⟨?_, fun id hid => ?_, ?_, hstage.sound.keys_eq, preorder_ofDocument d,
    fun visited => (preorder_ofDocument d).unique, fun i g hg => ?_⟩
  · rw [hleads.first_mentions fun name hname => ?_]
    · exact hnodes
    · exact isStub_iff hleads hnodes name
  · obtain ⟨n, hn, hmerged, hlast⟩ := exists_declared d hid
    have hstub : n.stub = false := by
      rw [← Bool.not_eq_true, hstage.stub_iff hn, nodeIds_blocks]
      exact not_not_intro hid
    refine ⟨n, hn, hstub, hmerged.id_eq fun e he => ?_, hmerged, hstage.sound.home_mem_keys hn,
      hlast⟩
    exact eq_of_beq (List.mem_filter.mp he).2
  · rw [Forest.fromStack_top]
    exact hstage.declared
  · have hparent := hstage.sound.exists_parent hg
    rw [hstage.addresses, List.getElem?_cons_succ] at hparent
    exact hparent

end Outline

end Schematic
