import Mathlib.Algebra.Order.BigOperators.Group.List
import Mathlib.Data.List.Zip
import Schematic.Proofs.Layout.Complete
import Schematic.Proofs.Renaming.Drawing

/-!
# Drawings do not depend on names

When the nodes of a document get other names and keep their labels, the drawing is the same under
these names, as long as no name, old or new, is reserved (`Layout.graph_of_isRenaming`). A renaming
only says something about the names of a document, so it is first extended to an injective map of
all names which leaves those of groups and the reserved ones alone; with such a map the whole layout
goes along.

Reserved names do make a difference. Placement knows waypoints by their names and keeps them closer
together than nodes, so nodes that are called like waypoints move together
(`Layout.graph_moves_waypoint_names`).
-/

namespace Schematic

open Outline

/-! ## Renamings -/

namespace Document

/-- The ids of the entities and the ends of the edges. An end of an edge may be the name of a group
as well. -/
def names (d : Document) : List String :=
  d.entities.map Entity.id ++ d.edges.flatMap fun e => [e.source, e.target]

/-- The names that are not those of groups. These are what a renaming is about; groups keep their
names. -/
def nodeNames (d : Document) : List String := d.names.filter fun name => !d.groupNames.contains name

theorem mem_names {d : Document} {name : String} :
    name ∈ d.names ↔ Named d.blocks d.edges name := by
  simp [names, Named, entities, eq_comm]

theorem mem_nodeNames {d : Document} {name : String} :
    name ∈ d.nodeNames ↔ name ∈ d.names ∧ name ∉ d.groupNames := by
  simp [nodeNames]

/-- The map gives the nodes other names: distinct nodes distinct ones, none of them that of a group.
Names with points are left out, since such a name may stand for a part of it. -/
structure IsRenaming (d : Document) (f : String → String) : Prop where
  injective : ∀ a ∈ d.nodeNames, ∀ b ∈ d.nodeNames, f a = f b → a = b
  groups : ∀ name ∈ d.groupNames, f name = name
  fresh : ∀ a ∈ d.nodeNames, f a ∉ d.groupNames
  undotted : ∀ a ∈ d.names, '.' ∉ a.toList ∧ '.' ∉ (f a).toList

/-- No node has a reserved name, before or after. Reserved are the names that placement gives to
waypoints and to boxes of groups. -/
def PlainUnder (d : Document) (f : String → String) : Prop :=
  ∀ a ∈ d.nodeNames, Reserved a = false ∧ Reserved (f a) = false

end Document

/-! ## All names -/

/-- A map that is injective on some names agrees there with one that is injective everywhere, if
some pad in front of a name makes it different from all their images. -/
theorem exists_embedding {p : String → Prop} {f : String → String}
    (hinj : ∀ a b, p a → p b → f a = f b → a = b) {pad : String}
    (hpad : ∀ a b, p a → f a ≠ pad ++ b) : ∃ σ : String ↪ String, ∀ a, p a → σ a = f a := by
  classical
  refine ⟨⟨fun a => if p a then f a else pad ++ a, fun a b h => ?_⟩, fun a ha => if_pos ha⟩
  dsimp only at h
  split at h <;> split at h
  · next ha hb => exact hinj a b ha hb h
  · next ha _ => exact absurd h (hpad a b ha)
  · next _ hb => exact absurd h.symm (hpad b a hb)
  · exact (String.append_right_inj pad).mp h

theorem exists_pad (names : List String) :
    ∃ pad : String, ∀ b, pad ++ b ∉ names ∧ Reserved (pad ++ b) = false := by
  let pad := String.ofList (List.replicate ((names.map String.length).sum + 1) 'x')
  refine ⟨pad, fun b => ⟨fun hmem => ?_, ?_⟩⟩
  · have hle := List.le_sum_of_mem (List.mem_map_of_mem (f := String.length) hmem)
    simp [pad] at hle
    omega
  · have hlist : (pad ++ b).toList =
        'x' :: (List.replicate (names.map String.length).sum 'x' ++ b.toList) := by
      simp [pad, List.replicate_succ]
    have hstart (mark : String) (rest : List Char) (hmark : mark.toList = '_' :: rest) :
        (pad ++ b).startsWith mark = false := by
      rw [← Bool.not_eq_true, String.startsWith_string_iff, hlist, hmark]
      simp
    rw [Reserved, hstart Compound.groupMark "_sg_".toList (by decide),
      hstart Waypoint.mark "_dummy_".toList (by decide), Bool.or_false]

namespace Document

variable {d : Document} {f : String → String}

/-- The renaming on the names of nodes, with every other name left as it is. What `f` makes of names
that the document does not have is not cared for. -/
def moved (d : Document) (f : String → String) (a : String) : String :=
  if a ∈ d.nodeNames then f a else a

/-- It matters what becomes of the name: it is that of a node, that of a group, or reserved. On
these names the renaming is injective and can be extended. -/
def Matters (d : Document) (a : String) : Prop :=
  a ∈ d.nodeNames ∨ Reserved a = true ∨ a ∈ d.groupNames

theorem moved_of_mem {a : String} (h : a ∈ d.nodeNames) : d.moved f a = f a := if_pos h

theorem moved_of_not_mem {a : String} (h : a ∉ d.nodeNames) : d.moved f a = a := if_neg h

/-- A new name is neither reserved nor that of a group, so it is none of the names that stay. -/
theorem IsRenaming.ne_of_matters (h : d.IsRenaming f) (hplain : d.PlainUnder f) {a b : String}
    (ha : a ∈ d.nodeNames) (hb : Reserved b = true ∨ b ∈ d.groupNames) : f a ≠ b := by
  rintro rfl
  rcases hb with hb | hb
  · rw [(hplain a ha).2] at hb
    cases hb
  · exact h.fresh a ha hb

theorem IsRenaming.moved_injective (h : d.IsRenaming f) (hplain : d.PlainUnder f) {a b : String}
    (ha : d.Matters a) (hb : d.Matters b) (heq : d.moved f a = d.moved f b) : a = b := by
  by_cases hna : a ∈ d.nodeNames <;> by_cases hnb : b ∈ d.nodeNames
  · rw [moved_of_mem hna, moved_of_mem hnb] at heq
    exact h.injective a hna b hnb heq
  · rw [moved_of_mem hna, moved_of_not_mem hnb] at heq
    exact absurd heq (h.ne_of_matters hplain hna (hb.resolve_left hnb))
  · rw [moved_of_not_mem hna, moved_of_mem hnb] at heq
    exact absurd heq.symm (h.ne_of_matters hplain hnb (ha.resolve_left hna))
  · rw [moved_of_not_mem hna, moved_of_not_mem hnb] at heq
    exact heq

theorem exists_pad_moved (d : Document) (f : String → String) :
    ∃ pad, ∀ a b, d.Matters a → d.moved f a ≠ pad ++ b := by
  obtain ⟨pad, hpad⟩ := exists_pad (d.nodeNames.map f ++ d.groupNames)
  refine ⟨pad, fun a b ha heq => ?_⟩
  obtain ⟨hnot, hplain⟩ := hpad b
  rw [← heq, List.mem_append, not_or] at hnot
  rw [← heq] at hplain
  by_cases hna : a ∈ d.nodeNames
  · rw [moved_of_mem hna] at hnot
    exact hnot.1 (List.mem_map_of_mem hna)
  · rw [moved_of_not_mem hna] at hnot hplain
    rcases ha.resolve_left hna with ha | ha
    · rw [hplain] at ha
      cases ha
    · exact hnot.2 ha

/-- The renaming as a map of all names. Names that do not matter get a pad in front that no other
name begins with, which makes the map injective. -/
theorem IsRenaming.exists_kept (h : d.IsRenaming f) (hplain : d.PlainUnder f) :
    ∃ σ : String ↪ String, Compound.Kept σ ∧ ∀ a ∈ d.names ++ d.groupNames, σ a = f a := by
  obtain ⟨pad, hpad⟩ := exists_pad_moved d f
  obtain ⟨σ, hσ⟩ := exists_embedding (fun _ _ => h.moved_injective hplain) hpad
  refine ⟨σ, fun a ha => ?_, fun a ha => ?_⟩
  · have hna : a ∉ d.nodeNames := fun hna => by
      rw [(hplain a hna).1] at ha
      cases ha
    rw [hσ a (Or.inr (Or.inl ha)), moved_of_not_mem hna]
  · by_cases hna : a ∈ d.nodeNames
    · rw [hσ a (Or.inl hna), moved_of_mem hna]
    · have hgroup : a ∈ d.groupNames := by
        by_contra hnot
        exact hna (mem_nodeNames.mpr ⟨(List.mem_append.mp ha).resolve_right hnot, hnot⟩)
      rw [hσ a (Or.inr (Or.inr hgroup)), moved_of_not_mem hna, h.groups a hgroup]

end Document

/-! ## Maps that agree -/

section

variable {f g : String → String}

theorem Forest.rename_congr {blocks : Forest} (h : ∀ e ∈ blocks.entities, f e.id = g e.id) :
    blocks.rename f = blocks.rename g := by
  induction blocks with
  | nil => rfl
  | entity e rest ih =>
      obtain ⟨he, hrest⟩ := List.forall_mem_cons.mp h
      rw [rename, rename, ih hrest, Entity.rename, Entity.rename, he]
  | group name members rest ihMembers ihRest =>
      obtain ⟨hmembers, hrest⟩ := List.forall_mem_append.mp h
      rw [rename, rename, ihMembers hmembers, ihRest hrest]

variable {d : Document} (h : ∀ a ∈ d.names, f a = g a)

include h

theorem Edge.rename_congr {e : Edge} (he : e ∈ d.edges) : e.rename f = e.rename g := by
  have hsource := h e.source (Document.mem_names.mpr (Or.inr ⟨e, he, Or.inl rfl⟩))
  have htarget := h e.target (Document.mem_names.mpr (Or.inr ⟨e, he, Or.inr rfl⟩))
  rw [rename, rename, hsource, htarget]

theorem Document.rename_congr : d.rename f = d.rename g := by
  have hblocks : d.blocks.rename f = d.blocks.rename g :=
    Forest.rename_congr fun e he => h e.id (mem_names.mpr (Or.inl ⟨e, he, rfl⟩))
  have hedges : d.edges.map (Edge.rename f) = d.edges.map (Edge.rename g) :=
    List.map_congr_left fun e he => Edge.rename_congr h he
  rw [rename, rename, hblocks, hedges]

theorem Endpoint.rename_congr {e : Endpoint} (he : (ofDocument d).Stands e) :
    e.rename f = e.rename g := by
  cases e with
  | node id =>
      exact congrArg node (h id (Document.mem_names.mpr ((ofDocument_isOutline d).named id he)))
  | group key => rfl

theorem Route.rename_congr {α : Type} {w : Wire} (hw : w ∈ (ofDocument d).wires) {r : Route α}
    (hr : r.edge = w.edge) : r.rename f w = r.rename g w := by
  have hends := (ofDocument_isOutline d).ends w hw
  have hedge : w.edge ∈ d.edges := by
    rw [← (ofDocument_isOutline d).wired]
    exact List.mem_map_of_mem hw
  rw [rename, rename, Endpoint.rename_congr h hends.1, Endpoint.rename_congr h hends.2, hr,
    Edge.rename_congr h hedge]

omit h in
theorem Outline.Sound.of_membersOf {o : Outline} (hs : Sound o) {key : String} {m : Endpoint}
    (hm : m ∈ o.membersOf key) : o.Stands m := by
  unfold membersOf at hm
  cases hmembers : o.members key with
  | error _ =>
      rw [hmembers] at hm
      cases hm
  | ok ms =>
      rw [hmembers] at hm
      obtain ⟨c, hc, -⟩ := bind_eq_ok hmembers
      have hkey : key ∈ o.containers.keys := by
        unfold container at hc
        split at hc
        · next c' hget => exact KeyedList.mem_keys_of_get? hget
        · cases hc
      exact (((hs.of_members hkey hmembers).2 m).mp hm).2

theorem Layout.IsDrawing.rename_congr {α : Type} [Scalar α] {style : Style α}
    {filed : List (Wire × Compound.Filing)} {placed : KeyedList String (Ranked α)}
    {origins : KeyedList String (Point α)} {L : Layout α}
    (hL : Layout.IsDrawing d style filed placed origins L) :
    L.rename f (ofDocument d) = L.rename g (ofDocument d) := by
  have ho := ofDocument_isOutline d
  have hnodes : (L.nodes.entries.map fun e => (f e.1, e.2.rename f)) =
      L.nodes.entries.map fun e => (g e.1, e.2.rename g) := by
    refine List.map_congr_left fun e he => ?_
    have hid : e.1 ∈ (ofDocument d).nodeIds := by
      rw [← hL.isNodes.keys]
      exact List.mem_map_of_mem he
    have hname := h e.1 (Document.mem_names.mpr (ho.named e.1 hid))
    obtain ⟨n, hn⟩ := KeyedList.mem_keys_iff.mp hid
    obtain ⟨rect, -, hbox⟩ := hL.isNodes.box e.1 n hn
    have hentity : e.2.entity.id = e.1 := by
      have he' : L.nodes.get? e.1 = some e.2 := KeyedList.get?_eq_some_iff.mpr he
      rw [hbox, Option.some.injEq] at he'
      rw [← he']
      exact named_ofDocument d e.1 n hn
    rw [hname, NodeBox.rename, NodeBox.rename, Entity.rename, Entity.rename, hentity, hname]
  have hgroups (key : String) (b : GroupBox α) :
      b.rename f ((ofDocument d).membersOf key) = b.rename g ((ofDocument d).membersOf key) := by
    rw [GroupBox.rename, GroupBox.rename]
    have hmembers : ((ofDocument d).membersOf key).map (fun m => (m.rename f).key) =
        ((ofDocument d).membersOf key).map fun m => (m.rename g).key :=
      List.map_congr_left fun m hm => by rw [Endpoint.rename_congr h (ho.sound.of_membersOf hm)]
    rw [hmembers]
  have hroutes : List.zipWith (Route.rename f) (ofDocument d).wires L.routes =
      List.zipWith (Route.rename g) (ofDocument d).wires L.routes := by
    have hwires := hL.isFiled.wires
    refine List.zipWith_congr _ _ _ _ ?_
    rw [← hwires, List.forall₂_map_left_iff]
    refine forall₂_imp_left hL.routes fun x hx r hr => Route.rename_congr h ?_ hr.2.2.2.1
    rw [← hwires]
    exact List.mem_map_of_mem hx
  rw [Layout.rename, Layout.rename, hnodes, hroutes]
  simp only [hgroups]

end

/-! ## Drawings -/

/-- **Names do not matter.** A document with labels has the same drawing under other names: every
node, group and route has the place it had, and only the names differ. Neither the old names nor the
new ones may be reserved. -/
theorem Layout.graph_of_isRenaming {α : Type} [Metric α] {d : Document} {f : String → String}
    (style : Style α) (hlabels : ∀ e ∈ d.entities, e.hasLabel = true) (hf : d.IsRenaming f)
    (hplain : d.PlainUnder f) : ∃ L, Layout.graph d style = .ok L ∧
      Layout.graph (d.rename f) style = .ok (L.rename f (ofDocument d)) := by
  obtain ⟨L, filed, placed, origins, hL, hdrawing⟩ := Layout.exists_isDrawing d style
  obtain ⟨σ, hkept, hσ⟩ := hf.exists_kept hplain
  have hnames : ∀ a ∈ d.names, σ a = f a := fun a ha => hσ a (List.mem_append_left _ ha)
  have houtline : ofDocument (d.rename σ) = (ofDocument d).rename σ := by
    refine ofDocument_rename (fun name hname => ?_) fun e he name hname => ?_
    · rw [hσ name (List.mem_append_right _ hname), hf.groups name hname]
    · have hmem : name ∈ d.names := by
        refine Document.mem_names.mpr (Or.inr ⟨e, he, ?_⟩)
        simpa [eq_comm] using hname
      rw [hnames name hmem]
      exact hf.undotted name hmem
  refine ⟨L, hL, ?_⟩
  rw [← Document.rename_congr hnames, ← hdrawing.rename_congr hnames]
  exact Layout.graph_rename_embedding hkept hlabels houtline hL

/-- A long edge past a group, and one from the group to a name that nothing has. So there are
waypoints, a box of a group, and a node made up for an edge. -/
def Document.relay : Document :=
  let node (id : String) : Entity := ⟨id, KeyedList.empty.put "label" "box", none⟩
  let edge (source target : String) : Edge := ⟨source, target, .directed, none, none⟩
  { archetype := .graph
    metadata := .empty
    blocks := .group "G" (.entity (node "x") (.entity (node "y") .nil)) (.entity (node "z") .nil)
    edges := [edge "w" "x", edge "x" "y", edge "y" "z", edge "w" "z", edge "G" "s"]
    dialect := .native
    lineCount := 10 }

/-- The nodes get new names in another order, and some of them the old name of another node. -/
def Document.relayNames (name : String) : String :=
  match name with
  | "w" => "s"
  | "x" => "w"
  | "s" => "another"
  | name => name

theorem Layout.graph_of_isRenaming_relay :
    (∀ e ∈ Document.relay.entities, e.hasLabel = true) ∧
      Document.relay.IsRenaming Document.relayNames ∧
      Document.relay.PlainUnder Document.relayNames ∧
      ∃ L, @Layout.graph Rat (exactMetric diagonal) .relay .standard = .ok L ∧
        @Layout.graph Rat (exactMetric diagonal) (Document.relay.rename Document.relayNames)
          .standard = .ok (L.rename Document.relayNames (ofDocument .relay)) := by
  have hlabels : ∀ e ∈ Document.relay.entities, e.hasLabel = true := by decide +kernel
  have hf : Document.relay.IsRenaming Document.relayNames := by
    refine ⟨?_, ?_, ?_, ?_⟩ <;> decide +kernel
  have hplain : Document.relay.PlainUnder Document.relayNames := by
    unfold Document.PlainUnder
    decide +kernel
  exact ⟨hlabels, hf, hplain,
    @Layout.graph_of_isRenaming Rat (exactMetric diagonal) _ _ .standard hlabels hf hplain⟩

/-! ## Names of waypoints -/

/-- Two nodes and nothing else. They stand side by side on one layer. -/
def Document.couple : Document :=
  let node (id : String) : Entity := ⟨id, KeyedList.empty.put "label" "box", none⟩
  { archetype := .graph
    metadata := .empty
    blocks := .entity (node "A") (.entity (node "B") .nil)
    edges := []
    dialect := .native
    lineCount := 2 }

/-- Under the names of waypoints the two nodes are drawn closer together. So the drawing is not the
one under the old names, whichever that is. -/
theorem Layout.graph_moves_waypoint_names :
    (∀ e ∈ Document.couple.entities, e.hasLabel = true) ∧
      Document.couple.IsRenaming (Waypoint.mark ++ ·) ∧
      ¬ ∃ L, @Layout.graph Rat (exactMetric diagonal) .couple .standard = .ok L ∧
        @Layout.graph Rat (exactMetric diagonal) (Document.couple.rename (Waypoint.mark ++ ·))
          .standard = .ok (L.rename (Waypoint.mark ++ ·) (ofDocument .couple)) := by
  refine ⟨by decide +kernel, ⟨?_, ?_, ?_, ?_⟩, ?_⟩
  any_goals decide +kernel
  rintro ⟨L, hL, hL'⟩
  have hwidth : (@Layout.graph Rat (exactMetric diagonal) .couple .standard).toOption.map
      Layout.width = some 420 := by decide +kernel
  have hwidth' : (@Layout.graph Rat (exactMetric diagonal)
      (Document.couple.rename (Waypoint.mark ++ ·)) .standard).toOption.map
      Layout.width = some 370 := by decide +kernel
  rw [hL] at hwidth
  rw [hL'] at hwidth'
  have hsame : some L.width = some 370 := hwidth'
  rw [show some L.width = some 420 from hwidth] at hsame
  exact absurd hsame (by decide)

end Schematic
