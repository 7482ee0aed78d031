import Mathlib.Data.Finset.Max
import Schematic.Proofs.KeyedList
import Schematic.Proofs.Ranking.Acyclic
import Schematic.Ranking.Layering

/-!
# Every graph without cycles has layers

A graph whose edges all go up in some measure always has a source among the nodes that are left, so
the removal of sources ends with nothing left. The layer of a node is the round of its removal, and
an edge ends in a later round than it begins.
-/

namespace Schematic

namespace Digraph

variable {V : Type} [DecidableEq V] {g : Digraph V} {u v : V}

theorem isSource_iff {left : List V} :
    g.isSource left v = true ↔ ∀ u ∈ left, (u, v) ∉ g.edges := by
  simp only [isSource, Bool.not_eq_true', List.any_eq_false, mem_predecessors,
    List.contains_iff_mem]
  constructor
  · exact fun h u hu he => h u he hu
  · exact fun h u he hu => h u hu he

/-- A node that is least in the measure is a source. -/
theorem sources_ne_nil {f : V → Nat} (hf : ∀ e ∈ g.edges, f e.1 < f e.2) {left : List V}
    (h : left ≠ []) : g.sources left ≠ [] := by
  obtain ⟨w, hw⟩ := List.exists_mem_of_ne_nil left h
  obtain ⟨v, hv, hleast⟩ := Finset.exists_min_image left.toFinset f ⟨w, List.mem_toFinset.mpr hw⟩
  refine List.ne_nil_of_mem (List.mem_filter.mpr ⟨List.mem_toFinset.mp hv, isSource_iff.mpr ?_⟩)
  intro u hu he
  have hlt := hf (u, v) he
  have hle := hleast u (List.mem_toFinset.mpr hu)
  simp only at hlt
  omega

theorem mem_beyondSources {left : List V} (hv : v ∈ left) (h : v ∉ g.sources left) :
    v ∈ g.beyondSources left := by
  refine List.mem_filter.mpr ⟨hv, ?_⟩
  cases hsource : g.isSource left v with
  | false => rfl
  | true => exact absurd (List.mem_filter.mpr ⟨hv, hsource⟩) h

omit [DecidableEq V] in
theorem findIdx_contains_cons [BEq V] [LawfulBEq V] {layer : List V} (h : v ∉ layer)
    (layers : List (List V)) : (layer :: layers).findIdx (fun layer => layer.contains v) =
      layers.findIdx (fun layer => layer.contains v) + 1 := by
  simp [List.findIdx_cons, h]

/-- An edge ends in a later round than it begins. As long as its source is left its target is no
source of what is left, so it cannot be taken in the same round or before. -/
theorem round_lt_of_mem_edges {left : List V} {rounds : List (List V)}
    (h : g.layersFrom? left = some rounds) (hu : u ∈ left) (hv : v ∈ left)
    (he : (u, v) ∈ g.edges) :
    rounds.findIdx (fun layer => layer.contains u) <
      rounds.findIdx (fun layer => layer.contains v) := by
  fun_induction layersFrom? g left generalizing rounds with
  | case1 left hempty =>
      rw [List.isEmpty_iff.mp hempty] at hu
      cases hu
  | case2 left hempty hs => cases h
  | case3 left hempty hs ih =>
      obtain ⟨rest, hrest, rfl⟩ := Option.map_eq_some_iff.mp h
      -- the source of the edge is among what is left, so its target is not removed in this round
      have hbeyond : v ∉ g.sources left := fun hmem =>
        isSource_iff.mp (List.mem_filter.mp hmem).2 u hu he
      rw [findIdx_contains_cons hbeyond]
      by_cases hsu : u ∈ g.sources left
      · simp [List.findIdx_cons, hsu]
      · rw [findIdx_contains_cons hsu]
        exact Nat.succ_lt_succ
          (ih hrest (mem_beyondSources hu hsu) (mem_beyondSources hv hbeyond))

/-- The nodes of a measured graph are taken away in rounds. There is a source in every round, so
fewer nodes are left after it, and the search does not end with nodes left that have no layer. -/
theorem exists_layersFrom? {f : V → Nat} (hf : ∀ e ∈ g.edges, f e.1 < f e.2) (left : List V) :
    ∃ rounds, g.layersFrom? left = some rounds := by
  fun_induction layersFrom? g left with
  | case1 left h => exact ⟨[], rfl⟩
  | case2 left h hs =>
      have hne := sources_ne_nil hf (by simpa using h)
      exact absurd (by simpa using hs) hne
  | case3 left h hs ih =>
      obtain ⟨rounds, hrounds⟩ := ih
      exact ⟨_, Option.map_eq_some_iff.mpr ⟨rounds, hrounds, rfl⟩⟩

/-- The layers of a graph are the rounds of its nodes. -/
theorem exists_rounds {layers : KeyedList V Nat} (h : g.layers? = some layers) :
    ∃ rounds, g.layersFrom? g.nodes = some rounds ∧ layers.keys = g.nodes ∧
      ∀ v ∈ g.nodes,
        layers.get? v = some (rounds.findIdx fun layer => layer.contains v) := by
  obtain ⟨rounds, hrounds, rfl⟩ := Option.map_eq_some_iff.mp h
  have hkeys : (g.nodes.map fun v => (v, rounds.findIdx fun layer => layer.contains v)).map Prod.fst
      = g.nodes := by
    rw [List.map_map]
    exact List.map_id _
  refine ⟨rounds, hrounds, ?_, fun v hv => ?_⟩
  · rw [KeyedList.keys, KeyedList.entries_ofList (by rw [hkeys]; exact g.nodup_nodes), hkeys]
  · refine KeyedList.get?_ofList_map (f := fun v => v) ?_ hv
    rw [List.map_id']
    exact g.nodup_nodes

/-- The target of an edge is on a later layer than its source. -/
theorem layer_lt_of_mem_edges {layers : KeyedList V Nat} (h : g.layers? = some layers)
    (he : (u, v) ∈ g.edges) : (layers.get? u).getD 0 < (layers.get? v).getD 0 := by
  obtain ⟨rounds, hrounds, -, hget⟩ := exists_rounds h
  obtain ⟨hu, hv⟩ := g.ends_mem _ he
  rw [hget u hu, hget v hv]
  exact round_lt_of_mem_edges hrounds hu hv he

/-- A graph whose edges go up in some measure has layers: one for each node, and a later one for the
target of an edge than for its source. -/
theorem layers?_spec {f : V → Nat} (hf : ∀ e ∈ g.edges, f e.1 < f e.2) :
    ∃ layers, g.layers? = some layers ∧ layers.keys = g.nodes ∧
      ∀ u v, (u, v) ∈ g.edges →
        (layers.get? u).getD 0 < (layers.get? v).getD 0 := by
  obtain ⟨rounds, hrounds⟩ := exists_layersFrom? hf g.nodes
  obtain ⟨layers, hlayers⟩ : ∃ layers, g.layers? = some layers :=
    ⟨_, Option.map_eq_some_iff.mpr ⟨rounds, hrounds, rfl⟩⟩
  obtain ⟨-, -, hkeys, -⟩ := exists_rounds hlayers
  exact ⟨layers, hlayers, hkeys, fun _ _ he => layer_lt_of_mem_edges hlayers he⟩

/-- Unless the graph is empty, its sources are the first layer. -/
theorem exists_first_layer {layers : KeyedList V Nat} (h : g.layers? = some layers)
    (hne : g.nodes ≠ []) : ∃ v ∈ g.nodes, layers.get? v = some 0 := by
  obtain ⟨rounds, hrounds, -, hget⟩ := exists_rounds h
  rw [layersFrom?] at hrounds
  split at hrounds
  · next hempty => exact absurd (List.isEmpty_iff.mp hempty) hne
  · split at hrounds
    · cases hrounds
    · next hsources =>
      obtain ⟨rest, -, rfl⟩ := Option.map_eq_some_iff.mp hrounds
      obtain ⟨v, hv⟩ := List.exists_mem_of_ne_nil _ (by simpa using hsources)
      have hmem := (List.mem_filter.mp hv).1
      exact ⟨v, hmem, by rw [hget v hmem]; simp [List.findIdx_cons, hv]⟩

end Digraph

end Schematic
