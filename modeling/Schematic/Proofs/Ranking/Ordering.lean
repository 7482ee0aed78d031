import Mathlib.Data.List.Forall2
import Mathlib.Data.List.Perm.Basic
import Schematic.Proofs.KeyedList
import Schematic.Ranking.Crossing

/-!
# Reordering keeps the layers

Sorting moves nodes about within their layers and nowhere else. So whatever number of sweeps is
made, the layers hold the nodes that belong there, each of them once: `Layered.isOrdering_ordering`.
-/

namespace Schematic

/-- The lists are of one length and hold, place by place, the same elements. One sweep keeps this,
so any number of them does. -/
abbrev LayersPerm {V : Type} (as bs : List (List V)) : Prop := List.Forall₂ List.Perm as bs

namespace Crossing

variable {V : Type}

theorem layersPerm_getElem? {as bs : List (List V)} (h : LayersPerm as bs) {k : Nat} {a : List V}
    (hk : as[k]? = some a) : ∃ b, bs[k]? = some b ∧ a.Perm b := by
  induction h generalizing k with
  | nil => simp at hk
  | cons hab _ ih =>
      cases k with
      | zero =>
          cases hk
          exact ⟨_, rfl, hab⟩
      | succ k => exact ih hk

theorem layersPerm_refl (as : List (List V)) : LayersPerm as as :=
  List.forall₂_same.mpr fun _ _ => List.Perm.refl _

theorem layersPerm_trans {as bs cs : List (List V)} (h : LayersPerm as bs) (h' : LayersPerm bs cs) :
    LayersPerm as cs := by
  induction h generalizing cs with
  | nil => exact h'
  | cons hab _ ih =>
      cases h' with
      | cons hbc hrest => exact .cons (hab.trans hbc) (ih hrest)

variable [DecidableEq V]

theorem sortLayer_perm (neighbours : V → List V) (before layer : List V) :
    (sortLayer neighbours before layer).Perm layer := by
  have hsort := (List.mergeSort_perm (layer.map fun v => (v, weight (neighbours v) before))
    (fun a b => weightLE a.2 b.2)).map Prod.fst
  rw [List.map_map] at hsort
  exact hsort.trans (by rw [show (Prod.fst ∘ fun v => (v, weight (neighbours v) before)) = id
    from rfl, List.map_id])

theorem sweepFrom_perm (neighbours : V → List V) (before : List V) (layers : List (List V)) :
    LayersPerm (sweepFrom neighbours before layers) layers := by
  induction layers generalizing before with
  | nil => exact .nil
  | cons layer rest ih => exact .cons (sortLayer_perm _ _ _) (ih _)

theorem sweep_perm (neighbours : V → List V) (layers : List (List V)) :
    LayersPerm (sweep neighbours layers) layers := by
  cases layers with
  | nil => exact .nil
  | cons layer rest => exact .cons (List.Perm.refl _) (sweepFrom_perm _ _ _)

theorem sweepBoth_perm (g : Digraph V) (layers : List (List V)) :
    LayersPerm (sweepBoth g layers) layers := by
  have hdown := List.rel_reverse (sweep_perm g.predecessors layers)
  have hup := layersPerm_trans (sweep_perm g.successors _) hdown
  have hback := List.rel_reverse hup
  rw [List.reverse_reverse] at hback
  exact hback

theorem improve_perm (g : Digraph V) (sweeps : Nat) (layers : List (List V)) :
    LayersPerm (improve g sweeps layers) layers := by
  induction sweeps generalizing layers with
  | zero => exact layersPerm_refl _
  | succ sweeps ih =>
      unfold improve
      simp only
      split
      · exact layersPerm_refl _
      · split
        · exact layersPerm_trans (ih _) (sweepBoth_perm g layers)
        · exact layersPerm_refl _

end Crossing

namespace Layered

/-- The layers `ord` hold the nodes of the graph, each of them once and in its own layer. -/
structure IsOrdering (l : Layered) (ord : List (List String)) : Prop where
  length : ord.length = l.layerCount
  mem : ∀ {k layer}, ord[k]? = some layer → ∀ v, v ∈ layer ↔ v ∈ l.graph.nodes ∧ l.layer v = k
  nodup : ∀ layer ∈ ord, layer.Nodup

theorem isOrdering_initial (l : Layered) : l.IsOrdering l.initialOrdering := by
  refine ⟨by simp [initialOrdering], ?_, ?_⟩
  · intro k layer hk v
    simp only [initialOrdering, List.getElem?_map, Option.map_eq_some_iff] at hk
    obtain ⟨j, hj, rfl⟩ := hk
    obtain ⟨-, rfl⟩ : j < l.layerCount ∧ k = j := by
      rw [List.getElem?_eq_some_iff] at hj
      obtain ⟨hlt, hj⟩ := hj
      rw [List.getElem_range] at hj
      rw [List.length_range] at hlt
      omega
    simp [List.mem_filter]
  · intro layer hlayer
    simp only [initialOrdering, List.mem_map] at hlayer
    obtain ⟨k, -, rfl⟩ := hlayer
    exact l.graph.nodup_nodes.filter _

theorem IsOrdering.of_perm {l : Layered} {ord ord' : List (List String)} (h : l.IsOrdering ord)
    (hp : LayersPerm ord' ord) : l.IsOrdering ord' := by
  refine ⟨hp.length_eq.trans h.length, ?_, ?_⟩
  · intro k layer hk v
    obtain ⟨layer', hk', hperm⟩ := Crossing.layersPerm_getElem? hp hk
    rw [hperm.mem_iff, h.mem hk']
  · intro layer hlayer
    obtain ⟨k, hk⟩ := List.mem_iff_getElem?.mp hlayer
    obtain ⟨layer', hk', hperm⟩ := Crossing.layersPerm_getElem? hp hk
    exact hperm.nodup_iff.mpr (h.nodup layer' (List.mem_of_getElem? hk'))

theorem isOrdering_ordering (l : Layered) : l.IsOrdering l.ordering :=
  l.isOrdering_initial.of_perm (Crossing.improve_perm _ _ _)

theorem lt_foldl_max {ks : List Nat} {n k : Nat} (h : k < n ∨ k ∈ ks) :
    k < ks.foldl (fun n k => max n (k + 1)) n := by
  induction ks generalizing n with
  | nil => exact h.resolve_right List.not_mem_nil
  | cons j js ih =>
      rw [List.foldl_cons]
      refine ih ?_
      rcases h with h | h
      · exact Or.inl (Nat.lt_of_lt_of_le h (Nat.le_max_left _ _))
      · rcases List.mem_cons.mp h with rfl | h
        · exact Or.inl (Nat.lt_of_lt_of_le (Nat.lt_succ_self _) (Nat.le_max_right _ _))
        · exact Or.inr h

theorem lt_layerCount {l : Layered} {v : String} (h : v ∈ l.layers.keys) :
    l.layer v < l.layerCount := by
  obtain ⟨k, hk⟩ := KeyedList.mem_keys_iff.mp h
  refine lt_foldl_max (Or.inr ?_)
  rw [layer, hk]
  exact List.mem_map.mpr ⟨(v, k), KeyedList.get?_eq_some_iff.mp hk, rfl⟩

/-- Every node of the graph is found in its layer, if all of them have one. A node without a layer
would stand on layer zero, which an ordering need not have. -/
theorem IsOrdering.exists_layer {l : Layered} {ord : List (List String)} (h : l.IsOrdering ord)
    {v : String} (hv : v ∈ l.graph.nodes) (hplaced : v ∈ l.layers.keys) :
    ∃ layer, ord[l.layer v]? = some layer ∧ v ∈ layer := by
  have hlt : l.layer v < ord.length := by
    rw [h.length]
    exact lt_layerCount hplaced
  have hk := List.getElem?_eq_getElem hlt
  exact ⟨_, hk, (h.mem hk v).mpr ⟨hv, rfl⟩⟩

end Layered

end Schematic
