import Schematic.Proofs.Ranking.Ordering
import Schematic.Ranking.Coordinates

/-!
# Every node has a place

Packing gives a place to every node of a layer, passes only change places that are there, and moving
everything takes no place away. So when an ordering has been worked off, exactly its nodes have a
place across their layer, and every layer of it has a place along the ranks.
-/

namespace Schematic

namespace Coordinates

variable {α : Type} [Scalar α] (gaps : Gaps α) (extents : KeyedList String (Extent α))

theorem map_fst_packFrom (want : String → α) (before : Option (String × α)) (layer : List String) :
    (packFrom gaps extents want before layer).map Prod.fst = layer := by
  induction layer generalizing before with
  | nil => cases before <;> rfl
  | cons v vs ih => cases before <;> rw [packFrom, List.map_cons, ih]

theorem mem_keys_pack {want : String → α} {across : KeyedList String α} {layer : List String}
    {v : String} :
    v ∈ (pack gaps extents want across layer).keys ↔ v ∈ across.keys ∨ v ∈ layer := by
  rw [pack, KeyedList.mem_keys_putAll, map_fst_packFrom]

theorem mem_keys_packed {ordering : List (List String)} {v : String} :
    v ∈ (packed gaps extents ordering).keys ↔ ∃ layer ∈ ordering, v ∈ layer := by
  have hfold : ∀ across : KeyedList String α,
      v ∈ (ordering.foldl (pack gaps extents (halfBreadth extents)) across).keys ↔
        v ∈ across.keys ∨ ∃ layer ∈ ordering, v ∈ layer := by
    induction ordering with
    | nil => intro across; simp
    | cons layer rest ih =>
        intro across
        rw [List.foldl_cons, ih, mem_keys_pack, or_assoc]
        simp
  rw [packed, hfold]
  simp [KeyedList.empty, KeyedList.keys]

/-- Passes only give a new place to nodes that have one, if their layers are in the ordering. -/
theorem mem_keys_pass {neighbours : String → List String} {across : KeyedList String α}
    {layers : List (List String)} (h : ∀ layer ∈ layers, ∀ v ∈ layer, v ∈ across.keys)
    {v : String} : v ∈ (pass gaps extents neighbours across layers).keys ↔ v ∈ across.keys := by
  unfold pass
  induction layers generalizing across with
  | nil => rfl
  | cons layer rest ih =>
      have hlayer := h layer (List.mem_cons_self ..)
      rw [List.foldl_cons, ih, mem_keys_pack]
      · constructor
        · rintro (hv | hv)
          · exact hv
          · exact hlayer v hv
        · exact Or.inl
      · intro l hl w hw
        rw [mem_keys_pack]
        exact Or.inl (h l (List.mem_cons_of_mem _ hl) w hw)

theorem keys_aligned (across : KeyedList String α) :
    (aligned extents across).keys = across.keys := by
  unfold aligned
  split
  · rfl
  · exact KeyedList.keys_mapValues _ _

/-- The nodes that have a place are those of the ordering. Packing gives places to these and to no
others, and neither passes nor moving everything changes which nodes have one. -/
theorem mem_keys_assign {l : Layered} {ordering : List (List String)} {v : String} :
    v ∈ (assign gaps extents l ordering).across.keys ↔ ∃ layer ∈ ordering, v ∈ layer := by
  have hin : ∀ (layers : List (List String)) {across : KeyedList String α},
      (∀ layer ∈ layers, layer ∈ ordering) →
      (∀ w, w ∈ across.keys ↔ ∃ layer ∈ ordering, w ∈ layer) →
      ∀ layer ∈ layers, ∀ w ∈ layer, w ∈ across.keys :=
    fun layers across hsub hkeys layer hlayer w hw => (hkeys w).mpr ⟨layer, hsub layer hlayer, hw⟩
  have hturn : ∀ {across : KeyedList String α},
      (∀ w, w ∈ across.keys ↔ ∃ layer ∈ ordering, w ∈ layer) →
      ∀ w, w ∈ (passBoth gaps extents l.graph ordering across).keys ↔
        ∃ layer ∈ ordering, w ∈ layer := by
    intro across hkeys w
    have hdown : ∀ u, u ∈ (pass gaps extents l.graph.predecessors across (ordering.drop 1)).keys ↔
        ∃ layer ∈ ordering, u ∈ layer := fun u => by
      rw [mem_keys_pass gaps extents (hin _ (fun _ => List.mem_of_mem_drop) hkeys), hkeys]
    rw [passBoth, mem_keys_pass gaps extents (hin _ (fun layer hl =>
      List.mem_reverse.mp (List.mem_of_mem_drop hl)) hdown), hdown]
  simp only [assign, keys_aligned]
  exact hturn (hturn fun w => mem_keys_packed gaps extents) v

theorem length_layerCenters (gap top : α) (depths : List α) :
    (layerCenters gap top depths).length = depths.length := by
  induction depths generalizing top with
  | nil => rfl
  | cons d ds ih => rw [layerCenters, List.length_cons, ih, List.length_cons]

theorem length_centers {l : Layered} {ordering : List (List String)} :
    (assign gaps extents l ordering).centers.length = ordering.length := by
  simp only [assign, length_layerCenters, List.length_map]

end Coordinates

end Schematic
