import Mathlib.Data.List.Nodup
import Schematic.Proofs.Ranking.Spacing

/-!
# What coordinates promise for any ordering

The places of nodes and layers are assigned to whatever ordering is given, not only to the one that
has few crossings: it only has to name every node of the graph once. What is promised
(`Coordinates.IsSpread`) is an order and a distance across the layers, where the leftmost edge of
all, that of a waypoint included, is at zero, and bands along the ranks (`bands`): they begin at
zero, follow one another with the gap between ranks, and are as deep as their layers. The passes in
between may draw nodes to any places; that they keep the distance is the invariant of
`spaced_foldl_pack` and `spaced_pass`.
-/

namespace Schematic

namespace Coordinates

variable {gaps : Gaps Rat} {extents : KeyedList String (Extent Rat)} {l : Layered}
  {ordering : List (List String)}

/-! ## Bands -/

/-- Where each layer begins and ends along the ranks: half of its depth before its center and half
behind it. -/
def bands (centers depths : List Rat) : List (Rat × Rat) :=
  List.zipWith (fun x d => (x - d / 2, x + d / 2)) centers depths

theorem bands_cons (gap top d : Rat) (ds : List Rat) :
    bands (layerCenters gap top (d :: ds)) (d :: ds) =
      (top, top + d) :: bands (layerCenters gap (top + (d + gap)) ds) ds := by
  rw [layerCenters, bands, List.zipWith_cons_cons, ← bands]
  push_cast
  congr 2 <;> ring

theorem head?_bands {gap top : Rat} {ds : List Rat} {b : Rat × Rat}
    (hb : b ∈ (bands (layerCenters gap top ds) ds).head?) : b.1 = top := by
  cases ds with
  | nil => cases hb
  | cons d ds =>
      rw [bands_cons] at hb
      cases hb
      rfl

/-- Each band begins behind the one before it by the gap. -/
theorem isChain_bands (gap top : Rat) (ds : List Rat) :
    (bands (layerCenters gap top ds) ds).IsChain fun a b => b.1 = a.2 + gap := by
  induction ds generalizing top with
  | nil => exact .nil
  | cons d ds ih =>
      rw [bands_cons, List.isChain_cons]
      refine ⟨fun b hb => ?_, ih _⟩
      rw [head?_bands hb]
      ring

/-- No band begins before an earlier one has ended, not even if there are layers between the two, as
these have no negative depth. -/
theorem pairwise_bands {gap top : Rat} (hgap : 0 ≤ gap) {ds : List Rat} (hds : ∀ d ∈ ds, 0 ≤ d) :
    (bands (layerCenters gap top ds) ds).Pairwise fun a b => a.2 + gap ≤ b.1 := by
  rw [List.pairwise_iff_getElem]
  intro i j hi hj hij
  simp only [bands, List.getElem_zipWith]
  exact le_layerCenters hgap hds hij (List.getElem?_eq_getElem _) (List.getElem?_eq_getElem _)
    (List.getElem?_eq_getElem _) (List.getElem?_eq_getElem _)

/-- The band of each layer is as deep as the layer. -/
theorem forall₂_bands (gap top : Rat) (layers : List (List String)) (depth : List String → Rat) :
    List.Forall₂ (fun layer b => b.2 - b.1 = depth layer) layers
      (bands (layerCenters gap top (layers.map depth)) (layers.map depth)) := by
  induction layers generalizing top with
  | nil => exact .nil
  | cons layer rest ih =>
      rw [List.map_cons, bands_cons]
      exact .cons (by ring) (ih _)

/-- The depth of a layer is that of its deepest node. An empty layer has none, so it is left out
here. -/
theorem isGreatest_layerDepth (extents : KeyedList String (Extent Rat)) {layer : List String}
    (h : layer ≠ []) :
    IsGreatest {d | ∃ v ∈ layer, d = (extent extents v).depth} (layerDepth extents layer) := by
  constructor
  · obtain ⟨v, hv, hdepth⟩ := exists_layerDepth_eq extents h
    exact ⟨v, hv, hdepth.symm⟩
  · rintro d ⟨v, hv, rfl⟩
    exact depth_le_layerDepth hv

/-! ## Orderings -/

theorem disjoint_of_nodup_flatten (h : ordering.flatten.Nodup) : Disjoint ordering := by
  obtain ⟨hnodup, hpairs⟩ := List.nodup_flatten.mp h
  refine ⟨hnodup, fun layer hlayer other hother v hv hv' => ?_⟩
  have : Std.Symm (List.Disjoint (α := String)) := ⟨fun _ _ => List.disjoint_symm⟩
  by_contra hne
  exact hpairs.forall hlayer hother hne hv hv'

theorem extent_nonneg_of_values (h : ∀ e ∈ extents.values, 0 ≤ e.breadth ∧ 0 ≤ e.depth)
    (v : String) : 0 ≤ (extent extents v).breadth ∧ 0 ≤ (extent extents v).depth := by
  unfold extent
  cases hget : extents.get? v with
  | none => exact ⟨le_refl _, le_refl _⟩
  | some e => exact h e (KeyedList.mem_values_of_get? hget)

/-- How far neighbours of a layer have to stand apart: waypoints by the gap between lines, nodes by
that between nodes, and a waypoint and a node by the mean of the two. -/
def separation (gaps : Gaps Rat) (u v : String) : Rat :=
  if Waypoint.isId u ∧ Waypoint.isId v then gaps.edge
  else if Waypoint.isId u ∨ Waypoint.isId v then (gaps.node + gaps.edge) / 2
  else gaps.node

theorem gap_eq_separation (gaps : Gaps Rat) (u v : String) :
    gap gaps u v = separation gaps u v := by
  unfold gap separation
  cases Waypoint.isId u <;> cases Waypoint.isId v <;> rfl

theorem separation_nonneg (hnode : 0 ≤ gaps.node) (hedge : 0 ≤ gaps.edge) (u v : String) :
    0 ≤ separation gaps u v := by
  unfold separation
  split
  · exact hedge
  · split
    · linarith
    · exact hnode

/-- In a spaced layer the middles of the nodes stand in the order of the layer, since what lies
between two of them is never negative. -/
theorem Spaced.pairwise_le (hnode : 0 ≤ gaps.node) (hedge : 0 ≤ gaps.edge)
    (hhalf : ∀ v, 0 ≤ halfBreadth extents v) {f : String → Rat} {layer : List String}
    (h : Spaced gaps extents f layer) : layer.Pairwise fun u v => f u ≤ f v := by
  have : IsTrans String fun u v => f u ≤ f v := ⟨fun _ _ _ => le_trans⟩
  refine List.IsChain.pairwise (List.IsChain.imp (fun u v huv => ?_) h)
  rw [gap_eq_separation] at huv
  linarith [hhalf u, hhalf v, separation_nonneg hnode hedge u v]

/-! ## Assignments -/

/-- The nodes of the graph, and only they, are given places, which follow the ordering and keep
their distance; the leftmost edge of all is at zero. The layers are given bands that begin at zero,
come one behind the other with the gap between ranks, and are as deep as the deepest node of the
layer. -/
structure IsSpread (gaps : Gaps Rat) (extents : KeyedList String (Extent Rat)) (l : Layered)
    (ordering : List (List String)) (c : Coordinates Rat) : Prop where
  placed : ∀ v, v ∈ c.across.keys ↔ v ∈ l.graph.nodes
  ordered : ∀ layer ∈ ordering, layer.Pairwise fun u v => place c.across u ≤ place c.across v
  apart : ∀ layer ∈ ordering, layer.IsChain fun u v =>
    place c.across u + (extent extents u).breadth / 2 + separation gaps u v ≤
      place c.across v - (extent extents v).breadth / 2
  left : IsLeast {x | ∃ v ∈ l.graph.nodes, x = place c.across v - (extent extents v).breadth / 2} 0
  centers : c.centers.length = ordering.length
  depths : c.depths.length = ordering.length
  top : ∀ b ∈ (bands c.centers c.depths).head?, b.1 = 0
  onward : (bands c.centers c.depths).IsChain fun a b => b.1 = a.2 + gaps.rank
  disjoint : (bands c.centers c.depths).Pairwise fun a b => a.2 + gaps.rank ≤ b.1
  deep : List.Forall₂ (fun layer b => if layer = [] then b.2 - b.1 = 0 else
      IsGreatest {d | ∃ v ∈ layer, d = (extent extents v).depth} (b.2 - b.1))
    ordering (bands c.centers c.depths)

/-- Every ordering that names each node of a graph once is spread out, whatever the edges are.
Passes draw nodes to their neighbours, but only by packing their layers again, which keeps the
distances. -/
theorem assign_isSpread (hne : l.graph.nodes ≠ []) (hordering : ordering.flatten.Perm l.graph.nodes)
    (hextents : ∀ e ∈ extents.values, 0 ≤ e.breadth ∧ 0 ≤ e.depth)
    (hgaps : 0 ≤ gaps.node ∧ 0 ≤ gaps.rank ∧ 0 ≤ gaps.edge) :
    IsSpread gaps extents l ordering (assign gaps extents l ordering) := by
  obtain ⟨hnode, hrank, hedge⟩ := hgaps
  have hextent := extent_nonneg_of_values hextents
  have hspaced := spaced_assign gaps extents l
    (disjoint_of_nodup_flatten (hordering.nodup_iff.mpr l.graph.nodup_nodes))
  have hplaced (v : String) :
      v ∈ (assign gaps extents l ordering).across.keys ↔ v ∈ l.graph.nodes := by
    rw [mem_keys_assign, ← hordering.mem_iff, List.mem_flatten]
  have hkeys : (assign gaps extents l ordering).across.keys ≠ [] := by
    obtain ⟨v, hv⟩ := List.exists_mem_of_ne_nil _ hne
    exact List.ne_nil_of_mem ((hplaced v).mpr hv)
  refine ⟨hplaced, fun layer hlayer => ?_, fun layer hlayer => ?_, ?_, ?_, ?_, ?_, ?_, ?_, ?_⟩
  · exact (hspaced layer hlayer).pairwise_le hnode hedge
      (halfBreadth_nonneg fun v => (hextent v).1)
  · refine List.IsChain.imp (fun u v huv => ?_) (hspaced layer hlayer)
    simp only [gap_eq_separation, halfBreadth, Nat.cast_ofNat] at huv
    linarith
  · have hleft := isLeast_left_assign hkeys
    simp only [hplaced, halfBreadth, Nat.cast_ofNat] at hleft
    exact hleft
  · exact length_centers gaps extents
  · exact List.length_map _
  · exact fun b hb => head?_bands hb
  · exact isChain_bands _ _ _
  · refine pairwise_bands hrank fun d hd => ?_
    obtain ⟨layer, -, rfl⟩ := List.mem_map.mp hd
    exact layerDepth_nonneg (fun v => (hextent v).2) layer
  · refine (forall₂_bands _ _ _ _).imp fun layer b hb => ?_
    rw [hb]
    split
    · next hempty =>
      subst hempty
      rfl
    · next hlayer => exact isGreatest_layerDepth extents hlayer

/-- A way over a node and one that passes it by. -/
def detour : Layered :=
  .ofLayers (Digraph.ofLists ["a", "b", "c"] [("a", "b"), ("b", "c"), ("a", "c")])
    (.ofList [("a", 0), ("b", 1), ("c", 2)])

/-- The waypoint is put on the left of the node, against the order in which they came in. -/
def detourOrdering : List (List String) := [["a"], ["__dummy_1_0", "b"], ["c"]]

def detourExtents : KeyedList String (Extent Rat) :=
  .ofList [("a", ⟨100, 50⟩), ("b", ⟨60, 90⟩), ("c", ⟨0, 0⟩)]

theorem assign_isSpread_detour :
    detour.graph.nodes ≠ [] ∧ detourOrdering.flatten.Perm detour.graph.nodes ∧
      (∀ e ∈ detourExtents.values, 0 ≤ e.breadth ∧ 0 ≤ e.depth) ∧
      IsSpread ⟨60, 80, 10⟩ detourExtents detour detourOrdering
        (assign ⟨60, 80, 10⟩ detourExtents detour detourOrdering) := by
  have hne : detour.graph.nodes ≠ [] := by decide +kernel
  have hordering : detourOrdering.flatten.Perm detour.graph.nodes := by decide +kernel
  have hextents : ∀ e ∈ detourExtents.values, 0 ≤ e.breadth ∧ 0 ≤ e.depth := by decide +kernel
  exact ⟨hne, hordering, hextents,
    assign_isSpread hne hordering hextents ⟨by decide, by decide, by decide⟩⟩

end Coordinates

end Schematic
