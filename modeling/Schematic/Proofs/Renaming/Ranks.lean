import Schematic.Proofs.Ranking.Digraph
import Schematic.Proofs.Renaming.Keys
import Schematic.Ranking.Acyclic
import Schematic.Ranking.Crossing
import Schematic.Ranking.Layering

/-!
# Graphs with other nodes

Breaking cycles, assigning layers and reducing crossings ask about nodes only whether they are
equal, and settle ties by the order in which nodes and edges came in. So when the nodes of a graph
are mapped to others, distinct ones to distinct ones, each of these comes to the image of what it
came to before.
-/

namespace Schematic

universe u

variable {V W : Type} [DecidableEq V] [DecidableEq W]

namespace Digraph

variable (f : V ↪ W)

omit [DecidableEq V] [DecidableEq W] in
theorem ext_lists {g h : Digraph V} (hn : g.nodes = h.nodes) (he : g.edges = h.edges) : g = h := by
  cases g; cases h; cases hn; cases he; rfl

/-- The graph with every node replaced by its image. Nodes and edges keep their order, by which ties
are settled. -/
def map (g : Digraph V) : Digraph W where
  nodes := g.nodes.map f
  edges := g.edges.map (Prod.map f f)
  nodup_nodes := List.Nodup.map f.injective g.nodup_nodes
  nodup_edges := List.Nodup.map (f.injective.prodMap f.injective) g.nodup_edges
  ends_mem := by
    intro _ hm
    obtain ⟨e, he, rfl⟩ := List.mem_map.mp hm
    obtain ⟨h₁, h₂⟩ := g.ends_mem e he
    exact ⟨List.mem_map_of_mem h₁, List.mem_map_of_mem h₂⟩

/-! ## Building -/

theorem addNode_map (g : Digraph V) (v : V) : (g.map f).addNode (f v) = (g.addNode v).map f := by
  have hmem : f v ∈ (g.map f).nodes ↔ v ∈ g.nodes := List.mem_map_of_injective f.injective
  by_cases h : v ∈ g.nodes
  · rw [nodes_addNode_of_mem h, nodes_addNode_of_mem (hmem.mpr h)]
  · refine ext_lists ?_ ?_
    · simp [addNode, h, map]
    · show ((g.map f).addNode (f v)).edges = (g.addNode v).edges.map _
      rw [edges_addNode, edges_addNode]
      rfl

theorem addEdge_map (g : Digraph V) (u v : V) :
    (g.map f).addEdge (f u) (f v) = (g.addEdge u v).map f := by
  have hends : ((g.map f).addNode (f u)).addNode (f v) = ((g.addNode u).addNode v).map f := by
    rw [addNode_map, addNode_map]
  have hmem : (f u, f v) ∈ (((g.addNode u).addNode v).map f).edges ↔
      (u, v) ∈ ((g.addNode u).addNode v).edges :=
    List.mem_map_of_injective (f.injective.prodMap f.injective) (a := (u, v))
  unfold addEdge
  simp only [hends]
  by_cases h : (u, v) ∈ ((g.addNode u).addNode v).edges
  · rw [dif_pos h, dif_pos (hmem.mpr h)]
  · rw [dif_neg h, dif_neg fun h' => h (hmem.mp h')]
    refine ext_lists rfl ?_
    simp [map]

theorem addNodes_map (g : Digraph V) (vs : List V) :
    (g.map f).addNodes (vs.map f) = (g.addNodes vs).map f := by
  induction vs generalizing g with
  | nil => rfl
  | cons v vs ih =>
      show ((g.map f).addNode (f v)).addNodes (vs.map f) = _
      rw [addNode_map, ih]
      rfl

theorem addEdges_map (g : Digraph V) (es : List (V × V)) :
    (g.map f).addEdges (es.map (Prod.map f f)) = (g.addEdges es).map f := by
  induction es generalizing g with
  | nil => rfl
  | cons e es ih =>
      show ((g.map f).addEdge (f e.1) (f e.2)).addEdges (es.map (Prod.map f f)) = _
      rw [addEdge_map, ih]
      rfl

theorem ofLists_map (vs : List V) (es : List (V × V)) :
    ofLists (vs.map f) (es.map (Prod.map f f)) = (ofLists vs es).map f := by
  have hempty : (empty : Digraph W) = (empty : Digraph V).map f := ext_lists rfl rfl
  rw [ofLists, hempty, addNodes_map, addEdges_map]
  rfl

/-! ## Neighbours -/

theorem successors_map (g : Digraph V) (v : V) :
    (g.map f).successors (f v) = (g.successors v).map f := by
  simp only [successors, map, List.filterMap_map, List.map_filterMap]
  refine congrArg (fun h => g.edges.filterMap h) (funext fun e => ?_)
  by_cases h : e.1 = v <;> simp [h]

theorem predecessors_map (g : Digraph V) (v : V) :
    (g.map f).predecessors (f v) = (g.predecessors v).map f := by
  simp only [predecessors, map, List.filterMap_map, List.map_filterMap]
  refine congrArg (fun h => g.edges.filterMap h) (funext fun e => ?_)
  by_cases h : e.2 = v <;> simp [h]

theorem arcs_map (g : Digraph V) : (g.map f).arcs = g.arcs.map (Prod.map f f) := by
  show (g.nodes.map f).flatMap _ = _
  rw [arcs, List.flatMap_map, List.map_flatMap]
  refine congrArg (fun h => g.nodes.flatMap h) (funext fun u => ?_)
  rw [successors_map, List.map_map, List.map_map]
  rfl

/-! ## Breaking cycles -/

theorem surplus_map (g : Digraph V) (left : List V) (v : V) :
    (g.map f).surplus (left.map f) (f v) = g.surplus left v := by
  simp only [surplus, outDegree, inDegree, successors_map, predecessors_map, countP_contains_map]

section Peel

variable {pick : List V → V → Bool} {pick' : List W → W → Bool}

omit [DecidableEq V] [DecidableEq W] in
theorem peel_map (h : ∀ left v, pick' (left.map f) (f v) = pick left v) (left : List V) :
    peel pick' (left.map f) = ((peel pick left).1.map f, (peel pick left).2.map f) := by
  have hpicked (left : List V) : picked pick' (left.map f) = (picked pick left).map f :=
    filter_map f (h left) left
  have hunpicked (left : List V) : unpicked pick' (left.map f) = (unpicked pick left).map f :=
    filter_map f (fun v => by rw [h]) left
  fun_induction peel pick left with
  | case1 left he =>
      rw [peel, hpicked, List.isEmpty_map, if_pos he]
      rfl
  | case2 left he rest ih =>
      rw [peel, hpicked, List.isEmpty_map, if_neg he, hunpicked, ih, List.map_append]

end Peel

theorem peelSinks_map (g : Digraph V) (left : List V) :
    (g.map f).peelSinks (left.map f) = ((g.peelSinks left).1.map f, (g.peelSinks left).2.map f) :=
  peel_map f (fun left v => by rw [outDegree, successors_map, countP_contains_map, outDegree]) left

theorem peelSources_map (g : Digraph V) (left : List V) :
    (g.map f).peelSources (left.map f) =
      ((g.peelSources left).1.map f, (g.peelSources left).2.map f) :=
  peel_map f (fun left v => by rw [inDegree, predecessors_map, countP_contains_map, inDegree]) left

theorem richest_map (g : Digraph V) (left : List V) (v : V) (vs : List V) :
    (g.map f).richest (left.map f) (f v) (vs.map f) = f (g.richest left v vs) := by
  unfold richest
  induction vs generalizing v with
  | nil => rfl
  | cons u us ih =>
      rw [List.map_cons, List.foldl_cons, List.foldl_cons, surplus_map, surplus_map, ← ih]
      split <;> rfl

theorem orderFrom_map (g : Digraph V) (left : List V) :
    (g.map f).orderFrom (left.map f) = (g.orderFrom left).map f := by
  fun_induction orderFrom g left with
  | case1 left h =>
      have h' : ((g.map f).peelSources ((g.map f).peelSinks (left.map f)).1).1 = [] := by
        rw [peelSinks_map, peelSources_map, h]
        rfl
      rw [orderFrom]
      split
      · simp only [peelSinks_map, peelSources_map, List.map_append, List.map_reverse]
      · next w ws hws =>
        rw [h'] at hws
        cases hws
  | case2 left v vs h hlt ih =>
      have h' : ((g.map f).peelSources ((g.map f).peelSinks (left.map f)).1).1 =
          f v :: vs.map f := by
        rw [peelSinks_map, peelSources_map, h]
        rfl
      rw [orderFrom]
      split
      · next hnil =>
        rw [h'] at hnil
        cases hnil
      · next w ws hws =>
        rw [h'] at hws
        cases hws
        have hrichest := richest_map f g (v :: vs) v vs
        have herase := List.map_erase f.injective (a := g.richest (v :: vs) v vs) (v :: vs)
        rw [List.map_cons] at hrichest herase
        dsimp only
        rw [hrichest, ← herase, ih]
        simp only [peelSinks_map, peelSources_map, List.map_append, List.map_reverse,
          List.map_cons]

theorem greedyOrder_map (g : Digraph V) : (g.map f).greedyOrder = g.greedyOrder.map f :=
  orderFrom_map f g g.nodes

theorem backEdges_map (g : Digraph V) : (g.map f).backEdges = g.backEdges.map (Prod.map f f) := by
  rw [backEdges, arcs_map, greedyOrder_map, backEdges]
  refine List.filter_map.trans (congrArg (List.map _) (List.filter_congr fun e _ => ?_))
  simp only [Function.comp_apply, Prod.map, idxOf_map, bne, beq_eq_decide,
    EmbeddingLike.apply_eq_iff_eq]

theorem acyclic_map (g : Digraph V) : (g.map f).acyclic = g.acyclic.map f := by
  have harcs : (g.arcs.map (Prod.map f f)).filter (fun e => e.1 != e.2) =
      (g.arcs.filter fun e => e.1 != e.2).map (Prod.map f f) := by
    refine List.filter_map.trans (congrArg (List.map _) (List.filter_congr fun e _ => ?_))
    simp [bne, beq_eq_decide]
  have hturn (e : V × V) : (if (g.backEdges.map (Prod.map f f)).contains (Prod.map f f e)
      then ((Prod.map f f e).2, (Prod.map f f e).1) else Prod.map f f e) =
        Prod.map f f (if g.backEdges.contains e then (e.2, e.1) else e) := by
    have hcontains := contains_map (f.prodMap f) g.backEdges e
    rw [Function.Embedding.coe_prodMap] at hcontains
    rw [hcontains]
    split <;> rfl
  rw [acyclic, acyclic, ← ofLists_map]
  show ofLists (g.nodes.map f) _ = _
  rw [backEdges_map, arcs_map, harcs, List.map_map, List.map_map]
  exact congrArg (ofLists _) (List.map_congr_left fun e _ => hturn e)

/-! ## Layers -/

theorem isSource_map (g : Digraph V) (left : List V) (v : V) :
    (g.map f).isSource (left.map f) (f v) = g.isSource left v := by
  rw [isSource, predecessors_map, any_contains_map, isSource]

theorem layersFrom?_map (g : Digraph V) (left : List V) :
    (g.map f).layersFrom? (left.map f) = (g.layersFrom? left).map (List.map (List.map f)) := by
  have hsources (left : List V) : (g.map f).sources (left.map f) = (g.sources left).map f :=
    filter_map f (isSource_map f g left) left
  have hbeyond (left : List V) :
      (g.map f).beyondSources (left.map f) = (g.beyondSources left).map f :=
    filter_map f (fun v => by rw [isSource_map]) left
  fun_induction layersFrom? g left with
  | case1 left he => rw [layersFrom?, List.isEmpty_map, if_pos he]; rfl
  | case2 left he hs =>
      rw [layersFrom?, hsources, List.isEmpty_map, List.isEmpty_map, if_neg he, if_pos hs]
      rfl
  | case3 left he hs ih =>
      rw [layersFrom?, hsources, List.isEmpty_map, List.isEmpty_map, if_neg he, if_neg hs, hbeyond,
        ih, Option.map_map, Option.map_map]
      rfl

theorem layers?_map (g : Digraph V) : (g.map f).layers? = g.layers?.map (KeyedList.rekey f) := by
  have hlayer (layers : List (List V)) (v : V) :
      (layers.map (List.map f)).findIdx (fun layer => layer.contains (f v)) =
        layers.findIdx fun layer => layer.contains v := by
    rw [List.findIdx_map]
    exact congrArg (List.findIdx · layers) (funext fun layer => contains_map f layer v)
  rw [layers?, layers?]
  show ((g.map f).layersFrom? (g.nodes.map f)).map _ = _
  rw [layersFrom?_map, Option.map_map, Option.map_map]
  refine congrArg (fun h => Option.map h (g.layersFrom? g.nodes)) (funext fun layers => ?_)
  simp only [Function.comp_apply]
  rw [← KeyedList.ofList_rekey, List.map_map]
  show KeyedList.ofList (List.map _ (g.nodes.map f)) = _
  rw [List.map_map]
  refine congrArg KeyedList.ofList (List.map_congr_left fun v _ => ?_)
  simp only [Function.comp_apply, hlayer, Prod.map, id]

end Digraph

/-! ## Crossings -/

namespace Crossing

variable (f : V ↪ W)

theorem position?_map (layer : List V) (v : V) :
    position? (layer.map f) (f v) = position? layer v := by
  rw [position?, List.zipIdx_map, ← List.map_reverse, lookup_map]
  rfl

theorem spans_map (g : Digraph V) (upper lower : List V) :
    spans (g.map f) (upper.map f) (lower.map f) = spans g upper lower := by
  rw [spans, List.zipIdx_map, List.flatMap_map, spans]
  refine congrArg (fun h => upper.zipIdx.flatMap h) (funext fun e => ?_)
  simp only [Prod.map, id, Digraph.successors_map, List.filterMap_map]
  exact congrArg (fun h => (g.successors e.1).filterMap h)
    (funext fun v => by rw [Function.comp_apply, position?_map])

theorem crossings_map (g : Digraph V) (layers : List (List V)) :
    crossings (g.map f) (layers.map (List.map f)) = crossings g layers := by
  fun_induction crossings g layers with
  | case1 upper lower rest ih =>
      rw [List.map_cons, List.map_cons, crossings, spans_map]
      rw [List.map_cons] at ih
      rw [ih]
  | case2 layers h =>
      cases layers with
      | nil => rfl
      | cons a rest =>
          cases rest with
          | nil => rfl
          | cons b rest => exact absurd rfl (h a b rest)

theorem weight_map (neighbours layer : List V) :
    weight (neighbours.map f) (layer.map f) = weight neighbours layer := by
  have hplaces : (neighbours.map f).filterMap (position? (layer.map f)) =
      neighbours.filterMap (position? layer) := by
    rw [List.filterMap_map]
    exact congrArg (fun h => neighbours.filterMap h)
      (funext fun v => position?_map f layer v)
  rw [weight, hplaces, weight]

section Sorting

variable {near : V → List V} {near' : W → List W} (h : ∀ v, near' (f v) = (near v).map f)

include h

theorem sortLayer_map (before layer : List V) :
    sortLayer near' (before.map f) (layer.map f) = (sortLayer near before layer).map f := by
  have hweighed : (layer.map f).map (fun v => (v, weight (near' v) (before.map f))) =
      (layer.map fun v => (v, weight (near v) before)).map (Prod.map f id) := by
    rw [List.map_map, List.map_map]
    refine List.map_congr_left fun v _ => ?_
    simp only [Function.comp_apply, h, weight_map, Prod.map, id]
  have hsort := List.map_mergeSort (f := Prod.map f id) (r := fun a b => weightLE a.2 b.2)
    (s := fun a b => weightLE a.2 b.2) (l := layer.map fun v => (v, weight (near v) before))
    fun _ _ _ _ => rfl
  simp only [sortLayer]
  rw [hweighed, ← hsort, List.map_map, List.map_map]
  rfl

theorem sweepFrom_map (before : List V) (layers : List (List V)) :
    sweepFrom near' (before.map f) (layers.map (List.map f)) =
      (sweepFrom near before layers).map (List.map f) := by
  induction layers generalizing before with
  | nil => rfl
  | cons layer rest ih =>
      simp only [List.map_cons, sweepFrom]
      rw [sortLayer_map f h, ih]

theorem sweep_map (layers : List (List V)) :
    sweep near' (layers.map (List.map f)) = (sweep near layers).map (List.map f) := by
  cases layers with
  | nil => rfl
  | cons layer rest => rw [List.map_cons, sweep, sweepFrom_map f h, sweep, List.map_cons]

end Sorting

theorem sweepBoth_map (g : Digraph V) (layers : List (List V)) :
    sweepBoth (g.map f) (layers.map (List.map f)) = (sweepBoth g layers).map (List.map f) := by
  rw [sweepBoth, sweep_map f (Digraph.predecessors_map f g), ← List.map_reverse,
    sweep_map f (Digraph.successors_map f g), ← List.map_reverse, sweepBoth]

theorem improve_map (g : Digraph V) (sweeps : Nat) (layers : List (List V)) :
    improve (g.map f) sweeps (layers.map (List.map f)) =
      (improve g sweeps layers).map (List.map f) := by
  induction sweeps generalizing layers with
  | zero => rfl
  | succ sweeps ih =>
      simp only [improve]
      rw [sweepBoth_map, crossings_map, crossings_map, ih]
      split
      · rfl
      · split <;> rfl

end Crossing

end Schematic
