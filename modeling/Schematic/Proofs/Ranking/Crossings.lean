import Mathlib.Data.Finset.Sym
import Schematic.Proofs.Ranking.Degrees
import Schematic.Proofs.Ranking.Ordering

/-!
# Crossings are pairs of edges

Two edges cross if both lead from one layer to the next and one of them begins on the left of the
other and ends on its right (`Crosses`). The crossings of an ordering are the unordered pairs of
edges that do (`crossingSet`); nothing in this depends on how they are counted. Counting by
positions, layer by layer, finds each of them once (`crossings_eq_card`), because no node is in two
layers. A sweep may well make more crossings than there were, but what it makes is then not kept
(`crossings_improve_le`), so the ordering of a layered graph has no more of them than the order in
which its nodes came in: `Layered.ordering_reduces_crossings`.
-/

namespace Schematic

namespace Crossing

variable {V : Type} [DecidableEq V]

/-! ## Pairs that cross -/

/-- One of the edges from `upper` to `lower` begins on the left of the other and ends on its
right. -/
def Opposed (upper lower : List V) (e f : V × V) : Prop :=
  ([e.1, f.1].Sublist upper ∧ [f.2, e.2].Sublist lower) ∨
    ([f.1, e.1].Sublist upper ∧ [e.2, f.2].Sublist lower)

/-- The edges lead from one layer to the next, and their ends are in opposite order. Edges that
share an end do not cross. -/
def Crosses (layers : List (List V)) (e f : V × V) : Prop :=
  ∃ p ∈ layers.zip layers.tail, Opposed p.1 p.2 e f

instance (upper lower : List V) : DecidableRel (Opposed upper lower) :=
  fun _ _ => inferInstanceAs (Decidable (_ ∨ _))

instance (layers : List (List V)) : DecidableRel (Crosses layers) :=
  fun _ _ => inferInstanceAs (Decidable (∃ p ∈ layers.zip layers.tail, _))

omit [DecidableEq V] in
theorem opposed_symm (upper lower : List V) : Std.Symm (Opposed upper lower) := ⟨fun _ _ => Or.symm⟩

omit [DecidableEq V] in
theorem crosses_symm (layers : List (List V)) : Std.Symm (Crosses layers) :=
  ⟨fun _ _ ⟨p, hp, h⟩ => ⟨p, hp, h.symm⟩⟩

/-- The crossings between two layers. -/
def opposedSet (g : Digraph V) (upper lower : List V) : Finset (Sym2 (V × V)) :=
  g.edges.toFinset.sym2.filter (· ∈ Sym2.fromRel (opposed_symm upper lower))

/-- The crossings of an ordering, as unordered pairs of edges. -/
def crossingSet (g : Digraph V) (layers : List (List V)) : Finset (Sym2 (V × V)) :=
  g.edges.toFinset.sym2.filter (· ∈ Sym2.fromRel (crosses_symm layers))

omit [DecidableEq V] in
theorem Opposed.mem {upper lower : List V} {e f : V × V} (h : Opposed upper lower e f) :
    (e.1 ∈ upper ∧ e.2 ∈ lower) ∧ f.1 ∈ upper ∧ f.2 ∈ lower := by
  rcases h with ⟨hu, hl⟩ | ⟨hu, hl⟩
  · exact ⟨⟨hu.subset (by simp), hl.subset (by simp)⟩, hu.subset (by simp), hl.subset (by simp)⟩
  · exact ⟨⟨hu.subset (by simp), hl.subset (by simp)⟩, hu.subset (by simp), hl.subset (by simp)⟩

omit [DecidableEq V] in
theorem Crosses.mem {layers : List (List V)} {e f : V × V} (h : Crosses layers e f) :
    e.1 ∈ layers.flatten := by
  obtain ⟨p, hp, hopposed⟩ := h
  exact List.mem_flatten.mpr ⟨p.1, (List.of_mem_zip hp).1, hopposed.mem.1.1⟩

omit [DecidableEq V] in
theorem crosses_cons {upper lower : List V} {rest : List (List V)} {e f : V × V} :
    Crosses (upper :: lower :: rest) e f ↔
      Opposed upper lower e f ∨ Crosses (lower :: rest) e f := by
  simp [Crosses]

theorem crossingSet_eq_empty (g : Digraph V) {layers : List (List V)}
    (h : layers.zip layers.tail = []) : crossingSet g layers = ∅ := by
  rw [crossingSet, Finset.filter_eq_empty_iff]
  intro s
  induction s using Sym2.ind with
  | _ e f =>
      rw [Sym2.fromRel_prop, Crosses, h]
      rintro - ⟨p, hp, -⟩
      exact List.not_mem_nil hp

theorem crossingSet_cons (g : Digraph V) (upper lower : List V) (rest : List (List V)) :
    crossingSet g (upper :: lower :: rest) =
      opposedSet g upper lower ∪ crossingSet g (lower :: rest) := by
  ext s
  induction s using Sym2.ind with
  | _ e f =>
      simp only [crossingSet, opposedSet, Finset.mem_union, Finset.mem_filter, Sym2.fromRel_prop,
        crosses_cons, and_or_left]

/-- Nodes of the first layer are in no other. So an edge from it is not counted again further down.
-/
theorem disjoint_opposedSet (g : Digraph V) {upper lower : List V} {rest : List (List V)}
    (h : (upper :: lower :: rest).flatten.Nodup) :
    Disjoint (opposedSet g upper lower) (crossingSet g (lower :: rest)) := by
  rw [Finset.disjoint_left]
  intro s
  induction s using Sym2.ind with
  | _ e f =>
      simp only [crossingSet, opposedSet, Finset.mem_filter, Sym2.fromRel_prop]
      rintro ⟨-, hopposed⟩ ⟨-, hcrosses⟩
      rw [List.flatten_cons, List.nodup_append] at h
      exact h.2.2 e.1 hopposed.mem.1.1 e.1 hcrosses.mem rfl

/-! ## Positions -/

/-- In a layer without repetitions, what stands further left has the smaller position. -/
theorem pair_sublist_iff {layer : List V} (h : layer.Nodup) {u v : V} :
    [u, v].Sublist layer ↔
      (u ∈ layer ∧ v ∈ layer) ∧ layer.idxOf u < layer.idxOf v := by
  induction layer with
  | nil => simp
  | cons w ws ih =>
      obtain ⟨hw, hws⟩ := List.nodup_cons.mp h
      have hnot (x y : V) (hxy : w ∈ [x, y]) : ¬ [x, y].Sublist ws :=
        fun hsub => hw (hsub.subset hxy)
      rw [List.sublist_cons_iff]
      by_cases hu : u = w
      · subst hu
        by_cases hv : v = u
        · subst hv
          simp [hnot, hw]
        · rw [List.idxOf_cons_self, List.idxOf_cons_ne ws (Ne.symm hv)]
          simp [hnot, hv]
      · by_cases hv : v = w
        · subst hv
          simp [hnot, hu]
        · rw [List.idxOf_cons_ne ws (Ne.symm hu), List.idxOf_cons_ne ws (Ne.symm hv), ih hws]
          simp [hu, hv]

theorem position?_eq_some_iff {layer : List V} (h : layer.Nodup) {v : V} {i : Nat} :
    position? layer v = some i ↔ v ∈ layer ∧ layer.idxOf v = i := by
  have hkeys : (layer.zipIdx.reverse.map Prod.fst).Nodup := by
    rw [List.map_reverse, List.nodup_reverse, List.zipIdx_map_fst]
    exact h
  rw [position?, KeyedList.lookup_eq_some_iff_mem hkeys, List.mem_reverse,
    List.mem_zipIdx_iff_getElem?]
  constructor
  · intro hi
    obtain ⟨hlt, hget⟩ := List.getElem?_eq_some_iff.mp hi
    refine ⟨List.mem_of_getElem? hi, ?_⟩
    simp only at hget hlt
    rw [← hget]
    exact h.idxOf_getElem i hlt
  · rintro ⟨hv, rfl⟩
    exact List.getElem?_idxOf hv

/-- The edges from `upper` to `lower`, by their upper end. -/
def between (g : Digraph V) (upper lower : List V) : List (V × V) :=
  upper.flatMap fun u => ((g.successors u).filter (· ∈ lower)).map fun v => (u, v)

theorem mem_between {g : Digraph V} {upper lower : List V} {e : V × V} :
    e ∈ between g upper lower ↔ e ∈ g.edges ∧ e.1 ∈ upper ∧ e.2 ∈ lower := by
  obtain ⟨u, v⟩ := e
  simp only [between, List.mem_flatMap, List.mem_map, List.mem_filter, decide_eq_true_eq,
    Digraph.mem_successors, Prod.mk.injEq]
  constructor
  · rintro ⟨u', hu, v', ⟨he, hv⟩, rfl, rfl⟩
    exact ⟨he, hu, hv⟩
  · rintro ⟨he, hu, hv⟩
    exact ⟨u, hu, v, ⟨he, hv⟩, rfl, rfl⟩

theorem nodup_between (g : Digraph V) {upper : List V} (h : upper.Nodup) (lower : List V) :
    (between g upper lower).Nodup := by
  rw [between, List.nodup_flatMap]
  refine ⟨fun u _ => ?_, h.imp fun {u u'} hne => ?_⟩
  · exact ((g.nodup_successors u).filter _).map fun v v' hvv' => (Prod.mk.inj hvv').2
  · rw [Function.onFun, List.disjoint_left]
    intro e he he'
    obtain ⟨v, -, rfl⟩ := List.mem_map.mp he
    obtain ⟨v', -, heq⟩ := List.mem_map.mp he'
    exact hne (Prod.mk.inj heq).1.symm

/-- The positions of the ends of an edge in two layers. -/
def places (upper lower : List V) (e : V × V) : Nat × Nat := (upper.idxOf e.1, lower.idxOf e.2)

theorem spans_eq (g : Digraph V) {upper lower : List V} (hu : upper.Nodup) (hl : lower.Nodup) :
    spans g upper lower = (between g upper lower).map (places upper lower) := by
  have hzip : upper.zipIdx = upper.map fun u => (u, upper.idxOf u) := by
    refine List.ext_getElem (by simp) fun i hi hi' => ?_
    rw [List.getElem_zipIdx, List.getElem_map, Nat.zero_add, hu.idxOf_getElem]
  have hends (i : Nat) (vs : List V) :
      (vs.filterMap fun v => (position? lower v).map fun j => (i, j)) =
        (vs.filter (· ∈ lower)).map fun v => (i, lower.idxOf v) := by
    induction vs with
    | nil => rfl
    | cons v vs ih =>
        by_cases hv : v ∈ lower
        · rw [List.filterMap_cons, (position?_eq_some_iff hl).mpr ⟨hv, rfl⟩, ih,
            List.filter_cons_of_pos (by simpa using hv)]
          rfl
        · have hnone : position? lower v = none := by
            rw [Option.eq_none_iff_forall_ne_some]
            exact fun j hj => hv ((position?_eq_some_iff hl).mp hj).1
          rw [List.filterMap_cons, hnone, List.filter_cons_of_neg (by simpa using hv)]
          exact ih
  rw [spans, between, hzip, List.flatMap_map, List.map_flatMap]
  refine congrArg (fun f => upper.flatMap f) (funext fun u => ?_)
  rw [hends, List.map_map]
  rfl

/-! ## Counting -/

theorem cross_self (a : Nat × Nat) : cross a a = false := by simp [cross]

/-- Pairs of a list are counted without regard to their order, each once: the recursion compares an
element with those behind it, and `List.sym2` lists the same pairs. -/
theorem crossingPairs_map {E : Type} {place : E → Nat × Nat} {p : Sym2 E → Bool} {es : List E}
    (hp : ∀ e ∈ es, ∀ f ∈ es, p s(e, f) = cross (place e) (place f)) :
    crossingPairs (es.map place) = es.sym2.countP p := by
  induction es with
  | nil => rfl
  | cons e es ih =>
      have hhead : ∀ f ∈ e :: es, p s(e, f) = cross (place e) (place f) :=
        hp e (List.mem_cons_self ..)
      have hself : p s(e, e) = false :=
        (hhead e (List.mem_cons_self ..)).trans (cross_self (place e))
      have htail := ih fun f hf f' hf' =>
        hp f (List.mem_cons_of_mem _ hf) f' (List.mem_cons_of_mem _ hf')
      rw [List.sym2, List.countP_append, List.countP_map, List.countP_cons_of_neg (by simp [hself]),
        List.map_cons, crossingPairs, List.countP_map, htail]
      refine congrArg (· + _) (List.countP_congr fun f hf => ?_)
      rw [Function.comp_apply, Function.comp_apply, hhead f (List.mem_cons_of_mem _ hf)]

theorem cross_places_iff {upper lower : List V} (hu : upper.Nodup) (hl : lower.Nodup)
    {e f : V × V} (he : e.1 ∈ upper ∧ e.2 ∈ lower) (hf : f.1 ∈ upper ∧ f.2 ∈ lower) :
    cross (places upper lower e) (places upper lower f) = true ↔ Opposed upper lower e f := by
  rw [cross, decide_eq_true_iff]
  simp only [places, Opposed, pair_sublist_iff hu, pair_sublist_iff hl, he, hf, true_and, and_self]

/-- The positions of two layers are compared for each pair of edges between them once. An edge is
determined by its positions, as no layer names a node twice. -/
theorem crossingPairs_spans (g : Digraph V) {upper lower : List V} (hu : upper.Nodup)
    (hl : lower.Nodup) :
    crossingPairs (spans g upper lower) = (opposedSet g upper lower).card := by
  let p (s : Sym2 (V × V)) : Bool := decide (s ∈ Sym2.fromRel (opposed_symm upper lower))
  have hp : ∀ e ∈ between g upper lower, ∀ f ∈ between g upper lower,
      p s(e, f) = cross (places upper lower e) (places upper lower f) := by
    intro e he f hf
    rw [Bool.eq_iff_iff, cross_places_iff hu hl (mem_between.mp he).2 (mem_between.mp hf).2,
      decide_eq_true_iff, Sym2.fromRel_prop]
  have hset : opposedSet g upper lower = ((between g upper lower).sym2.filter p).toFinset := by
    ext s
    induction s using Sym2.ind with
    | _ e f =>
        simp only [opposedSet, Finset.mem_filter, List.mem_toFinset, List.mem_filter,
          Finset.mk_mem_sym2_iff, List.mk_mem_sym2_iff, mem_between, Sym2.fromRel_prop, p,
          decide_eq_true_eq]
        constructor
        · rintro ⟨⟨he, hf⟩, hopposed⟩
          exact ⟨⟨⟨he, hopposed.mem.1⟩, hf, hopposed.mem.2⟩, hopposed⟩
        · rintro ⟨⟨⟨he, -⟩, hf, -⟩, hopposed⟩
          exact ⟨⟨he, hf⟩, hopposed⟩
  rw [spans_eq g hu hl, crossingPairs_map hp, hset, List.countP_eq_length_filter,
    List.toFinset_card_of_nodup ((nodup_between g hu lower).sym2.filter _)]

/-- What is counted are the crossings. The induction is on the layers, two neighbours at a time. -/
theorem crossings_eq_card (g : Digraph V) {layers : List (List V)} (h : layers.flatten.Nodup) :
    crossings g layers = (crossingSet g layers).card := by
  induction layers with
  | nil => rw [crossingSet_eq_empty g rfl]; rfl
  | cons upper rest ih =>
      cases rest with
      | nil => rw [crossingSet_eq_empty g rfl]; rfl
      | cons lower rest =>
          have hrest : (lower :: rest).flatten.Nodup := (List.nodup_append.mp h).2.1
          have hupper : upper.Nodup := (List.nodup_append.mp h).1
          have hlower : lower.Nodup := (List.nodup_append.mp hrest).1
          rw [crossingSet_cons, Finset.card_union_of_disjoint (disjoint_opposedSet g h),
            ← crossingPairs_spans g hupper hlower, ← ih hrest]
          rfl

/-! ## Improving -/

/-- A sweep that does not lower the number of crossings is not kept. The induction is on the number
of sweeps, and each compares with the best ordering so far. -/
theorem crossings_improve_le (g : Digraph V) (sweeps : Nat) (layers : List (List V)) :
    crossings g (improve g sweeps layers) ≤ crossings g layers := by
  induction sweeps generalizing layers with
  | zero => exact Nat.le_refl _
  | succ sweeps ih =>
      rw [improve]
      simp only
      split
      · exact Nat.le_refl _
      · split
        · next hlt => exact Nat.le_of_lt (Nat.lt_of_le_of_lt (ih _) hlt)
        · exact Nat.le_refl _

/-- Where nothing crosses, nothing is moved, since no sweep can lower the number then. -/
theorem improve_eq_self {g : Digraph V} {layers : List (List V)} (h : crossings g layers = 0)
    (sweeps : Nat) : improve g sweeps layers = layers := by
  cases sweeps with
  | zero => rfl
  | succ sweeps => rw [improve, if_pos h]

end Crossing

namespace Layered

open Crossing

theorem nodup_flatten_initialOrdering (l : Layered) : l.initialOrdering.flatten.Nodup := by
  rw [List.nodup_flatten]
  refine ⟨fun layer hlayer => l.isOrdering_initial.nodup layer hlayer, ?_⟩
  rw [initialOrdering, List.pairwise_map]
  refine List.pairwise_lt_range.imp fun {j k} hjk => ?_
  rw [List.disjoint_left]
  intro v hv hv'
  rw [List.mem_filter, beq_iff_eq] at hv hv'
  omega

theorem nodup_flatten_ordering (l : Layered) : l.ordering.flatten.Nodup :=
  (List.Perm.flatten_congr (improve_perm _ _ _)).nodup_iff.mpr l.nodup_flatten_initialOrdering

/-- The layers of the ordering hold the nodes that the layers of the graph hold; what is counted in
it are its crossings, of which it has no more than the order in which the nodes came in, and that
order is left alone if nothing crosses in it. -/
theorem ordering_reduces_crossings (l : Layered) :
    LayersPerm l.ordering
        ((List.range l.layerCount).map fun k => l.graph.nodes.filter fun v => l.layer v == k) ∧
      crossings l.graph l.ordering = (crossingSet l.graph l.ordering).card ∧
      (crossingSet l.graph l.ordering).card ≤ (crossingSet l.graph l.initialOrdering).card ∧
      (crossingSet l.graph l.initialOrdering = ∅ → l.ordering = l.initialOrdering) := by
  have hcard := crossings_eq_card l.graph l.nodup_flatten_ordering
  have hinitial := crossings_eq_card l.graph l.nodup_flatten_initialOrdering
  refine ⟨improve_perm _ _ _, hcard, ?_, fun hnone => ?_⟩
  · rw [← hcard, ← hinitial]
    exact crossings_improve_le l.graph maxSweeps l.initialOrdering
  · rw [hnone, Finset.card_empty] at hinitial
    exact improve_eq_self hinitial maxSweeps

/-- Two edges side by side. -/
def ladder : Layered :=
  ofLayers (Digraph.ofLists ["a", "b", "c", "d"] [("a", "c"), ("b", "d")])
    (.ofList [("a", 0), ("b", 0), ("c", 1), ("d", 1)])

theorem ordering_reduces_crossings_ladder :
    crossingSet ladder.graph ladder.initialOrdering = ∅ ∧
      ladder.ordering = ladder.initialOrdering := by
  have hnone : crossingSet ladder.graph ladder.initialOrdering = ∅ := by decide +kernel
  exact ⟨hnone, (ordering_reduces_crossings ladder).2.2.2 hnone⟩

/-- Two edges that cross are untangled. -/
example :
    (ofLayers (Digraph.ofLists ["a", "b", "c", "d"] [("a", "d"), ("b", "c")])
      (.ofList [("a", 0), ("b", 0), ("c", 1), ("d", 1)])).ordering = [["a", "b"], ["d", "c"]] := by
  cbv

end Layered

end Schematic
