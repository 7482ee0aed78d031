import Mathlib.Data.List.Chain
import Mathlib.Order.Bounds.Basic
import Schematic.Proofs.FirstOccurrences
import Schematic.Proofs.Ranking.CycleFree
import Schematic.Proofs.Ranking.Layering
import Schematic.Ranking.Relaxation

/-!
# Layers are lengths of longest paths

A graph has layers exactly if it has no cycle, and the layer of a node is the number of edges of the
longest path that ends in it. Two facts about layers carry everything: an edge goes down at least
one layer, and a node that is not on layer zero has an edge from the layer just above
(`exists_supporter`). The first bounds every path from above, the second builds one of full length
from its end, and both together fix what relaxation finds, whatever the order of the nodes.
-/

namespace Schematic

namespace Digraph

variable {V : Type} [DecidableEq V] {g : Digraph V} {layers found : KeyedList V Nat}
  {order path left done : List V} {u v w : V}

/-! ## When there are layers -/

/-- Each node once, and every edge leads from an earlier node to a later one. Such an order there is
exactly if the graph has no cycle (`exists_isTopological_iff`). -/
structure IsTopological (g : Digraph V) (order : List V) : Prop where
  perm : order.Perm g.nodes
  forward : ∀ u v, (u, v) ∈ g.edges → order.idxOf u < order.idxOf v

theorem IsTopological.cycleFree (h : g.IsTopological order) : g.CycleFree :=
  cycleFree_of_lt order.idxOf h.forward

theorem CycleFree.isTopological_greedyOrder (h : g.CycleFree) :
    g.IsTopological g.greedyOrder where
  perm := g.greedyOrder_perm
  forward := fun _ _ he => idxOf_lt_of_acyclic (h.edges_acyclic_perm.mem_iff.mpr he)

theorem exists_isTopological_iff : (∃ order, g.IsTopological order) ↔ g.CycleFree :=
  ⟨fun ⟨_, h⟩ => h.cycleFree, fun h => ⟨_, h.isTopological_greedyOrder⟩⟩

theorem cycleFree_of_layers? (h : g.layers? = some layers) : g.CycleFree :=
  cycleFree_of_lt (depth layers) fun _ _ => layer_lt_of_mem_edges h

theorem layers?_eq_none_iff : g.layers? = none ↔ ¬ g.CycleFree := by
  constructor
  · intro hnone hfree
    obtain ⟨layers, hlayers, -⟩ := layers?_spec (f := g.greedyOrder.idxOf) fun e he =>
      hfree.isTopological_greedyOrder.forward e.1 e.2 he
    rw [hnone] at hlayers
    cases hlayers
  · intro hcycle
    cases h : g.layers? with
    | none => rfl
    | some layers => exact absurd (cycleFree_of_layers? h) hcycle

/-! ## The layer just above -/

/-- What is taken away in a later round than the first has an edge from the round before. Without
one it would have been a source in that round already. The induction is on the rounds. -/
theorem exists_mem_round_before {rounds : List (List V)} (h : g.layersFrom? left = some rounds)
    (hv : v ∈ left) {k : Nat} (hk : rounds.findIdx (fun layer => layer.contains v) = k + 1) :
    ∃ u ∈ left, (u, v) ∈ g.edges ∧ rounds.findIdx (fun layer => layer.contains u) = k := by
  fun_induction layersFrom? g left generalizing rounds k with
  | case1 left hempty =>
      rw [List.isEmpty_iff.mp hempty] at hv
      cases hv
  | case2 left hempty hs => cases h
  | case3 left hempty hs ih =>
      obtain ⟨rest, hrest, rfl⟩ := Option.map_eq_some_iff.mp h
      have hfirst : ∀ {w}, w ∈ g.sources left →
          (g.sources left :: rest).findIdx (fun layer => layer.contains w) = 0 := fun hw => by
        simp [List.findIdx_cons, hw]
      have hnot : v ∉ g.sources left := fun hmem => by
        rw [hfirst hmem] at hk
        cases hk
      have hbeyond := mem_beyondSources hv hnot
      rw [findIdx_contains_cons hnot, Nat.add_right_cancel_iff] at hk
      cases k with
      | succ k =>
          obtain ⟨u, hu, he, hround⟩ := ih hrest hbeyond hk
          obtain ⟨hleft, hsource⟩ := List.mem_filter.mp hu
          have hlater : u ∉ g.sources left := fun hmem => by
            simp [(List.mem_filter.mp hmem).2] at hsource
          exact ⟨u, hleft, he, by rw [findIdx_contains_cons hlater, hround]⟩
      | zero =>
          -- the node is a source of what is left later, so an edge to it came from a source now
          have hedge : ∃ u ∈ left, (u, v) ∈ g.edges := by
            by_contra hnone
            refine hnot (List.mem_filter.mpr ⟨hv, isSource_iff.mpr fun u hu he => ?_⟩)
            exact hnone ⟨u, hu, he⟩
          obtain ⟨u, hu, he⟩ := hedge
          refine ⟨u, hu, he, hfirst (Classical.byContradiction fun hlater => ?_)⟩
          have hlt := round_lt_of_mem_edges hrest (mem_beyondSources hu hlater) hbeyond he
          omega

/-- A node below the first layer has an edge from the layer just above its own. This is what makes
layers no deeper than paths are long. -/
theorem exists_supporter (h : g.layers? = some layers) {k : Nat}
    (hv : layers.get? v = some (k + 1)) : ∃ u, (u, v) ∈ g.edges ∧ layers.get? u = some k := by
  obtain ⟨rounds, hrounds, hkeys, hget⟩ := exists_rounds h
  have hmem : v ∈ g.nodes := hkeys ▸ KeyedList.mem_keys_of_get? hv
  rw [hget v hmem, Option.some.injEq] at hv
  obtain ⟨u, hu, he, hround⟩ := exists_mem_round_before hrounds hmem hv
  exact ⟨u, he, by rw [hget u hu, hround]⟩

theorem exists_on_layer (h : g.layers? = some layers) {n k : Nat} (hv : layers.get? v = some n)
    (hk : k ≤ n) : ∃ u, layers.get? u = some k := by
  induction n generalizing v with
  | zero => exact ⟨v, by rw [hv, Nat.le_zero.mp hk]⟩
  | succ n ih =>
      obtain rfl | hlt := Nat.eq_or_lt_of_le hk
      · exact ⟨v, hv⟩
      · obtain ⟨u, -, hu⟩ := exists_supporter h hv
        exact ih hu (Nat.le_of_lt_succ hlt)

/-! ## Paths -/

/-- The nodes of a path in their order: each is one edge behind the one before it, none occurs
twice, and `v` is the last. -/
structure IsPath (g : Digraph V) (path : List V) (v : V) : Prop where
  chain : path.IsChain fun u w => (u, w) ∈ g.edges
  nodup : path.Nodup
  last : path.getLast? = some v

/-- A path with its last node on layer `n` has at most `n` edges, since each goes down. The
induction takes the last node off, because that is the one the layer is known of. -/
theorem IsPath.length_le (h : g.layers? = some layers) (hpath : g.IsPath path v) :
    path.length ≤ depth layers v + 1 := by
  obtain ⟨hchain, -, hlast⟩ := hpath
  induction path using List.reverseRecOn generalizing v with
  | nil => exact Nat.zero_le _
  | append_singleton path w ih =>
      obtain rfl : w = v := by simpa using hlast
      obtain ⟨hpath, -, hedge⟩ := List.isChain_append.mp hchain
      cases hu : path.getLast? with
      | none => simp [List.getLast?_eq_none_iff.mp hu]
      | some u =>
          have hle := ih hpath hu
          have hlt : depth layers u < depth layers w :=
            layer_lt_of_mem_edges h (hedge u hu w rfl)
          rw [List.length_append, List.length_singleton]
          omega

/-- A path is prolonged by an edge; as layers only go down, the new node is not on it yet. -/
theorem IsPath.concat (h : g.layers? = some layers) (hpath : g.IsPath path u)
    (he : (u, v) ∈ g.edges) : g.IsPath (path ++ [v]) v := by
  have hchain : (path ++ [v]).IsChain fun u w => (u, w) ∈ g.edges := by
    refine List.isChain_append.mpr ⟨hpath.chain, .singleton v, fun x hx y hy => ?_⟩
    rw [hpath.last, Option.mem_some_iff] at hx
    rw [List.head?_cons, Option.mem_some_iff] at hy
    rw [← hx, ← hy]
    exact he
  refine ⟨hchain, ?_, by simp⟩
  have hdown : ((path ++ [v]).map (depth layers)).IsChain (· < ·) :=
    (List.isChain_map _).mpr (hchain.imp fun _ _ => layer_lt_of_mem_edges h)
  exact List.Nodup.of_map _ (hdown.pairwise.imp Nat.ne_of_lt)

/-- A path of full length, built from its end upwards: each node below the first layer has an edge
from the layer just above, and there is such a node again. -/
theorem exists_isPath (h : g.layers? = some layers) {n : Nat} (hv : layers.get? v = some n) :
    ∃ path, g.IsPath path v ∧ path.length = n + 1 := by
  induction n generalizing v with
  | zero => exact ⟨[v], ⟨.singleton v, List.nodup_singleton v, rfl⟩, rfl⟩
  | succ n ih =>
      obtain ⟨u, he, hu⟩ := exists_supporter h hv
      obtain ⟨path, hpath, hlength⟩ := ih hu
      exact ⟨path ++ [v], hpath.concat h he, by rw [List.length_append, hlength]; rfl⟩

/-! ## Relaxation -/

theorem depth_deepen (u v w : V) (found : KeyedList V Nat) : depth (deepen u found v) w =
    if w = v then max (depth found v) (depth found u + 1) else depth found w := by
  unfold deepen
  split
  · next hlt =>
    rw [depth, KeyedList.get?_put]
    split
    · exact (max_eq_right hlt.le).symm
    · rfl
  · next hle =>
    split
    · next heq => rw [heq, max_eq_left (Nat.le_of_not_lt hle)]
    · rfl

theorem keys_deepen (u : V) (hv : v ∈ found.keys) : (deepen u found v).keys = found.keys := by
  unfold deepen
  split
  · exact KeyedList.keys_put_of_mem hv _
  · rfl

/-- Pushing a list of other nodes below `u` deepens those that are not deep enough and no others. As
`u` is none of them, it stays where it is, and a node that comes twice is pushed as far as one that
comes once. -/
theorem deepen_all {vs : List V} (hu : u ∉ vs) (hvs : ∀ v ∈ vs, v ∈ found.keys) :
    (vs.foldl (deepen u) found).keys = found.keys ∧
      ∀ w, depth (vs.foldl (deepen u) found) w =
        if w ∈ vs then max (depth found w) (depth found u + 1) else depth found w := by
  induction vs generalizing found with
  | nil => exact ⟨rfl, fun w => by simp⟩
  | cons v vs ih =>
      obtain ⟨hne, hu⟩ := not_or.mp (List.mem_cons.not.mp hu)
      have hkeys := keys_deepen u (hvs v (List.mem_cons_self ..))
      have hsame : depth (deepen u found v) u = depth found u := by
        rw [depth_deepen, if_neg hne]
      have hvs' : ∀ w ∈ vs, w ∈ (deepen u found v).keys := fun w hw => by
        rw [hkeys]
        exact hvs w (List.mem_cons_of_mem v hw)
      obtain ⟨hkeys', hdepth⟩ := ih hu hvs'
      refine ⟨hkeys'.trans hkeys, fun w => ?_⟩
      rw [List.foldl_cons, hdepth, hsame, depth_deepen]
      by_cases hw : w = v
      · simp [hw]
      · simp [hw]

/-- What has been found when the nodes of `done` have had their turn: no node is too deep, and each
target of a node of `done` is deep enough for the edge. -/
structure Approaches (g : Digraph V) (layers : KeyedList V Nat) (done : List V)
    (found : KeyedList V Nat) : Prop where
  keys : found.keys = g.nodes
  le : ∀ v, depth found v ≤ depth layers v
  pushed : ∀ u ∈ done, ∀ v, (u, v) ∈ g.edges → depth layers u < depth found v

theorem approaches_start (g : Digraph V) (layers : KeyedList V Nat) :
    Approaches g layers [] (.ofList (g.nodes.map fun v => (v, 0))) where
  keys := by
    have hkeys : (g.nodes.map fun v => (v, 0)).map Prod.fst = g.nodes := by simp [Function.comp_def]
    rw [KeyedList.keys, KeyedList.entries_ofList (by rw [hkeys]; exact g.nodup_nodes), hkeys]
  le := by
    intro v
    unfold depth
    cases h : (KeyedList.ofList (g.nodes.map fun v => (v, 0))).get? v with
    | none => exact Nat.zero_le _
    | some n =>
        obtain ⟨w, -, hw⟩ := List.mem_map.mp (KeyedList.mem_of_get?_ofList h)
        cases hw
        exact Nat.zero_le _
  pushed := by simp

/-- A node is on its layer once all nodes with an edge to it have had their turn: it is never too
deep, and its supporter has pushed it deep enough. -/
theorem Approaches.depth_eq (ha : Approaches g layers done found) (h : g.layers? = some layers)
    (hdone : ∀ u, (u, v) ∈ g.edges → u ∈ done) : depth found v = depth layers v := by
  refine Nat.le_antisymm (ha.le v) ?_
  cases hv : layers.get? v with
  | none => simp [depth, hv]
  | some n =>
      cases n with
      | zero => simp [depth, hv]
      | succ k =>
          obtain ⟨u, he, hu⟩ := exists_supporter h hv
          have hlt := ha.pushed u (hdone u he) v he
          simp only [depth, hu, hv, Option.getD_some] at hlt ⊢
          exact hlt

/-- The turn of the next node. All nodes with an edge to it have had theirs, so it is on its layer
already and pushes its targets as far as they must go, and no further. -/
theorem Approaches.relax (ha : Approaches g layers done found) (h : g.layers? = some layers)
    (hdone : ∀ w, (w, u) ∈ g.edges → w ∈ done) :
    Approaches g layers (done ++ [u]) (g.relax found u) := by
  have hself : u ∉ g.successors u := fun hmem =>
    (cycleFree_of_layers? h).ne_of_mem_edges (mem_successors.mp hmem) rfl
  have hkeyed : ∀ v ∈ g.successors u, v ∈ found.keys := fun v hv => by
    rw [ha.keys]
    exact (g.ends_mem _ (mem_successors.mp hv)).2
  obtain ⟨hkeys, hdepth⟩ := deepen_all hself hkeyed
  have hlayer := ha.depth_eq h hdone
  refine ⟨hkeys.trans ha.keys, fun v => ?_, fun w hw v he => ?_⟩
  · rw [Digraph.relax, hdepth]
    split
    · next hmem =>
      have hlt : depth layers u < depth layers v :=
        layer_lt_of_mem_edges h (mem_successors.mp hmem)
      rw [hlayer]
      exact max_le (ha.le v) hlt
    · exact ha.le v
  · rw [Digraph.relax, hdepth]
    rcases List.mem_append.mp hw with hw | hw
    · have hlt := ha.pushed w hw v he
      split
      · exact lt_max_of_lt_left hlt
      · exact hlt
    · obtain rfl := List.mem_singleton.mp hw
      rw [if_pos (mem_successors.mpr he), hlayer]
      exact lt_max_of_lt_right (Nat.lt_succ_self _)

/-- All turns, in an order in which edges lead forwards. The induction is on the nodes that have not
had their turn; an edge to the next one comes from a node before it, which has. -/
theorem Approaches.relaxAll (h : g.layers? = some layers) (horder : g.IsTopological order)
    {rest : List V} (hcut : order = done ++ rest) (ha : Approaches g layers done found) :
    Approaches g layers order (rest.foldl g.relax found) := by
  induction rest generalizing done found with
  | nil =>
      rw [List.append_nil] at hcut
      exact hcut ▸ ha
  | cons u rest ih =>
      refine ih (hcut.trans (List.append_cons done u rest)) (ha.relax h fun w he => ?_)
      have hlt := horder.forward w u he
      have hnot : u ∉ done := fun hmem =>
        (List.nodup_append.mp (hcut ▸ horder.perm.nodup_iff.mpr g.nodup_nodes)).2.2 u hmem u
          (List.mem_cons_self ..) rfl
      by_contra hw
      rw [hcut, List.idxOf_append_of_notMem hnot, List.idxOf_cons_self,
        List.idxOf_append_of_notMem hw] at hlt
      omega

/-- The order of the nodes makes no difference to what relaxation finds. When all nodes have had
their turn all are on their layers, and the layers do not know of the order. -/
theorem relaxed_eq (h : g.layers? = some layers) (horder : g.IsTopological order) :
    g.relaxed order = layers := by
  have ha : Approaches g layers order (g.relaxed order) :=
    (approaches_start g layers).relaxAll h horder (List.nil_append order).symm
  obtain ⟨-, -, hkeys, -⟩ := exists_rounds h
  have hentries := KeyedList.map_entries_eq (f := fun k n => (k, n)) (g := fun k n => (k, n))
    (ha.keys.trans hkeys.symm) fun k m n hm hn => by
      have hdepth : depth (g.relaxed order) k = depth layers k := ha.depth_eq h fun u he =>
        horder.perm.mem_iff.mpr (g.ends_mem _ he).1
      rw [depth, depth, hm, KeyedList.get?_eq_some_iff.mpr hn] at hdepth
      exact congrArg (Prod.mk k) hdepth
  refine KeyedList.ext_entries ?_
  simpa using hentries

/-! ## The layering -/

/-- What it means that the layers are those of longest paths: each node is as deep as the longest
path to it is long, edges lead down, and no layer above a node is empty. -/
structure IsLongestPath (g : Digraph V) (layers : KeyedList V Nat) : Prop where
  keys : layers.keys = g.nodes
  longest : ∀ v n, layers.get? v = some n →
    IsGreatest {k | ∃ path, g.IsPath path v ∧ path.length = k + 1} n
  descends : ∀ u v, (u, v) ∈ g.edges →
    ∃ m n, layers.get? u = some m ∧ layers.get? v = some n ∧ m < n
  supported : ∀ v k, layers.get? v = some (k + 1) → ∃ u, (u, v) ∈ g.edges ∧ layers.get? u = some k
  gapless : ∀ v n, layers.get? v = some n → ∀ k ≤ n, ∃ u, layers.get? u = some k

theorem isLongestPath (h : g.layers? = some layers) : IsLongestPath g layers := by
  obtain ⟨-, -, hkeys, -⟩ := exists_rounds h
  refine ⟨hkeys, fun v n hv => ⟨exists_isPath h hv, ?_⟩, fun u v he => ?_,
    fun _ _ => exists_supporter h, fun _ _ hv _ => exists_on_layer h hv⟩
  · rintro k ⟨path, hpath, hlength⟩
    have hle := hpath.length_le h
    simp only [depth, hv, Option.getD_some] at hle
    omega
  · obtain ⟨hu, hv⟩ := g.ends_mem _ he
    rw [← hkeys] at hu hv
    obtain ⟨m, hm⟩ := KeyedList.mem_keys_iff.mp hu
    obtain ⟨n, hn⟩ := KeyedList.mem_keys_iff.mp hv
    have hlt := layer_lt_of_mem_edges h he
    rw [hm, hn] at hlt
    exact ⟨m, n, hm, hn, hlt⟩

/-- **Longest paths.** There are no layers exactly if there is a cycle, and then there is no order
in which all edges lead forwards. Otherwise the layers are those of longest paths, and relaxation
along any such order finds them. -/
theorem layers?_longest (g : Digraph V) :
    (g.layers? = none ↔ ¬ g.CycleFree) ∧
      ((∃ order, g.IsTopological order) ↔ g.CycleFree) ∧
      ∀ layers, g.layers? = some layers →
        IsLongestPath g layers ∧ ∀ order, g.IsTopological order → g.relaxed order = layers :=
  ⟨layers?_eq_none_iff, exists_isTopological_iff, fun _ h =>
    ⟨isLongestPath h, fun _ horder => relaxed_eq h horder⟩⟩

/-- A path of two edges beside a shorter way, and a node apart. -/
def shortcut : Digraph Nat := ofLists [2, 0, 1, 7] [(0, 2), (0, 1), (1, 2)]

theorem layers?_longest_shortcut :
    shortcut.CycleFree ∧
      ∃ layers, shortcut.layers? = some layers ∧
        layers.entries = [(2, 2), (0, 0), (1, 1), (7, 0)] ∧
        shortcut.relaxed [7, 0, 1, 2] = layers ∧
        IsGreatest {k | ∃ path, shortcut.IsPath path 2 ∧ path.length = k + 1} 2 := by
  obtain ⟨hnone, hiff, hlayers⟩ := layers?_longest shortcut
  have horder : shortcut.IsTopological [7, 0, 1, 2] :=
    ⟨by decide, fun u v he => by
      have hall : ∀ e ∈ shortcut.edges,
        [7, 0, 1, 2].idxOf e.1 < [7, 0, 1, 2].idxOf e.2 := by decide
      exact hall (u, v) he⟩
  have hfree := hiff.mp ⟨_, horder⟩
  obtain ⟨layers, hsome⟩ := Option.ne_none_iff_exists'.mp fun h => hnone.mp h hfree
  obtain ⟨hlongest, hrelaxed⟩ := hlayers layers hsome
  have hfound := hrelaxed _ horder
  have hentries : layers.entries = [(2, 2), (0, 0), (1, 1), (7, 0)] := by
    rw [← hfound]
    decide
  refine ⟨hfree, layers, hsome, hentries, hfound, hlongest.longest 2 2 ?_⟩
  exact KeyedList.get?_eq_some_iff.mpr (by simp [hentries])

end Digraph

end Schematic
