import Mathlib.Data.Finset.Max
import Mathlib.Data.List.Chain
import Mathlib.Order.Bounds.Basic
import Schematic.Proofs.Ranking.Division
import Schematic.Proofs.Ranking.LongestPath
import Schematic.Proofs.Ranking.Ordering

/-!
# Dividing edges can be undone

A graph with divided edges is made of chains, one for each edge of the graph it was made from, and
two chains share no waypoint (`Layered.MadeOfChains`). That is enough to know its walks: one that
leads from a node over waypoints only has no choice on the way, so it is a chain, and putting an
edge in the place of every such walk gives the graph back (`Layered.ofLayers_divides`).
-/

namespace Schematic

/-! ## Neighbours in a list -/

section

variable {α : Type} [DecidableEq α] {l : List α} {a b c : α}

/-- Where nothing repeats, an element has its place right behind its neighbour's. -/
theorem idxOf_of_neighbours (h : l.Nodup) (hab : [a, b] <:+: l) :
    l.idxOf b = l.idxOf a + 1 := by
  obtain ⟨front, rest, rfl⟩ := hab
  simp only [List.append_assoc, List.cons_append, List.nil_append] at h ⊢
  have hfront := (List.nodup_append.mp h).2.2
  have ha : a ∉ front := fun hmem => hfront a hmem a (List.mem_cons_self ..) rfl
  have hb : b ∉ front := fun hmem =>
    hfront b hmem b (List.mem_cons_of_mem _ (List.mem_cons_self ..)) rfl
  have hne : a ≠ b := fun heq =>
    (List.nodup_cons.mp (List.nodup_append.mp h).2.1).1 (heq ▸ List.mem_cons_self ..)
  rw [List.idxOf_append_of_notMem ha, List.idxOf_append_of_notMem hb, List.idxOf_cons_self,
    List.idxOf_cons_ne _ hne, List.idxOf_cons_self]

theorem eq_of_neighbours_left (h : l.Nodup) (hac : [a, c] <:+: l) (hbc : [b, c] <:+: l) :
    a = b := by
  have hplace := (idxOf_of_neighbours h hac).symm.trans (idxOf_of_neighbours h hbc)
  exact (List.idxOf_inj (hac.subset (List.mem_cons_self ..))).mp (Nat.succ.inj hplace)

theorem eq_of_neighbours_right (h : l.Nodup) (hab : [a, b] <:+: l) (hac : [a, c] <:+: l) :
    b = c := by
  have hplace := (idxOf_of_neighbours h hab).trans (idxOf_of_neighbours h hac).symm
  exact (List.idxOf_inj (hab.subset (by simp))).mp hplace

/-- Nothing stands behind the last element. -/
theorem not_neighbours_last (h : (l ++ [a]).Nodup) : ¬ [a, b] <:+: l ++ [a] := by
  intro hab
  have hplace := idxOf_of_neighbours h hab
  have hlt := List.idxOf_lt_length_of_mem (hab.subset (by simp : b ∈ [a, b]))
  have ha : a ∉ l := fun hmem =>
    (List.nodup_append.mp h).2.2 a hmem a (List.mem_singleton.mpr rfl) rfl
  rw [hplace, List.idxOf_append_of_notMem ha] at hlt
  simp at hlt

omit [DecidableEq α] in
theorem eq_singleton_of_mem_iff (h : l.Nodup) (hl : ∀ x, x ∈ l ↔ x = a) : l = [a] := by
  refine List.perm_singleton.mp ((List.perm_ext_iff_of_nodup h (List.nodup_singleton a)).mpr ?_)
  exact fun x => (hl x).trans List.mem_singleton.symm

end

namespace Layered

variable {g : Digraph String} {layers : KeyedList String Nat} {l : Layered} {u v w : String}
  {ws : List String}

/-! ## Walks over waypoints -/

/-- The graph consists of the chains of edges of `g`, and no waypoint is used twice. All that
follows is read off this; neither numbers nor the ids of waypoints occur any more. -/
structure MadeOfChains (g : Digraph String) (l : Layered) : Prop where
  distinct : (g.nodes ++ l.chains.values.flatten).Nodup
  ends : ∀ c ∈ l.chains.entries, c.1 ∈ g.edges ∧ c.1.1 ≠ c.1.2
  edges : ∀ u v, (u, v) ∈ l.graph.edges ↔ ∃ c ∈ l.chains.entries, [u, v] <:+: route c

namespace MadeOfChains

variable {c c' : (String × String) × List String}

theorem mem_flatten (hc : c ∈ l.chains.entries) (hw : w ∈ c.2) : w ∈ l.chains.values.flatten :=
  List.mem_flatten.mpr ⟨c.2, List.mem_map.mpr ⟨c, hc, rfl⟩, hw⟩

theorem not_mem_nodes (h : MadeOfChains g l) (hc : c ∈ l.chains.entries) (hw : w ∈ c.2) :
    w ∉ g.nodes :=
  fun hmem => (List.nodup_append.mp h.distinct).2.2 w hmem w (mem_flatten hc hw) rfl

theorem eq_of_mem (h : MadeOfChains g l) (hc : c ∈ l.chains.entries)
    (hc' : c' ∈ l.chains.entries) (hw : w ∈ c.2) (hw' : w ∈ c'.2) : c = c' := by
  by_contra hne
  have hdisjoint := (List.nodup_flatten.mp (List.nodup_append.mp h.distinct).2.1).2
  have : Std.Symm fun a b : (String × String) × List String => a.2.Disjoint b.2 :=
    ⟨fun _ _ hd => hd.symm⟩
  exact (List.pairwise_map.mp hdisjoint).forall hc hc' hne hw hw'

theorem ends_mem (h : MadeOfChains g l) (hc : c ∈ l.chains.entries) :
    c.1.1 ∈ g.nodes ∧ c.1.2 ∈ g.nodes := g.ends_mem c.1 (h.ends c hc).1

theorem nodup_route (h : MadeOfChains g l) (hc : c ∈ l.chains.entries) : (route c).Nodup := by
  obtain ⟨hu, hv⟩ := h.ends_mem hc
  have hws : c.2.Nodup := (List.nodup_flatten.mp (List.nodup_append.mp h.distinct).2.1).1 c.2
    (List.mem_map.mpr ⟨c, hc, rfl⟩)
  rw [route, List.cons_append, List.nodup_cons, List.mem_append, List.mem_singleton, not_or]
  refine ⟨⟨fun hmem => h.not_mem_nodes hc hmem hu, (h.ends c hc).2⟩, ?_⟩
  refine hws.append (List.nodup_singleton _) fun w hw hw' => ?_
  exact h.not_mem_nodes hc hw (List.mem_singleton.mp hw' ▸ hv)

/-- On a chain, what is no node of `g` is a waypoint. -/
theorem mem_of_mem_route (h : MadeOfChains g l) (hc : c ∈ l.chains.entries) (hw : w ∈ route c)
    (hnot : w ∉ g.nodes) : w ∈ c.2 := by
  obtain ⟨hu, hv⟩ := h.ends_mem hc
  rw [route, List.cons_append, List.mem_cons, List.mem_append, List.mem_singleton] at hw
  rcases hw with rfl | hw | rfl
  · exact absurd hu hnot
  · exact hw
  · exact absurd hv hnot

/-- An edge at a waypoint belongs to the chain of the waypoint. It belongs to some chain, and that
one has the waypoint on it, which no second chain has. -/
theorem neighbours_of_mem (h : MadeOfChains g l) (hc : c ∈ l.chains.entries)
    (he : (u, v) ∈ l.graph.edges) (hmem : u ∈ c.2 ∨ v ∈ c.2) : [u, v] <:+: route c := by
  obtain ⟨c', hc', hpair⟩ := (h.edges u v).mp he
  suffices heq : c = c' by rwa [heq]
  rcases hmem with hu | hv
  · exact h.eq_of_mem hc hc' hu
      (h.mem_of_mem_route hc' (hpair.subset (by simp)) (h.not_mem_nodes hc hu))
  · exact h.eq_of_mem hc hc' hv
      (h.mem_of_mem_route hc' (hpair.subset (by simp)) (h.not_mem_nodes hc hv))

/-- One edge leads to a waypoint. -/
theorem exists_predecessors_eq (h : MadeOfChains g l) (hc : c ∈ l.chains.entries) (hw : w ∈ c.2) :
    ∃ u, l.graph.predecessors w = [u] := by
  obtain ⟨front, rest, hcut⟩ := List.append_of_mem hw
  obtain ⟨before, u, hbefore⟩ : ∃ before u, c.1.1 :: front = before ++ [u] :=
    ⟨_, _, (List.dropLast_append_getLast (List.cons_ne_nil c.1.1 front)).symm⟩
  have hpair : [u, w] <:+: route c := by
    refine ⟨before, rest ++ [c.1.2], ?_⟩
    rw [route, hcut, ← List.cons_append, hbefore]
    simp
  refine ⟨u, eq_singleton_of_mem_iff (l.graph.nodup_predecessors w) fun v => ?_⟩
  rw [Digraph.mem_predecessors]
  constructor
  · intro he
    exact eq_of_neighbours_left (h.nodup_route hc) (h.neighbours_of_mem hc he (Or.inr hw)) hpair
  · rintro rfl
    exact (h.edges v w).mpr ⟨c, hc, hpair⟩

/-- One edge leads away from a waypoint. -/
theorem exists_successors_eq (h : MadeOfChains g l) (hc : c ∈ l.chains.entries) (hw : w ∈ c.2) :
    ∃ v, l.graph.successors w = [v] := by
  obtain ⟨front, rest, hcut⟩ := List.append_of_mem hw
  obtain ⟨v, behind, hbehind⟩ := List.exists_cons_of_ne_nil (List.concat_ne_nil c.1.2 rest)
  have hpair : [w, v] <:+: route c := by
    refine ⟨c.1.1 :: front, behind, ?_⟩
    simp [route, hcut, hbehind]
  refine ⟨v, eq_singleton_of_mem_iff (l.graph.nodup_successors w) fun u => ?_⟩
  rw [Digraph.mem_successors]
  constructor
  · intro he
    exact eq_of_neighbours_right (h.nodup_route hc) (h.neighbours_of_mem hc he (Or.inl hw)) hpair
  · rintro rfl
    exact (h.edges w u).mpr ⟨c, hc, hpair⟩

theorem isPath_route (h : MadeOfChains g l) (hc : c ∈ l.chains.entries) :
    l.graph.IsPath (route c) c.1.2 where
  chain := List.isChain_iff_forall_rel_of_append_cons_cons.mpr fun u v front rest hcut =>
    (h.edges u v).mpr ⟨c, hc, front, rest, by rw [hcut]; simp⟩
  nodup := h.nodup_route hc
  last := by rw [route, List.getLast?_concat]

/-- A walk that is on a chain and has only waypoints in front of it is the rest of the chain. The
induction is on the walk: at a waypoint only one edge leads on, and the first node of `g` is the end
of the chain. -/
theorem walk_eq (h : MadeOfChains g l) (hc : c ∈ l.chains.entries) (front cs : List String)
    (hcut : route c = front ++ u :: cs ++ [c.1.2]) (hcs : ∀ w ∈ cs, w ∈ c.2)
    (hwalk : (u :: ws ++ [v]).IsChain fun a b => (a, b) ∈ l.graph.edges)
    (hws : ∀ w ∈ ws, w ∉ g.nodes) (hv : v ∈ g.nodes)
    (hfirst : ∀ x, (ws ++ [v]).head? = some x → [u, x] <:+: route c) :
    ws = cs ∧ v = c.1.2 := by
  have hlast := (h.ends_mem hc).2
  induction cs generalizing front u ws with
  | nil =>
      have hnext : [u, c.1.2] <:+: route c := ⟨front, [], by rw [hcut]; simp⟩
      cases ws with
      | nil => exact ⟨rfl, eq_of_neighbours_right (h.nodup_route hc) (hfirst v rfl) hnext⟩
      | cons w ws =>
          have heq := eq_of_neighbours_right (h.nodup_route hc) (hfirst w rfl) hnext
          exact absurd (heq ▸ hlast) (hws w (List.mem_cons_self ..))
  | cons b cs ih =>
      have hb := hcs b (List.mem_cons_self ..)
      have hnext : [u, b] <:+: route c := ⟨front, cs ++ [c.1.2], by rw [hcut]; simp⟩
      cases ws with
      | nil =>
          have heq := eq_of_neighbours_right (h.nodup_route hc) (hfirst v rfl) hnext
          exact absurd (heq ▸ hv) (h.not_mem_nodes hc hb)
      | cons w ws =>
          obtain rfl := eq_of_neighbours_right (h.nodup_route hc) (hfirst w rfl) hnext
          have hrest := (List.isChain_cons_cons.mp hwalk).2
          -- the walk is at a waypoint of the chain, so its next edge belongs to the chain
          obtain ⟨rfl, rfl⟩ := ih (front ++ [u]) (by rw [hcut]; simp)
            (fun x hx => hcs x (List.mem_cons_of_mem _ hx)) hrest
            (fun x hx => hws x (List.mem_cons_of_mem _ hx)) fun x hx => by
              refine h.neighbours_of_mem hc ?_ (Or.inl hb)
              exact List.isChain_cons.mp hrest |>.1 x hx
          exact ⟨rfl, rfl⟩

/-- The walks between nodes of `g` that have only waypoints on their way are the chains. So whether
there is an edge can be asked of the divided graph. -/
theorem walk_iff (h : MadeOfChains g l) (hu : u ∈ g.nodes) (hv : v ∈ g.nodes)
    (hws : ∀ w ∈ ws, w ∉ g.nodes) :
    ((u :: ws ++ [v]).IsChain fun a b => (a, b) ∈ l.graph.edges) ↔
      l.chains.get? (u, v) = some ws := by
  rw [KeyedList.get?_eq_some_iff]
  constructor
  · intro hwalk
    obtain ⟨x, rest, hrest⟩ := List.exists_cons_of_ne_nil (List.concat_ne_nil v ws)
    have hedge : (u, x) ∈ l.graph.edges := by
      rw [List.cons_append, hrest] at hwalk
      exact (List.isChain_cons_cons.mp hwalk).1
    obtain ⟨c, hc, hpair⟩ := (h.edges u x).mp hedge
    have hfirst : u = c.1.1 := by
      have hmem : u ∈ route c := hpair.subset (by simp)
      rw [route, List.cons_append, List.mem_cons, List.mem_append, List.mem_singleton] at hmem
      rcases hmem with hmem | hmem | rfl
      · exact hmem
      · exact absurd hu (h.not_mem_nodes hc hmem)
      · exact absurd hpair (not_neighbours_last (h.nodup_route hc))
    obtain ⟨rfl, hlast⟩ := h.walk_eq hc [] c.2 (by rw [hfirst]; rfl) (fun _ hw => hw) hwalk
      hws hv fun y hy => by
        rw [hrest] at hy
        cases hy
        exact hpair
    rw [hfirst, hlast]
    exact hc
  · exact fun hc => (h.isPath_route hc).chain

end MadeOfChains

theorem madeOfChains_ofLayers (hfree : g.CycleFree)
    (hnames : ∀ v ∈ g.nodes, Waypoint.isId v = false) (layers : KeyedList String Nat) :
    MadeOfChains g (ofLayers g layers) where
  distinct := by
    rw [flatten_values_ofLayers]
    exact nodup_nodes_waypoints hnames layers
  ends := fun c hc => by
    have harc : c.1 ∈ g.arcs := by
      rw [← keys_chains_ofLayers g layers]
      exact List.mem_map.mpr ⟨c, hc, rfl⟩
    have he := Digraph.mem_arcs.mp harc
    exact ⟨he, hfree.ne_of_mem_edges he⟩
  edges := fun u v => by
    have hstart : (u, v) ∉ (Digraph.empty.addNodes g.nodes).edges := by
      rw [Digraph.edges_addNodes]
      exact List.not_mem_nil
    rw [ofLayers, mem_edges_foldl, or_iff_right hstart, ← ofLayers, chains_ofLayers]
    simp only [List.mem_map, exists_exists_and_eq_and]

/-! ## Layers of a divided graph -/

/-- Behind an edge of the divided graph is the next layer: its ends are neighbours on a chain, and
the layers of a chain go up by one (`Threaded.chain`). -/
theorem layer_of_mem_edges (hlayers : g.layers? = some layers)
    (hnames : ∀ v ∈ g.nodes, Waypoint.isId v = false)
    (he : (u, v) ∈ (ofLayers g layers).graph.edges) :
    (ofLayers g layers).layer v = (ofLayers g layers).layer u + 1 := by
  obtain ⟨-, -, hkeys, -⟩ := Digraph.exists_rounds hlayers
  have hmade := madeOfChains_ofLayers (Digraph.cycleFree_of_layers? hlayers) hnames layers
  obtain ⟨c, hc, hpair⟩ := (hmade.edges u v).mp he
  have hedge := (hmade.ends c hc).1
  have hkept : ∀ w ∈ g.nodes,
      (ofLayers g layers).layer w = (layers.get? w).getD 0 := fun w hw => by
    rw [layer, (ofLayers_divided hkeys).layers w (hnames w hw)]
  obtain ⟨ws, hws, hrange⟩ := (ofLayers_threaded g layers).chain (Digraph.mem_arcs.mpr hedge)
    (Digraph.layer_lt_of_mem_edges hlayers hedge) (hkept _ (hmade.ends_mem hc).1)
    (hkept _ (hmade.ends_mem hc).2)
  obtain rfl : c.2 = ws := by
    rw [KeyedList.get?_eq_some_iff.mpr (show (c.1, c.2) ∈ _ from hc)] at hws
    exact Option.some.inj hws
  have hplaces := hpair.map (ofLayers g layers).layer
  rw [route, hrange] at hplaces
  have hnext := List.IsChain.infix (List.isChain_range' _ _ 1) hplaces
  simpa using hnext

theorem exists_get?_chains (layers : KeyedList String Nat) {e : String × String}
    (he : e ∈ g.edges) : ∃ ws, (ofLayers g layers).chains.get? e = some ws := by
  refine KeyedList.mem_keys_iff.mp ?_
  rw [keys_chains_ofLayers]
  exact Digraph.mem_arcs.mpr he

/-- The waypoints of an edge are as many as the layers between its ends. -/
theorem length_of_get?_chains {e : String × String} (he : e ∈ g.edges)
    (hws : (ofLayers g layers).chains.get? e = some ws) : ws.length = passed layers e := by
  obtain ⟨n, -, hchain, -⟩ := ofLayers_threaded g layers e (Digraph.mem_arcs.mpr he)
  obtain rfl := Option.some.inj (hchain.symm.trans hws)
  rw [waypoints, List.length_map, List.length_range]

/-- A waypoint is on a layer in front of the target of its edge. -/
theorem exists_layer_behind (hkeys : layers.keys = g.nodes)
    (hmade : MadeOfChains g (ofLayers g layers)) {c : (String × String) × List String}
    (hc : c ∈ (ofLayers g layers).chains.entries) (hmem : w ∈ c.2) {k : Nat}
    (hw : (ofLayers g layers).layers.get? w = some k) :
    ∃ j, layers.get? c.1.2 = some j ∧ k < j := by
  obtain ⟨m, -, hchain, hplaces⟩ := ofLayers_threaded g layers c.1
    (Digraph.mem_arcs.mpr (hmade.ends c hc).1)
  rw [KeyedList.get?_eq_some_iff.mpr (show (c.1, c.2) ∈ _ from hc), Option.some.injEq] at hchain
  rw [hchain] at hmem
  obtain ⟨i, hi, rfl⟩ := List.mem_map.mp hmem
  obtain rfl := Option.some.inj ((hplaces i (List.mem_range.mp hi)).symm.trans hw)
  obtain ⟨j, hj⟩ := KeyedList.mem_keys_iff.mp (hkeys ▸ (hmade.ends_mem hc).2)
  have hlt := List.mem_range.mp hi
  simp only [passed, hj, Option.getD_some] at hlt
  exact ⟨j, hj, by omega⟩

/-- The nodes of the last layer are not waypoints: behind a waypoint there is another layer. So
dividing edges adds no layer. -/
theorem isGreatest_layers (hlayers : g.layers? = some layers)
    (hnames : ∀ v ∈ g.nodes, Waypoint.isId v = false) {n : Nat}
    (h : IsGreatest {k | ∃ v, layers.get? v = some k} n) :
    IsGreatest {k | ∃ v, (ofLayers g layers).layers.get? v = some k} n := by
  obtain ⟨-, -, hkeys, -⟩ := Digraph.exists_rounds hlayers
  have hmade := madeOfChains_ofLayers (Digraph.cycleFree_of_layers? hlayers) hnames layers
  have hkept := (ofLayers_divided hkeys).layers
  constructor
  · obtain ⟨v, hv⟩ := h.1
    have hmem : v ∈ g.nodes := hkeys ▸ KeyedList.mem_keys_of_get? hv
    exact ⟨v, (hkept v (hnames v hmem)).trans hv⟩
  · rintro k ⟨w, hw⟩
    have hmem := KeyedList.mem_keys_of_get? hw
    rw [keys_layers_ofLayers hnames hkeys, nodes_ofLayers hnames, List.mem_append] at hmem
    rcases hmem with hmem | hmem
    · exact h.2 ⟨w, (hkept w (hnames w hmem)).symm.trans hw⟩
    · obtain ⟨ws, hws, hmem⟩ := List.mem_flatten.mp hmem
      obtain ⟨c, hc, rfl⟩ := List.mem_map.mp hws
      obtain ⟨j, hj, hlt⟩ := exists_layer_behind hkeys hmade hc hmem hw
      exact hlt.le.trans (h.2 ⟨c.1.2, hj⟩)

theorem foldl_max_le {ks : List Nat} {n bound : Nat} (hn : n ≤ bound)
    (hks : ∀ k ∈ ks, k < bound) : ks.foldl (fun n k => max n (k + 1)) n ≤ bound := by
  induction ks generalizing n with
  | nil => exact hn
  | cons k ks ih =>
      refine ih (Nat.max_le.mpr ⟨hn, hks k (List.mem_cons_self ..)⟩) fun j hj => ?_
      exact hks j (List.mem_cons_of_mem _ hj)

/-- There are as many layers as the number of the last one says, counted from zero. -/
theorem layerCount_eq {n : Nat} (h : IsGreatest {k | ∃ v, l.layers.get? v = some k} n) :
    l.layerCount = n + 1 := by
  refine Nat.le_antisymm ?_ ?_
  · refine foldl_max_le (Nat.zero_le _) fun k hk => Nat.lt_succ_of_le (h.2 ?_)
    exact KeyedList.mem_values_iff.mp hk
  · obtain ⟨v, hv⟩ := h.1
    have hlt := lt_layerCount (KeyedList.mem_keys_of_get? hv)
    rw [layer, hv] at hlt
    exact hlt

theorem layerCount_ofLayers (hlayers : g.layers? = some layers)
    (hnames : ∀ v ∈ g.nodes, Waypoint.isId v = false) :
    g.nodes = [] ∧ (ofLayers g layers).layerCount = 0 ∨
      ∃ n, IsGreatest {k | ∃ v, layers.get? v = some k} n ∧
        IsGreatest {k | ∃ v, (ofLayers g layers).layers.get? v = some k} n ∧
        (ofLayers g layers).layerCount = n + 1 := by
  obtain ⟨-, -, hkeys, -⟩ := Digraph.exists_rounds hlayers
  by_cases hnil : g.nodes = []
  · refine Or.inl ⟨hnil, ?_⟩
    have harcs : g.arcs = [] := by rw [Digraph.arcs, hnil, List.flatMap_nil]
    have hentries : layers.entries = [] := List.map_eq_nil_iff.mp (hkeys.trans hnil)
    rw [layerCount, layers_ofLayers, harcs]
    simp [KeyedList.values, KeyedList.putAll, hentries]
  · obtain ⟨v, hv⟩ := List.exists_mem_of_ne_nil _ hnil
    obtain ⟨k, hk⟩ := KeyedList.mem_keys_iff.mp (hkeys ▸ hv)
    have hgreatest := Finset.isGreatest_max' layers.values.toFinset
      ⟨k, List.mem_toFinset.mpr (KeyedList.mem_values_of_get? hk)⟩
    have hset : (↑layers.values.toFinset : Set Nat) = {k | ∃ v, layers.get? v = some k} := by
      ext k
      simp [KeyedList.mem_values_iff]
    rw [hset] at hgreatest
    have hgreatest' := isGreatest_layers hlayers hnames hgreatest
    exact Or.inr ⟨_, hgreatest, hgreatest', layerCount_eq hgreatest'⟩

/-! ## The division as a whole -/

/-- What it means that `l` divides the edges of `g`, the nodes of which are on the given layers:
every edge leads to the next layer, every edge of `g` has its chain, and there are no other chains.
-/
structure IsDivision (g : Digraph String) (layers : KeyedList String Nat) (l : Layered) : Prop where
  next_layer : ∀ u v, (u, v) ∈ l.graph.edges →
    ∃ k, l.layers.get? u = some k ∧ l.layers.get? v = some (k + 1)
  keys_chains : l.chains.keys = g.arcs
  chain : ∀ u v, (u, v) ∈ g.edges → ∃ ws m n, l.chains.get? (u, v) = some ws ∧
    layers.get? u = some m ∧ layers.get? v = some n ∧ m < n ∧ ws.length = n - m - 1 ∧
    l.graph.IsPath (u :: ws ++ [v]) v
  -- the waypoints are distinct and new, and there are no other nodes
  distinct : (g.nodes ++ l.chains.values.flatten).Nodup
  nodes : l.graph.nodes = g.nodes ++ l.chains.values.flatten
  -- each is on one chain and has one edge to it and one away from it
  one_chain : ∀ c ∈ l.chains.entries, ∀ c' ∈ l.chains.entries, ∀ w ∈ c.2, w ∈ c'.2 → c = c'
  one_edge : ∀ c ∈ l.chains.entries, ∀ w ∈ c.2,
    (∃ u, l.graph.predecessors w = [u]) ∧ ∃ v, l.graph.successors w = [v]
  -- there are no edges but those between neighbours on a chain
  edges : ∀ u v, (u, v) ∈ l.graph.edges ↔ ∃ c ∈ l.chains.entries, [u, v] <:+: route c
  keys_layers : l.layers.keys = l.graph.nodes
  kept : ∀ v ∈ g.nodes, l.layers.get? v = layers.get? v
  layerCount : g.nodes = [] ∧ l.layerCount = 0 ∨
    ∃ n, IsGreatest {k | ∃ v, layers.get? v = some k} n ∧
      IsGreatest {k | ∃ v, l.layers.get? v = some k} n ∧ l.layerCount = n + 1

/-- The graph `g` has the nodes of `l` that are no waypoints, and an edge in the place of every walk
from one to another that has only waypoints on its way. -/
structure IsContraction (l : Layered) (g : Digraph String) : Prop where
  nodes : g.nodes = l.graph.nodes.filter fun v => !Waypoint.isId v
  edges : ∀ u v, (u, v) ∈ g.edges ↔ Waypoint.isId u = false ∧ Waypoint.isId v = false ∧
    ∃ ws, (∀ w ∈ ws, Waypoint.isId w = true) ∧
      (u :: ws ++ [v]).IsChain fun a b => (a, b) ∈ l.graph.edges

theorem isDivision_ofLayers (hlayers : g.layers? = some layers)
    (hnames : ∀ v ∈ g.nodes, Waypoint.isId v = false) :
    IsDivision g layers (ofLayers g layers) := by
  obtain ⟨-, -, hkeys, -⟩ := Digraph.exists_rounds hlayers
  have hmade := madeOfChains_ofLayers (Digraph.cycleFree_of_layers? hlayers) hnames layers
  have hkeyslayers := keys_layers_ofLayers hnames hkeys
  exact
    { next_layer := fun u v he => by
        obtain ⟨hu, hv⟩ := (ofLayers g layers).graph.ends_mem _ he
        rw [← hkeyslayers] at hu hv
        obtain ⟨m, hm⟩ := KeyedList.mem_keys_iff.mp hu
        obtain ⟨n, hn⟩ := KeyedList.mem_keys_iff.mp hv
        have hnext := layer_of_mem_edges hlayers hnames he
        rw [layer, layer, hm, hn, Option.getD_some, Option.getD_some] at hnext
        exact ⟨m, hm, hn.trans (congrArg some hnext)⟩
      keys_chains := keys_chains_ofLayers g layers
      chain := fun u v he => by
        obtain ⟨ws, hws⟩ := exists_get?_chains layers he
        obtain ⟨m, n, hm, hn, hlt⟩ := (Digraph.isLongestPath hlayers).descends u v he
        have hlength := length_of_get?_chains he hws
        simp only [passed, top, hm, hn, Option.getD_some] at hlength
        exact ⟨ws, m, n, hws, hm, hn, hlt, hlength,
          hmade.isPath_route (KeyedList.get?_eq_some_iff.mp hws)⟩
      distinct := hmade.distinct
      nodes := nodes_ofLayers hnames layers
      one_chain := fun c hc c' hc' w hw hw' => hmade.eq_of_mem hc hc' hw hw'
      one_edge := fun c hc w hw =>
        ⟨hmade.exists_predecessors_eq hc hw, hmade.exists_successors_eq hc hw⟩
      edges := hmade.edges
      keys_layers := hkeyslayers
      kept := fun v hv => (ofLayers_divided hkeys).layers v (hnames v hv)
      layerCount := layerCount_ofLayers hlayers hnames }

/-! ## Contraction -/

theorem isId_of_mem_flatten (h : w ∈ (ofLayers g layers).chains.values.flatten) :
    Waypoint.isId w = true := by
  rw [flatten_values_ofLayers] at h
  obtain ⟨p, -, hw⟩ := List.mem_flatMap.mp h
  exact isId_of_mem_waypoints hw

theorem mem_nodes_iff (hnames : ∀ v ∈ g.nodes, Waypoint.isId v = false) :
    v ∈ g.nodes ↔ v ∈ (ofLayers g layers).graph.nodes ∧ Waypoint.isId v = false := by
  rw [nodes_ofLayers hnames, List.mem_append]
  constructor
  · exact fun hv => ⟨Or.inl hv, hnames v hv⟩
  · rintro ⟨hv | hv, hnot⟩
    · exact hv
    · rw [isId_of_mem_flatten hv] at hnot
      cases hnot

/-- A walk begins and ends at nodes. -/
theorem ends_mem_of_walk
    (h : (u :: ws ++ [v]).IsChain fun a b => (a, b) ∈ l.graph.edges) :
    u ∈ l.graph.nodes ∧ v ∈ l.graph.nodes := by
  obtain ⟨-, -, hlast⟩ := List.isChain_append.mp h
  obtain ⟨x, rest, hrest⟩ := List.exists_cons_of_ne_nil (List.concat_ne_nil v ws)
  rw [List.cons_append, hrest] at h
  refine ⟨(l.graph.ends_mem _ (List.isChain_cons_cons.mp h).1).1, ?_⟩
  exact (l.graph.ends_mem _
    (hlast _ (List.getLast?_eq_some_getLast (List.cons_ne_nil u ws)) v rfl)).2

theorem isContraction_ofLayers (hfree : g.CycleFree)
    (hnames : ∀ v ∈ g.nodes, Waypoint.isId v = false) (layers : KeyedList String Nat) :
    IsContraction (ofLayers g layers) g := by
  have hmade := madeOfChains_ofLayers hfree hnames layers
  refine ⟨?_, fun u v => ⟨fun he => ?_, ?_⟩⟩
  · rw [nodes_ofLayers hnames, List.filter_append,
      List.filter_eq_self.mpr fun v hv => by simp [hnames v hv],
      List.filter_eq_nil_iff.mpr fun w hw => by simp [isId_of_mem_flatten hw], List.append_nil]
  · obtain ⟨hu, hv⟩ := g.ends_mem _ he
    obtain ⟨ws, hws⟩ := exists_get?_chains layers he
    have hc := KeyedList.get?_eq_some_iff.mp hws
    exact ⟨hnames u hu, hnames v hv, ws,
      fun w hw => isId_of_mem_flatten (MadeOfChains.mem_flatten hc hw),
      (hmade.isPath_route hc).chain⟩
  · rintro ⟨hu, hv, ws, hws, hwalk⟩
    obtain ⟨hmemu, hmemv⟩ := ends_mem_of_walk hwalk
    have hnot : ∀ w ∈ ws, w ∉ g.nodes := fun w hw hnode => by
      have hid := hnames w hnode
      rw [hws w hw] at hid
      cases hid
    have hget := (hmade.walk_iff ((mem_nodes_iff hnames).mpr ⟨hmemu, hu⟩)
      ((mem_nodes_iff hnames).mpr ⟨hmemv, hv⟩) hnot).mp hwalk
    exact (hmade.ends _ (KeyedList.get?_eq_some_iff.mp hget)).1

/-- **Dividing the edges of a graph without cycles.** The graph has layers, its edges are divided
into chains of edges from one layer to the next, and contracting the chains gives the graph back. -/
theorem ofLayers_divides (g : Digraph String) (hfree : g.CycleFree)
    (hnames : ∀ v ∈ g.nodes, Waypoint.isId v = false) :
    ∃ layers, g.layers? = some layers ∧ IsDivision g layers (ofLayers g layers) ∧
      IsContraction (ofLayers g layers) g := by
  obtain ⟨layers, hlayers⟩ := Option.ne_none_iff_exists'.mp fun hnone =>
    Digraph.layers?_eq_none_iff.mp hnone hfree
  exact ⟨layers, hlayers, isDivision_ofLayers hlayers hnames,
    isContraction_ofLayers hfree hnames layers⟩

/-- A way over two nodes, and edges that pass by one of them and both. -/
def bypass : Digraph String :=
  .ofLists ["d", "a", "b", "c"] [("a", "b"), ("a", "d"), ("b", "c"), ("b", "d"), ("c", "d")]

theorem ofLayers_divides_bypass :
    bypass.CycleFree ∧ (∀ v ∈ bypass.nodes, Waypoint.isId v = false) ∧
      ∃ layers, bypass.layers? = some layers ∧
        layers.entries = [("d", 3), ("a", 0), ("b", 1), ("c", 2)] ∧
        (ofLayers bypass layers).chains.get? ("a", "d") = some ["__dummy_1_0", "__dummy_1_1"] ∧
        IsDivision bypass layers (ofLayers bypass layers) ∧
        IsContraction (ofLayers bypass layers) bypass := by
  have horder : bypass.IsTopological ["a", "b", "c", "d"] :=
    ⟨by decide +kernel, fun u v he => by
      have hall : ∀ e ∈ bypass.edges,
        ["a", "b", "c", "d"].idxOf e.1 < ["a", "b", "c", "d"].idxOf e.2 := by decide +kernel
      exact hall (u, v) he⟩
  have hnames : ∀ v ∈ bypass.nodes, Waypoint.isId v = false := by decide +kernel
  obtain ⟨layers, hlayers, hdivision, hcontraction⟩ :=
    ofLayers_divides bypass horder.cycleFree hnames
  obtain rfl := Digraph.relaxed_eq hlayers horder
  exact ⟨horder.cycleFree, hnames, _, hlayers, by decide +kernel, by decide +kernel, hdivision,
    hcontraction⟩

end Layered

end Schematic
