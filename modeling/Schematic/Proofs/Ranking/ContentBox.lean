import Schematic.Proofs.Ranking.Overhang

/-!
# The box that a placement fills

A placement is handed on as a box from the origin to its width and height, and what holds it is
fitted around that box. Nothing lies outside of it (`Outcome.inside`, `Outcome.contains_point`), and
on both axes it is no larger than it needs to be (`Outcome.exists_reach`); along the ranks the boxes
of the nodes alone reach from its beginning to its end. Every edge has a route of its own
(`Outcome.keys_routes`), which depends on nothing but its ends (`placedRoute_congr`): opposite edges
are one chain, and one of the two is turned around (`placedRoute_opposite`).
`Ranked.place_isContentBox` puts this together.
-/

namespace Schematic

/-- Of two opposite edges, one runs backwards: the greedy order has one of their ends before the
other. -/
theorem Digraph.mem_backEdges_opposite {V : Type} [DecidableEq V] {g : Digraph V} {u v : V}
    (huv : (u, v) ∈ g.edges) (hvu : (v, u) ∈ g.edges) (hne : u ≠ v) :
    (v, u) ∈ g.backEdges ↔ (u, v) ∉ g.backEdges := by
  have hu : u ∈ g.greedyOrder := g.greedyOrder_perm.mem_iff.mpr (g.ends_mem _ huv).1
  have hidx : g.greedyOrder.idxOf u ≠ g.greedyOrder.idxOf v :=
    fun heq => hne ((List.idxOf_inj hu).mp heq)
  rw [mem_backEdges, mem_backEdges]
  simp only [huv, hvu, ne_eq, hne, Ne.symm hne, not_false_eq_true, true_and, not_lt]
  omega

namespace Ranked

/-- How far a placement reaches on an axis. -/
def reach (axis : Direction) (p : Ranked Rat) : Rat :=
  match axis with
  | .down => p.height
  | .right => p.width

variable {direction : Direction} {gaps : Gaps Rat} {nodes : List (RankNode Rat)}
  {edges : List RankEdge} {layers : KeyedList String Nat} {p : Ranked Rat}

theorem far_eq_reach (axis : Direction) (p : Ranked Rat) :
    Rect.far axis ⟨0, 0, p.width, p.height⟩ = p.reach axis := by
  cases axis <;> exact zero_add _

/-! ## Routes of edges with the same ends -/

theorem placedRoute_congr {e f : RankEdge} (hs : e.source = f.source) (ht : e.target = f.target) :
    placedRoute direction gaps nodes edges layers e =
      placedRoute direction gaps nodes edges layers f := by
  rw [placedRoute_eq, placedRoute_eq, route, route, hs, ht]

/-- Opposite edges run along one chain, the one down and the other up. The one that runs backwards
is turned around before layers are given, and so becomes the same edge as the other. -/
theorem placedRoute_opposite {e f : RankEdge} (he : e ∈ edges) (hf : f ∈ edges)
    (hne : e.source ≠ e.target) (hs : f.source = e.target) (ht : f.target = e.source) :
    placedRoute direction gaps nodes edges layers e =
      (placedRoute direction gaps nodes edges layers f).map List.reverse := by
  have huv := (mem_edges_graph nodes).mpr ⟨hne, e, he, rfl, rfl⟩
  have hvu := (mem_edges_graph nodes).mpr ⟨hne.symm, f, hf, hs, ht⟩
  have hback := Digraph.mem_backEdges_opposite huv hvu hne
  rw [placedRoute_eq, placedRoute_eq, route, route, hs, ht, if_neg hne, if_neg hne.symm]
  by_cases h : (e.source, e.target) ∈ (graph nodes edges).backEdges
  · have h' : (e.target, e.source) ∉ (graph nodes edges).backEdges :=
      fun hmem => hback.mp hmem h
    rw [if_pos (List.contains_iff_mem.mpr h), if_neg (mt List.contains_iff_mem.mp h')]
  · rw [if_neg (mt List.contains_iff_mem.mp h), if_pos (List.contains_iff_mem.mpr (hback.mpr h))]
    cases chainRoute direction (layered nodes edges layers)
        (coordinates direction gaps nodes edges layers)
        (placedBoxes direction gaps nodes edges layers) e.source e.target with
    | error => rfl
    | ok ps => exact congrArg Except.ok (List.reverse_reverse ps).symm

section Outcome

variable (hp : Outcome direction gaps nodes edges layers p)

include hp

/-- On each axis a box or a point of a route is where the placement ends, for its size is that of a
hull around both. -/
theorem Outcome.exists_reach (axis : Direction) (hne : nodes ≠ []) :
    (∃ r ∈ p.rects.values, r.far axis = p.reach axis) ∨
      ∃ q ∈ p.routes.values.flatten, q.along axis = p.reach axis := by
  obtain ⟨n, hn⟩ := List.exists_mem_of_ne_nil nodes hne
  obtain ⟨hull, hunion⟩ := exists_union_drawn direction gaps edges layers p.routes hn
  rw [← hp.rects] at hunion
  obtain ⟨r, hr, hfar⟩ := Rect.exists_far_of_union axis hunion
  rw [← hp.far_size axis hunion, far_eq_reach] at hfar
  rcases List.mem_append.mp hr with hr | hr
  · exact Or.inl ⟨r, hr, hfar⟩
  · obtain ⟨q, hq, rfl⟩ := List.mem_map.mp hr
    rw [Rect.far_ofPoint] at hfar
    exact Or.inr ⟨q, hq, hfar⟩

end Outcome

/-! ## Content boxes -/

/-- The boxes and routes fill the box from the origin to the width and the height: they lie in it,
and on each axis one of them reaches its end. Along the ranks the boxes alone reach from its
beginning to its end. Each edge has one route, that of its parallels, and the reverse of that of its
opposites. -/
structure IsContentBox (direction : Direction) (nodes : List (RankNode Rat))
    (edges : List RankEdge) (p : Ranked Rat) : Prop where
  boxes : ∀ v, v ∈ p.rects.keys ↔ v ∈ nodes.map RankNode.id
  rects : ∀ r ∈ p.rects.values, (0 ≤ r.x ∧ r.right ≤ p.width) ∧ 0 ≤ r.y ∧ r.bottom ≤ p.height
  points : ∀ q ∈ p.routes.values.flatten, (0 ≤ q.x ∧ q.x ≤ p.width) ∧ 0 ≤ q.y ∧ q.y ≤ p.height
  reaches : ∀ axis, (∃ r ∈ p.rects.values, r.far axis = p.reach axis) ∨
    ∃ q ∈ p.routes.values.flatten, q.along axis = p.reach axis
  begins : ∃ r ∈ p.rects.values, r.near direction = 0
  ends : ∃ r ∈ p.rects.values, r.far direction = p.reach direction
  routes : p.routes.keys = edges.map RankEdge.key
  parallel : ∀ e ∈ edges, ∀ f ∈ edges, f.source = e.source → f.target = e.target →
    p.routes.get? f.key = p.routes.get? e.key
  opposite : ∀ e ∈ edges, ∀ f ∈ edges, e.source ≠ e.target →
    f.source = e.target → f.target = e.source →
      p.routes.get? f.key = (p.routes.get? e.key).map List.reverse

/-- **What a placement fills.** Boxes and the edges between them are placed so that they fill their
box. -/
theorem place_isContentBox (direction : Direction) (h : Sized gaps nodes) (hne : nodes ≠ [])
    (hjoins : Joins nodes edges) (hkeys : (edges.map RankEdge.key).Nodup) :
    ∃ p, place direction gaps nodes edges = .ok p ∧ IsContentBox direction nodes edges p := by
  obtain ⟨layers, p, hplace, hp⟩ := exists_outcome direction gaps hjoins
  refine ⟨p, hplace, fun v => hp.mem_keys_rects, fun r hr => ?_, fun q hq => ?_,
    fun axis => hp.exists_reach axis hne, ?_, ?_, hp.keys_routes hkeys, ?_, ?_⟩
  · obtain ⟨v, hget⟩ := KeyedList.mem_values_iff.mp hr
    have hinside := hp.inside h hjoins hget
    obtain ⟨hx, hy, hright, hbottom⟩ := Rect.contains_iff.mp hinside
    rw [Rect.right, Rect.right, zero_add] at hright
    rw [Rect.bottom, Rect.bottom, zero_add] at hbottom
    exact ⟨⟨hx, hright⟩, hy, hbottom⟩
  · have hinside := hp.contains_point h hjoins hq
    rw [Rect.contains_ofPoint_iff] at hinside
    obtain ⟨hx, hwidth⟩ := hinside .right
    obtain ⟨hy, hheight⟩ := hinside .down
    rw [far_eq_reach] at hwidth hheight
    exact ⟨⟨hx, hwidth⟩, hy, hheight⟩
  · obtain ⟨v, r, hr, hnear⟩ := hp.exists_near h hjoins hne
    exact ⟨r, KeyedList.mem_values_of_get? hr, hnear⟩
  · obtain ⟨v, r, hr, hfar⟩ := hp.exists_far h hjoins hne
    exact ⟨r, KeyedList.mem_values_of_get? hr, hfar.trans (far_eq_reach direction p)⟩
  · intro e he f hf hs ht
    obtain ⟨ps, hps, hroute⟩ := hp.get?_routes hkeys he
    obtain ⟨qs, hqs, hroute'⟩ := hp.get?_routes hkeys hf
    rw [placedRoute_congr hs ht, hroute] at hroute'
    rw [hps, hqs, Except.ok.inj hroute']
  · intro e he f hf hends hs ht
    obtain ⟨ps, hps, hroute⟩ := hp.get?_routes hkeys he
    obtain ⟨qs, hqs, hroute'⟩ := hp.get?_routes hkeys hf
    rw [placedRoute_opposite he hf hends hs ht, hroute'] at hroute
    rw [hps, hqs, ← Except.ok.inj hroute, Option.map_some, List.reverse_reverse]

/-- Boxes of which one is empty, with parallel and opposite edges, a long one and loops. -/
def crowdedNodes : List (RankNode Rat) :=
  [⟨"a", 100, 50⟩, ⟨"b", 60, 90⟩, ⟨"c", 0, 0⟩, ⟨"d", 30, 40⟩]

def crowdedEdges : List RankEdge :=
  [⟨4, "a", "b"⟩, ⟨0, "b", "a"⟩, ⟨7, "a", "b"⟩, ⟨3, "b", "c"⟩, ⟨1, "a", "c"⟩, ⟨5, "b", "b"⟩,
    ⟨2, "b", "b"⟩]

theorem place_isContentBox_crowded :
    Sized ⟨60, 80, 10⟩ crowdedNodes ∧ crowdedNodes ≠ [] ∧ Joins crowdedNodes crowdedEdges ∧
      (crowdedEdges.map RankEdge.key).Nodup ∧
        ∃ p, place .right ⟨60, 80, 10⟩ crowdedNodes crowdedEdges = .ok p ∧
          IsContentBox .right crowdedNodes crowdedEdges p := by
  have h : Sized ⟨60, 80, 10⟩ crowdedNodes :=
    ⟨by decide, by decide, by decide, by decide, by decide, by decide, by decide +kernel⟩
  have hne : crowdedNodes ≠ [] := by decide
  have hjoins : Joins crowdedNodes crowdedEdges := by
    unfold Joins
    decide
  have hkeys : (crowdedEdges.map RankEdge.key).Nodup := by decide
  exact ⟨h, hne, hjoins, hkeys, place_isContentBox .right h hne hjoins hkeys⟩

end Ranked

end Schematic
