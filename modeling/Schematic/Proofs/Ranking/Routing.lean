import Schematic.Proofs.Geometry.Axis
import Schematic.Proofs.Ranking.Chains
import Schematic.Proofs.Ranking.Separation

/-!
# Routes lead from box to box

In exact numbers the route of an edge leads from the box of its source to that of its target or, if
the edge was turned around, the other way (`Outcome.leads`): the layers of a chain go up by one, so
its points go on along the ranks by more than the tolerance, and simplifying drops none of the ends.
As no route goes beyond the boxes, the boxes alone reach from the beginning of a placement to its
end along the ranks (`Outcome.exists_near`, `Outcome.exists_far`). Across the ranks that is not so:
loops and waypoints may stand out there.
-/

namespace Schematic

namespace Ranked

variable {direction : Direction} {gaps : Gaps Rat} {nodes : List (RankNode Rat)}
  {edges : List RankEdge} {layers : KeyedList String Nat} {p : Ranked Rat}

/-! ## Places along the ranks -/

theorem along_pointOf (v : String) :
    (pointOf direction (layered nodes edges layers) (coordinates direction gaps nodes edges layers)
      v).along direction = alongOf direction gaps nodes edges layers v := by
  cases direction <;> simp only [pointOf, pointAt, Point.along, alongOf, Coordinates.along]

theorem across_pointOf (v : String) :
    (pointOf direction (layered nodes edges layers) (coordinates direction gaps nodes edges layers)
      v).across direction = acrossOf direction gaps nodes edges layers v := by
  cases direction <;> simp only [pointOf, pointAt, Point.across, acrossOf]

theorem near_boxFor (n : RankNode Rat) : (boxFor direction gaps nodes edges layers n).near direction
    = alongOf direction gaps nodes edges layers n.id - (extentOf direction n).depth / 2 := by
  cases direction
  · rw [boxFor_down]
    rfl
  · rw [boxFor_right]
    rfl

theorem far_boxFor (n : RankNode Rat) : (boxFor direction gaps nodes edges layers n).far direction
    = alongOf direction gaps nodes edges layers n.id + (extentOf direction n).depth / 2 := by
  cases direction
  · simp only [boxFor_down, Rect.far, Rect.bottom, extentOf]
    ring
  · simp only [boxFor_right, Rect.far, Rect.right, extentOf]
    ring

/-- An edge leaves its upper box in the middle of the far border, whatever the direction of the
ranks is. -/
theorem exits_fst (r s : Rect Rat) : (exits direction r s).1.along direction = r.far direction ∧
    (exits direction r s).1.across direction = r.middle direction := by
  cases direction <;> exact ⟨rfl, rfl⟩

/-- An edge reaches its lower box in the middle of the near border, whatever the direction of the
ranks is. -/
theorem exits_snd (r s : Rect Rat) : (exits direction r s).2.along direction = s.near direction ∧
    (exits direction r s).2.across direction = s.middle direction := by
  cases direction <;> exact ⟨rfl, rfl⟩

/-- A loop does not go beyond its box along the ranks, and not by more than its size across them.
The box must have no negative side, as the loop is fixed a quarter of a side on either side of the
middle. -/
theorem loop_within {r : Rect Rat} (hwidth : 0 ≤ r.width) (hheight : 0 ≤ r.height)
    {q : Point Rat} (hq : q ∈ loop direction r) :
    (r.near direction ≤ q.along direction ∧ q.along direction ≤ r.far direction) ∧
      r.near direction.across ≤ q.across direction ∧
      q.across direction ≤ r.far direction.across + loopSize := by
  have hsize : (loopSize : Rat) = 20 := rfl
  rw [hsize]
  cases direction
  · simp only [loop, hsize, List.mem_cons, List.not_mem_nil, or_false] at hq
    rcases hq with rfl | rfl | rfl | rfl <;>
      simp only [Point.along, Point.across, Direction.across, Rect.near, Rect.far, Rect.bottom,
        Rect.right, Rect.center] <;>
      push_cast <;> refine ⟨⟨?_, ?_⟩, ?_, ?_⟩ <;> linarith
  · simp only [loop, hsize, List.mem_cons, List.not_mem_nil, or_false] at hq
    rcases hq with rfl | rfl | rfl | rfl <;>
      simp only [Point.along, Point.across, Direction.across, Rect.near, Rect.far, Rect.bottom,
        Rect.right, Rect.center] <;>
      push_cast <;> refine ⟨⟨?_, ?_⟩, ?_, ?_⟩ <;> linarith

/-! ## Routes -/

/-- The waypoints of an edge, in the order in which the layers have them. A loop has none, and
neither has an edge between neighbouring layers. -/
def waypoints (nodes : List (RankNode Rat)) (edges : List RankEdge) (layers : KeyedList String Nat)
    (e : RankEdge) : List String :=
  ((layered nodes edges layers).chains.get? (turned nodes edges e)).getD []

/-- What a point of a route is: a corner of a loop, the point where the edge leaves its upper box or
that where it reaches its lower box, or a waypoint that it passes. -/
inductive Stop (direction : Direction) (gaps : Gaps Rat) (nodes : List (RankNode Rat))
    (edges : List RankEdge) (layers : KeyedList String Nat) (e : RankEdge) : Point Rat → Prop where
  | loops {n : RankNode Rat} {q : Point Rat} (hn : n ∈ nodes) (hloop : e.source = e.target)
      (hq : q ∈ loop direction (boxFor direction gaps nodes edges layers n)) :
      Stop direction gaps nodes edges layers e q
  | leaves {n m : RankNode Rat} (hn : n ∈ nodes) (hm : m ∈ nodes)
      (he : (n.id, m.id) ∈ (graph nodes edges).acyclic.edges) :
      Stop direction gaps nodes edges layers e
        (exits direction (boxFor direction gaps nodes edges layers n)
          (boxFor direction gaps nodes edges layers m)).1
  | reaches {n m : RankNode Rat} (hn : n ∈ nodes) (hm : m ∈ nodes)
      (he : (n.id, m.id) ∈ (graph nodes edges).acyclic.edges) :
      Stop direction gaps nodes edges layers e
        (exits direction (boxFor direction gaps nodes edges layers n)
          (boxFor direction gaps nodes edges layers m)).2
  | passes {n m : RankNode Rat} {w : String} (hn : n ∈ nodes) (hm : m ∈ nodes)
      (hturned : turned nodes edges e = (n.id, m.id))
      (he : (n.id, m.id) ∈ (graph nodes edges).acyclic.edges)
      (hw : w ∈ waypoints nodes edges layers e) :
      Stop direction gaps nodes edges layers e
        (pointOf direction (layered nodes edges layers)
          (coordinates direction gaps nodes edges layers) w)

section Routes

variable (h : Sized gaps nodes) (hjoins : Joins nodes edges)
  (hlayers : IsLayering nodes edges layers) {n m : RankNode Rat}

include h hjoins hlayers

/-- The nodes of a chain follow one another along the ranks, with the gap between ranks from the end
of one to the beginning of the next. Their layers go up by one, and different layers are apart
(`Coordinates.Assignable.along_le`). -/
theorem exists_chain (direction : Direction) (hn : n ∈ nodes) (hm : m ∈ nodes)
    (he : (n.id, m.id) ∈ (graph nodes edges).acyclic.edges) :
    ∃ ws, (layered nodes edges layers).chains.get? (n.id, m.id) = some ws ∧
      (n.id :: (ws ++ [m.id])).Pairwise fun u v =>
        alongOf direction gaps nodes edges layers u +
            (Coordinates.extent (extents direction nodes) u).depth / 2 + gaps.rank ≤
          alongOf direction gaps nodes edges layers v -
            (Coordinates.extent (extents direction nodes) v).depth / 2 := by
  have harc := Digraph.mem_arcs.mpr he
  have hthreaded := Layered.ofLayers_threaded (graph nodes edges).acyclic layers
  obtain ⟨ws, hws, hmap⟩ := hthreaded.chain harc (hlayers.lt _ _ he)
    (hlayers.layer_eq (h.plain n hn)) (hlayers.layer_eq (h.plain m hm))
  refine ⟨ws, hws, ?_⟩
  have hlt : (n.id :: (ws ++ [m.id])).Pairwise fun u v =>
      (layered nodes edges layers).layer u < (layered nodes edges layers).layer v := by
    rw [← List.pairwise_map (R := (· < ·)) (f := (layered nodes edges layers).layer),
      ← List.cons_append]
    exact hmap ▸ List.pairwise_lt_range'
  have hmem : ∀ v ∈ n.id :: (ws ++ [m.id]), v ∈ (layered nodes edges layers).graph.nodes := by
    intro v hv
    rw [List.mem_cons, List.mem_append, List.mem_singleton] at hv
    rcases hv with rfl | hv | rfl
    · exact hlayers.mem_nodes hjoins (List.mem_map_of_mem hn)
    · obtain ⟨ws', hws', hin⟩ := hlayers.divided.chains _ harc
      obtain rfl := Option.some.inj (hws.symm.trans hws')
      exact hin v hv
    · exact hlayers.mem_nodes hjoins (List.mem_map_of_mem hm)
  exact hlt.imp_of_mem fun hu hv huv =>
    (assignable direction h hlayers).along_le (hmem _ hu) (hmem _ hv) huv

/-- Every point of a chain between two boxes lies behind those before it by the gap between
ranks. -/
theorem pairwise_chainPoints (direction : Direction) (hn : n ∈ nodes) (hm : m ∈ nodes)
    (he : (n.id, m.id) ∈ (graph nodes edges).acyclic.edges) :
    ∃ ws, (layered nodes edges layers).chains.get? (n.id, m.id) = some ws ∧
      let ends := exits direction (boxFor direction gaps nodes edges layers n)
        (boxFor direction gaps nodes edges layers m)
      let q := pointOf direction (layered nodes edges layers)
        (coordinates direction gaps nodes edges layers)
      (ends.1 :: ws.map q ++ [ends.2]).Pairwise
        fun a b => a.along direction + gaps.rank ≤ b.along direction := by
  obtain ⟨ws, hws, hpairs⟩ := exists_chain h hjoins hlayers direction hn hm he
  refine ⟨ws, hws, ?_⟩
  obtain ⟨hfirst, hrest⟩ := List.pairwise_cons.mp hpairs
  obtain ⟨hmiddle, -, hlast⟩ := List.pairwise_append.mp hrest
  have hdepth : ∀ v, 0 ≤ (Coordinates.extent (extents direction nodes) v).depth :=
    fun v => (extent_nonneg h v).2
  simp only [extent_extents h.nodup hn, ← far_boxFor] at hfirst
  intro ends q
  rw [List.cons_append, List.pairwise_cons, List.pairwise_append, List.pairwise_map]
  refine ⟨fun b hb => ?_, hmiddle.imp fun {u v} huv => ?_, List.pairwise_singleton _ _,
    fun a ha b hb => ?_⟩
  · rw [(exits_fst _ _).1]
    rcases List.mem_append.mp hb with hb | hb
    · obtain ⟨w, hw, rfl⟩ := List.mem_map.mp hb
      have hle := hfirst w (List.mem_append_left _ hw)
      rw [along_pointOf]
      linarith [hdepth w]
    · have hle := hfirst m.id (List.mem_append_right _ (List.mem_singleton.mpr rfl))
      rw [extent_extents h.nodup hm, ← near_boxFor] at hle
      rw [List.mem_singleton.mp hb, (exits_snd _ _).1]
      exact hle
  · rw [along_pointOf, along_pointOf]
    linarith [hdepth u, hdepth v]
  · obtain ⟨w, hw, rfl⟩ := List.mem_map.mp ha
    have hle := hlast w hw m.id (List.mem_singleton.mpr rfl)
    rw [extent_extents h.nodup hm, ← near_boxFor] at hle
    rw [List.mem_singleton.mp hb, (exits_snd _ _).1, along_pointOf]
    linarith [hdepth w]

/-- The route of an edge of the graph without cycles leads from its upper box to its lower one. Its
points follow one another by more than the tolerance, so that simplifying cannot take an end for a
repetition of the point before. -/
theorem chainRoute_leads (hrank : Scalar.tolerance < gaps.rank) (hn : n ∈ nodes) (hm : m ∈ nodes)
    (he : (n.id, m.id) ∈ (graph nodes edges).acyclic.edges) {ps : List (Point Rat)}
    (hps : chainRoute direction (layered nodes edges layers)
      (coordinates direction gaps nodes edges layers)
      (placedBoxes direction gaps nodes edges layers) n.id m.id = .ok ps) :
    Polyline.Leads direction gaps.rank (boxFor direction gaps nodes edges layers n)
      (boxFor direction gaps nodes edges layers m) ps := by
  obtain ⟨ws, hws, hsteps⟩ := pairwise_chainPoints h hjoins hlayers direction hn hm he
  rw [chainRoute, rectOf_placedBoxes h.nodup hn, rectOf_placedBoxes h.nodup hm] at hps
  simp only [hws, Option.getD_some] at hps
  cases hps
  obtain ⟨hsub, hhead, hend⟩ := Polyline.simplify_spec direction
    (hsteps.isChain.imp fun a b hab => by linarith)
  let r := boxFor direction gaps nodes edges layers n
  let s := boxFor direction gaps nodes edges layers m
  refine ⟨?_, ⟨_, hhead.trans rfl, exits_fst r s⟩, ⟨_, hend.trans ?_, exits_snd r s⟩, ?_⟩
  · have hends := (List.pairwise_append.mp hsteps).2.2 _ (List.mem_cons_self ..) _
      (List.mem_singleton.mpr rfl)
    rw [(exits_fst _ _).1, (exits_snd _ _).1] at hends
    exact hends
  · exact List.getLast?_concat
  · refine (hsteps.imp fun hab => ?_).sublist hsub
    have htolerance : (0 : Rat) ≤ Scalar.tolerance := by decide +kernel
    linarith

/-- The route of an edge between two boxes leads from the one to the other, in one direction or the
other. -/
theorem placedRoute_leads (hrank : Scalar.tolerance < gaps.rank) (hn : n ∈ nodes) (hm : m ∈ nodes)
    {e : RankEdge} (he : e ∈ edges) (hs : e.source = n.id) (ht : e.target = m.id)
    (hne : e.source ≠ e.target) {ps : List (Point Rat)}
    (hps : placedRoute direction gaps nodes edges layers e = .ok ps) :
    Polyline.Leads direction gaps.rank (boxFor direction gaps nodes edges layers n)
        (boxFor direction gaps nodes edges layers m) ps ∨
      Polyline.Leads direction gaps.rank (boxFor direction gaps nodes edges layers m)
        (boxFor direction gaps nodes edges layers n) ps.reverse := by
  have hturned := turned_mem nodes he hne
  unfold turned at hturned
  rw [placedRoute_eq, route, if_neg hne] at hps
  split at hps
  · next hback =>
    rw [if_pos hback, hs, ht] at hturned
    rw [hs, ht] at hps
    obtain ⟨qs, hchain, rfl⟩ := map_eq_ok hps
    rw [List.reverse_reverse]
    exact Or.inr (chainRoute_leads h hjoins hlayers hrank hm hn hturned hchain)
  · next hback =>
    rw [if_neg hback, hs, ht] at hturned
    rw [hs, ht] at hps
    exact Or.inl (chainRoute_leads h hjoins hlayers hrank hn hm hturned hps)

omit hlayers in
/-- What a point of a route is, is settled by the edge: simplifying only drops points, so each is
still a point of the loop, the end of a line at a box, or a waypoint. -/
theorem stop_of_placedRoute {e : RankEdge} (he : e ∈ edges) {ps : List (Point Rat)}
    (hps : placedRoute direction gaps nodes edges layers e = .ok ps) {q : Point Rat}
    (hq : q ∈ ps) : Stop direction gaps nodes edges layers e q := by
  obtain ⟨hs, ht⟩ := hjoins e he
  obtain ⟨n, hn, hs⟩ := List.mem_map.mp hs
  obtain ⟨m, hm, ht⟩ := List.mem_map.mp ht
  have hchain : ∀ {n m}, n ∈ nodes → m ∈ nodes → e.source ≠ e.target →
      turned nodes edges e = (n.id, m.id) → ∀ {ps : List (Point Rat)},
      chainRoute direction (layered nodes edges layers)
        (coordinates direction gaps nodes edges layers)
        (placedBoxes direction gaps nodes edges layers) n.id m.id = .ok ps →
      q ∈ ps → Stop direction gaps nodes edges layers e q := by
    intro n m hn hm hne hturned ps hps hq
    have hedge := turned_mem nodes he hne
    rw [hturned] at hedge
    rw [chainRoute, rectOf_placedBoxes h.nodup hn, rectOf_placedBoxes h.nodup hm] at hps
    cases hps
    have hmem := (Polyline.simplify_sublist _).subset hq
    rw [List.cons_append, List.mem_cons, List.mem_append, List.mem_singleton] at hmem
    rcases hmem with rfl | hmem | rfl
    · exact .leaves hn hm hedge
    · obtain ⟨w, hw, rfl⟩ := List.mem_map.mp hmem
      rw [← hturned] at hw
      exact .passes hn hm hturned hedge hw
    · exact .reaches hn hm hedge
  by_cases hne : e.source = e.target
  · rw [placedRoute_eq, route, if_pos hne, ← hs, rectOf_placedBoxes h.nodup hn] at hps
    cases hps
    exact .loops hn hne hq
  · rw [placedRoute_eq, route, if_neg hne] at hps
    split at hps
    · next hback =>
      rw [← hs, ← ht] at hps
      obtain ⟨qs, hqs, rfl⟩ := map_eq_ok hps
      exact hchain hm hn hne (by rw [turned, if_pos hback, hs, ht]) hqs (List.mem_reverse.mp hq)
    · next hback =>
      rw [← hs, ← ht] at hps
      exact hchain hn hm hne (by rw [turned, if_neg hback, hs, ht]) hps hq

/-- No route goes further along the ranks than some box. A waypoint comes before the box at the end
of its chain, which is what the chain's order along the ranks says. -/
theorem Stop.exists_along_le_far {e : RankEdge} {q : Point Rat}
    (hq : Stop direction gaps nodes edges layers e q) : ∃ n ∈ nodes,
      q.along direction ≤ (boxFor direction gaps nodes edges layers n).far direction := by
  cases hq with
  | loops hn _ hq => exact ⟨_, hn, (loop_within (h.width _ hn) (h.height _ hn) hq).1.2⟩
  | leaves hn hm he => exact ⟨_, hn, le_of_eq (exits_fst _ _).1⟩
  | reaches hn hm he =>
      refine ⟨_, hm, ?_⟩
      rw [(exits_snd _ _).1]
      exact Rect.near_le_far direction (h.width _ hm) (h.height _ hm)
  | @passes n m w hn hm hturned he hw =>
      obtain ⟨ws, hws, hsteps⟩ := pairwise_chainPoints h hjoins hlayers direction hn hm he
      rw [waypoints, hturned, hws, Option.getD_some] at hw
      -- the point where the edge reaches its lower box lies behind all waypoints
      have hle := (List.pairwise_append.mp hsteps).2.2 _
        (List.mem_cons_of_mem _ (List.mem_map_of_mem hw)) _ (List.mem_singleton.mpr rfl)
      rw [(exits_snd _ _).1] at hle
      have hbox : (boxFor direction gaps nodes edges layers m).near direction ≤
          (boxFor direction gaps nodes edges layers m).far direction :=
        Rect.near_le_far direction (h.width m hm) (h.height m hm)
      exact ⟨m, hm, by linarith [h.rank]⟩

/-- Some box begins where the ranks begin: the deepest one of the first layer. There is a node on
that layer as soon as there is any. -/
theorem exists_near_eq_zero (direction : Direction) (hne : nodes ≠ []) :
    ∃ n ∈ nodes, (boxFor direction gaps nodes edges layers n).near direction = 0 := by
  obtain ⟨k, hk⟩ := List.exists_mem_of_ne_nil nodes hne
  have hgraph : (graph nodes edges).acyclic.nodes ≠ [] := by
    rw [Digraph.nodes_acyclic]
    exact List.ne_nil_of_mem ((mem_nodes_graph hjoins).mpr (List.mem_map_of_mem hk))
  obtain ⟨v, hv, hget⟩ := Digraph.exists_first_layer hlayers.found hgraph
  rw [Digraph.nodes_acyclic, mem_nodes_graph hjoins] at hv
  obtain ⟨n, hn, rfl⟩ := List.mem_map.mp hv
  have hzero : (layered nodes edges layers).layer n.id = 0 := by
    rw [hlayers.layer_eq (h.plain n hn), hget, Option.getD_some]
  obtain ⟨w, hw, hdepth, halong⟩ := (assignable direction h hlayers).exists_deepest
    (hlayers.mem_nodes hjoins hv) hzero
  by_cases hbox : w ∈ nodes.map RankNode.id
  · obtain ⟨m, hm, rfl⟩ := List.mem_map.mp hbox
    refine ⟨m, hm, ?_⟩
    have hmiddle := halong m.id hw
    rw [extent_extents h.nodup hm] at hmiddle
    rw [near_boxFor, alongOf, coordinates_eq, hmiddle, sub_self]
  -- a waypoint has no depth, so nothing in its layer has one
  · refine ⟨n, hn, ?_⟩
    have hnothing : Coordinates.extent (extents direction nodes) w = ⟨0, 0⟩ :=
      extent_of_not_mem hbox
    have hmiddle := halong n.id hzero
    have hnonneg : 0 ≤ (Coordinates.extent (extents direction nodes) n.id).depth :=
      (extent_nonneg h n.id).2
    rw [hnothing] at hdepth hmiddle
    rw [extent_extents h.nodup hn] at hdepth hnonneg
    rw [near_boxFor, alongOf, coordinates_eq, hmiddle]
    linarith

end Routes

section Outcome

variable (h : Sized gaps nodes) (hjoins : Joins nodes edges)
  (hp : Outcome direction gaps nodes edges layers p)

include h hjoins hp

/-- The route that is found for an edge between two boxes leads from the one to the other. An edge
that was turned around is routed the other way and reversed, hence the two cases. -/
theorem Outcome.leads (hrank : Scalar.tolerance < gaps.rank)
    (hkeys : (edges.map RankEdge.key).Nodup) {e : RankEdge} (he : e ∈ edges)
    (hne : e.source ≠ e.target) {r s : Rect Rat} (hr : p.rects.get? e.source = some r)
    (hs : p.rects.get? e.target = some s) {ps : List (Point Rat)}
    (hps : p.routes.get? e.key = some ps) :
    Polyline.Leads direction gaps.rank r s ps ∨
      Polyline.Leads direction gaps.rank s r ps.reverse := by
  obtain ⟨hsource, htarget⟩ := hjoins e he
  obtain ⟨n, hn, hsource⟩ := List.mem_map.mp hsource
  obtain ⟨m, hm, htarget⟩ := List.mem_map.mp htarget
  rw [← hsource, hp.get?_eq_boxFor h hn] at hr
  rw [← htarget, hp.get?_eq_boxFor h hm] at hs
  cases hr
  cases hs
  obtain ⟨qs, hqs, hroute⟩ := hp.get?_routes hkeys he
  obtain rfl := Option.some.inj (hqs.symm.trans hps)
  exact placedRoute_leads h hjoins hp.isLayering hrank hn hm he hsource.symm htarget.symm hne hroute

/-- Every point of a route is what the edge makes it. The routes are put together from those of the
edges, so a point comes from one of them. -/
theorem Outcome.exists_stop {q : Point Rat} (hq : q ∈ p.routes.values.flatten) :
    ∃ e ∈ edges, Stop direction gaps nodes edges layers e q := by
  obtain ⟨ps, hps, hq⟩ := List.mem_flatten.mp hq
  obtain ⟨key, hget⟩ := KeyedList.mem_values_iff.mp hps
  obtain ⟨routes, hroutes, hall⟩ := hp.routes
  rw [hroutes] at hget
  obtain ⟨e, he, -, hroute⟩ := forall₂_exists_left hall (KeyedList.mem_of_get?_ofList hget)
  exact ⟨e, he, stop_of_placedRoute h hjoins he hroute hq⟩

omit h hjoins in
/-- A placement ends where the hull of its boxes and lines ends, on both axes; it begins at zero
whether they do or not. -/
theorem Outcome.far_size (axis : Direction) {hull : Rect Rat}
    (hunion : Rect.union (drawn p.rects p.routes) = some hull) :
    Rect.far axis ⟨0, 0, p.width, p.height⟩ = hull.far axis := by
  have hsize := hp.size
  rw [hunion] at hsize
  obtain ⟨hwidth, hheight⟩ := Prod.mk.inj hsize
  cases axis
  · rw [Rect.far, Rect.bottom, zero_add]
    exact hheight
  · rw [Rect.far, Rect.right, zero_add]
    exact hwidth

/-- The boxes of a placement reach as far along the ranks as the placement itself, because no route
goes further than some box. -/
theorem Outcome.exists_far (hne : nodes ≠ []) :
    ∃ v r, p.rects.get? v = some r ∧
      r.far direction = Rect.far direction ⟨0, 0, p.width, p.height⟩ := by
  obtain ⟨k, hk⟩ := List.exists_mem_of_ne_nil nodes hne
  have hmem : boxFor direction gaps nodes edges layers k ∈ drawn p.rects p.routes :=
    List.mem_append_left _ (KeyedList.mem_values_of_get? (hp.get?_eq_boxFor h hk))
  obtain ⟨hull, hunion⟩ := Rect.exists_union hmem
  obtain ⟨r, hr, hrfar⟩ := Rect.exists_far_of_union direction hunion
  rw [hp.far_size direction hunion]
  rcases List.mem_append.mp hr with hr | hr
  · obtain ⟨v, hget⟩ := KeyedList.mem_values_iff.mp hr
    exact ⟨v, r, hget, hrfar⟩
  -- if it is a point of a route that is furthest, then a box that goes as far is too
  · obtain ⟨q, hq, rfl⟩ := List.mem_map.mp hr
    obtain ⟨e, he, hstop⟩ := hp.exists_stop h hjoins hq
    obtain ⟨n, hn, hle⟩ := hstop.exists_along_le_far h hjoins hp.isLayering
    have hbox := hp.get?_eq_boxFor h hn
    refine ⟨n.id, _, hbox, le_antisymm ?_ ?_⟩
    · exact Rect.far_le_of_contains direction (Rect.contains_of_union hunion
        (List.mem_append_left _ (KeyedList.mem_values_of_get? hbox)))
    · rw [← hrfar, Rect.far_ofPoint]
      exact hle

theorem Outcome.exists_near (hne : nodes ≠ []) :
    ∃ v r, p.rects.get? v = some r ∧ r.near direction = 0 := by
  obtain ⟨n, hn, hnear⟩ := exists_near_eq_zero h hjoins hp.isLayering direction hne
  exact ⟨n.id, _, hp.get?_eq_boxFor h hn, hnear⟩

end Outcome

end Ranked

end Schematic
