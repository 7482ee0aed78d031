import Schematic.Proofs.Ranking.Placement
import Schematic.Proofs.Ranking.Spacing

/-!
# Placed boxes are apart

In exact numbers no two boxes of a placement come nearer than the gaps allow: boxes of one layer are
apart across it (`Assignable.across_le_or_le`), boxes of different layers are apart along the ranks
(`Assignable.along_le`). All of them lie in the corner that the placement says it fills. The ends of
an edge between two layers are apart by the gap between ranks, so its route does not shrink to a
point.

The ids of the boxes must be distinct and must not be called like a waypoint: a box with the name of
a waypoint would be held for a line, which gets less room.
-/

namespace Schematic

namespace Ranked

variable {direction : Direction} {gaps : Gaps Rat} {nodes : List (RankNode Rat)}
  {edges : List RankEdge} {layers : KeyedList String Nat} {p : Ranked Rat}

/-- No length is negative, no two boxes have one id, and none is called like a waypoint. The last
makes a layer keep the full gap around a box. -/
structure Sized (gaps : Gaps Rat) (nodes : List (RankNode Rat)) : Prop where
  node : 0 ≤ gaps.node
  rank : 0 ≤ gaps.rank
  edge : 0 ≤ gaps.edge
  width : ∀ n ∈ nodes, 0 ≤ n.width
  height : ∀ n ∈ nodes, 0 ≤ n.height
  nodup : (nodes.map RankNode.id).Nodup
  plain : ∀ n ∈ nodes, Waypoint.isId n.id = false

/-! ## Extents -/

theorem extent_extents (h : (nodes.map RankNode.id).Nodup) {n : RankNode Rat} (hn : n ∈ nodes) :
    Coordinates.extent (extents direction nodes) n.id = extentOf direction n := by
  have hget : (extents direction nodes).get? n.id = some (extentOf direction n) :=
    KeyedList.get?_ofList_map h hn
  rw [Coordinates.extent, hget, Option.getD_some]

/-- What is not the extent of a box is nothing. So waypoints take no room of their own, only gaps.
-/
theorem extent_of_not_mem {v : String} (hv : v ∉ nodes.map RankNode.id) :
    Coordinates.extent (extents direction nodes) v = ⟨0, 0⟩ := by
  have hkey : v ∉ (extents direction nodes).keys := by
    rw [extents, KeyedList.mem_keys_ofList, List.map_map]
    exact hv
  rw [Coordinates.extent, KeyedList.get?_eq_none_iff.mpr hkey]
  rfl

theorem extent_nonneg (h : Sized gaps nodes) (v : String) :
    0 ≤ (Coordinates.extent (extents direction nodes) v).breadth ∧
      0 ≤ (Coordinates.extent (extents direction nodes) v).depth := by
  by_cases hv : v ∈ nodes.map RankNode.id
  · obtain ⟨n, hn, rfl⟩ := List.mem_map.mp hv
    rw [extent_extents h.nodup hn]
    cases direction
    · exact ⟨h.width n hn, h.height n hn⟩
    · exact ⟨h.height n hn, h.width n hn⟩
  · rw [extent_of_not_mem hv]
    exact ⟨le_refl _, le_refl _⟩

theorem assignable (direction : Direction) (h : Sized gaps nodes)
    (hlayers : IsLayering nodes edges layers) :
    Coordinates.Assignable gaps (extents direction nodes) (layered nodes edges layers)
      (layered nodes edges layers).ordering where
  isOrdering := Layered.isOrdering_ordering _
  placed := hlayers.divided.placed
  node := h.node
  edge := h.edge
  rank := h.rank
  breadth := fun v => (extent_nonneg h v).1
  depth := fun v => (extent_nonneg h v).2

/-! ## Places -/

/-- The place of a node across its layer, for a box that of its middle. -/
def acrossOf (direction : Direction) (gaps : Gaps Rat) (nodes : List (RankNode Rat))
    (edges : List RankEdge) (layers : KeyedList String Nat) (v : String) : Rat :=
  Coordinates.place (coordinates direction gaps nodes edges layers).across v

/-- The place of a node along the ranks, for a box that of its middle: it is the centre of the
node's layer. -/
def alongOf (direction : Direction) (gaps : Gaps Rat) (nodes : List (RankNode Rat))
    (edges : List RankEdge) (layers : KeyedList String Nat) (v : String) : Rat :=
  Coordinates.along (layered nodes edges layers) (coordinates direction gaps nodes edges layers) v

section Places

variable (direction) (h : Sized gaps nodes) (hjoins : Joins nodes edges)
  (hlayers : IsLayering nodes edges layers) {n m : RankNode Rat}

include h hjoins hlayers

theorem half_le_acrossOf (hn : n ∈ nodes) :
    (extentOf direction n).breadth / 2 ≤ acrossOf direction gaps nodes edges layers n.id := by
  have hmem := hlayers.mem_nodes hjoins (List.mem_map_of_mem hn)
  have hleft := (assignable direction h hlayers).left_nonneg hmem
  rw [Coordinates.halfBreadth, extent_extents h.nodup hn] at hleft
  push_cast at hleft
  rw [acrossOf, coordinates_eq]
  linarith

theorem half_le_alongOf (hn : n ∈ nodes) :
    (extentOf direction n).depth / 2 ≤ alongOf direction gaps nodes edges layers n.id := by
  have hmem := hlayers.mem_nodes hjoins (List.mem_map_of_mem hn)
  have htop := (assignable direction h hlayers).top_nonneg hmem
  rw [extent_extents h.nodup hn] at htop
  rw [alongOf, coordinates_eq]
  linarith

theorem acrossOf_le_or_le (hn : n ∈ nodes) (hm : m ∈ nodes) (hne : n.id ≠ m.id)
    (hlayer : (layered nodes edges layers).layer n.id = (layered nodes edges layers).layer m.id) :
    let x := acrossOf direction gaps nodes edges layers
    x n.id + (extentOf direction n).breadth / 2 + gaps.node ≤
        x m.id - (extentOf direction m).breadth / 2 ∨
      x m.id + (extentOf direction m).breadth / 2 + gaps.node ≤
        x n.id - (extentOf direction n).breadth / 2 := by
  have hor := (assignable direction h hlayers).across_le_or_le
    (hlayers.mem_nodes hjoins (List.mem_map_of_mem hn))
    (hlayers.mem_nodes hjoins (List.mem_map_of_mem hm)) hlayer hne (h.plain n hn) (h.plain m hm)
  simp only [Coordinates.halfBreadth, extent_extents h.nodup hn, extent_extents h.nodup hm] at hor
  push_cast at hor
  simp only [acrossOf, coordinates_eq]
  rcases hor with hle | hle
  · exact Or.inl (by linarith)
  · exact Or.inr (by linarith)

theorem alongOf_le (hn : n ∈ nodes) (hm : m ∈ nodes)
    (hlt : (layered nodes edges layers).layer n.id < (layered nodes edges layers).layer m.id) :
    let y := alongOf direction gaps nodes edges layers
    y n.id + (extentOf direction n).depth / 2 + gaps.rank ≤
      y m.id - (extentOf direction m).depth / 2 := by
  have hle := (assignable direction h hlayers).along_le
    (hlayers.mem_nodes hjoins (List.mem_map_of_mem hn))
    (hlayers.mem_nodes hjoins (List.mem_map_of_mem hm)) hlt
  simp only [extent_extents h.nodup hn, extent_extents h.nodup hm] at hle
  exact hle

end Places

/-! ## Boxes -/

/-- The box that is placed for a node, around the point that the coordinates give. It is what is
found under the id of the node if ids are distinct (`Outcome.get?_eq_boxFor`). -/
def boxFor (direction : Direction) (gaps : Gaps Rat) (nodes : List (RankNode Rat))
    (edges : List RankEdge) (layers : KeyedList String Nat) (n : RankNode Rat) : Rect Rat :=
  let q := pointOf direction (layered nodes edges layers)
    (coordinates direction gaps nodes edges layers) n.id
  Rect.around q.x q.y n.width n.height

theorem boxFor_down (n : RankNode Rat) : boxFor .down gaps nodes edges layers n =
    ⟨acrossOf .down gaps nodes edges layers n.id - n.width / 2,
      alongOf .down gaps nodes edges layers n.id - n.height / 2, n.width, n.height⟩ := by
  simp only [boxFor, pointOf, pointAt, Rect.around, acrossOf, alongOf, Coordinates.along]
  push_cast
  rfl

theorem boxFor_right (n : RankNode Rat) : boxFor .right gaps nodes edges layers n =
    ⟨alongOf .right gaps nodes edges layers n.id - n.width / 2,
      acrossOf .right gaps nodes edges layers n.id - n.height / 2, n.width, n.height⟩ := by
  simp only [boxFor, pointOf, pointAt, Rect.around, acrossOf, alongOf, Coordinates.along]
  push_cast
  rfl

section Boxes

variable (direction) (h : Sized gaps nodes) (hjoins : Joins nodes edges)
  (hlayers : IsLayering nodes edges layers) {n m : RankNode Rat}

include h hjoins hlayers

/-- No box reaches over the left or the upper border. Across the ranks the leftmost edge of all is
moved to zero, along them the first layer begins there. -/
theorem boxFor_nonneg (hn : n ∈ nodes) :
    0 ≤ (boxFor direction gaps nodes edges layers n).x ∧
      0 ≤ (boxFor direction gaps nodes edges layers n).y := by
  have hacross := half_le_acrossOf direction h hjoins hlayers hn
  have halong := half_le_alongOf direction h hjoins hlayers hn
  cases direction
  · rw [boxFor_down]
    simp only [extentOf] at hacross halong
    constructor <;> linarith
  · rw [boxFor_right]
    simp only [extentOf] at hacross halong
    constructor <;> linarith

/-- A box in an earlier layer ends before a box in a later layer begins, with the gap between ranks
between them. A layer is as deep as its deepest node, so all of its boxes are within it. -/
theorem boxFor_along (hn : n ∈ nodes) (hm : m ∈ nodes)
    (hlt : (layered nodes edges layers).layer n.id < (layered nodes edges layers).layer m.id) :
    match direction with
    | .down => (boxFor direction gaps nodes edges layers n).bottom + gaps.rank ≤
        (boxFor direction gaps nodes edges layers m).y
    | .right => (boxFor direction gaps nodes edges layers n).right + gaps.rank ≤
        (boxFor direction gaps nodes edges layers m).x := by
  have hle := alongOf_le direction h hjoins hlayers hn hm hlt
  cases direction
  · simp only [extentOf] at hle
    simp only [boxFor_down, Rect.bottom]
    linarith
  · simp only [extentOf] at hle
    simp only [boxFor_right, Rect.right]
    linarith

theorem apart_boxFor_of_lt (hn : n ∈ nodes) (hm : m ∈ nodes)
    (hlt : (layered nodes edges layers).layer n.id < (layered nodes edges layers).layer m.id) :
    Rect.Apart (min gaps.node gaps.rank) (boxFor direction gaps nodes edges layers n)
      (boxFor direction gaps nodes edges layers m) := by
  have hle := boxFor_along direction h hjoins hlayers hn hm hlt
  have hmin := min_le_right gaps.node gaps.rank
  cases direction
  · exact Or.inr (Or.inl (by simp only at hle; linarith))
  · exact Or.inl (Or.inl (by simp only at hle; linarith))

/-- The boxes of two nodes are apart, along the ranks or across them as their layers differ or not.
Which gap is between them depends on that, so the smaller one is promised. -/
theorem apart_boxFor (hn : n ∈ nodes) (hm : m ∈ nodes) (hne : n.id ≠ m.id) :
    Rect.Apart (min gaps.node gaps.rank) (boxFor direction gaps nodes edges layers n)
      (boxFor direction gaps nodes edges layers m) := by
  rcases Nat.lt_trichotomy ((layered nodes edges layers).layer n.id)
    ((layered nodes edges layers).layer m.id) with hlt | heq | hlt
  · exact apart_boxFor_of_lt direction h hjoins hlayers hn hm hlt
  · have hor := acrossOf_le_or_le direction h hjoins hlayers hn hm hne heq
    have hmin := min_le_left gaps.node gaps.rank
    cases direction
    · simp only [extentOf] at hor
      refine Or.inl (hor.imp (fun hle => ?_) fun hle => ?_) <;>
        simp only [boxFor_down, Rect.right] <;> linarith
    · simp only [extentOf] at hor
      refine Or.inr (hor.imp (fun hle => ?_) fun hle => ?_) <;>
        simp only [boxFor_right, Rect.bottom] <;> linarith
  · exact (apart_boxFor_of_lt direction h hjoins hlayers hm hn hlt).symm

end Boxes

/-! ## Routes -/

theorem length_loop (direction : Direction) (r : Rect Rat) : (loop direction r).length = 4 := by
  cases direction <;> rfl

theorem rectOf_placedBoxes (h : (nodes.map RankNode.id).Nodup) {n : RankNode Rat} (hn : n ∈ nodes) :
    rectOf (placedBoxes direction gaps nodes edges layers) n.id =
      .ok (boxFor direction gaps nodes edges layers n) := by
  have hget : (placedBoxes direction gaps nodes edges layers).get? n.id =
      some (boxFor direction gaps nodes edges layers n) := KeyedList.get?_ofList_map h hn
  rw [rectOf, hget]

/-- The route along an edge of the graph without cycles has two points. Its ends are apart by the
gap between ranks, and a line that simplifying leaves with one point has ends within the tolerance.
-/
theorem two_le_length_chainRoute (h : Sized gaps nodes) (hjoins : Joins nodes edges)
    (hlayers : IsLayering nodes edges layers) (hrank : Scalar.tolerance < gaps.rank) {u v : String}
    (he : (u, v) ∈ (graph nodes edges).acyclic.edges) {ps : List (Point Rat)}
    (hps : chainRoute direction (layered nodes edges layers)
      (coordinates direction gaps nodes edges layers)
      (placedBoxes direction gaps nodes edges layers) u v = .ok ps) : 2 ≤ ps.length := by
  obtain ⟨hu, hv⟩ := (graph nodes edges).acyclic.ends_mem _ he
  rw [Digraph.nodes_acyclic, mem_nodes_graph hjoins] at hu hv
  obtain ⟨n, hn, rfl⟩ := List.mem_map.mp hu
  obtain ⟨m, hm, rfl⟩ := List.mem_map.mp hv
  have hlt : (layered nodes edges layers).layer n.id < (layered nodes edges layers).layer m.id := by
    rw [hlayers.layer_eq (h.plain n hn), hlayers.layer_eq (h.plain m hm)]
    exact hlayers.lt _ _ he
  have hle := boxFor_along direction h hjoins hlayers hn hm hlt
  rw [chainRoute, rectOf_placedBoxes h.nodup hn, rectOf_placedBoxes h.nodup hm] at hps
  cases hps
  refine Polyline.two_le_length_simplify (Polyline.coincide_eq_false ?_) _
  cases direction
  · simp only at hle
    exact Or.inr (by simp only; linarith)
  · simp only at hle
    exact Or.inl (by simp only; linarith)

theorem two_le_length_placedRoute (h : Sized gaps nodes) (hjoins : Joins nodes edges)
    (hlayers : IsLayering nodes edges layers) (hrank : Scalar.tolerance < gaps.rank)
    {e : RankEdge} (he : e ∈ edges) {ps : List (Point Rat)}
    (hps : placedRoute direction gaps nodes edges layers e = .ok ps) : 2 ≤ ps.length := by
  rw [placedRoute_eq] at hps
  unfold route at hps
  split at hps
  · obtain ⟨r, -, rfl⟩ := map_eq_ok hps
    rw [length_loop]
    decide
  · next hne =>
    have hturned := turned_mem nodes he hne
    unfold turned at hturned
    split at hps
    · next hback =>
      rw [if_pos hback] at hturned
      obtain ⟨qs, hchain, rfl⟩ := map_eq_ok hps
      rw [List.length_reverse]
      exact two_le_length_chainRoute h hjoins hlayers hrank hturned hchain
    · next hback =>
      rw [if_neg hback] at hturned
      exact two_le_length_chainRoute h hjoins hlayers hrank hturned hps

/-! ## The outcome in exact numbers -/

section Outcome

variable (h : Sized gaps nodes) (hjoins : Joins nodes edges)
  (hp : Outcome direction gaps nodes edges layers p)

include hp

theorem Outcome.get?_eq_boxFor (h : Sized gaps nodes) {n : RankNode Rat} (hn : n ∈ nodes) :
    p.rects.get? n.id = some (boxFor direction gaps nodes edges layers n) :=
  hp.get?_rects h.nodup hn

/-- What is drawn lies inside the size of the placement, which is that of the hull of all boxes and
routes. -/
theorem Outcome.le_size {r : Rect Rat} {v : String} (hr : p.rects.get? v = some r) :
    r.right ≤ p.width ∧ r.bottom ≤ p.height := by
  have hmem : r ∈ drawn p.rects p.routes :=
    List.mem_append_left _ (KeyedList.mem_values_of_get? hr)
  obtain ⟨q, hunion⟩ := Rect.exists_union hmem
  have hsize := hp.size
  rw [hunion] at hsize
  obtain ⟨hwidth, hheight⟩ := Prod.mk.inj hsize
  obtain ⟨-, -, hright, hbottom⟩ := Rect.contains_iff.mp (Rect.contains_of_union hunion hmem)
  rw [hwidth, hheight]
  exact ⟨hright, hbottom⟩

include h hjoins

/-- Every box lies in the corner that the placement fills. It begins at zero or later on both axes,
and the hull ends no earlier than it. -/
theorem Outcome.inside {r : Rect Rat} {v : String} (hr : p.rects.get? v = some r) :
    Rect.contains ⟨0, 0, p.width, p.height⟩ r = true := by
  obtain ⟨hright, hbottom⟩ := hp.le_size hr
  obtain ⟨n, hn, rfl⟩ := List.mem_map.mp (hp.mem_keys_rects.mp (KeyedList.mem_keys_of_get? hr))
  have hbox := (hp.get?_eq_boxFor h hn).symm.trans hr
  obtain ⟨hx, hy⟩ := boxFor_nonneg direction h hjoins hp.isLayering hn
  rw [Option.some.inj hbox] at hx hy
  rw [Rect.contains_iff]
  refine ⟨hx, hy, ?_, ?_⟩
  · rw [Rect.right, Rect.right, zero_add]
    exact hright
  · rw [Rect.bottom, Rect.bottom, zero_add]
    exact hbottom

theorem Outcome.size_nonneg : 0 ≤ p.width ∧ 0 ≤ p.height := by
  cases hnodes : nodes with
  | nil =>
      subst hnodes
      obtain rfl := hjoins.edges_eq_nil
      obtain ⟨routes, hroutes, hall⟩ := hp.routes
      cases hall
      have hsize := hp.size
      rw [hp.rects, hroutes] at hsize
      obtain ⟨hwidth, hheight⟩ := Prod.mk.inj hsize
      rw [hwidth, hheight]
      exact ⟨le_refl _, le_refl _⟩
  | cons n ns =>
      have hn : n ∈ nodes := by simp [hnodes]
      obtain ⟨hright, hbottom⟩ := hp.le_size (hp.get?_eq_boxFor h hn)
      obtain ⟨hx, hy⟩ := boxFor_nonneg direction h hjoins hp.isLayering hn
      have hwidth : (boxFor direction gaps nodes edges layers n).width = n.width := rfl
      have hheight : (boxFor direction gaps nodes edges layers n).height = n.height := rfl
      have := h.width n hn
      have := h.height n hn
      rw [Rect.right, hwidth] at hright
      rw [Rect.bottom, hheight] at hbottom
      constructor <;> linarith

/-- Two boxes are apart by the smaller one of the gaps between nodes and between ranks. Boxes are
named by their ids here, as they are found. -/
theorem Outcome.apart {r s : Rect Rat} {u v : String} (hr : p.rects.get? u = some r)
    (hs : p.rects.get? v = some s) (hne : u ≠ v) :
    Rect.Apart (min gaps.node gaps.rank) r s := by
  obtain ⟨n, hn, rfl⟩ := List.mem_map.mp (hp.mem_keys_rects.mp (KeyedList.mem_keys_of_get? hr))
  obtain ⟨m, hm, rfl⟩ := List.mem_map.mp (hp.mem_keys_rects.mp (KeyedList.mem_keys_of_get? hs))
  have hboxn := (hp.get?_eq_boxFor h hn).symm.trans hr
  have hboxm := (hp.get?_eq_boxFor h hm).symm.trans hs
  rw [← Option.some.inj hboxn, ← Option.some.inj hboxm]
  exact apart_boxFor direction h hjoins hp.isLayering hn hm hne

/-- The route of every edge has two points, that of a loop by its shape and every other one because
its ends are apart. -/
theorem Outcome.two_le_length (hrank : Scalar.tolerance < gaps.rank) {e : RankEdge} (he : e ∈ edges)
    {ps : List (Point Rat)} (hps : p.routes.get? e.key = some ps) : 2 ≤ ps.length := by
  obtain ⟨qs, hqs, f, hf, -, hroute⟩ := hp.exists_route he
  rw [hqs] at hps
  cases hps
  exact two_le_length_placedRoute h hjoins hp.isLayering hrank hf hroute

end Outcome

end Ranked

end Schematic
