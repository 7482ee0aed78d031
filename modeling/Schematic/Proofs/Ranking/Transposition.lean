import Schematic.Proofs.Geometry.Exact
import Schematic.Proofs.Ranking.Placement
import Schematic.Proofs.Renaming.Keys

/-!
# The two directions are mirror images

Cycles, layers, crossings and coordinates know breadths and depths, but not which of them is a
width. So a placement with ranks going right is that of the turned boxes with ranks going down,
turned back: every rectangle, every point and the whole are reflected in the diagonal. The direction
shows in three places only, where a box is drawn around its point, where a line leaves and reaches
its boxes, and where a loop hangs (`boxes_transpose`, `exits_transpose`, `loop_transpose`), and what
comes after them, the simplified lines and the hull, commutes with the reflection. `place_transpose`
says so of failures as well; `place_right_eq_transpose` adds that there is none.
-/

namespace Schematic

/-! ## Reflections -/

section Reflections

variable {α : Type}

/-- The point reflected in the diagonal, which exchanges its distances from the left and from the
top. -/
def Point.transpose (p : Point α) : Point α := ⟨p.y, p.x⟩

def Rect.transpose (r : Rect α) : Rect α := ⟨r.y, r.x, r.height, r.width⟩

/-- A box of the same name with width and height exchanged. Its breadth and depth in one direction
are those of the box in the other. -/
def RankNode.transpose (n : RankNode α) : RankNode α := ⟨n.id, n.height, n.width⟩

/-- A placement with all boxes and routes reflected. Keys and their order stay as they are. -/
def Ranked.transpose (p : Ranked α) : Ranked α where
  rects := p.rects.mapValues fun _ => Rect.transpose
  routes := p.routes.mapValues fun _ => List.map Point.transpose
  width := p.height
  height := p.width

end Reflections

/-! ## Hulls and lines -/

namespace Rect

variable {α : Type} [Scalar α]

theorem union_transpose (rs : List (Rect α)) :
    union (rs.map transpose) = (union rs).map transpose := by
  cases rs with
  | nil => rfl
  | cons r rs =>
      simp only [List.map_cons, union, hull, Option.map_some, List.map_map]
      rfl

end Rect

namespace Polyline

variable {p q r : Point Rat}

theorem coincide_transpose (p q : Point Rat) :
    coincide p.transpose q.transpose = coincide p q := by
  simp only [coincide, Point.transpose]
  exact Bool.and_comm _ _

/-- A reflection changes the side to which a line turns, but not whether it does. So the same points
of a line are dropped on both sides of the diagonal. -/
theorem turns_transpose (p q r : Point Rat) :
    turns p.transpose q.transpose r.transpose = turns p q r := by
  have habs (x : Rat) : Scalar.abs (-x) = Scalar.abs x := by
    rw [Scalar.abs, Scalar.abs, neg_neg, max_comm]
  have hcross : Scalar.abs ((q.y - p.y) * (r.x - q.x) - (q.x - p.x) * (r.y - q.y)) =
      Scalar.abs ((q.x - p.x) * (r.y - q.y) - (q.y - p.y) * (r.x - q.x)) := by
    rw [← habs]
    exact congrArg Scalar.abs (by ring)
  have hdot : (q.y - p.y) * (r.y - q.y) + (q.x - p.x) * (r.x - q.x) =
      (q.x - p.x) * (r.x - q.x) + (q.y - p.y) * (r.y - q.y) := by ring
  exact congrArg₂ (fun a b : Rat => decide (Scalar.tolerance < a) || decide (b < ((0 : Nat) : Rat)))
    hcross hdot

theorem dedupFrom_transpose (p : Point Rat) (ps : List (Point Rat)) :
    dedupFrom p.transpose (ps.map Point.transpose) = (dedupFrom p ps).map Point.transpose := by
  induction ps generalizing p with
  | nil => rfl
  | cons q qs ih =>
      rw [List.map_cons, dedupFrom, dedupFrom, coincide_transpose, ih, ih]
      split <;> rfl

theorem bends_transpose (p : Point Rat) (ps : List (Point Rat)) :
    bends p.transpose (ps.map Point.transpose) = (bends p ps).map Point.transpose := by
  fun_induction bends p ps with
  | case1 => rfl
  | case2 => rfl
  | case3 p q r ps hturns ih =>
      rw [List.map_cons] at ih
      rw [List.map_cons, List.map_cons, bends, turns_transpose, if_pos hturns, ih, List.map_cons]
  | case4 p q r ps hturns ih =>
      rw [List.map_cons] at ih
      rw [List.map_cons, List.map_cons, bends, turns_transpose, if_neg hturns, ih]

theorem simplify_transpose (ps : List (Point Rat)) :
    simplify (ps.map Point.transpose) = (simplify ps).map Point.transpose := by
  cases ps with
  | nil => rfl
  | cons p ps =>
      simp only [List.map_cons, simplify, dedup]
      rw [dedupFrom_transpose, bends_transpose]

end Polyline

namespace Ranked

/-! ## What does not depend on the direction -/

section Sizes

variable {α : Type} (nodes : List (RankNode α)) (edges : List RankEdge)

theorem graph_transpose : graph (nodes.map RankNode.transpose) edges = graph nodes edges := by
  rw [graph, List.map_map]
  rfl

theorem layered_transpose (layers : KeyedList String Nat) :
    layered (nodes.map RankNode.transpose) edges layers = layered nodes edges layers := by
  rw [layered, graph_transpose, layered]

/-- The breadths and depths of the turned boxes with ranks going down are those of the boxes with
ranks going right. -/
theorem extents_transpose :
    extents .down (nodes.map RankNode.transpose) = extents .right nodes := by
  rw [extents, List.map_map]
  rfl

theorem coordinates_transpose [Scalar α] (gaps : Gaps α) (layers : KeyedList String Nat) :
    coordinates .down gaps (nodes.map RankNode.transpose) edges layers =
      coordinates .right gaps nodes edges layers := by
  rw [coordinates_eq, layered_transpose, extents_transpose, coordinates_eq]

end Sizes

/-! ## What depends on it -/

section Drawing

variable {α : Type} [Scalar α] (l : Layered) (c : Coordinates α)

theorem pointOf_transpose : pointOf .right l c = Point.transpose ∘ pointOf .down l c := rfl

theorem boxes_transpose (nodes : List (RankNode α)) :
    boxes .right l c nodes =
      (boxes .down l c (nodes.map RankNode.transpose)).mapValues fun _ => Rect.transpose := by
  rw [boxes, boxes, ← KeyedList.ofList_mapValues, List.map_map, List.map_map]
  rfl

theorem exits_transpose (r s : Rect α) :
    exits .right r.transpose s.transpose =
      ((exits .down r s).1.transpose, (exits .down r s).2.transpose) := rfl

theorem loop_transpose (r : Rect α) :
    loop .right r.transpose = (loop .down r).map Point.transpose := rfl

omit [Scalar α] in
theorem rectOf_transpose (rects : KeyedList String (Rect α)) (v : String) :
    rectOf (rects.mapValues fun _ => Rect.transpose) v = (rectOf rects v).map Rect.transpose := by
  rw [rectOf, KeyedList.get?_mapValues, rectOf]
  cases rects.get? v <;> rfl

end Drawing

section Routes

variable (l : Layered) (c : Coordinates Rat) (rects : KeyedList String (Rect Rat))

theorem chainRoute_transpose (u v : String) :
    chainRoute .right l c (rects.mapValues fun _ => Rect.transpose) u v =
      (chainRoute .down l c rects u v).map (List.map Point.transpose) := by
  rw [chainRoute, chainRoute, rectOf_transpose, rectOf_transpose]
  cases hu : rectOf rects u with
  | error => rfl
  | ok upper =>
      cases hv : rectOf rects v with
      | error => rfl
      | ok lower =>
          show Except.ok (Polyline.simplify ((exits .right upper.transpose lower.transpose).1 ::
              ((l.chains.get? (u, v)).getD []).map (pointOf .right l c) ++
                [(exits .right upper.transpose lower.transpose).2])) =
            Except.ok ((Polyline.simplify _).map Point.transpose)
          rw [exits_transpose, pointOf_transpose, ← Polyline.simplify_transpose, List.map_append,
            List.map_cons, List.map_map]
          rfl

theorem route_transpose (back : List (String × String)) (e : RankEdge) :
    route .right l c (rects.mapValues fun _ => Rect.transpose) back e =
      (route .down l c rects back e).map (List.map Point.transpose) := by
  unfold route
  rw [rectOf_transpose, chainRoute_transpose, chainRoute_transpose]
  split
  · cases rectOf rects e.source with
    | error => rfl
    | ok r => exact congrArg Except.ok (loop_transpose r)
  · split
    · cases chainRoute .down l c rects e.target e.source with
      | error => rfl
      | ok ps => exact congrArg Except.ok List.map_reverse.symm
    · rfl

end Routes

/-! ## Placements -/

section Placements

variable (gaps : Gaps Rat) (nodes : List (RankNode Rat)) (edges : List RankEdge)
  (layers : KeyedList String Nat)

theorem placedBoxes_transpose :
    placedBoxes .right gaps nodes edges layers =
      (placedBoxes .down gaps (nodes.map RankNode.transpose) edges layers).mapValues
        fun _ => Rect.transpose := by
  rw [placedBoxes_eq, placedBoxes_eq, layered_transpose, coordinates_transpose, boxes_transpose]

theorem placedRoute_transpose (e : RankEdge) :
    placedRoute .right gaps nodes edges layers e =
      (placedRoute .down gaps (nodes.map RankNode.transpose) edges layers e).map
        (List.map Point.transpose) := by
  rw [placedRoute_eq, placedRoute_eq, placedBoxes_transpose, route_transpose, layered_transpose,
    coordinates_transpose, graph_transpose]

variable {nodes edges layers} in
theorem isLayering_transpose (h : IsLayering nodes edges layers) :
    IsLayering (nodes.map RankNode.transpose) edges layers := by
  obtain ⟨hfound, hkeys, hlt⟩ := h
  rw [← graph_transpose] at hfound hkeys hlt
  exact ⟨hfound, hkeys, hlt⟩

theorem drawn_transpose (rects : KeyedList String (Rect Rat))
    (routes : KeyedList Nat (List (Point Rat))) :
    drawn (rects.mapValues fun _ => Rect.transpose)
        (routes.mapValues fun _ => List.map Point.transpose) =
      (drawn rects routes).map Rect.transpose := by
  rw [drawn, drawn, KeyedList.values_mapValues, KeyedList.values_mapValues, List.map_append,
    ← List.map_flatten, List.map_map, List.map_map]
  rfl

/-- Placing with ranks going right is placing the turned boxes with ranks going down, and failing
where that fails. -/
theorem place_transpose :
    place .right gaps nodes edges =
      (place .down gaps (nodes.map RankNode.transpose) edges).map transpose := by
  by_cases hne : nodes = []
  · subst hne
    rfl
  obtain ⟨layers, hlayers⟩ := exists_isLayering nodes edges
  have hroutes : (edges.mapM fun e => do
      return (e.key, ← placedRoute .right gaps nodes edges layers e)) =
        (edges.mapM fun e => do
          return (e.key, ← placedRoute .down gaps (nodes.map RankNode.transpose) edges layers
            e)).map
              (List.map fun r : Nat × List (Point Rat) => (r.1, r.2.map Point.transpose)) := by
    rw [← mapM_map]
    refine congrArg (fun f => edges.mapM f) (funext fun e => ?_)
    rw [placedRoute_transpose]
    cases placedRoute .down gaps (nodes.map RankNode.transpose) edges layers e <;> rfl
  rw [place_eq hne hlayers, place_eq (by simpa using hne) (isLayering_transpose hlayers), hroutes]
  cases edges.mapM fun e => do
      return (e.key, ← placedRoute .down gaps (nodes.map RankNode.transpose) edges layers e) with
  | error => rfl
  | ok routes =>
      refine (bind_of_eq_ok (a := routes.map fun r => (r.1, r.2.map Point.transpose)) rfl).trans ?_
      refine Eq.trans ?_ (congrArg (Except.map transpose) (bind_of_eq_ok (a := routes) rfl)).symm
      rw [KeyedList.ofList_mapValues fun _ => List.map Point.transpose, placedBoxes_transpose,
        drawn_transpose, Rect.union_transpose]
      cases Rect.union (drawn (placedBoxes .down gaps (nodes.map RankNode.transpose) edges layers)
        (KeyedList.ofList routes)) <;> rfl

/-- **Right is down, reflected.** The placement of boxes with ranks going right exists, and is the
reflection of that of the turned boxes with ranks going down. -/
theorem place_right_eq_transpose (h : Joins nodes edges) :
    ∃ p, place .down gaps (nodes.map RankNode.transpose) edges = .ok p ∧
      place .right gaps nodes edges = .ok p.transpose := by
  have hjoins : Joins (nodes.map RankNode.transpose) edges := by
    rw [Joins, List.map_map]
    exact h
  obtain ⟨-, p, hp, -⟩ := exists_outcome .down gaps hjoins
  refine ⟨p, hp, ?_⟩
  rw [place_transpose, hp]
  rfl

/-- Boxes of several shapes with parallel and opposite edges, a long one and a loop. -/
def knottedNodes : List (RankNode Rat) := [⟨"a", 100, 50⟩, ⟨"b", 60, 90⟩, ⟨"c", 0, 20⟩]

def knottedEdges : List RankEdge :=
  [⟨0, "a", "b"⟩, ⟨1, "b", "a"⟩, ⟨2, "a", "b"⟩, ⟨3, "b", "c"⟩, ⟨4, "a", "c"⟩, ⟨5, "b", "b"⟩]

theorem place_right_eq_transpose_knotted :
    Joins knottedNodes knottedEdges ∧
      ∃ p, place .down ⟨60, 80, 10⟩ (knottedNodes.map RankNode.transpose) knottedEdges = .ok p ∧
        place .right ⟨60, 80, 10⟩ knottedNodes knottedEdges = .ok p.transpose := by
  have h : Joins knottedNodes knottedEdges := by
    unfold Joins
    decide
  exact ⟨h, place_right_eq_transpose ⟨60, 80, 10⟩ knottedNodes knottedEdges h⟩

end Placements

end Ranked

end Schematic
