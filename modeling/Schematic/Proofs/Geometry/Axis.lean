import Mathlib.Data.List.Chain
import Schematic.Layout.Style
import Schematic.Proofs.Geometry.Exact

/-!
# The two axes of a drawing

With ranks going down, a box begins at its upper border and ends at its lower one; with ranks going
right, at its left and its right one. `near` and `far` name these borders for both directions, and
`along` and `across` the coordinates of a point, so that what is said about one axis is said once:
in particular, that a line leads from one box to another (`Polyline.Leads`).
-/

namespace Schematic

/-- The place of a point along the ranks. -/
def Point.along (direction : Direction) (p : Point Rat) : Rat :=
  match direction with
  | .down => p.y
  | .right => p.x

/-- The place of a point across the ranks. -/
def Point.across (direction : Direction) (p : Point Rat) : Rat :=
  match direction with
  | .down => p.x
  | .right => p.y

/-- The axis across the ranks. -/
def Direction.across : Direction → Direction
  | .down => .right
  | .right => .down

namespace Rect

/-- Where the box begins along the ranks. -/
def near (direction : Direction) (r : Rect Rat) : Rat :=
  match direction with
  | .down => r.y
  | .right => r.x

/-- Where the box ends along the ranks. -/
def far (direction : Direction) (r : Rect Rat) : Rat :=
  match direction with
  | .down => r.bottom
  | .right => r.right

/-- The middle of the two borders that lie across the ranks. -/
def middle (direction : Direction) (r : Rect Rat) : Rat := r.center.across direction

end Rect

variable {direction : Direction} {p q : Point Rat} {r s : Rect Rat}

theorem Point.along_translate (direction : Direction) (p q : Point Rat) :
    (p.translate q.x q.y).along direction = p.along direction + q.along direction := by
  cases direction <;> rfl

theorem Point.along_across (direction : Direction) (p : Point Rat) :
    p.along direction.across = p.across direction := by
  cases direction <;> rfl

theorem Direction.eq_or_eq_across (direction axis : Direction) :
    axis = direction ∨ axis = direction.across := by
  cases direction <;> cases axis <;> simp [across]

theorem Point.across_translate (direction : Direction) (p q : Point Rat) :
    (p.translate q.x q.y).across direction = p.across direction + q.across direction := by
  cases direction <;> rfl

namespace Rect

theorem near_translate (direction : Direction) (r : Rect Rat) (q : Point Rat) :
    (r.translate q.x q.y).near direction = r.near direction + q.along direction := by
  cases direction <;> rfl

theorem far_translate (direction : Direction) (r : Rect Rat) (q : Point Rat) :
    (r.translate q.x q.y).far direction = r.far direction + q.along direction := by
  cases direction
  · simp only [far, bottom, translate, Point.along]
    ring
  · simp only [far, right, translate, Point.along]
    ring

theorem middle_translate (direction : Direction) (r : Rect Rat) (q : Point Rat) :
    (r.translate q.x q.y).middle direction = r.middle direction + q.across direction := by
  cases direction <;> simp only [middle, center, translate, Point.across] <;> ring

theorem near_expand (direction : Direction) (r : Rect Rat) (a : Rat) :
    (r.expand a).near direction = r.near direction - a := by
  cases direction <;> rfl

theorem far_expand (direction : Direction) (r : Rect Rat) (a : Rat) :
    (r.expand a).far direction = r.far direction + a := by
  cases direction
  · simp only [far, bottom, expand]
    push_cast
    ring
  · simp only [far, right, expand]
    push_cast
    ring

theorem far_ofPoint (direction : Direction) (p : Point Rat) :
    (ofPoint p).far direction = p.along direction := by
  cases direction <;> simp only [far, bottom, right, ofPoint, Point.along, Nat.cast_zero, add_zero]

/-- A box contains a point that lies between its borders on both axes. -/
theorem contains_ofPoint_iff : r.contains (ofPoint p) = true ↔
    ∀ axis, r.near axis ≤ p.along axis ∧ p.along axis ≤ r.far axis := by
  rw [contains_iff]
  simp only [ofPoint, right, bottom, Nat.cast_zero, add_zero]
  constructor
  · rintro ⟨hx, hy, hright, hbottom⟩ axis
    cases axis
    · exact ⟨hy, hbottom⟩
    · exact ⟨hx, hright⟩
  · intro h
    exact ⟨(h .right).1, (h .down).1, (h .right).2, (h .down).2⟩

theorem near_le_far (direction : Direction) (hwidth : 0 ≤ r.width) (hheight : 0 ≤ r.height) :
    r.near direction ≤ r.far direction := by
  cases direction
  · exact le_add_of_nonneg_right hheight
  · exact le_add_of_nonneg_right hwidth

/-- The middle of the borders across the ranks lies between those along them. -/
theorem middle_within (direction : Direction) (hwidth : 0 ≤ r.width) (hheight : 0 ≤ r.height) :
    r.near direction.across ≤ r.middle direction ∧
      r.middle direction ≤ r.far direction.across := by
  cases direction
  · simp only [Direction.across, near, far, middle, Point.across, center, right]
    push_cast
    constructor <;> linarith
  · simp only [Direction.across, near, far, middle, Point.across, center, bottom]
    push_cast
    constructor <;> linarith

theorem near_le_of_contains (direction : Direction) (h : r.contains s = true) :
    r.near direction ≤ s.near direction := by
  obtain ⟨hx, hy, -, -⟩ := contains_iff.mp h
  cases direction
  · exact hy
  · exact hx

theorem far_le_of_contains (direction : Direction) (h : r.contains s = true) :
    s.far direction ≤ r.far direction := by
  obtain ⟨-, -, hright, hbottom⟩ := contains_iff.mp h
  cases direction
  · exact hbottom
  · exact hright

/-- The hull begins where one of the boxes begins, since it is folded together from the boxes one at
a time. -/
theorem exists_near_of_union (direction : Direction) {rs : List (Rect Rat)}
    (h : union rs = some r) :
    ∃ s ∈ rs, s.near direction = r.near direction := by
  cases rs with
  | nil => cases h
  | cons t ts =>
      cases h
      cases direction
      · exact List.mem_map.mp (Scalar.least_mem t.y (ts.map y))
      · exact List.mem_map.mp (Scalar.least_mem t.x (ts.map x))

/-- The hull ends where one of the boxes ends. -/
theorem exists_far_of_union (direction : Direction) {rs : List (Rect Rat)}
    (h : union rs = some r) :
    ∃ s ∈ rs, s.far direction = r.far direction := by
  cases rs with
  | nil => cases h
  | cons t ts =>
      cases h
      cases direction
      · rw [far, bottom_hull]
        exact List.mem_map.mp (Scalar.greatest_mem t.bottom (ts.map bottom))
      · rw [far, right_hull]
        exact List.mem_map.mp (Scalar.greatest_mem t.right (ts.map right))

end Rect

/-! ## Lines that keep going -/

namespace Polyline

theorem coincide_eq_false_of_along (h : p.along direction + Scalar.tolerance < q.along direction) :
    coincide p q = false := by
  refine coincide_eq_false ?_
  cases direction
  · simp only [Point.along] at h
    exact Or.inr (by linarith)
  · simp only [Point.along] at h
    exact Or.inl (by linarith)

/-- Nothing is dropped where no point repeats the one before it. -/
theorem dedupFrom_eq_self {ps : List (Point Rat)}
    (h : (p :: ps).IsChain fun a b => coincide a b = false) : dedupFrom p ps = ps := by
  induction ps generalizing p with
  | nil => rfl
  | cons q qs ih =>
      rw [List.isChain_cons_cons] at h
      rw [dedupFrom, h.1, ih h.2]
      rfl

theorem bends_sublist (p : Point Rat) (ps : List (Point Rat)) : (bends p ps).Sublist ps := by
  fun_induction bends p ps with
  | case1 => exact .slnil
  | case2 => exact List.Sublist.refl _
  | case3 p q r ps _ ih => exact ih.cons_cons q
  | case4 p q r ps _ ih => exact ih.cons q

theorem dedupFrom_sublist (p : Point Rat) (ps : List (Point Rat)) :
    (dedupFrom p ps).Sublist ps := by
  induction ps generalizing p with
  | nil => exact .slnil
  | cons q qs ih =>
      rw [dedupFrom]
      split
      · exact (ih p).cons q
      · exact (ih q).cons_cons q

/-- Simplifying a line makes up no points. -/
theorem simplify_sublist (ps : List (Point Rat)) : (simplify ps).Sublist ps := by
  cases ps with
  | nil => exact .slnil
  | cons p ps => exact ((bends_sublist p _).trans (dedupFrom_sublist p ps)).cons_cons p

theorem getLast?_bends (p : Point Rat) (ps : List (Point Rat)) :
    (bends p ps).getLast? = ps.getLast? := by
  fun_induction bends p ps with
  | case1 => rfl
  | case2 => rfl
  | case3 p q r ps _ ih =>
      have hne := bends_ne_nil q (List.cons_ne_nil r ps)
      rw [List.getLast?_cons_of_ne_nil hne, ih]
      rfl
  | case4 p q r ps _ ih =>
      rw [ih]
      rfl

/-- A line that keeps going along the ranks by more than the tolerance loses nothing but points on
straight stretches when it is simplified: its ends stay. No two of its points coincide, and neither
the first nor the last point is ever looked at as a bend. -/
theorem simplify_spec (direction : Direction) {ps : List (Point Rat)}
    (h : ps.IsChain fun a b => a.along direction + Scalar.tolerance < b.along direction) :
    (simplify ps).Sublist ps ∧ (simplify ps).head? = ps.head? ∧
      (simplify ps).getLast? = ps.getLast? := by
  cases ps with
  | nil => exact ⟨.slnil, rfl, rfl⟩
  | cons p ps =>
      have hdedup := dedupFrom_eq_self
        (List.IsChain.imp (fun a b hab => coincide_eq_false_of_along hab) h)
      rw [simplify, dedup, hdedup]
      refine ⟨(bends_sublist p ps).cons_cons p, rfl, ?_⟩
      rw [List.getLast?_cons, List.getLast?_cons, getLast?_bends]

/-! ## Lines from one box to another -/

/-- The box `s` begins behind the end of `r` by the gap, and the line leads from the one to the
other along the ranks: from the middle of the far border of `r` to the middle of the near border of
`s`, going on from each point to the next. -/
structure Leads (direction : Direction) (gap : Rat) (r s : Rect Rat) (ps : List (Point Rat)) :
    Prop where
  before : r.far direction + gap ≤ s.near direction
  leaves : ∃ p, ps.head? = some p ∧ p.along direction = r.far direction ∧
    p.across direction = r.middle direction
  reaches : ∃ p, ps.getLast? = some p ∧ p.along direction = s.near direction ∧
    p.across direction = s.middle direction
  onward : ps.Pairwise fun p q => p.along direction < q.along direction

variable {gap : Rat} {ps : List (Point Rat)}

/-- A line does not go beyond the border that it leads to, for it goes on from each point to the
next and its last point is on the border. -/
theorem Leads.along_le (h : Leads direction gap r s ps) (hp : p ∈ ps) :
    p.along direction ≤ s.near direction := by
  obtain ⟨last, hlast, halong, -⟩ := h.reaches
  obtain ⟨init, rfl⟩ := List.getLast?_eq_some_iff.mp hlast
  rw [← halong]
  rcases List.mem_append.mp hp with hp | hp
  · exact le_of_lt ((List.pairwise_append.mp h.onward).2.2 p hp last (List.mem_singleton.mpr rfl))
  · rw [List.mem_singleton.mp hp]

theorem Leads.translate (h : Leads direction gap r s ps) (q : Point Rat) :
    Leads direction gap (r.translate q.x q.y) (s.translate q.x q.y)
      (ps.map fun p => p.translate q.x q.y) where
  before := by
    rw [Rect.far_translate, Rect.near_translate]
    linarith [h.before]
  leaves := by
    obtain ⟨p, hp, halong, hacross⟩ := h.leaves
    refine ⟨p.translate q.x q.y, by rw [List.head?_map, hp, Option.map_some], ?_, ?_⟩
    · rw [Point.along_translate, Rect.far_translate, halong]
    · rw [Point.across_translate, Rect.middle_translate, hacross]
  reaches := by
    obtain ⟨p, hp, halong, hacross⟩ := h.reaches
    refine ⟨p.translate q.x q.y, by rw [List.getLast?_map, hp, Option.map_some], ?_, ?_⟩
    · rw [Point.along_translate, Rect.near_translate, halong]
    · rw [Point.across_translate, Rect.middle_translate, hacross]
  onward := by
    refine List.pairwise_map.mpr (h.onward.imp fun hlt => ?_)
    rw [Point.along_translate, Point.along_translate]
    linarith

end Polyline

end Schematic
