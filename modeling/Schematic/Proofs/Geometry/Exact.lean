import Mathlib.Algebra.Order.Ring.Rat
import Mathlib.Tactic.Linarith
import Mathlib.Tactic.Ring
import Schematic.Geometry.Polyline

/-!
# Boxes and lines in exact numbers

Over the rationals the geometry has the laws one expects: hulls are the least boxes around boxes,
growing and moving boxes keeps containment, and boxes inside boxes that are apart are apart. A line
whose ends do not coincide keeps at least these two points when it is simplified.
-/

namespace Schematic

/-! ## Least and greatest -/

namespace Scalar

theorem least_le (x : Rat) (xs : List Rat) : ∀ y ∈ x :: xs, least x xs ≤ y := by
  unfold least
  induction xs generalizing x with
  | nil =>
      intro y hy
      rw [List.mem_singleton.mp hy]
      exact le_refl x
  | cons z zs ih =>
      intro y hy
      have hmin : (zs.foldl min (min x z) : Rat) ≤ min x z := ih (min x z) _ (List.mem_cons_self ..)
      rw [List.mem_cons, List.mem_cons] at hy
      rcases hy with rfl | rfl | hy
      · exact le_trans hmin (min_le_left y z)
      · exact le_trans hmin (min_le_right x y)
      · exact ih (min x z) y (List.mem_cons_of_mem _ hy)

theorem le_greatest (x : Rat) (xs : List Rat) : ∀ y ∈ x :: xs, y ≤ greatest x xs := by
  unfold greatest
  induction xs generalizing x with
  | nil =>
      intro y hy
      rw [List.mem_singleton.mp hy]
      exact le_refl x
  | cons z zs ih =>
      intro y hy
      have hmax : max x z ≤ (zs.foldl max (max x z) : Rat) := ih (max x z) _ (List.mem_cons_self ..)
      rw [List.mem_cons, List.mem_cons] at hy
      rcases hy with rfl | rfl | hy
      · exact le_trans (le_max_left y z) hmax
      · exact le_trans (le_max_right x y) hmax
      · exact ih (max x z) y (List.mem_cons_of_mem _ hy)

theorem least_mem (x : Rat) (xs : List Rat) : least x xs ∈ x :: xs := by
  unfold least
  induction xs generalizing x with
  | nil => exact List.mem_cons_self ..
  | cons z zs ih =>
      have hmem := ih (min x z)
      rw [List.foldl_cons, List.mem_cons, List.mem_cons]
      rcases List.mem_cons.mp hmem with h | h
      · rw [h]
        rcases min_choice x z with h | h
        · exact Or.inl h
        · exact Or.inr (Or.inl h)
      · exact Or.inr (Or.inr h)

theorem greatest_mem (x : Rat) (xs : List Rat) : greatest x xs ∈ x :: xs := by
  unfold greatest
  induction xs generalizing x with
  | nil => exact List.mem_cons_self ..
  | cons z zs ih =>
      have hmem := ih (max x z)
      rw [List.foldl_cons, List.mem_cons, List.mem_cons]
      rcases List.mem_cons.mp hmem with h | h
      · rw [h]
        rcases max_choice x z with h | h
        · exact Or.inl h
        · exact Or.inr (Or.inl h)
      · exact Or.inr (Or.inr h)

theorem le_least {x y : Rat} {xs : List Rat} (h : ∀ z ∈ x :: xs, y ≤ z) : y ≤ least x xs :=
  h _ (least_mem x xs)

theorem greatest_le {x y : Rat} {xs : List Rat} (h : ∀ z ∈ x :: xs, z ≤ y) : greatest x xs ≤ y :=
  h _ (greatest_mem x xs)

end Scalar

/-! ## Boxes -/

namespace Rect

variable {r s t : Rect Rat}

theorem contains_iff : r.contains s = true ↔
    r.x ≤ s.x ∧ r.y ≤ s.y ∧ s.right ≤ r.right ∧ s.bottom ≤ r.bottom := by
  simp [contains, and_assoc]

theorem contains_refl (r : Rect Rat) : r.contains r = true :=
  contains_iff.mpr ⟨le_refl _, le_refl _, le_refl _, le_refl _⟩

theorem contains_trans (h : r.contains s = true) (h' : s.contains t = true) :
    r.contains t = true := by
  rw [contains_iff] at h h' ⊢
  obtain ⟨hx, hy, hr, hb⟩ := h
  obtain ⟨hx', hy', hr', hb'⟩ := h'
  exact ⟨le_trans hx hx', le_trans hy hy', le_trans hr' hr, le_trans hb' hb⟩

theorem contains_expand (h : r.contains s = true) (a : Rat) :
    (r.expand a).contains (s.expand a) = true := by
  rw [contains_iff] at h ⊢
  obtain ⟨hx, hy, hr, hb⟩ := h
  simp only [expand, right, bottom] at hr hb ⊢
  push_cast
  exact ⟨by linarith, by linarith, by linarith, by linarith⟩

theorem contains_translate (h : r.contains s = true) (dx dy : Rat) :
    (r.translate dx dy).contains (s.translate dx dy) = true := by
  rw [contains_iff] at h ⊢
  obtain ⟨hx, hy, hr, hb⟩ := h
  simp only [translate, right, bottom] at hr hb ⊢
  exact ⟨by linarith, by linarith, by linarith, by linarith⟩

theorem right_hull (r : Rect Rat) (rs : List (Rect Rat)) :
    (hull r rs).right = Scalar.greatest r.right (rs.map right) := by
  simp only [hull, right]
  ring

theorem bottom_hull (r : Rect Rat) (rs : List (Rect Rat)) :
    (hull r rs).bottom = Scalar.greatest r.bottom (rs.map bottom) := by
  simp only [hull, bottom]
  ring

/-- The hull of boxes has each of them inside. -/
theorem contains_of_union {rs : List (Rect Rat)} (h : union rs = some r) (hs : s ∈ rs) :
    r.contains s = true := by
  cases rs with
  | nil => cases hs
  | cons q qs =>
      cases h
      have hx := Scalar.least_le q.x (qs.map x) s.x (List.mem_map_of_mem (f := x) hs)
      have hy := Scalar.least_le q.y (qs.map y) s.y (List.mem_map_of_mem (f := y) hs)
      have hr := Scalar.le_greatest q.right (qs.map right) s.right
        (List.mem_map_of_mem (f := right) hs)
      have hb := Scalar.le_greatest q.bottom (qs.map bottom) s.bottom
        (List.mem_map_of_mem (f := bottom) hs)
      rw [contains_iff, right_hull, bottom_hull]
      exact ⟨hx, hy, hr, hb⟩

/-- What has all boxes inside has their hull inside. -/
theorem contains_union {rs : List (Rect Rat)} (h : union rs = some r)
    (hs : ∀ q ∈ rs, s.contains q = true) : s.contains r = true := by
  cases rs with
  | nil => cases h
  | cons q qs =>
      cases h
      have hall : ∀ p ∈ q :: qs, s.x ≤ p.x ∧ s.y ≤ p.y ∧ p.right ≤ s.right ∧ p.bottom ≤ s.bottom :=
        fun p hp => contains_iff.mp (hs p hp)
      have hmap : ∀ (f : Rect Rat → Rat), f q :: qs.map f = (q :: qs).map f := fun f => rfl
      rw [contains_iff, right_hull, bottom_hull]
      refine ⟨Scalar.le_least fun z hz => ?_, Scalar.le_least fun z hz => ?_,
        Scalar.greatest_le fun z hz => ?_, Scalar.greatest_le fun z hz => ?_⟩
      all_goals
        rw [hmap] at hz
        obtain ⟨p, hp, rfl⟩ := List.mem_map.mp hz
        obtain ⟨hx, hy, hr, hb⟩ := hall p hp
        assumption

/-- On one of the two axes there is a gap of at least `d` between the boxes. This is what keeping
boxes apart comes to: boxes inside them are apart as well, and so are the boxes after moving both.
-/
def Apart (d : Rat) (r s : Rect Rat) : Prop :=
  (r.right + d ≤ s.x ∨ s.right + d ≤ r.x) ∨ (r.bottom + d ≤ s.y ∨ s.bottom + d ≤ r.y)

theorem Apart.symm {d : Rat} (h : Apart d r s) : Apart d s r := h.imp Or.symm Or.symm

theorem Apart.of_contains {d : Rat} {r' s' : Rect Rat} (h : Apart d r s)
    (hr : r.contains r' = true) (hs : s.contains s' = true) : Apart d r' s' := by
  rw [contains_iff] at hr hs
  obtain ⟨hrx, hry, hrr, hrb⟩ := hr
  obtain ⟨hsx, hsy, hsr, hsb⟩ := hs
  rcases h with (h | h) | h | h
  · exact Or.inl (Or.inl (by linarith))
  · exact Or.inl (Or.inr (by linarith))
  · exact Or.inr (Or.inl (by linarith))
  · exact Or.inr (Or.inr (by linarith))

theorem Apart.translate {d : Rat} (h : Apart d r s) (dx dy : Rat) :
    Apart d (r.translate dx dy) (s.translate dx dy) := by
  simp only [Apart, Rect.translate, right, bottom] at h ⊢
  rcases h with (h | h) | h | h
  · exact Or.inl (Or.inl (by linarith))
  · exact Or.inl (Or.inr (by linarith))
  · exact Or.inr (Or.inl (by linarith))
  · exact Or.inr (Or.inr (by linarith))

end Rect

/-! ## Lines -/

namespace Polyline

/-- Two points that are further apart than the tolerance on one axis do not coincide, since
coinciding means being near on both. -/
theorem coincide_eq_false {p q : Point Rat}
    (h : Scalar.tolerance < q.x - p.x ∨ Scalar.tolerance < q.y - p.y) :
    coincide p q = false := by
  have habs : ∀ a b : Rat, Scalar.tolerance < b - a → ¬ Scalar.abs (a - b) ≤ Scalar.tolerance := by
    intro a b hlt hle
    have hmax : -(a - b) ≤ Scalar.abs (a - b) := le_max_right _ _
    linarith
  unfold coincide
  rw [Bool.and_eq_false_iff, decide_eq_false_iff_not, decide_eq_false_iff_not]
  rcases h with h | h
  · exact Or.inl (habs _ _ h)
  · exact Or.inr (habs _ _ h)

theorem dedupFrom_ne_nil {p q : Point Rat} {ps : List (Point Rat)} (hq : q ∈ ps)
    (h : coincide p q = false) : dedupFrom p ps ≠ [] := by
  induction ps with
  | nil => cases hq
  | cons r rs ih =>
      rw [dedupFrom]
      split
      · next hr =>
        rcases List.mem_cons.mp hq with rfl | hq
        · rw [h] at hr
          cases hr
        · exact ih hq
      · simp

theorem bends_ne_nil (p : Point Rat) {ps : List (Point Rat)} (h : ps ≠ []) : bends p ps ≠ [] := by
  induction ps generalizing p with
  | nil => exact absurd rfl h
  | cons q qs ih =>
      cases qs with
      | nil => simp [bends]
      | cons r rs =>
          rw [bends]
          split
          · simp
          · exact ih p (by simp)

/-- A line between two points that do not coincide keeps two points. -/
theorem two_le_length_simplify {p q : Point Rat} (h : coincide p q = false)
    (ps : List (Point Rat)) : 2 ≤ (simplify (p :: ps ++ [q])).length := by
  have hdedup := dedupFrom_ne_nil (List.mem_append_right ps (List.mem_singleton.mpr rfl)) h
  have hbends := List.length_pos_iff.mpr (bends_ne_nil p hdedup)
  rw [List.cons_append, simplify, dedup, List.length_cons]
  omega

end Polyline

end Schematic
