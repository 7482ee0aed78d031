import Mathlib.Algebra.Order.Field.Basic
import Mathlib.Tactic.FieldSimp
import Mathlib.Tactic.Linarith
import Mathlib.Tactic.Ring
import Schematic.Geometry.Basic

/-!
# Segments

A point on the straight line through two others is given by the part of the way from the one to the
other at which it lies: at the parts from zero to one it is on the segment between them, beyond one
it lies behind the second point, and below zero it lies in front of the first.
-/

namespace Schematic

attribute [ext] Point

namespace Point

variable {K : Type} [Field K]

/-- The point at the part `t` of the way from `p` to `q`. -/
def partway (p q : Point K) (t : K) : Point K := ⟨p.x + t * (q.x - p.x), p.y + t * (q.y - p.y)⟩

theorem partway_zero (p q : Point K) : p.partway q 0 = p := by
  simp [partway]

theorem partway_one (p q : Point K) : p.partway q 1 = q := by
  simp [partway]

theorem partway_partway (p q : Point K) (s t : K) :
    p.partway (p.partway q t) s = p.partway q (s * t) := by
  simp only [partway, Point.mk.injEq]
  constructor <;> ring

/-- A part of the way from `q` on, to a point of the way from `p` to `q`. -/
theorem partway_from (p q : Point K) (s t : K) :
    q.partway (p.partway q t) s = p.partway q (1 + s * (t - 1)) := by
  simp only [partway, Point.mk.injEq]
  constructor <;> ring

theorem partway_reverse (p q : Point K) (t : K) : p.partway q t = q.partway p (1 - t) := by
  simp only [partway, Point.mk.injEq]
  constructor <;> ring

theorem partway_eq_self_iff {p q : Point K} (h : p ≠ q) {t : K} : p.partway q t = p ↔ t = 0 := by
  constructor
  · intro heq
    by_contra ht
    simp only [partway, Point.ext_iff, add_eq_left, mul_eq_zero, ht, false_or, sub_eq_zero] at heq
    exact h (Point.ext heq.1.symm heq.2.symm)
  · rintro rfl
    exact partway_zero p q

variable [LinearOrder K] {p q r d : Point K}

/-- The point `d` lies on the segment between `p` and `q`, at some part of the way from zero to one.
If `p` and `q` are the same point, it is the only one. -/
def OnSegment (p q d : Point K) : Prop := ∃ t, 0 ≤ t ∧ t ≤ 1 ∧ d = p.partway q t

variable [IsStrictOrderedRing K]

theorem onSegment_left (p q : Point K) : OnSegment p q p :=
  ⟨0, le_refl 0, zero_le_one, (partway_zero p q).symm⟩

theorem onSegment_right (p q : Point K) : OnSegment p q q :=
  ⟨1, zero_le_one, le_refl 1, (partway_one p q).symm⟩

theorem OnSegment.symm (h : OnSegment p q d) : OnSegment q p d := by
  obtain ⟨t, ht, ht', rfl⟩ := h
  exact ⟨1 - t, sub_nonneg.mpr ht', sub_le_self 1 ht, partway_reverse p q t⟩

/-- What lies on a segment lies on every segment that goes on in the same direction: the part of the
way only gets smaller. -/
theorem OnSegment.extend {t : K} (h : OnSegment p q d) (ht : 1 < t) (hr : r = p.partway q t) :
    OnSegment p r d := by
  obtain ⟨s, hs, hs', rfl⟩ := h
  have hpos : 0 < t := zero_lt_one.trans ht
  refine ⟨s / t, div_nonneg hs hpos.le, (div_le_one hpos).mpr (hs'.trans ht.le), ?_⟩
  rw [hr, partway_partway, div_mul_cancel₀ s hpos.ne']

end Point

end Schematic
