import Mathlib.Analysis.Real.Sqrt
import Schematic.Geometry.Path
import Schematic.Proofs.Geometry.Segments

/-!
# Rounded corners stay on their halves

Over the real numbers, with the exact length of a segment, a corner is cut off by at most half of
each segment at it. So of every segment the corner at its beginning takes something from the first
half and the corner at its end something from the second half (`Path.IsCorner.departure_eq`,
`Path.IsCorner.arrival_eq`), and the stroke between the two cuts never runs backwards, whatever the
radius is and however often points repeat.
-/

namespace Schematic

/-- The real numbers with exact lengths. -/
noncomputable instance realMetric : Metric ℝ where
  toAdd := Real.instAdd
  toSub := Real.instSub
  toMul := Real.instMul
  toDiv := inferInstance
  toNeg := Real.instNeg
  toNatCast := Real.instNatCast
  toOfScientific := inferInstance
  toMin := inferInstance
  toMax := inferInstance
  toLE := Real.instLE
  toLT := Real.instLT
  decideLE := Real.decidableLE
  decideLT := Real.decidableLT
  length x y := √(x ^ 2 + y ^ 2)

namespace Point

variable {p q : Point ℝ}

/-- The length of the segment from `p` to `q`. -/
noncomputable def distance (p q : Point ℝ) : ℝ := √((p.x - q.x) ^ 2 + (p.y - q.y) ^ 2)

theorem distance_comm (p q : Point ℝ) : p.distance q = q.distance p := by
  rw [distance, distance]
  congr 1
  ring

theorem distance_partway (p q : Point ℝ) {t : ℝ} (ht : 0 ≤ t) :
    p.distance (p.partway q t) = t * p.distance q := by
  have hsquare : (p.x - (p.partway q t).x) ^ 2 + (p.y - (p.partway q t).y) ^ 2 =
      t ^ 2 * ((p.x - q.x) ^ 2 + (p.y - q.y) ^ 2) := by
    simp only [partway]
    ring
  rw [distance, hsquare, Real.sqrt_mul (sq_nonneg t), Real.sqrt_sq ht, distance]

end Point

namespace Path

open Point

variable {radius : ℝ} {p q s : Point ℝ}

/-! ## One corner -/

/-- What is drawn at an inner point: a stroke through it, or a stroke up to `arrival` and a curve
from there to `departure`. -/
inductive Corner where
  | sharp (p : Point ℝ)
  | round (arrival p departure : Point ℝ)

namespace Corner

def commands : Corner → List (PathCommand ℝ)
  | sharp p => [.line p]
  | round a p d => [.line a, .curve p d]

/-- Where the stroke that leads to the corner ends. -/
def arrival : Corner → Point ℝ
  | sharp p => p
  | round a _ _ => a

/-- Where the stroke that leads away from the corner begins. -/
def departure : Corner → Point ℝ
  | sharp p => p
  | round _ _ d => d

end Corner

/-- What is cut off on both sides of the corner at `q`. -/
noncomputable def cut (radius : ℝ) (p q s : Point ℝ) : ℝ :=
  min radius (min (p.distance q) (q.distance s) / 2)

/-- The corner at `q` between `p` and `s`: it is round if there is more than the tolerance to cut
off on both sides, and then the cuts are on the segments at the same distance from `q`. -/
inductive IsCorner (radius : ℝ) (p q s : Point ℝ) : Corner → Prop
  | sharp (h : ¬ (Scalar.tolerance < radius ∧ Scalar.tolerance < p.distance q / 2 ∧
      Scalar.tolerance < q.distance s / 2)) : IsCorner radius p q s (.sharp q)
  | round {a d} (hradius : Scalar.tolerance < radius)
      (hbefore : Scalar.tolerance < p.distance q / 2)
      (hbehind : Scalar.tolerance < q.distance s / 2)
      (harrival : OnSegment p q a ∧ q.distance a = cut radius p q s)
      (hdeparture : OnSegment q s d ∧ q.distance d = cut radius p q s) :
      IsCorner radius p q s (.round a q d)

theorem tolerance_pos : (0 : ℝ) < Scalar.tolerance := by
  unfold Scalar.tolerance
  norm_num

/-- What lies in the direction of `s` at the distance `r` from `q`. The program divides by the
length it was given, which is why the length has to be the exact one. -/
theorem towards_spec {d r : ℝ} (hd : q.distance s = d) (hpos : 0 < d) (hr : 0 ≤ r) (hle : r ≤ d) :
    OnSegment q s (towards q s d r) ∧ q.distance (towards q s d r) = r := by
  have heq : towards q s d r = q.partway s (r / d) := by
    simp only [towards, partway, Point.mk.injEq]
    constructor <;> ring
  have hpart : 0 ≤ r / d := div_nonneg hr hpos.le
  refine ⟨⟨r / d, hpart, (div_le_one hpos).mpr hle, heq⟩, ?_⟩
  rw [heq, distance_partway q s hpart, hd, div_mul_cancel₀ r hpos.ne']

theorem cut_eq (radius : ℝ) (p q s : Point ℝ) :
    cut radius p q s = min (min radius (p.distance q / 2)) (q.distance s / 2) := by
  rw [cut, ← min_div_div_right zero_le_two, min_assoc]

theorem exists_corner (radius : ℝ) (p q s : Point ℝ) :
    ∃ c, corner radius p q s = c.commands ∧ IsCorner radius p q s c := by
  have htolerance := tolerance_pos
  have hd : Metric.length (p.x - q.x) (p.y - q.y) = p.distance q := rfl
  have he : Metric.length (s.x - q.x) (s.y - q.y) = q.distance s := distance_comm s q
  have hcut := cut_eq radius p q s
  simp only [corner, hd, he, Nat.cast_ofNat, ← hcut]
  split
  · next h =>
    refine ⟨.sharp q, rfl, .sharp fun ⟨hradius, hbefore, hbehind⟩ => ?_⟩
    have hlt : Scalar.tolerance < cut radius p q s := by
      rw [hcut]
      exact lt_min (lt_min hradius hbefore) hbehind
    rcases h with h | h | h
    · linarith
    · linarith
    · linarith
  · next h =>
    simp only [not_or, not_le] at h
    obtain ⟨-, -, hlt⟩ := h
    have hlt' := hlt
    rw [hcut, lt_min_iff, lt_min_iff] at hlt'
    obtain ⟨⟨hradius, hbefore⟩, hbehind⟩ := hlt'
    have hpos : 0 ≤ cut radius p q s := (htolerance.trans hlt).le
    have hle : cut radius p q s ≤ p.distance q / 2 ∧ cut radius p q s ≤ q.distance s / 2 := by
      rw [hcut]
      exact ⟨(min_le_left _ _).trans (min_le_right _ _), min_le_right _ _⟩
    have harrival := towards_spec (distance_comm q p) (by linarith) hpos (by linarith)
    refine ⟨.round _ q _, rfl, .round hradius hbefore hbehind ⟨harrival.1.symm, harrival.2⟩ ?_⟩
    exact towards_spec rfl (by linarith) hpos (by linarith)

/-- A point of a segment that is no further from `p` than half of it is in its first half. -/
theorem exists_partway_le_half {d : Point ℝ} (h : OnSegment p q d) (hpos : 0 < p.distance q)
    (hle : p.distance d ≤ p.distance q / 2) : ∃ t, 0 ≤ t ∧ t ≤ 1 / 2 ∧ d = p.partway q t := by
  obtain ⟨t, ht, -, rfl⟩ := h
  rw [distance_partway p q ht] at hle
  exact ⟨t, ht, le_of_mul_le_mul_right (by linarith) hpos, rfl⟩

namespace IsCorner

variable {c : Corner}

/-- The stroke that leads away from a corner begins in the first half of the segment: what is cut
off is no more than half of the shorter one of the two. -/
theorem departure_eq (h : IsCorner radius p q s c) :
    ∃ t, 0 ≤ t ∧ t ≤ 1 / 2 ∧ c.departure = q.partway s t := by
  cases h with
  | sharp => exact ⟨0, le_refl 0, by norm_num, (partway_zero q s).symm⟩
  | @round a d hradius hbefore hbehind harrival hdeparture =>
      obtain ⟨hon, hdistance⟩ := hdeparture
      refine exists_partway_le_half hon (by linarith [tolerance_pos]) (hdistance.trans_le ?_)
      rw [cut_eq]
      exact min_le_right _ _

/-- The stroke that leads to a corner ends in the second half of the segment. -/
theorem arrival_eq (h : IsCorner radius p q s c) :
    ∃ t, 1 / 2 ≤ t ∧ t ≤ 1 ∧ c.arrival = p.partway q t := by
  cases h with
  | sharp => exact ⟨1, by norm_num, le_refl 1, (partway_one p q).symm⟩
  | @round a d hradius hbefore hbehind harrival hdeparture =>
      obtain ⟨hon, hdistance⟩ := harrival
      have hpos : 0 < q.distance p := by
        rw [distance_comm]
        linarith [tolerance_pos]
      have hle : q.distance a ≤ q.distance p / 2 := by
        rw [hdistance, cut_eq, distance_comm q p]
        exact (min_le_left _ _).trans (min_le_right _ _)
      obtain ⟨t, ht, ht', heq⟩ := exists_partway_le_half hon.symm hpos hle
      refine ⟨1 - t, by linarith, by linarith, ?_⟩
      rw [partway_reverse, sub_sub_cancel]
      exact heq

end IsCorner

/-! ## All corners -/

/-- The corners of a line: one for each of its inner points, in order. Corners and points are
matched by their index, as points may repeat. -/
def AreCorners (radius : ℝ) (points : List (Point ℝ)) (corners : List Corner) : Prop :=
  corners.length + 2 = points.length ∧
    ∀ i p q s c, points[i]? = some p → points[i + 1]? = some q → points[i + 2]? = some s →
      corners[i]? = some c → IsCorner radius p q s c

theorem exists_corners (radius : ℝ) (first : Point ℝ) (inner : List (Point ℝ)) (last : Point ℝ) :
    ∃ corners : List Corner, AreCorners radius (first :: inner ++ [last]) corners ∧
      strokes radius (first :: inner ++ [last]) =
        corners.flatMap Corner.commands ++ [.line last] := by
  induction inner generalizing first with
  | nil => exact ⟨[], ⟨rfl, fun i p q s c _ _ _ hc => by simp at hc⟩, rfl⟩
  | cons x inner ih =>
      obtain ⟨corners, ⟨hlength, hcorners⟩, hstrokes⟩ := ih x
      obtain ⟨y, rest, hrest⟩ : ∃ y rest, inner ++ [last] = y :: rest :=
        List.exists_cons_of_ne_nil (List.concat_ne_nil last inner)
      obtain ⟨c, hcommands, hcorner⟩ := exists_corner radius first x y
      refine ⟨c :: corners, ⟨congrArg (· + 1) hlength, fun i p q s c' hp hq hs hc => ?_⟩, ?_⟩
      · cases i with
        | zero =>
            simp only [List.cons_append, hrest, List.getElem?_cons_zero, List.getElem?_cons_succ,
              Option.some.injEq] at hp hq hs hc
            rw [← hp, ← hq, ← hs, ← hc]
            exact hcorner
        | succ i => exact hcorners i p q s c' hp hq hs hc
      · rw [List.cons_append, hrest] at hstrokes
        rw [List.cons_append, List.cons_append, hrest, strokes, hcommands, hstrokes,
          List.flatMap_cons, List.append_assoc]

namespace AreCorners

variable {first last : Point ℝ} {inner : List (Point ℝ)} {corners : List Corner} {i : Nat}

/-- The stroke along a segment begins in the first half of it. -/
theorem departure_eq (h : AreCorners radius (first :: inner ++ [last]) corners)
    (hp : (first :: inner ++ [last])[i]? = some p)
    (hq : (first :: inner ++ [last])[i + 1]? = some q) {d : Point ℝ}
    (hd : (first :: corners.map Corner.departure)[i]? = some d) :
    ∃ t, 0 ≤ t ∧ t ≤ 1 / 2 ∧ d = p.partway q t := by
  cases i with
  | zero =>
      obtain rfl : first = p := Option.some.inj hp
      obtain rfl : first = d := Option.some.inj hd
      exact ⟨0, le_refl 0, by norm_num, (partway_zero _ q).symm⟩
  | succ i =>
      rw [List.getElem?_cons_succ, List.getElem?_map] at hd
      obtain ⟨c, hc, rfl⟩ := Option.map_eq_some_iff.mp hd
      have hlt := Nat.lt_of_succ_lt (List.getElem?_eq_some_iff.mp hp).1
      exact (h.2 i _ p q c (List.getElem?_eq_getElem hlt) hp hq hc).departure_eq

/-- The stroke along a segment ends in the second half of it. -/
theorem arrival_eq (h : AreCorners radius (first :: inner ++ [last]) corners)
    (hp : (first :: inner ++ [last])[i]? = some p)
    (hq : (first :: inner ++ [last])[i + 1]? = some q) {a : Point ℝ}
    (ha : (corners.map Corner.arrival ++ [last])[i]? = some a) :
    ∃ t, 1 / 2 ≤ t ∧ t ≤ 1 ∧ a = p.partway q t := by
  have hlength : corners.length = inner.length := by simpa using h.1
  by_cases hi : i < corners.length
  · have hnext : i + 2 < (first :: inner ++ [last]).length := h.1 ▸ Nat.add_lt_add_right hi 2
    rw [List.getElem?_append_left (by simpa using hi), List.getElem?_map] at ha
    obtain ⟨c, hc, rfl⟩ := Option.map_eq_some_iff.mp ha
    exact (h.2 i p q _ c hp hq (List.getElem?_eq_getElem hnext) hc).arrival_eq
  · obtain rfl : i = inner.length := by
      have hlt := (List.getElem?_eq_some_iff.mp hq).1
      rw [← h.1] at hlt
      omega
    obtain rfl : last = q := by simpa using hq
    obtain rfl : last = a := by simpa [hlength] using ha
    exact ⟨1, by norm_num, le_refl 1, (partway_one p _).symm⟩

end AreCorners

/-- On the way from `p` to `q` the point `a` does not come before the point `d`. This is said with
the parts of the way, not with distances, so that it means something where `p` and `q` are the same.
-/
def InOrder (p q d a : Point ℝ) : Prop :=
  ∃ t u, 0 ≤ t ∧ t ≤ u ∧ u ≤ 1 ∧ d = p.partway q t ∧ a = p.partway q u

/-- The commands draw the line with the given corners: on each segment the stroke begins where the
corner at its beginning is left and ends, further on, where the corner at its end is reached. -/
structure IsRounding (radius : ℝ) (first : Point ℝ) (inner : List (Point ℝ)) (last : Point ℝ)
    (corners : List Corner) (commands : List (PathCommand ℝ)) : Prop where
  commands_eq :
    commands = .move first :: (corners.flatMap Corner.commands ++ [.line last])
  areCorners : AreCorners radius (first :: inner ++ [last]) corners
  inOrder : ∀ i p q d a, (first :: inner ++ [last])[i]? = some p →
    (first :: inner ++ [last])[i + 1]? = some q →
    (first :: corners.map Corner.departure)[i]? = some d →
    (corners.map Corner.arrival ++ [last])[i]? = some a → InOrder p q d a

/-- **Rounding corners.** A line from `first` over inner points to `last` is drawn with a sharp or a
rounded corner at each inner point, cut off by the radius or half of the shorter segment at it, and
on no segment does the stroke run backwards. -/
theorem rounded_isRounding (radius : ℝ) (first : Point ℝ) (inner : List (Point ℝ))
    (last : Point ℝ) : ∃ corners,
      IsRounding radius first inner last corners (rounded (first :: inner ++ [last]) radius) := by
  obtain ⟨corners, hcorners, hstrokes⟩ := exists_corners radius first inner last
  refine ⟨corners, congrArg (PathCommand.move first :: ·) hstrokes, hcorners, ?_⟩
  intro i p q d a hp hq hd ha
  -- a stroke begins in the first half of the segment and ends in the second
  obtain ⟨t, ht, htle, hd⟩ := hcorners.departure_eq hp hq hd
  obtain ⟨u, hule, hu, ha⟩ := hcorners.arrival_eq hp hq ha
  exact ⟨t, u, ht, htle.trans hule, hu, hd, ha⟩

end Path

end Schematic
