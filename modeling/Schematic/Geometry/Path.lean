import Schematic.Geometry.Basic

/-!
# Paths with rounded corners

A polyline is drawn as straight strokes whose corners are rounded off: at an inner point the line is
cut back along both segments, by the radius or by half of the shorter segment if that is less, and
the two cuts are joined by a curve that the point itself controls. Where there is nothing to cut the
stroke goes through the point.
-/

namespace Schematic

inductive PathCommand (α : Type) where
  | move (target : Point α)
  | line (target : Point α)
  | curve (control target : Point α)
deriving Repr, DecidableEq

namespace Path

variable {α : Type} [Metric α]

/-- The point at the distance `r` from `p` on the way to `q`, which is `d` away. -/
def towards (p q : Point α) (d r : α) : Point α :=
  ⟨p.x + (q.x - p.x) / d * r, p.y + (q.y - p.y) / d * r⟩

/-- What is drawn at the inner point `q` between `p` and `s`. -/
def corner (radius : α) (p q s : Point α) : List (PathCommand α) :=
  let d := Metric.length (p.x - q.x) (p.y - q.y)
  let e := Metric.length (s.x - q.x) (s.y - q.y)
  let r := min (min radius (d / (2 : Nat))) (e / (2 : Nat))
  if d ≤ Scalar.tolerance ∨ e ≤ Scalar.tolerance ∨ r ≤ Scalar.tolerance then [.line q]
  else [.line (towards q p d r), .curve q (towards q s e r)]

/-- What is drawn behind the first point of a line. -/
def strokes (radius : α) : List (Point α) → List (PathCommand α)
  | p :: q :: s :: rest => corner radius p q s ++ strokes radius (q :: s :: rest)
  | [_, q] => [.line q]
  | [p] => [.line p]
  | [] => []

/-- The path along a polyline. A single point becomes a stroke of no length. -/
def rounded (points : List (Point α)) (radius : α) : List (PathCommand α) :=
  match points with
  | [] => []
  | p :: rest => .move p :: strokes radius (p :: rest)

end Path

end Schematic
