import Schematic.Geometry.Basic

/-!
# Polylines without superfluous points

Points that repeat the point before them and points that lie on a straight stretch are dropped; a
point where the line bends or turns back is kept. Whether it bends is judged between the last point
kept and the next point of the line. The two ends always stay.
-/

namespace Schematic

namespace Polyline

variable {α : Type} [Scalar α]

/-- The two points coincide up to the tolerance. -/
def coincide (p q : Point α) : Bool :=
  decide (Scalar.abs (p.x - q.x) ≤ Scalar.tolerance) &&
    decide (Scalar.abs (p.y - q.y) ≤ Scalar.tolerance)

/-- The points that do not repeat the one kept before them, the first of which is `last`. -/
def dedupFrom (last : Point α) : List (Point α) → List (Point α)
  | [] => []
  | p :: ps => if coincide last p then dedupFrom last ps else p :: dedupFrom p ps

/-- The line without points that repeat the one before them. -/
def dedup : List (Point α) → List (Point α)
  | [] => []
  | p :: ps => p :: dedupFrom p ps

/-- The way from `p` over `q` to `r` bends at `q` or turns back there. -/
def turns (p q r : Point α) : Bool :=
  let dx := q.x - p.x
  let dy := q.y - p.y
  let dx' := r.x - q.x
  let dy' := r.y - q.y
  decide (Scalar.tolerance < Scalar.abs (dx * dy' - dy * dx')) ||
    decide (dx * dx' + dy * dy' < ((0 : Nat) : α))

/-- The points behind `last` at which the line turns, and its end. -/
def bends (last : Point α) : List (Point α) → List (Point α)
  | [] => []
  | [p] => [p]
  | p :: q :: ps => if turns last p q then p :: bends p (q :: ps) else bends last (q :: ps)

/-- The line reduced to its ends and the points where it turns. -/
def simplify (points : List (Point α)) : List (Point α) :=
  match dedup points with
  | [] => []
  | p :: ps => p :: bends p ps

end Polyline

end Schematic
