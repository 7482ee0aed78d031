/-!
# Lengths and positions

All geometry is written over a type of scalars, so that what runs on binary floating point numbers
can be reasoned about over a field. `Scalar` is the arithmetic that every part needs; `Metric` adds
the length of a segment, which only the rounding of corners asks for.

Sums and products are written out in the order in which they are computed, because that order shows
in the last digit of a floating point number.
-/

namespace Schematic

/-- Ordered numbers with the four operations, the natural numbers and decimals among them. -/
class Scalar (α : Type) extends Add α, Sub α, Mul α, Div α, Neg α, NatCast α, OfScientific α, Min α,
    Max α, LE α, LT α where
  decideLE (x y : α) : Decidable (x ≤ y)
  decideLT (x y : α) : Decidable (x < y)

instance decidableScalarLE {α : Type} [Scalar α] : DecidableLE α := Scalar.decideLE

instance decidableScalarLT {α : Type} [Scalar α] : DecidableLT α := Scalar.decideLT

/-- Scalars with the length of a segment that spans `dx` and `dy` along the axes. -/
class Metric (α : Type) extends Scalar α where
  length : (dx dy : α) → α

/-- Exact numbers. -/
instance exactScalar : Scalar Rat where
  toAdd := Rat.instAdd
  toSub := Rat.instSub
  toMul := Rat.instMul
  toDiv := Rat.instDiv
  toNeg := Rat.instNeg
  toNatCast := Rat.instNatCast
  toOfScientific := Rat.instOfScientific
  toMin := Rat.instMin
  toMax := Rat.instMax
  toLE := Rat.instLE
  toLT := Rat.instLT
  decideLE := Rat.instDecidableLe
  decideLT := Rat.instDecidableLt

namespace Scalar

variable {α : Type} [Scalar α]

def abs (x : α) : α := max x (-x)

/-- Distances up to this one are no distances. -/
def tolerance : α := 1e-9

/-- The least of a list that begins with `x`. -/
def least (x : α) (xs : List α) : α := xs.foldl min x

/-- The greatest of a list that begins with `x`. -/
def greatest (x : α) (xs : List α) : α := xs.foldl max x

/-- The sum of a list, added from the left. -/
def total (xs : List α) : α := xs.foldl (· + ·) ((0 : Nat) : α)

end Scalar

end Schematic
