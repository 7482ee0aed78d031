import Schematic.Geometry.Scalar

/-!
# Points and rectangles

The origin is at the top left; `x` grows to the right and `y` downwards. A rectangle is given by its
top left corner and its size.
-/

namespace Schematic

structure Point (α : Type) where
  x : α
  y : α
deriving Repr, DecidableEq

structure Rect (α : Type) where
  x : α
  y : α
  width : α
  height : α
deriving Repr, DecidableEq

namespace Point

variable {α : Type} [Scalar α]

def translate (p : Point α) (dx dy : α) : Point α := ⟨p.x + dx, p.y + dy⟩

end Point

namespace Rect

variable {α : Type} [Scalar α]

/-- The box of the given size around a point. -/
def around (cx cy width height : α) : Rect α :=
  ⟨cx - width / (2 : Nat), cy - height / (2 : Nat), width, height⟩

def ofPoint (p : Point α) : Rect α := ⟨p.x, p.y, ((0 : Nat) : α), ((0 : Nat) : α)⟩

def right (r : Rect α) : α := r.x + r.width

def bottom (r : Rect α) : α := r.y + r.height

def center (r : Rect α) : Point α := ⟨r.x + r.width / (2 : Nat), r.y + r.height / (2 : Nat)⟩

/-- The box grown by `amount` on all four sides. -/
def expand (r : Rect α) (amount : α) : Rect α :=
  ⟨r.x - amount, r.y - amount, r.width + (2 : Nat) * amount, r.height + (2 : Nat) * amount⟩

def translate (r : Rect α) (dx dy : α) : Rect α := ⟨r.x + dx, r.y + dy, r.width, r.height⟩

/-- The box `s` lies inside the box `r`; the borders may touch. -/
def contains (r s : Rect α) : Bool :=
  decide (r.x ≤ s.x) && decide (r.y ≤ s.y) && decide (s.right ≤ r.right) &&
    decide (s.bottom ≤ r.bottom)

/-- The smallest box around `r` and all of `rs`. -/
def hull (r : Rect α) (rs : List (Rect α)) : Rect α :=
  let left := Scalar.least r.x (rs.map Rect.x)
  let top := Scalar.least r.y (rs.map Rect.y)
  let right := Scalar.greatest r.right (rs.map Rect.right)
  let bottom := Scalar.greatest r.bottom (rs.map Rect.bottom)
  ⟨left, top, right - left, bottom - top⟩

/-- The smallest box around all boxes of a list; there is none around nothing. -/
def union : List (Rect α) → Option (Rect α)
  | [] => none
  | r :: rs => some (hull r rs)

end Rect

end Schematic
