import Schematic.Geometry.Hundredths

/-!
# Binary floating point numbers as scalars

A finite floating point number is an integer in units of the smallest positive one, which is
2 ^ -1074. That integer is read off the bits, and what has to be exact is computed from it with
natural numbers alone: the nearest hundredth and back the number nearest to it, and the length of a
segment, which is the square root of a sum of squares rounded once.
-/

namespace Schematic

/-- A finite number as `significand * 2 ^ shift` units of 2 ^ -1074, with a sign. -/
structure Binary where
  negative : Bool
  significand : Nat
  shift : Nat
deriving Repr, DecidableEq

namespace Binary

def twoTo (n : Nat) : Nat := Nat.pow 2 n

/-- The sign, significand and shift that are coded in 64 bits. -/
def ofBits (bits : Nat) : Binary :=
  let fraction := bits % twoTo 52
  let exponent := bits / twoTo 52 % twoTo 11
  let negative := bits / twoTo 63 % 2 == 1
  if exponent = 0 then ⟨negative, fraction, 0⟩
  else ⟨negative, twoTo 52 + fraction, exponent - 1⟩

def ofFloat (x : Float) : Binary := ofBits x.toBits.toNat

/-- The size of the number in units of 2 ^ -1074. -/
def magnitude (b : Binary) : Nat := b.significand * twoTo b.shift

/-- The 64 bits that code the number. A significand of 54 binary digits runs over into the exponent,
which is what its shift then calls for. -/
def toBits (b : Binary) : Nat :=
  (if b.negative then twoTo 63 else 0) + b.shift * twoTo 52 + b.significand

def toFloat (b : Binary) : Float := Float.ofBits (UInt64.ofNat b.toBits)

/-! ## Decimals -/

/-- The nearest multiple of one part in `parts`, the even one of two equally near, as their
number. -/
def nearestPart (parts : Nat) (b : Binary) : Int :=
  let n := roundHalfEven (parts * b.magnitude) (twoTo 1074)
  if b.negative then -n else n

theorem eq_decide_of_signed {negative : Bool} {n : Nat} {m : Int}
    (h : (if negative then -(n : Int) else n) = m) (hm : m ≠ 0) : negative = decide (m < 0) := by
  cases negative <;> simp at h ⊢ <;> omega

/-- Rounding keeps the sign, unless nothing is left. -/
theorem negative_eq {parts : Nat} {b : Binary} (h : b.nearestPart parts ≠ 0) :
    b.negative = decide (b.nearestPart parts < 0) :=
  eq_decide_of_signed rfl h

def hundredths (b : Binary) : Hundredths := ⟨b.nearestPart 100⟩

def tenths (b : Binary) : Hundredths := ⟨10 * b.nearestPart 10⟩

/-- The number of 53 binary digits nearest to a number of hundredths, the even one of two equally
near. -/
def ofHundredths (h : Hundredths) : Binary :=
  let n := h.count.natAbs * twoTo 1074
  let shift := (n / 100).log2 + 1 - 53
  ⟨h.count < 0, roundHalfEven n (100 * twoTo shift), shift⟩

/-! ## Lengths -/

def squareRoot (n : Nat) : Nat :=
  if n = 0 then 0
  else
    let r := 2 * squareRoot (n / 4)
    if (r + 1) * (r + 1) ≤ n then r + 1 else r
termination_by n
decreasing_by omega

/-- How many binary digits of a square root are computed behind its integer part. -/
def rootDigits : Nat := 64

/-- The number of 53 binary digits nearest to the square root of `n`, the even one of two equally
near, as a significand and the power of two it is multiplied with. -/
def roundedRoot (n : Nat) : Nat × Int :=
  let scaled := n * twoTo (2 * rootDigits)
  let root := squareRoot scaled
  let drop := (root.log2 + 1) - 53
  let head := root / twoTo drop
  let tail := root % twoTo drop
  let half := twoTo drop / 2
  let up :=
    decide (half < tail) || (tail == half && (root * root != scaled || head % 2 == 1))
  (if up then head + 1 else head, (drop : Int) - rootDigits)

/-- The length of a segment that spans `x` and `y`, rounded once. -/
def length (x y : Float) : Float :=
  if x == 0 then y.abs
  else if y == 0 then x.abs
  else
    let a := ofFloat x
    let b := ofFloat y
    let shift := min a.shift b.shift
    let m := a.significand * twoTo (a.shift - shift)
    let n := b.significand * twoTo (b.shift - shift)
    let root := roundedRoot (m * m + n * n)
    (Float.ofNat root.1).scaleB (root.2 + shift - 1074)

end Binary

instance : Metric Float where
  natCast := Float.ofNat
  decideLE _ _ := inferInstance
  decideLT _ _ := inferInstance
  length := Binary.length

instance : Written Float where
  hundredths x := (Binary.ofFloat x).hundredths
  negative x := (Binary.ofFloat x).negative
  negative_eq _ := Binary.negative_eq
  ofHundredths h := (Binary.ofHundredths h).toFloat
  shortest x :=
    let b := Binary.ofFloat x
    if (Binary.ofHundredths b.tenths).toFloat.toBits == x.toBits then b.tenths else b.hundredths

end Schematic
