import SignerVoting.Bytes
import SignerVoting.Ed25519.Field

/-!
# Points of the curve

The curve is `y² - x² = 1 + d x² y²`. A point is held by four coordinates, of which the first three
are projective and the fourth stands for the product of the first two. Sums need no case
distinction, since `d` is no square.

A point is written in 32 bytes: `y`, the lowest byte first, with the parity of `x` in the highest
bit.
-/

namespace SignerVoting

namespace Ed25519

/-- A point `(x / z, y / z)` with `t / z = (x / z) * (y / z)`. -/
structure Point where
  x : Field
  y : Field
  z : Field
  t : Field

namespace Point

/-- The coefficient of the curve. -/
def d : Field := (0 - 121665) * Field.inverse 121666

/-- Twice the coefficient of the curve. -/
def twiceD : Field := d + d

/-- The neutral point. -/
def neutral : Point := ⟨0, 1, 1, 0⟩

/-- The sum of two points. -/
def add (p q : Point) : Point :=
  let a := (p.y - p.x) * (q.y - q.x)
  let b := (p.y + p.x) * (q.y + q.x)
  let c := p.t * twiceD * q.t
  let d := (p.z + p.z) * q.z
  let e := b - a
  let f := d - c
  let g := d + c
  let h := b + a
  ⟨e * f, g * h, f * g, e * h⟩

/-- The sum of a point and itself. -/
def double (p : Point) : Point :=
  let a := p.x * p.x
  let b := p.y * p.y
  let c := p.z * p.z + p.z * p.z
  let h := a + b
  let e := h - (p.x + p.y) * (p.x + p.y)
  let g := a - b
  let f := c + g
  ⟨e * f, g * h, f * g, e * h⟩

/-- The point opposite to a point. -/
def negate (p : Point) : Point := ⟨0 - p.x, p.y, p.z, 0 - p.t⟩

/-- The multiple of a point by a number of so many bits. -/
def multiple (p : Point) : Nat → Nat → Point
  | 0, _ => neutral
  | bits + 1, n =>
    let q := (multiple p bits (n / 2)).double
    if n % 2 = 1 then q.add p else q

/-- The point with that `y` and an `x` of that parity. An `x` of zero serves for both. -/
def ofCoordinate? (y : Field) (odd : Bool) : Option Point := do
  let yy := y * y
  let x ← Field.evenRoot? ((yy - 1) * (d * yy + 1).inverse)
  let x := if odd then 0 - x else x
  return ⟨x, y, 1, x * y⟩

/-- The point that generates the group, the one with `y = 4 / 5` and an even `x`. -/
def base : Point := (ofCoordinate? (4 * Field.inverse 5) false).getD neutral

/-- The place of the parity of `x` in the number that the bytes of a point stand for. -/
def parityPlace : Nat := Nat.pow 2 255

/-- The bytes of a point. -/
def toBytes (p : Point) : Vector UInt8 32 :=
  let inv := p.z.inverse
  let x := p.x * inv
  let y := p.y * inv
  ⟨(Bytes.littleEndian 32 (y.val + x.val % 2 * parityPlace)).toArray, by simp⟩

/-- The point written in the bytes, if there is one. A `y` beyond the prime is taken modulo it. -/
def ofBytes? (bytes : Vector UInt8 32) : Option Point :=
  let n := Bytes.ofLittleEndian bytes.toList
  ofCoordinate? (Fin.ofNat prime (n % parityPlace)) (n / parityPlace % 2 = 1)

end Point

end Ed25519

end SignerVoting
