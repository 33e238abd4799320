/-!
# The field of the curve

Arithmetic modulo `2 ^ 255 - 19`. Square roots are taken of quotients, as a point's two coordinates
determine each other that way.
-/

namespace SignerVoting

namespace Ed25519

/-- The prime of the field. -/
def prime : Nat := Nat.pow 2 255 - 19

theorem prime_pos : 0 < prime := by decide

-- The zero is that of the numerals, as the numerals of `Fin` ask for.
instance : @NeZero Nat Zero.ofOfNat0 prime := ⟨Nat.ne_of_gt prime_pos⟩

/-- An element of the field, by its least representative. -/
abbrev Field := Fin prime

namespace Field

/-- The power to an exponent of so many bits. -/
def power (a : Field) : Nat → Nat → Field
  | 0, _ => 1
  | bits + 1, n =>
    let r := power a bits (n / 2)
    if n % 2 = 1 then r * r * a else r * r

/-- The inverse, by the little theorem of Fermat; that of zero is zero. -/
def inverse (a : Field) : Field := a.power 255 (prime - 2)

/-- A square root of `-1`. -/
def rootOfMinusOne : Field := (2 : Field).power 255 ((prime - 1) / 4)

/-- The even square root of an element, if it is a square. -/
def evenRoot? (a : Field) : Option Field :=
  let even (r : Field) : Field := if r.val % 2 = 1 then 0 - r else r
  let r := a.power 255 ((prime + 3) / 8)
  if r * r = a then some (even r)
  else
    let r := r * rootOfMinusOne
    if r * r = a then some (even r) else none

end Field

end Ed25519

end SignerVoting
