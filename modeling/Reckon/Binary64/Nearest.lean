import Reckon.Binary64.Basic

/-!
# The nearest double of a fraction

Rounding is to the nearest double, a tie going to the even pattern, and a
fraction past the greatest finite double rounds to infinity.  In units of
`2 ^ -1074` the doubles with one exponent are equally spaced, so one rounded
division finds the pattern: a mantissa that rounds up to the next power of two
carries into the exponent by itself.
-/

namespace Reckon.Binary64

/-- The whole number nearest to a fraction, a tie going to the even one. -/
def roundHalfEven (num den : Nat) : Nat :=
  let quotient := num / den
  let twice := 2 * (num % den)
  if twice < den then quotient
  else if den < twice then quotient + 1
  else quotient + quotient % 2

/-- The pattern of the double nearest to a fraction. -/
def nearestBits (num den : Nat) : Nat :=
  let shift := (num * scale / den).log2 - 52
  min (shift * leadingBit + roundHalfEven (num * scale) (den <<< shift)) infinityBits

/-- The double nearest to a fraction. -/
def nearest (num den : Nat) : Float :=
  ofBits (nearestBits num den) (Nat.min_le_right _ _)

/-- A power of ten. -/
def tenTo (places : Nat) : Nat := Nat.pow 10 places

/-- The double nearest to `digits / 10 ^ places`. -/
def ofDecimal (digits places : Nat) : Float :=
  nearest digits (tenTo places)

end Reckon.Binary64
