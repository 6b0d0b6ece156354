import Reckon.Binary64.Plain

/-!
# Six decimal places

Results are written with six places, the exact value being rounded to the
nearest and a tie to the even last digit.  The sign of a negative number stays
even when all its digits are zero.
-/

namespace Reckon.Binary64

/-- The number of places of a result. -/
def resultPlaces : Nat := 6

/-- A magnitude in millionths. -/
def millionths (x : Float) : Nat :=
  roundHalfEven (units x * tenTo resultPlaces) scale

/-- The text of a magnitude with six places. -/
def fixedMagnitude (x : Float) : List Char :=
  if infinityBits ≤ magnitudeBits x then ['i', 'n', 'f']
  else positional (millionths x) resultPlaces

/-- The text of a result. -/
def fixed (x : Float) : String :=
  if x.isNaN then "nan"
  else String.ofList (if isNegative x then '-' :: fixedMagnitude x else fixedMagnitude x)

end Reckon.Binary64
