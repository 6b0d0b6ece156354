import Reckon.Binary64.Nearest

/-!
# Plain text of a double

The plain text of a double has the fewest digits that read back to it, and of
two such texts the nearer.  It is positional whatever the magnitude, and a
whole number has no point.

The search runs over the grids of multiples of `10 ^ -places`, from coarse to
fine.  If a multiple reads back, so does one of the two next to the double,
and the finest grid holds the double itself, so the search ends with a text
that reads back.
-/

namespace Reckon.Binary64

/-- The number of decimal places of the exact value of every finite double. -/
def exactPlaces : Nat := 1074

/-- The magnitude of a finite double in units of `10 ^ -1074`. -/
def exactDigits (x : Float) : Nat := units x * Nat.pow 5 exactPlaces

/-- A decimal number: `digits` is counted in units of `10 ^ (exponent - 1074)`. -/
structure GridPoint where
  /-- The multiple of the grid's unit. -/
  digits : Nat
  /-- The grid, 1074 places finer than the exponent of ten. -/
  exponent : Nat
deriving Repr, DecidableEq

namespace GridPoint

/-- The value in units of `10 ^ -1074`. -/
def value (g : GridPoint) : Nat := g.digits * tenTo g.exponent

/-- The double that the decimal number reads as. -/
def read (g : GridPoint) : Float := nearest g.value (tenTo exactPlaces)

/-- Whether the decimal number reads as a double of this magnitude. -/
def readsAs (g : GridPoint) (bits : Nat) : Bool :=
  nearestBits g.value (tenTo exactPlaces) == bits

end GridPoint

/-- Of the two points of a grid next to a value the one that reads back, the
nearer if both do, and the upper one if both are equally near. -/
def gridNeighbour (reads : GridPoint → Bool) (exact exponent : Nat) : Option GridPoint :=
  let unit := tenTo exponent
  let lower : GridPoint := ⟨exact / unit, exponent⟩
  let upper : GridPoint := ⟨exact / unit + 1, exponent⟩
  match reads lower, reads upper with
  | true, true => some (if 2 * (exact % unit) < unit then lower else upper)
  | true, false => some lower
  | false, true => some upper
  | false, false => none

/-- The coarsest grid, from the given one down, with a point that reads back. -/
def searchGrids (reads : GridPoint → Bool) (exact : Nat) : Nat → GridPoint
  | 0 => ⟨exact, 0⟩
  | exponent + 1 =>
    match gridNeighbour reads exact (exponent + 1) with
    | some point => point
    | none => searchGrids reads exact exponent

/-- The digits of a natural number. -/
def digitChars (n : Nat) : List Char := Nat.toDigits 10 n

/-- The decimal number of fewest digits that reads back to a finite double. -/
def shortest (x : Float) : GridPoint :=
  searchGrids (fun point => point.readsAs (magnitudeBits x)) (exactDigits x)
    (exactPlaces + (digitChars (wholePart x)).length)

/-- `digits / 10 ^ places` in positional notation with all its places. -/
def positional (digits places : Nat) : List Char :=
  let whole := digitChars (digits / tenTo places)
  if places = 0 then whole
  else
    let fraction := digitChars (digits % tenTo places)
    whole ++ '.' :: (List.replicate (places - fraction.length) '0' ++ fraction)

/-- A decimal number in positional notation. -/
def GridPoint.text (g : GridPoint) : List Char :=
  positional (g.digits * tenTo (g.exponent - exactPlaces)) (exactPlaces - g.exponent)

/-- The plain text of a magnitude. -/
def plainMagnitude (x : Float) : List Char :=
  if units x = 0 then ['0']
  else if infinityBits ≤ magnitudeBits x then ['i', 'n', 'f']
  else (shortest x).text

/-- The plain text of a double. -/
def plain (x : Float) : String :=
  if x.isNaN then "NaN"
  else String.ofList (if isNegative x then '-' :: plainMagnitude x else plainMagnitude x)

end Reckon.Binary64
