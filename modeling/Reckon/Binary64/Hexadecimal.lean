import Reckon.Binary64.Basic

/-!
# Hexadecimal constants

Constants in code listings are exact: the leading bit, the thirteen
hexadecimal digits of the fraction and the exponent of two in decimal.
-/

namespace Reckon.Binary64

/-- The thirteen hexadecimal digits of a fraction field. -/
def fractionDigits (fraction : Nat) : String :=
  let digits := Nat.toDigits 16 fraction
  String.ofList (List.replicate (13 - digits.length) '0' ++ digits)

/-- The constant of a magnitude. -/
def constantMagnitude (bits : Nat) : String :=
  let exponent := exponentField bits
  let digits := fractionDigits (fractionField bits)
  if bits = 0 then "0.0"
  else if bits = infinityBits then "Inf"
  else if infinityBits < bits then "NaN"
  else if exponent = 0 then s!"0x0.{digits}p-1022"
  else s!"0x1.{digits}p{(exponent : Int) - 1023}"

/-- The constant of a double: infinity and not-a-number always have a sign. -/
def constant (x : Float) : String :=
  let bits := magnitudeBits x
  let sign := if isNegative x then "-" else if infinityBits ≤ bits then "+" else ""
  sign ++ constantMagnitude bits

end Reckon.Binary64
