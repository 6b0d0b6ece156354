import Reckon.Binary64.Nearest

/-!
# Numerals

A numeral is a run of digits and dots.  It reads as its longest beginning that
is a decimal literal, so whatever follows a second dot is passed over, and a
run without a digit before the second dot reads as zero.
-/

namespace Reckon.Numeral

/-- Whether a character belongs to a numeral. -/
def isNumeralChar (c : Char) : Bool := c.isDigit || c == '.'

/-- Whether digits and dots are a decimal literal: some digit, and at most one
dot. -/
def isDecimal (text : List Char) : Bool :=
  text.any Char.isDigit && text.count '.' ≤ 1

/-- The value of a digit. -/
def digitValue (c : Char) : Nat := c.toNat - '0'.toNat

/-- The number that digits spell, anything else being passed over. -/
def digitsValue (text : List Char) : Nat :=
  (text.filter Char.isDigit).foldl (fun n c => 10 * n + digitValue c) 0

/-- The number of digits after the first dot. -/
def placesOf (text : List Char) : Nat := ((text.dropWhile (· != '.')).drop 1).length

/-- The double nearest to a decimal literal. -/
def readDecimal (text : List Char) : Float :=
  Binary64.ofDecimal (digitsValue text) (placesOf text)

/-- The longest decimal literal among the first characters of a text, at most
the given number of them. -/
def longestDecimal (text : List Char) : Nat → Option (List Char)
  | 0 => none
  | n + 1 =>
    let candidate := text.take (n + 1)
    if isDecimal candidate then some candidate else longestDecimal text n

/-- The number that a run of digits and dots reads as: its longest decimal
literal from the start, or zero if there is none. -/
def read (text : List Char) : Float :=
  match longestDecimal text text.length with
  | some literal => readDecimal literal
  | none => Binary64.ofDecimal 0 0

end Reckon.Numeral
