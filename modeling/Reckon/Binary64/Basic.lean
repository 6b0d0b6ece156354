/-!
# The anatomy of a double

Every finite double is a whole number of units of `2 ^ -1074`, the least
positive double.  With that unit the exact value of a double is the natural
number `units`, and reading, printing and truncating are arithmetic on natural
numbers.

Only the bits below the sign matter here.  They are ordered as the magnitudes
are, and the pattern of infinity comes right after the greatest finite one.
-/

namespace Reckon.Binary64

/-- The unit in which `units` counts is the reciprocal of this number. -/
def scale : Nat := 1 <<< 1074

/-- The bit of the sign. -/
def signBit : Nat := 0x8000000000000000

/-- The leading bit of a fraction, which is not stored. -/
def leadingBit : Nat := 0x10000000000000

/-- The bits of infinity. -/
def infinityBits : Nat := 0x7FF0000000000000

/-- The bits below the sign. -/
def magnitudeBits (x : Float) : Nat := x.toBits.toNat % signBit

/-- Whether the sign bit is set. -/
def isNegative (x : Float) : Bool := signBit ≤ x.toBits.toNat

/-- The biased exponent of a pattern. -/
def exponentField (bits : Nat) : Nat := bits / leadingBit

/-- The fraction of a pattern, without its leading bit. -/
def fractionField (bits : Nat) : Nat := bits % leadingBit

/-- The value of a finite pattern in units of `2 ^ -1074`. -/
def unitsOfBits (bits : Nat) : Nat :=
  if exponentField bits = 0 then fractionField bits
  else (leadingBit + fractionField bits) <<< (exponentField bits - 1)

/-- The magnitude of a finite double in units of `2 ^ -1074`. -/
def units (x : Float) : Nat := unitsOfBits (magnitudeBits x)

/-- The magnitude of a finite double without its fraction. -/
def wholePart (x : Float) : Nat := units x / scale

/-- A pattern up to that of infinity is the double with exactly these bits. -/
def ofBits (bits : Nat) (h : bits ≤ infinityBits) : Float :=
  .ofModel ⟨.ofNatLT bits (by simp only [infinityBits, UInt64.size] at *; omega), ⟨by
    intro hexponent hfraction
    exfalso
    apply hfraction
    have he := congrArg BitVec.toNat hexponent
    apply BitVec.eq_of_toNat_eq
    simp only [infinityBits] at h
    simp [Float.Model.UnpackedFloat.unpackExponent, Float.Model.UnpackedFloat.unpackMantissa,
      Nat.shiftRight_eq_div_pow] at he ⊢
    omega⟩⟩

@[simp] theorem toBits_ofBits (bits : Nat) (h : bits ≤ infinityBits) :
    (ofBits bits h).toBits.toNat = bits := rfl

end Reckon.Binary64
