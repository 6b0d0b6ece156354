import Mathlib.Algebra.Group.Nat.Defs
import Reckon.Binary64.Basic

/-!
# Doubles and their bits

A double that is not negative is determined by the bits of its magnitude (`eq_ofBits`).  These
bits say what the double is: those of a finite double are below those of infinity
(`magnitudeBits_lt`), and those of any number are not above them (`magnitudeBits_le`).
-/

namespace Reckon.Binary64

/-- A double is determined by its bits. -/
theorem eq_of_toBits {x y : Float} (h : x.toBits = y.toBits) : x = y := by
  obtain ⟨⟨bits, valid⟩⟩ := x
  obtain ⟨⟨bits', valid'⟩⟩ := y
  obtain rfl : bits = bits' := h
  rfl

/-- A double that is not negative has the bits of its magnitude. -/
theorem toBits_of_not_negative {x : Float} (h : isNegative x = false) :
    x.toBits.toNat = magnitudeBits x := by
  have hlt : x.toBits.toNat < signBit := by simpa [isNegative] using h
  exact (Nat.mod_eq_of_lt hlt).symm

theorem eq_ofBits {x : Float} (hnegative : isNegative x = false) {bits : Nat}
    (hbits : magnitudeBits x = bits) (h : bits ≤ infinityBits) : x = ofBits bits h := by
  apply eq_of_toBits
  apply UInt64.toNat_inj.mp
  rw [toBits_of_not_negative hnegative, hbits, toBits_ofBits]

open Float.Model in
theorem toNat_unpackExponent (x : Float) :
    (@UnpackedFloat.unpackExponent Format.binary64 x.toModel.toBits.toBitVec).toNat =
      exponentField (magnitudeBits x) := by
  have hlt : x.toModel.toBits.toNat < 2 ^ 64 := x.toModel.toBits.toNat_lt
  have hbits : x.toBits.toNat = x.toModel.toBits.toNat := rfl
  simp [UnpackedFloat.unpackExponent, Nat.shiftRight_eq_div_pow, exponentField, magnitudeBits,
    signBit, leadingBit, hbits]
  omega

open Float.Model in
/-- From infinity on all bits of the exponent are set. -/
theorem unpackExponent_eq {x : Float} (h : infinityBits ≤ magnitudeBits x) :
    @UnpackedFloat.unpackExponent Format.binary64 x.toModel.toBits.toBitVec = -1#11 := by
  have hlt : magnitudeBits x < signBit := Nat.mod_lt _ (by decide)
  apply BitVec.eq_of_toNat_eq
  rw [toNat_unpackExponent]
  change _ = 2047
  simp only [exponentField, infinityBits, leadingBit, signBit] at *
  omega

open Float.Model in
/-- A finite double has a pattern below that of infinity. -/
theorem magnitudeBits_lt {x : Float} (h : x.isFinite = true) :
    magnitudeBits x < infinityBits := by
  apply Nat.lt_of_not_le
  intro hge
  -- the double is infinite or not a number
  have hunpack : UnpackedFloat.unpack Format.binary64 x.toModel.toBits.toBitVec = _ :=
    if_pos (unpackExponent_eq hge)
  change (UnpackedFloat.unpack Format.binary64 x.toModel.toBits.toBitVec).isFinite = true at h
  rw [hunpack] at h
  split at h
  · cases h
  · cases h

theorem isNaN_eq_false {x : Float} (h : x.isFinite = true) : x.isNaN = false := by
  change x.toModel.unpack.isNaN = false
  change x.toModel.unpack.isFinite = true at h
  cases hx : x.toModel.unpack with
  | notANumber =>
      rw [hx] at h
      cases h
  | _ => rfl

open Float.Model in
theorem toNat_unpackMantissa (x : Float) :
    (@UnpackedFloat.unpackMantissa Format.binary64 x.toModel.toBits.toBitVec).toNat =
      fractionField (magnitudeBits x) := by
  have hbits : x.toBits.toNat = x.toModel.toBits.toNat := rfl
  simp [UnpackedFloat.unpackMantissa, fractionField, magnitudeBits, signBit, leadingBit, hbits]

open Float.Model in
/-- A pattern up to that of infinity is a number. -/
theorem isNaN_of_magnitudeBits_le {x : Float} (h : magnitudeBits x ≤ infinityBits) :
    x.isNaN = false := by
  change (UnpackedFloat.unpack Format.binary64 x.toModel.toBits.toBitVec).isNaN = false
  have hexponent := toNat_unpackExponent x
  have hmantissa := toNat_unpackMantissa x
  unfold UnpackedFloat.unpack
  dsimp only
  by_cases hones : @UnpackedFloat.unpackExponent Format.binary64 x.toModel.toBits.toBitVec = -1#11
  · -- all bits of the exponent are set, so the pattern is that of infinity
    have hfield : exponentField (magnitudeBits x) = 2047 := by
      rw [← hexponent, hones]
      rfl
    have hzero :
        @UnpackedFloat.unpackMantissa Format.binary64 x.toModel.toBits.toBitVec = 0#52 := by
      apply BitVec.eq_of_toNat_eq
      rw [hmantissa]
      change _ = 0
      simp only [exponentField, fractionField, infinityBits, leadingBit] at *
      omega
    rw [if_pos hones, if_pos hzero]
    rfl
  · rw [if_neg hones]
    by_cases hsubnormal :
        @UnpackedFloat.unpackExponent Format.binary64 x.toModel.toBits.toBitVec = 0#11
    · rw [if_pos hsubnormal]
      by_cases hzero :
          @UnpackedFloat.unpackMantissa Format.binary64 x.toModel.toBits.toBitVec = 0#52
      · rw [dif_pos hzero]
        rfl
      · rw [dif_neg hzero]
        rfl
    · rw [if_neg hsubnormal]
      rfl

theorem isNaN_ofBits {bits : Nat} (h : bits ≤ infinityBits) : (ofBits bits h).isNaN = false := by
  apply isNaN_of_magnitudeBits_le
  rw [magnitudeBits, toBits_ofBits]
  exact Nat.le_trans (Nat.mod_le _ _) h

theorem isNegative_ofBits {bits : Nat} (h : bits ≤ infinityBits) :
    isNegative (ofBits bits h) = false := by
  have hlt : infinityBits < signBit := by decide
  rw [isNegative, toBits_ofBits]
  exact decide_eq_false (by omega)

theorem magnitudeBits_ofBits {bits : Nat} (h : bits ≤ infinityBits) :
    magnitudeBits (ofBits bits h) = bits := by
  have hlt : infinityBits < signBit := by decide
  rw [magnitudeBits, toBits_ofBits, Nat.mod_eq_of_lt (by omega)]

open Float.Model in
/-- A number has a pattern up to that of infinity. -/
theorem magnitudeBits_le {x : Float} (h : x.isNaN = false) : magnitudeBits x ≤ infinityBits := by
  apply Nat.le_of_not_lt
  intro hgt
  have hlt : magnitudeBits x < signBit := Nat.mod_lt _ (by decide)
  have hfraction :
      @UnpackedFloat.unpackMantissa Format.binary64 x.toModel.toBits.toBitVec ≠ 0#52 := by
    intro hzero
    have hnat := congrArg BitVec.toNat hzero
    rw [toNat_unpackMantissa] at hnat
    change _ = 0 at hnat
    simp only [fractionField, infinityBits, leadingBit, signBit] at *
    omega
  change (UnpackedFloat.unpack Format.binary64 x.toModel.toBits.toBitVec).isNaN = false at h
  unfold UnpackedFloat.unpack at h
  dsimp only at h
  rw [if_pos (unpackExponent_eq (Nat.le_of_lt hgt)), if_neg hfraction] at h
  cases h

end Reckon.Binary64
