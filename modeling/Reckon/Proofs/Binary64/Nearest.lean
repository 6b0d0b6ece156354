import Mathlib.Data.Nat.Dist
import Reckon.Proofs.Binary64.Bits
import Reckon.Proofs.Binary64.Rounding

/-!
# The nearest double

The key fact is about one exponent: doubles with that exponent are the multiples of a power of
two, and every other multiple is further from the fraction than the rounded one, or as far and
then the rounded one is even (`roundHalfEven_offset`).  Doubles with greater exponents are such
multiples as well, and those with smaller exponents are further below.  So the same is true of
patterns and of the one that rounding ends with (`nearestBits_gap`).  Infinity takes part as the
power of two after the greatest finite double.  There is only one such double, so rounding is
determined by this law (`nearest_eq_iff`).
-/

namespace Reckon.Binary64

/-- How far a whole number is from a fraction, in units of the reciprocal of the denominator. -/
def offset (num den n : Nat) : Nat := Nat.dist (n * den) num

/-- How far the magnitude of a pattern is from a fraction, in such units of the least positive
double. -/
def gap (num den bits : Nat) : Nat := offset (num * scale) den (unitsOfBits bits)

section Patterns

variable {num den : Nat}

/-- A multiple of a unit is as far from a fraction as its factor is from the fraction divided by
the unit. -/
theorem offset_mul (num den n unit : Nat) :
    offset num den (n * unit) = offset num (den * unit) n := by
  rw [offset, offset, Nat.mul_assoc, Nat.mul_comm unit]

/-- Every other whole number is further from a fraction than the rounded one, or as far if the
rounded one is even. -/
theorem roundHalfEven_offset (hden : 0 < den) {k : Nat} (hk : k ≠ roundHalfEven num den) :
    offset num den (roundHalfEven num den) < offset num den k ∨
      offset num den (roundHalfEven num den) = offset num den k ∧
        roundHalfEven num den % 2 = 0 := by
  have hsplit : num / den * den + num % den = num := Nat.div_add_mod' num den
  have hmod : num % den < den := Nat.mod_lt num hden
  have hnext : (num / den + 1) * den = num / den * den + den := Nat.succ_mul _ _
  have hstep {a b : Nat} (hlt : a < b) : a * den + den ≤ b * den := by
    rw [← Nat.succ_mul]
    exact Nat.mul_le_mul_right den hlt
  unfold roundHalfEven at hk ⊢
  unfold offset Nat.dist
  dsimp only at hk ⊢
  by_cases hbelow : 2 * (num % den) < den
  · rw [if_pos hbelow] at hk ⊢
    rcases Nat.lt_or_gt_of_ne hk with hlt | hlt
    · have hmul := hstep hlt
      omega
    · have hmul := hstep hlt
      omega
  · by_cases habove : den < 2 * (num % den)
    · rw [if_neg hbelow, if_pos habove] at hk ⊢
      rcases Nat.lt_or_gt_of_ne hk with hlt | hlt
      · have hmul := hstep hlt
        omega
      · have hmul := hstep hlt
        omega
    · -- a tie: both neighbours are half a unit away, and the even one has been chosen
      rw [if_neg hbelow, if_neg habove] at hk ⊢
      have heven : (num / den + num / den % 2) % 2 = 0 := by omega
      have hround : (num / den + num / den % 2) * den = num / den * den ∨
          (num / den + num / den % 2) * den = num / den * den + den := by
        rcases Nat.mod_two_eq_zero_or_one (num / den) with hparity | hparity
        · rw [hparity, Nat.add_zero]
          exact Or.inl rfl
        · rw [hparity]
          exact Or.inr hnext
      have hside : k * den ≤ num / den * den ∨ num / den * den + den ≤ k * den := by
        rcases Nat.lt_or_ge (num / den) k with hlt | hle
        · exact Or.inr (hstep hlt)
        · exact Or.inl (Nat.mul_le_mul_right den hle)
      omega

/-- No whole number is nearer to a fraction than the rounded one. -/
theorem roundHalfEven_nearest (hden : 0 < den) (k : Nat) :
    offset num den (roundHalfEven num den) ≤ offset num den k := by
  by_cases hk : k = roundHalfEven num den
  · rw [hk]
  · have hcases := roundHalfEven_offset hden hk
    omega

theorem roundHalfEven_bounds (num den : Nat) :
    num / den ≤ roundHalfEven num den ∧ roundHalfEven num den ≤ num / den + 1 := by
  unfold roundHalfEven
  dsimp only
  split
  · omega
  · split
    · omega
    · omega

/-- A pattern as an exponent and a mantissa: the leading bit is there unless the exponent is the
least. -/
theorem exists_mantissa (bits : Nat) :
    ∃ shift mantissa, bits = shift * leadingBit + mantissa ∧
      (shift = 0 ∨ leadingBit ≤ mantissa) ∧ mantissa < 2 * leadingBit := by
  rcases unitsOfBits_cases bits with ⟨-, -, hlt⟩ | ⟨shift, fraction, hbits, hlt, -⟩
  · exact ⟨0, bits, by omega, Or.inl rfl, by omega⟩
  · refine ⟨shift, leadingBit + fraction, ?_, Or.inr (Nat.le_add_right _ _), by omega⟩
    rw [hbits, Nat.succ_mul, Nat.add_assoc]

/-- The units of a mantissa with an exponent.  A mantissa that has grown to the next power of two
carries into the exponent. -/
theorem unitsOfBits_mantissa {shift mantissa : Nat} (hlead : shift = 0 ∨ leadingBit ≤ mantissa)
    (hmantissa : mantissa ≤ 2 * leadingBit) :
    unitsOfBits (shift * leadingBit + mantissa) = mantissa * 2 ^ shift := by
  simp only [unitsOfBits, exponentField, fractionField, leadingBit, Nat.shiftLeft_eq] at *
  by_cases hsubnormal : mantissa < 0x10000000000000
  · obtain rfl : shift = 0 := by omega
    rw [if_pos (by omega)]
    omega
  · rw [if_neg (by omega)]
    by_cases hcarry : mantissa = 2 * 0x10000000000000
    · subst hcarry
      have hshift : (shift * 0x10000000000000 + 2 * 0x10000000000000) / 0x10000000000000 - 1 =
          shift + 1 := by omega
      have hfraction :
          (shift * 0x10000000000000 + 2 * 0x10000000000000) % 0x10000000000000 = 0 := by omega
      rw [hshift, hfraction, Nat.pow_succ]
      omega
    · have hshift : (shift * 0x10000000000000 + mantissa) / 0x10000000000000 - 1 = shift := by
        omega
      have hfraction : 0x10000000000000 + (shift * 0x10000000000000 + mantissa) %
          0x10000000000000 = mantissa := by omega
      rw [hshift, hfraction]

theorem unitsOfBits_strictMono : StrictMono unitsOfBits := by
  apply strictMono_nat_of_lt_succ
  intro bits
  obtain ⟨shift, mantissa, rfl, hlead, hlt⟩ := exists_mantissa bits
  have hpos : 0 < 2 ^ shift := Nat.two_pow_pos shift
  rw [Nat.add_assoc, unitsOfBits_mantissa hlead (by omega), unitsOfBits_mantissa (by omega) hlt,
    Nat.succ_mul]
  omega

/-- With a smaller exponent no mantissa reaches the leading bit with the greater one. -/
theorem mantissa_mul_lt {shift other mantissa : Nat} (hlt : mantissa < 2 * leadingBit)
    (hbelow : other < shift) : mantissa * 2 ^ other < leadingBit * 2 ^ shift :=
  calc mantissa * 2 ^ other
      < 2 * leadingBit * 2 ^ other := Nat.mul_lt_mul_of_pos_right hlt (Nat.two_pow_pos other)
    _ = leadingBit * 2 ^ (other + 1) := by
      rw [Nat.pow_succ', Nat.mul_comm 2 leadingBit, Nat.mul_assoc]
    _ ≤ leadingBit * 2 ^ shift :=
      Nat.mul_le_mul_left _ (Nat.pow_le_pow_right (by decide) hbelow)

/-- A fraction has a mantissa for the exponent that it is rounded with. -/
theorem quotient_bounds (units : Nat) :
    units / 2 ^ (units.log2 - 52) < 2 * leadingBit ∧
      (units.log2 - 52 = 0 ∨ leadingBit ≤ units / 2 ^ (units.log2 - 52)) := by
  have hlead : leadingBit = 2 ^ 52 := rfl
  have hpos : 0 < 2 ^ (units.log2 - 52) := Nat.two_pow_pos _
  constructor
  · rw [Nat.div_lt_iff_lt_mul hpos, hlead, ← Nat.pow_succ', ← Nat.pow_add]
    exact Nat.lt_log2_self.trans_le (Nat.pow_le_pow_right (by decide) (by omega))
  · by_cases hshift : units.log2 - 52 = 0
    · exact Or.inl hshift
    · have hne : units ≠ 0 := by
        rintro rfl
        exact hshift rfl
      have hlog : 52 + (units.log2 - 52) = units.log2 := by omega
      rw [Nat.le_div_iff_mul_le hpos, hlead, ← Nat.pow_add, hlog]
      exact Or.inr (Nat.log2_self_le hne)

/-- The pattern that a fraction would round to if there were no greatest finite double. -/
def roundedBits (num den : Nat) : Nat :=
  let shift := (num * scale / den).log2 - 52
  shift * leadingBit + roundHalfEven (num * scale) (den <<< shift)

/-- Every other pattern is further from a fraction than the rounded one, or as far if the rounded
one is even. -/
theorem roundedBits_gap (hden : 0 < den) {bits : Nat} (hbits : bits ≠ roundedBits num den) :
    gap num den (roundedBits num den) < gap num den bits ∨
      gap num den (roundedBits num den) = gap num den bits ∧ roundedBits num den % 2 = 0 := by
  have hquotient := quotient_bounds (num * scale / den)
  unfold gap
  unfold roundedBits at hbits ⊢
  dsimp only at hbits ⊢
  generalize hshift : (num * scale / den).log2 - 52 = shift at *
  generalize num * scale = exact at *
  rw [Nat.shiftLeft_eq] at hbits ⊢
  have hpos : 0 < den * 2 ^ shift := Nat.mul_pos hden (Nat.two_pow_pos shift)
  have hround := roundHalfEven_bounds exact (den * 2 ^ shift)
  rw [Nat.div_div_eq_div_mul] at hquotient
  have hunits : unitsOfBits (shift * leadingBit + roundHalfEven exact (den * 2 ^ shift)) =
      roundHalfEven exact (den * 2 ^ shift) * 2 ^ shift :=
    unitsOfBits_mantissa (by omega) (by omega)
  rw [hunits, offset_mul]
  obtain ⟨other, mantissa, rfl, hlead, hlt⟩ := exists_mantissa bits
  have hother := unitsOfBits_mantissa hlead (Nat.le_of_lt hlt)
  rw [hother]
  rcases Nat.lt_or_ge other shift with hbelow | habove
  · -- the leading bit alone is a multiple between the pattern and the fraction
    have hexact : leadingBit * 2 ^ shift * den ≤ exact := by
      have hle := hquotient.2.resolve_left (by omega)
      rw [Nat.le_div_iff_mul_le hpos] at hle
      rwa [Nat.mul_assoc, Nat.mul_comm (2 ^ shift)]
    have hnearer : offset exact (den * 2 ^ shift) leadingBit <
        offset exact den (mantissa * 2 ^ other) := by
      have hmul := Nat.mul_lt_mul_of_pos_right (mantissa_mul_lt hlt hbelow) hden
      rw [← offset_mul]
      unfold offset Nat.dist
      omega
    exact Or.inl (Nat.lt_of_le_of_lt (roundHalfEven_nearest hpos leadingBit) hnearer)
  · -- the pattern is a multiple of the same power of two
    have hmultiple : mantissa * 2 ^ other = mantissa * 2 ^ (other - shift) * 2 ^ shift := by
      rw [Nat.mul_assoc, ← Nat.pow_add, Nat.sub_add_cancel habove]
    have hne : mantissa * 2 ^ (other - shift) ≠ roundHalfEven exact (den * 2 ^ shift) := by
      intro heq
      apply hbits
      apply unitsOfBits_strictMono.injective
      rw [hother, hunits, hmultiple, heq]
    rw [hmultiple, offset_mul]
    refine (roundHalfEven_offset hpos hne).imp_right fun htie => ⟨htie.1, ?_⟩
    simp only [leadingBit]
    omega

/-- **Every other pattern up to that of infinity is further from a fraction than the nearest one,
or as far if the nearest one is even.** -/
theorem nearestBits_gap (hden : 0 < den) {bits : Nat} (hinfinity : bits ≤ infinityBits)
    (hbits : bits ≠ nearestBits num den) :
    gap num den (nearestBits num den) < gap num den bits ∨
      gap num den (nearestBits num den) = gap num den bits ∧ nearestBits num den % 2 = 0 := by
  have hmin : nearestBits num den = min (roundedBits num den) infinityBits := rfl
  rw [hmin] at hbits ⊢
  rcases Nat.lt_or_ge infinityBits (roundedBits num den) with hlt | hge
  · rw [Nat.min_eq_right (Nat.le_of_lt hlt)] at hbits ⊢
    have hrounded := roundedBits_gap hden (Nat.ne_of_lt hlt)
    have habove := Nat.mul_lt_mul_of_pos_right (unitsOfBits_strictMono hlt) hden
    have hbelow := Nat.mul_lt_mul_of_pos_right
      (unitsOfBits_strictMono (Nat.lt_of_le_of_ne hinfinity hbits)) hden
    -- the fraction is not below infinity, or rounding would not have gone past it
    unfold gap offset Nat.dist at hrounded ⊢
    omega
  · rw [Nat.min_eq_left hge] at hbits ⊢
    exact roundedBits_gap hden hbits

/-- A pattern between two others that are equally far from a fraction is nearer than they are. -/
theorem gap_between (hden : 0 < den) {lower bits upper : Nat} (hlower : lower < bits)
    (hupper : bits < upper) (heq : gap num den lower = gap num den upper) :
    gap num den bits < gap num den lower := by
  have hbelow := Nat.mul_lt_mul_of_pos_right (unitsOfBits_strictMono hlower) hden
  have habove := Nat.mul_lt_mul_of_pos_right (unitsOfBits_strictMono hupper) hden
  unfold gap offset Nat.dist at *
  omega

end Patterns

/-- A double is the one that a fraction rounds to: it is a number that is not negative, and every
other one is further from the fraction, or as far if the double is even.  Infinity is as far as
the power of two after the greatest finite double. -/
structure IsNearest (num den : Nat) (x : Float) : Prop where
  number : x.isNaN = false
  positive : isNegative x = false
  nearest : ∀ y : Float, y.isNaN = false → isNegative y = false → y ≠ x →
    gap num den (magnitudeBits x) < gap num den (magnitudeBits y) ∨
      gap num den (magnitudeBits x) = gap num den (magnitudeBits y) ∧ magnitudeBits x % 2 = 0

namespace IsNearest

variable {num den : Nat} {x y : Float}

theorem magnitudeBits_not_lt (hden : 0 < den) (hx : IsNearest num den x)
    (hy : IsNearest num den y) : ¬magnitudeBits x < magnitudeBits y := by
  intro hlt
  have hne : y ≠ x := by
    rintro rfl
    exact Nat.lt_irrefl _ hlt
  have hcases := hx.nearest y hy.number hy.positive hne
  have hcases' := hy.nearest x hx.number hx.positive hne.symm
  -- both are even and equally far from the fraction, so the double after the lower one is between
  have hinfinity : magnitudeBits x + 1 ≤ infinityBits := hlt.trans_le (magnitudeBits_le hy.number)
  have hnext : ofBits (magnitudeBits x + 1) hinfinity ≠ x := by
    intro heq
    have hbits := congrArg magnitudeBits heq
    rw [magnitudeBits_ofBits] at hbits
    omega
  have hupper : magnitudeBits x + 1 < magnitudeBits y := by omega
  have htie : gap num den (magnitudeBits x) = gap num den (magnitudeBits y) := by omega
  have hbetween := gap_between hden (Nat.lt_add_one _) hupper htie
  have hfurther := hx.nearest _ (isNaN_ofBits hinfinity) (isNegative_ofBits hinfinity) hnext
  rw [magnitudeBits_ofBits] at hfurther
  omega

/-- A fraction rounds to one double only. -/
theorem unique (hden : 0 < den) (hx : IsNearest num den x) (hy : IsNearest num den y) : x = y := by
  have hbits : magnitudeBits x = magnitudeBits y := by
    have hle := hx.magnitudeBits_not_lt hden hy
    have hge := hy.magnitudeBits_not_lt hden hx
    omega
  rw [eq_ofBits hx.positive hbits (magnitudeBits_le hy.number),
    ← eq_ofBits hy.positive rfl (magnitudeBits_le hy.number)]

end IsNearest

theorem magnitudeBits_nearest (num den : Nat) :
    magnitudeBits (nearest num den) = nearestBits num den :=
  magnitudeBits_ofBits (Nat.min_le_right _ _)

/-- **Rounding finds the nearest double.** -/
theorem nearest_eq_iff {num den : Nat} {x : Float} (hden : 0 < den) :
    nearest num den = x ↔ IsNearest num den x := by
  have hnearest : IsNearest num den (nearest num den) := by
    refine ⟨isNaN_ofBits _, isNegative_ofBits _, fun y hnumber hpositive hne => ?_⟩
    have hinfinity := magnitudeBits_le hnumber
    have hbits : magnitudeBits y ≠ nearestBits num den := fun heq =>
      hne (eq_ofBits hpositive heq (Nat.min_le_right _ _))
    rw [magnitudeBits_nearest]
    exact nearestBits_gap hden hinfinity hbits
  constructor
  · rintro rfl
    exact hnearest
  · exact hnearest.unique hden

end Reckon.Binary64
