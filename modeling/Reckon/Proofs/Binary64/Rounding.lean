import Mathlib.Algebra.Group.Nat.Defs
import Reckon.Binary64.Plain

/-!
# Rounding finds a double again

A double is a whole number of units, so the fraction of its units and of the
scale rounds to its own pattern (`nearestBits_units`), and rounding sees the
value of a fraction only (`nearestBits_mul`).  The search for the plain text of
a double therefore ends with a decimal number that reads as the double
(`shortest_readsAs`).
-/

namespace Reckon.Binary64

theorem scale_pos : 0 < scale := by
  have h : ∀ n, 0 < 1 <<< n := fun n => by
    rw [Nat.one_shiftLeft]
    exact Nat.two_pow_pos n
  exact h _

theorem tenTo_pos (places : Nat) : 0 < tenTo places := Nat.pow_pos (by decide)

theorem roundHalfEven_mul {num den k : Nat} (hk : 0 < k) :
    roundHalfEven (num * k) (den * k) = roundHalfEven num den := by
  have htwice : 2 * (num * k % (den * k)) = 2 * (num % den) * k := by
    rw [Nat.mul_mod_mul_right, Nat.mul_assoc]
  unfold roundHalfEven
  simp only [htwice, Nat.mul_div_mul_right _ _ hk, Nat.mul_lt_mul_right hk]

theorem roundHalfEven_of_exact {num den : Nat} (hden : 0 < den) :
    roundHalfEven (num * den) den = num := by
  simp [roundHalfEven, Nat.mul_mod_left, hden, Nat.mul_div_cancel _ hden]

/-- Rounding depends on the value of a fraction only. -/
theorem nearestBits_mul {num den k : Nat} (hk : 0 < k) :
    nearestBits (num * k) (den * k) = nearestBits num den := by
  have hnum : num * k * scale = num * scale * k := by
    rw [Nat.mul_assoc, Nat.mul_comm k, ← Nat.mul_assoc]
  have hden : ∀ shift, (den * k) <<< shift = den <<< shift * k := by
    intro shift
    rw [Nat.shiftLeft_eq, Nat.shiftLeft_eq, Nat.mul_assoc, Nat.mul_comm k, ← Nat.mul_assoc]
  unfold nearestBits
  simp only [hnum, hden, Nat.mul_div_mul_right _ _ hk, roundHalfEven_mul hk]

/-- The number of units of a pattern, by its exponent: at most the leading bit
lies above the fraction, and the exponent shifts it. -/
theorem unitsOfBits_cases (bits : Nat) :
    (exponentField bits = 0 ∧ unitsOfBits bits = bits ∧ bits < leadingBit) ∨
      ∃ shift fraction, bits = (shift + 1) * leadingBit + fraction ∧ fraction < leadingBit ∧
        unitsOfBits bits = (leadingBit + fraction) <<< shift := by
  have hlead : 0 < leadingBit := by decide
  have hsplit : exponentField bits * leadingBit + fractionField bits = bits :=
    Nat.div_add_mod' bits leadingBit
  have hfraction : fractionField bits < leadingBit := Nat.mod_lt _ hlead
  by_cases hzero : exponentField bits = 0
  · rw [hzero] at hsplit
    refine Or.inl ⟨hzero, ?_, by omega⟩
    rw [unitsOfBits, if_pos hzero]
    omega
  · refine Or.inr ⟨exponentField bits - 1, fractionField bits, ?_, hfraction, ?_⟩
    · rw [Nat.sub_add_cancel (Nat.pos_of_ne_zero hzero)]
      exact hsplit.symm
    · rw [unitsOfBits, if_neg hzero]

/-- A mantissa that is shifted has its leading bit as far up. -/
theorem log2_shiftLeft_mantissa {shift fraction : Nat} (h : fraction < leadingBit) :
    ((leadingBit + fraction) <<< shift).log2 = 52 + shift := by
  have hlead : leadingBit = 2 ^ 52 := rfl
  have hpos : 0 < 2 ^ shift := Nat.two_pow_pos shift
  have hne : (leadingBit + fraction) <<< shift ≠ 0 := by
    rw [Nat.shiftLeft_eq]
    exact Nat.mul_ne_zero (by omega) (Nat.ne_of_gt hpos)
  rw [Nat.log2_eq_iff hne, Nat.shiftLeft_eq, Nat.pow_add, Nat.add_right_comm, Nat.pow_add]
  exact ⟨Nat.mul_le_mul_right _ (by omega), Nat.mul_lt_mul_of_pos_right (by omega) hpos⟩

/-- The exact value of a finite double rounds to its pattern. -/
theorem nearestBits_units {bits : Nat} (hfinite : bits < infinityBits) :
    nearestBits (unitsOfBits bits) scale = bits := by
  have hscale := scale_pos
  unfold nearestBits
  generalize scale = unit at hscale ⊢
  dsimp only
  rw [Nat.mul_div_cancel _ hscale]
  rcases unitsOfBits_cases bits with ⟨-, hunits, hlt⟩ | ⟨shift, fraction, hbits, hlt, hunits⟩
  · have hlead : leadingBit = 2 ^ 52 := rfl
    have hshift : bits.log2 - 52 = 0 := by
      by_cases hzero : bits = 0
      · subst hzero
        decide
      · have hlog := (Nat.log2_lt hzero).mpr (hlead ▸ hlt)
        omega
    rw [hunits, hshift, Nat.shiftLeft_zero, roundHalfEven_of_exact hscale, Nat.zero_mul,
      Nat.zero_add, Nat.min_eq_left (Nat.le_of_lt hfinite)]
  · have hshift : ((leadingBit + fraction) <<< shift).log2 - 52 = shift := by
      rw [log2_shiftLeft_mantissa hlt, Nat.add_sub_cancel_left]
    have hexact : (leadingBit + fraction) <<< shift * unit =
        (leadingBit + fraction) * (unit <<< shift) := by
      rw [Nat.shiftLeft_eq, Nat.shiftLeft_eq, Nat.mul_assoc, Nat.mul_comm (2 ^ shift)]
    have hpos : 0 < unit <<< shift := by
      rw [Nat.shiftLeft_eq]
      exact Nat.mul_pos hscale (Nat.two_pow_pos shift)
    have hpattern : shift * leadingBit + (leadingBit + fraction) = bits := by
      rw [hbits, Nat.succ_mul, Nat.add_assoc]
    rw [hunits, hshift, hexact, roundHalfEven_of_exact hpos, hpattern,
      Nat.min_eq_left (Nat.le_of_lt hfinite)]

theorem tenTo_eq (places : Nat) : tenTo places = 1 <<< places * 5 ^ places := by
  rw [Nat.one_shiftLeft, ← Nat.mul_pow]
  rfl

/-- The finest grid divides the units of doubles. -/
theorem tenTo_exactPlaces : tenTo exactPlaces = scale * 5 ^ exactPlaces := by
  have hscale : scale = 1 <<< exactPlaces := by
    unfold scale exactPlaces
    rfl
  rw [hscale, tenTo_eq]

/-- The finest grid holds the double itself. -/
theorem readsAs_exactDigits {x : Float} (hfinite : magnitudeBits x < infinityBits) :
    (⟨exactDigits x, 0⟩ : GridPoint).readsAs (magnitudeBits x) = true := by
  have hvalue : (⟨exactDigits x, 0⟩ : GridPoint).value = units x * 5 ^ exactPlaces := by
    have hunit : tenTo 0 = 1 := rfl
    unfold GridPoint.value exactDigits
    rw [hunit, Nat.mul_one, Nat.pow_eq]
  rw [GridPoint.readsAs, hvalue, tenTo_exactPlaces, nearestBits_mul (Nat.pow_pos (by decide)),
    beq_iff_eq]
  exact nearestBits_units hfinite

theorem gridNeighbour_reads {reads : GridPoint → Bool} {exact exponent : Nat} {point : GridPoint}
    (h : gridNeighbour reads exact exponent = some point) : reads point = true := by
  unfold gridNeighbour at h
  dsimp only at h
  split at h
  · next hlower hupper =>
      split at h
      · cases h
        exact hlower
      · cases h
        exact hupper
  · next hlower hupper =>
      cases h
      exact hlower
  · next hlower hupper =>
      cases h
      exact hupper
  · cases h

/-- The search ends with a point that reads back, if the finest point does. -/
theorem searchGrids_reads (reads : GridPoint → Bool) {exact : Nat}
    (hexact : reads ⟨exact, 0⟩ = true) (exponent : Nat) :
    reads (searchGrids reads exact exponent) = true := by
  induction exponent with
  | zero => exact hexact
  | succ exponent ih =>
      unfold searchGrids
      split
      · next point hpoint => exact gridNeighbour_reads hpoint
      · exact ih

theorem shortest_readsAs {x : Float} (hfinite : magnitudeBits x < infinityBits) :
    (shortest x).readsAs (magnitudeBits x) = true := by
  unfold shortest
  exact searchGrids_reads (fun point => point.readsAs (magnitudeBits x))
    (readsAs_exactDigits hfinite) _

/-- Only zero has no units. -/
theorem eq_zero_of_unitsOfBits {bits : Nat} (h : unitsOfBits bits = 0) : bits = 0 := by
  rcases unitsOfBits_cases bits with ⟨-, hunits, -⟩ | ⟨shift, fraction, -, -, hunits⟩
  · rw [← hunits, h]
  · rw [hunits, Nat.shiftLeft_eq] at h
    have hlead : 0 < leadingBit := by decide
    have hpos : 0 < (leadingBit + fraction) * 2 ^ shift :=
      Nat.mul_pos (by omega) (Nat.two_pow_pos shift)
    omega

theorem nearestBits_zero (den : Nat) : nearestBits 0 den = 0 := by
  have hround (den : Nat) : roundHalfEven 0 den = 0 := by
    simp [roundHalfEven]
  unfold nearestBits
  dsimp only
  rw [Nat.zero_mul, Nat.zero_div, hround]
  rfl

/-- The decimal number in positional notation is the decimal number itself. -/
theorem nearestBits_places (digits exponent places : Nat) :
    nearestBits (digits * tenTo (exponent - places)) (tenTo (places - exponent)) =
      nearestBits (digits * tenTo exponent) (tenTo places) := by
  have hadd (m n : Nat) : tenTo (m + n) = tenTo m * tenTo n := Nat.pow_add 10 m n
  by_cases hle : exponent ≤ places
  · have hzero : tenTo (exponent - places) = 1 := by
      rw [Nat.sub_eq_zero_of_le hle]
      rfl
    have hplaces : tenTo places = tenTo (places - exponent) * tenTo exponent := by
      rw [← hadd, Nat.sub_add_cancel hle]
    rw [hzero, hplaces, Nat.mul_one, nearestBits_mul (tenTo_pos exponent)]
  · have hzero : tenTo (places - exponent) = 1 := by
      rw [Nat.sub_eq_zero_of_le (by omega)]
      rfl
    have hexponent : tenTo exponent = tenTo (exponent - places) * tenTo places := by
      rw [← hadd, Nat.sub_add_cancel (by omega)]
    rw [hzero, hexponent, ← Nat.mul_assoc]
    have hmul : nearestBits (digits * tenTo (exponent - places) * tenTo places) (1 * tenTo places) =
        nearestBits (digits * tenTo (exponent - places)) 1 := nearestBits_mul (tenTo_pos places)
    rw [Nat.one_mul] at hmul
    exact hmul.symm

end Reckon.Binary64
