import Mathlib.Data.List.TakeWhile
import Reckon.Proofs.Binary64.Bits
import Reckon.Proofs.Binary64.Rounding
import Reckon.Token.Numeral

/-!
# Numerals of doubles

The plain text of a finite double that is not negative is a numeral, and it
reads as that double (`Numeral.read_plain`): positional notation spells the
digits and the places that it was given, and the decimal number that they stand
for is the one that the search for the plain text ended with.  In turn, every
numeral reads as a number that is not negative (`Numeral.read_isNumber`).
-/

namespace Reckon

namespace Numeral

open Binary64

theorem isDigit_of_mem_digitChars {n : Nat} {c : Char} (h : c ∈ digitChars n) :
    c.isDigit = true :=
  Nat.isDigit_of_mem_toDigits (by decide) (by decide) h

theorem digitChars_ne_nil (n : Nat) : digitChars n ≠ [] := Nat.toDigits_ne_nil

/-- The digits of a numeral read from the left. -/
theorem digitsValue_eq (text : List Char) :
    digitsValue text = Nat.ofDigitChars 10 (text.filter Char.isDigit) 0 := rfl

theorem positional_zero (digits : Nat) : positional digits 0 = digitChars digits := by
  have hone : tenTo 0 = 1 := rfl
  simp [positional, hone]

/-- Positional notation: some digits, and after a dot as many more as there are
places, unless there are none. -/
theorem positional_cases (digits places : Nat) :
    (places = 0 ∧ positional digits places = digitChars digits) ∨
      ∃ fraction : List Char, (∀ c ∈ fraction, c.isDigit = true) ∧ fraction.length = places ∧
        Nat.ofDigitChars 10 fraction 0 = digits % tenTo places ∧
        positional digits places = digitChars (digits / tenTo places) ++ '.' :: fraction := by
  by_cases hplaces : places = 0
  · subst hplaces
    exact Or.inl ⟨rfl, positional_zero digits⟩
  · have hlt : digits % tenTo places < 10 ^ places := Nat.mod_lt _ (tenTo_pos places)
    have hlength : (digitChars (digits % tenTo places)).length ≤ places :=
      (Nat.length_toDigits_le_iff (by decide) (by omega)).mpr hlt
    refine Or.inr ⟨List.replicate (places - (digitChars (digits % tenTo places)).length) '0' ++
      digitChars (digits % tenTo places), ?_, ?_, ?_, ?_⟩
    · intro c hc
      rcases List.mem_append.mp hc with hzero | hdigit
      · rw [List.eq_of_mem_replicate hzero]
        rfl
      · exact isDigit_of_mem_digitChars hdigit
    · simp only [List.length_append, List.length_replicate]
      omega
    · rw [Nat.ofDigitChars_append, Nat.ofDigitChars_replicate_zero, Nat.mul_zero]
      exact Nat.ofDigitChars_ten_toDigits
    · simp [positional, hplaces]

theorem filter_digits {text : List Char} (h : ∀ c ∈ text, c.isDigit = true) :
    text.filter Char.isDigit = text := List.filter_eq_self.mpr h

theorem ne_dot_of_isDigit {c : Char} (h : c.isDigit = true) : c ≠ '.' := by
  rintro rfl
  cases h

/-- What positional notation says: its digits and its places, as a decimal
literal of digits and dots that begins with a digit. -/
structure Spells (text : List Char) (digits places : Nat) : Prop where
  value : digitsValue text = digits
  places : placesOf text = places
  decimal : isDecimal text = true
  chars : ∀ c ∈ text, isNumeralChar c = true
  nonempty : text ≠ []

theorem positional_spells (digits places : Nat) :
    Spells (positional digits places) digits places := by
  have hdigits (n : Nat) : ∀ c ∈ digitChars n, c.isDigit = true :=
    fun c => isDigit_of_mem_digitChars
  have hnodot {text : List Char} (h : ∀ c ∈ text, c.isDigit = true) : text.count '.' = 0 := by
    apply List.count_eq_zero.mpr
    intro hmem
    exact ne_dot_of_isDigit (h '.' hmem) rfl
  have hany (n : Nat) (rest : List Char) : (digitChars n ++ rest).any Char.isDigit = true := by
    obtain ⟨c, hc⟩ := List.exists_mem_of_ne_nil _ (digitChars_ne_nil n)
    exact List.any_eq_true.mpr ⟨c, List.mem_append_left _ hc, hdigits n c hc⟩
  rcases positional_cases digits places with
    ⟨rfl, htext⟩ | ⟨fraction, hfraction, rfl, hvalue, htext⟩
  · rw [htext]
    refine ⟨?_, ?_, ?_, ?_, digitChars_ne_nil digits⟩
    · rw [digitsValue_eq, filter_digits (hdigits digits)]
      exact Nat.ofDigitChars_ten_toDigits
    · unfold placesOf
      rw [List.dropWhile_eq_nil_iff.mpr]
      · rfl
      · intro c hc
        simpa using ne_dot_of_isDigit (hdigits digits c hc)
    · have hsome := hany digits []
      rw [List.append_nil] at hsome
      simp [isDecimal, hsome, hnodot (hdigits digits)]
    · intro c hc
      simp [isNumeralChar, hdigits digits c hc]
  · rw [htext]
    generalize hwhole : digits / tenTo fraction.length = whole
    refine ⟨?_, ?_, ?_, ?_, by simp⟩
    · have hdot : ('.' : Char).isDigit = false := rfl
      rw [digitsValue_eq, List.filter_append, List.filter_cons_of_neg (by simp [hdot]),
        filter_digits (hdigits whole), filter_digits hfraction, Nat.ofDigitChars_append,
        Nat.ofDigitChars_eq_ofDigitChars_zero, hvalue]
      have hread : Nat.ofDigitChars 10 (digitChars whole) 0 = whole := Nat.ofDigitChars_ten_toDigits
      rw [hread, ← hwhole]
      exact Nat.div_add_mod digits (tenTo fraction.length)
    · unfold placesOf
      rw [List.dropWhile_append_of_pos]
      · simp
      · intro c hc
        simpa using ne_dot_of_isDigit (hdigits whole c hc)
    · simp [isDecimal, hany, hnodot (hdigits whole), hnodot hfraction]
    · intro c hc
      rcases List.mem_append.mp hc with hmem | hmem
      · simp [isNumeralChar, hdigits whole c hmem]
      · rcases List.mem_cons.mp hmem with rfl | hmem
        · rfl
        · simp [isNumeralChar, hfraction c hmem]

/-- A decimal literal is read whole. -/
theorem read_of_spells {text : List Char} {digits places : Nat} (h : Spells text digits places) :
    read text = ofDecimal digits places := by
  obtain ⟨n, hn⟩ : ∃ n, text.length = n + 1 :=
    Nat.exists_eq_succ_of_ne_zero fun hzero => h.nonempty (List.length_eq_zero_iff.mp hzero)
  have hliteral : longestDecimal text text.length = some text := by
    rw [hn, longestDecimal, ← hn, List.take_length, if_pos h.decimal]
  rw [read, hliteral]
  simp only [readDecimal, h.value, h.places]

/-- The text of a decimal number says the number. -/
theorem spells_text (g : GridPoint) :
    Spells g.text (g.digits * tenTo (g.exponent - exactPlaces)) (exactPlaces - g.exponent) :=
  positional_spells _ _

/-- What the plain text of a finite double that is not negative says. -/
theorem plain_spells {x : Float} (hfinite : x.isFinite = true) (hpositive : isNegative x = false) :
    ∃ digits places, Spells (plain x).toList digits places ∧ ofDecimal digits places = x := by
  have hbits := magnitudeBits_lt hfinite
  have hplain : (plain x).toList = plainMagnitude x := by
    simp only [plain, isNaN_eq_false hfinite, hpositive, Bool.false_eq_true, if_false,
      String.toList_ofList]
  rw [hplain, plainMagnitude]
  by_cases hzero : units x = 0
  · rw [if_pos hzero]
    refine ⟨0, 0, positional_spells 0 0, ?_⟩
    have hbits : magnitudeBits x = nearestBits 0 (tenTo 0) := by
      rw [eq_zero_of_unitsOfBits hzero, nearestBits_zero]
    exact (eq_ofBits hpositive hbits (Nat.min_le_right _ _)).symm
  · rw [if_neg hzero, if_neg (Nat.not_le.mpr hbits)]
    refine ⟨_, _, spells_text (shortest x), ?_⟩
    have hread := shortest_readsAs hbits
    rw [GridPoint.readsAs, GridPoint.value, beq_iff_eq, ← nearestBits_places] at hread
    exact (eq_ofBits hpositive hread.symm (Nat.min_le_right _ _)).symm

/-- **A double is read back from its plain text.** -/
theorem read_plain {x : Float} (hfinite : x.isFinite = true) (hpositive : isNegative x = false) :
    read (plain x).toList = x := by
  obtain ⟨digits, places, hspells, hx⟩ := plain_spells hfinite hpositive
  rw [read_of_spells hspells, hx]

/-- Whatever its characters are, a numeral reads as a number that is not negative. -/
theorem read_isNumber (text : List Char) :
    (read text).isNaN = false ∧ isNegative (read text) = false := by
  obtain ⟨digits, places, hread⟩ : ∃ digits places, read text = ofDecimal digits places := by
    unfold read
    split <;> exact ⟨_, _, rfl⟩
  rw [hread]
  exact ⟨isNaN_ofBits (Nat.min_le_right _ _), isNegative_ofBits (Nat.min_le_right _ _)⟩

end Numeral

end Reckon
