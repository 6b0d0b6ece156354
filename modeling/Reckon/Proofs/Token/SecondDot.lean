import Reckon.Proofs.Binary64.Nearest
import Reckon.Proofs.Token.Numerals

/-!
# Numerals read up to their second dot

A numeral reads as the longest of its beginnings that is a decimal literal.  The beginnings that
go past the second dot are none, and if the text before that dot is none either then it has no
digit, so no shorter one is.  Hence the search finds the text before the second dot or nothing
(`Numeral.longestDecimal_length`), and the numeral reads as the double nearest to what that text
says, or as zero (`Numeral.read_run`).
-/

namespace Reckon.Numeral

/-- The text before the dot that has so many dots before it, or all of the text if there is none. -/
def beforeDot (dots : Nat) : List Char → List Char
  | [] => []
  | c :: rest =>
    if c ≠ '.' then c :: beforeDot dots rest
    else if dots = 0 then []
    else c :: beforeDot (dots - 1) rest

/-- The text before the second dot, or all of the text if there are not two of them. -/
def beforeSecondDot (text : List Char) : List Char := beforeDot 1 text

/-- What comes before a dot has as many dots as it should, and fewer only if it is all of the
text. -/
theorem beforeDot_cases (dots : Nat) (text : List Char) :
    (text = beforeDot dots text ∧ (beforeDot dots text).count '.' ≤ dots) ∨
      ∃ rest, text = beforeDot dots text ++ '.' :: rest ∧
        (beforeDot dots text).count '.' = dots := by
  induction text generalizing dots with
  | nil => exact Or.inl ⟨rfl, Nat.zero_le _⟩
  | cons c text ih =>
      unfold beforeDot
      by_cases hdot : c = '.'
      · subst hdot
        by_cases hzero : dots = 0
        · subst hzero
          exact Or.inr ⟨text, rfl, rfl⟩
        · rw [if_neg (by simp), if_neg hzero, List.count_cons_self]
          rcases ih (dots - 1) with ⟨htext, hcount⟩ | ⟨rest, htext, hcount⟩
          · exact Or.inl ⟨congrArg _ htext, by omega⟩
          · exact Or.inr ⟨rest, congrArg _ htext, by omega⟩
      · rw [if_pos hdot, List.count_cons_of_ne hdot]
        rcases ih dots with ⟨htext, hcount⟩ | ⟨rest, htext, hcount⟩
        · exact Or.inl ⟨congrArg _ htext, hcount⟩
        · exact Or.inr ⟨rest, congrArg _ htext, hcount⟩

theorem beforeSecondDot_isPrefix (text : List Char) : beforeSecondDot text <+: text := by
  rcases beforeDot_cases 1 text with ⟨htext, -⟩ | ⟨rest, htext, -⟩
  · exact ⟨[], (List.append_nil _).trans htext.symm⟩
  · exact ⟨_, htext.symm⟩

theorem count_beforeSecondDot_le (text : List Char) : (beforeSecondDot text).count '.' ≤ 1 := by
  rcases beforeDot_cases 1 text with ⟨-, hcount⟩ | ⟨-, -, hcount⟩
  · exact hcount
  · exact Nat.le_of_eq hcount

/-- The text before the second dot is a decimal literal if it has a digit. -/
theorem isDecimal_beforeSecondDot {text : List Char}
    (h : (beforeSecondDot text).any Char.isDigit = true) :
    isDecimal (beforeSecondDot text) = true := by
  rw [isDecimal, h, Bool.true_and, decide_eq_true_eq]
  exact count_beforeSecondDot_le text

/-- The text before the second dot of a numeral spells a number if it has a digit. -/
theorem spells_beforeSecondDot {run : List Char} (hrun : ∀ c ∈ run, isNumeralChar c = true)
    (h : (beforeSecondDot run).any Char.isDigit = true) :
    Spells (beforeSecondDot run) (digitsValue (beforeSecondDot run))
      (placesOf (beforeSecondDot run)) := by
  refine ⟨rfl, rfl, isDecimal_beforeSecondDot h, fun c hc => ?_, ?_⟩
  · exact hrun c ((beforeSecondDot_isPrefix run).subset hc)
  · intro hnil
    rw [hnil] at h
    cases h

/-- A beginning that goes past the second dot is no decimal literal. -/
theorem isDecimal_take_past (text : List Char) {k : Nat} (hpast : (beforeSecondDot text).length < k)
    (hk : k ≤ text.length) : isDecimal (text.take k) = false := by
  rcases beforeDot_cases 1 text with ⟨htext, -⟩ | ⟨rest, htext, hcount⟩
  · have hlength : text.length = (beforeSecondDot text).length := congrArg List.length htext
    omega
  · -- both dots are in the beginning
    have hdots : beforeSecondDot text ++ ['.'] <+: text.take k := by
      rw [List.prefix_take_iff, List.length_append]
      exact ⟨⟨rest, by rw [List.append_assoc]; exact htext.symm⟩, hpast⟩
    have hcounts := hdots.count_le '.'
    rw [List.count_append, beforeSecondDot, hcount] at hcounts
    rw [isDecimal, Bool.and_eq_false_iff]
    exact Or.inr (decide_eq_false (Nat.not_le_of_lt hcounts))

/-- A text without a digit is no decimal literal. -/
theorem isDecimal_of_no_digit {text : List Char} (h : text.any Char.isDigit = false) :
    isDecimal text = false := by
  rw [isDecimal, h, Bool.false_and]

/-- The search passes over beginnings that are no decimal literals. -/
theorem longestDecimal_skip {text : List Char} {m n : Nat} (hle : m ≤ n)
    (hnone : ∀ k, m < k → k ≤ n → isDecimal (text.take k) = false) :
    longestDecimal text n = longestDecimal text m := by
  induction n with
  | zero => rw [Nat.le_zero.mp hle]
  | succ n ih =>
      rcases Nat.lt_or_ge n m with hlt | hge
      · rw [Nat.le_antisymm hle hlt]
      · rw [longestDecimal, hnone (n + 1) (Nat.lt_succ_of_le hge) (Nat.le_refl _)]
        exact ih hge fun k hm hn => hnone k hm (Nat.le_succ_of_le hn)

/-- **The search finds the text before the second dot, or nothing if that has no digit.** -/
theorem longestDecimal_length (text : List Char) :
    longestDecimal text text.length =
      if (beforeSecondDot text).any Char.isDigit then some (beforeSecondDot text) else none := by
  have hbegins := beforeSecondDot_isPrefix text
  have htake : text.take (beforeSecondDot text).length = beforeSecondDot text :=
    (List.prefix_iff_eq_take.mp hbegins).symm
  rw [longestDecimal_skip hbegins.length_le fun k hm hn => isDecimal_take_past text hm hn]
  by_cases hdigit : (beforeSecondDot text).any Char.isDigit = true
  · obtain ⟨n, hn⟩ : ∃ n, (beforeSecondDot text).length = n + 1 := by
      obtain ⟨c, hc, -⟩ := List.any_eq_true.mp hdigit
      exact Nat.exists_eq_add_one.mpr (List.length_pos_of_mem hc)
    rw [if_pos hdigit, hn, longestDecimal, ← hn, htake,
      if_pos (isDecimal_beforeSecondDot hdigit)]
  · rw [if_neg hdigit]
    refine longestDecimal_skip (Nat.zero_le _) fun k _ hk => isDecimal_of_no_digit ?_
    rw [Bool.eq_false_iff, Ne, List.any_eq_true]
    rintro ⟨c, hc, hcdigit⟩
    have hmem : c ∈ beforeSecondDot text := by
      rw [← htake]
      exact List.take_subset_take_left text hk hc
    exact hdigit (List.any_eq_true.mpr ⟨c, hmem, hcdigit⟩)

/-- A numeral reads as the text before its second dot does, and as zero if that has no digit. -/
theorem read_eq (text : List Char) :
    read text = if (beforeSecondDot text).any Char.isDigit then readDecimal (beforeSecondDot text)
      else 0 := by
  rw [read, longestDecimal_length]
  split_ifs with hdigit
  · rfl
  · rfl

/-- Dots alone read as zero. -/
theorem read_of_no_digit {text : List Char}
    (h : (beforeSecondDot text).any Char.isDigit = false) : read text = 0 := by
  rw [read_eq, h]
  rfl

/-- **A run of digits and dots reads as the text before its second dot.**  If that text has a
digit, the search for the longest decimal literal ends with it, and the run reads as the double
nearest to the decimal number that it says; otherwise the search ends with nothing and the run
reads as zero.  So what comes from the second dot on does not matter, and neither two dots at the
start nor dots alone read as anything but zero. -/
theorem read_run {run : List Char} (hrun : ∀ c ∈ run, isNumeralChar c = true) :
    ((beforeSecondDot run).any Char.isDigit = true →
      longestDecimal run run.length = some (beforeSecondDot run) ∧
      ∃ digits places, Spells (beforeSecondDot run) digits places ∧
        ∀ x, read run = x ↔ Binary64.IsNearest digits (Binary64.tenTo places) x) ∧
    ((beforeSecondDot run).any Char.isDigit = false →
      longestDecimal run run.length = none ∧ read run = 0) ∧
    (∀ other, beforeSecondDot other = beforeSecondDot run → read other = read run) ∧
    (∀ rest, run = '.' :: '.' :: rest → read run = 0) ∧
    ((∀ c ∈ run, c = '.') → read run = 0) := by
  refine ⟨?_, ?_, ?_, ?_, ?_⟩
  · intro hdigit
    refine ⟨?_, _, _, spells_beforeSecondDot hrun hdigit, fun x => ?_⟩
    · rw [longestDecimal_length, if_pos hdigit]
    · rw [read_eq, if_pos hdigit]
      exact Binary64.nearest_eq_iff (Binary64.tenTo_pos _)
  · intro hdigit
    refine ⟨?_, read_of_no_digit hdigit⟩
    rw [longestDecimal_length, hdigit]
    rfl
  · intro other hother
    rw [read_eq, read_eq, hother]
  · rintro rest rfl
    exact read_of_no_digit rfl
  · intro hdots
    apply read_of_no_digit
    rw [Bool.eq_false_iff, Ne, List.any_eq_true]
    rintro ⟨c, hc, hdigit⟩
    rw [hdots c ((beforeSecondDot_isPrefix run).subset hc)] at hdigit
    cases hdigit

theorem read_run_thirdPart :
    let run := ['1', '.', '2', '.', '3']
    (∀ c ∈ run, isNumeralChar c = true) ∧ (beforeSecondDot run).any Char.isDigit = true ∧
      longestDecimal run run.length = some ['1', '.', '2'] ∧
      ∀ x, read run = x ↔ Binary64.IsNearest 12 (Binary64.tenTo 1) x := by
  intro run
  have hrun : ∀ c ∈ run, isNumeralChar c = true := List.all_eq_true.mp (by decide)
  have hdigit : (beforeSecondDot run).any Char.isDigit = true := by decide
  obtain ⟨hsearch, digits, places, hspells, hread⟩ := (read_run hrun).1 hdigit
  obtain rfl : 12 = digits := hspells.value
  obtain rfl : 1 = places := hspells.places
  exact ⟨hrun, hdigit, hsearch, hread⟩

end Reckon.Numeral
