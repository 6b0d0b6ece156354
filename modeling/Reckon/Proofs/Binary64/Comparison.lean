import Reckon.Machine.Frame

/-!
# Comparing numbers

Two numbers compare in one way and, exchanged, in the opposite way, unless one
of them is not a number: then they do not compare at all.  So "not at least" is
"less or not comparable", and "less or greater" is "comparable and not equal".
-/

namespace Reckon

namespace Binary64

open Float.Model

theorem compare_swap (a b : UnpackedFloat) :
    (b.compare a).map Ordering.swap = a.compare b := by
  have hswap : ∀ (e e' : Int) (m m' : Nat),
      ((compare e e').then (compare m m')).swap = (compare e' e).then (compare m' m) := by
    intro e e' m m'
    rw [Ordering.swap_then, ← Std.OrientedCmp.eq_swap, ← Std.OrientedCmp.eq_swap]
  cases a with
  | notANumber => cases b <;> rfl
  | infinity s =>
      cases b with
      | infinity s' => cases s <;> cases s' <;> rfl
      | _ => cases s <;> rfl
  | zero s =>
      cases b with
      | infinity s' => cases s' <;> rfl
      | finite s' m' e' hm' => cases s' <;> rfl
      | _ => rfl
  | finite s m e hm =>
      cases b with
      | infinity s' => cases s' <;> rfl
      | finite s' m' e' hm' =>
          cases s with
          | positive =>
              cases s' with
              | positive => exact congrArg some (hswap e' e m' m)
              | negative => rfl
          | negative =>
              cases s' with
              | positive => rfl
              | negative =>
                  refine congrArg some ?_
                  rw [Ordering.swap_swap]
                  exact (hswap e e' m m').symm
      | zero s' => cases s <;> rfl
      | notANumber => rfl

theorem compare_eq_none (a b : UnpackedFloat) :
    a.compare b = none ↔ a.isNaN = true ∨ b.isNaN = true := by
  have hsome {a b : UnpackedFloat} {ordering : Ordering} (hcompare : a.compare b = some ordering)
      (ha : a.isNaN = false) (hb : b.isNaN = false) :
      a.compare b = none ↔ a.isNaN = true ∨ b.isNaN = true := by
    rw [hcompare, ha, hb]
    simp
  cases a with
  | notANumber => cases b <;> exact iff_of_true rfl (Or.inl rfl)
  | infinity s =>
      cases b with
      | notANumber => cases s <;> exact iff_of_true rfl (Or.inr rfl)
      | infinity s' => exact hsome rfl rfl rfl
      | _ => cases s <;> exact hsome rfl rfl rfl
  | zero s =>
      cases b with
      | notANumber => exact iff_of_true rfl (Or.inr rfl)
      | zero s' => exact hsome rfl rfl rfl
      | _ s' => cases s' <;> exact hsome rfl rfl rfl
  | finite s m e hm =>
      cases b with
      | notANumber => cases s <;> exact iff_of_true rfl (Or.inr rfl)
      | infinity s' => cases s' <;> exact hsome rfl rfl rfl
      | finite s' m' e' hm' => cases s <;> cases s' <;> exact hsome rfl rfl rfl
      | zero s' => cases s <;> exact hsome rfl rfl rfl

/-- How two numbers compare, if they do. -/
def compare? (a b : Float) : Option Ordering := a.toModel.unpack.compare b.toModel.unpack

theorem compare?_swap (a b : Float) : (compare? b a).map Ordering.swap = compare? a b :=
  compare_swap _ _

theorem compare?_eq_none {a b : Float} :
    compare? a b = none ↔ a.isNaN = true ∨ b.isNaN = true :=
  compare_eq_none _ _

theorem lt_iff {a b : Float} : a < b ↔ compare? a b = some .lt := by
  show Float.lt a b = true ↔ _
  unfold Float.lt compare?
  show decide (a.toModel.unpack.lt b.toModel.unpack = true) = true ↔ _
  simp [UnpackedFloat.lt]

theorem le_iff {a b : Float} : a ≤ b ↔ compare? a b = some .lt ∨ compare? a b = some .eq := by
  show Float.le a b = true ↔ _
  unfold Float.le compare?
  show decide (a.toModel.unpack.le b.toModel.unpack = true) = true ↔ _
  cases hcompare : a.toModel.unpack.compare b.toModel.unpack with
  | none => simp [UnpackedFloat.le, hcompare]
  | some order => cases order <;> simp [UnpackedFloat.le, hcompare]

theorem beq_iff {a b : Float} : (a == b) = true ↔ compare? a b = some .eq := by
  show (compare? a b == some .eq) = true ↔ _
  simp

/-- Not at least is less or not comparable. -/
theorem holds_less (a b : Float) :
    Code.Comparison.less.holds a b = (decide (a < b) || a.isNaN || b.isNaN) := by
  have hnone := compare?_eq_none (a := a) (b := b)
  have hswap := compare?_swap b a
  rw [Bool.eq_iff_iff]
  simp only [Code.Comparison.holds, Bool.not_eq_true', decide_eq_false_iff_not, Bool.or_eq_true,
    decide_eq_true_eq, or_assoc, ← hnone, lt_iff, le_iff, ← hswap]
  cases compare? a b with
  | none => simp
  | some order => cases order <;> simp

/-- Less or greater is comparable and not equal. -/
theorem holds_distinct (a b : Float) :
    Code.Comparison.distinct.holds a b = (!(a.isNaN || b.isNaN) && a != b) := by
  have hnone := compare?_eq_none (a := a) (b := b)
  have hswap := compare?_swap b a
  have hne : (a != b) = true ↔ ¬ compare? a b = some .eq := by
    rw [← beq_iff, bne, Bool.not_eq_true', Bool.not_eq_true]
  have hcomparable : (!(a.isNaN || b.isNaN)) = true ↔ ¬ compare? a b = none := by
    rw [hnone, Bool.not_eq_true', ← Bool.not_eq_true, Bool.or_eq_true]
  rw [Bool.eq_iff_iff]
  simp only [Code.Comparison.holds, Bool.or_eq_true, decide_eq_true_eq, Bool.and_eq_true, hne,
    hcomparable, lt_iff, ← hswap]
  cases compare? a b with
  | none => simp
  | some order => cases order <;> simp

theorem holds_distinct_zero (a : Float) :
    Code.Comparison.distinct.holds a 0 = (!a.isNaN && a != 0) := by
  have hzero : (0 : Float).isNaN = false := rfl
  rw [holds_distinct, hzero, Bool.or_false]

end Binary64

end Reckon
