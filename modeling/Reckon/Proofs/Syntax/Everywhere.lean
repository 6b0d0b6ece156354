import Reckon.Syntax.Expr

/-!
# What holds everywhere in an expression

A property of expressions holds everywhere in an expression if it holds of the
expression itself and everywhere in its parts.
-/

namespace Reckon

namespace Expr

mutual

/-- A property holds of an expression and of all its parts. -/
def Everywhere (P : Expr → Prop) : Expr → Prop
  | number value => P (number value)
  | var name => P (var name)
  | unary op operand => P (unary op operand) ∧ operand.Everywhere P
  | binary op left right => P (binary op left right) ∧ left.Everywhere P ∧ right.Everywhere P
  | call name args => P (call name args) ∧ EverywhereIn P args
  | cond condition thenBranch elseBranch =>
    P (cond condition thenBranch elseBranch) ∧ condition.Everywhere P ∧
      thenBranch.Everywhere P ∧ elseBranch.Everywhere P
  | loop name start finish step body =>
    P (loop name start finish step body) ∧ start.Everywhere P ∧ finish.Everywhere P ∧
      EverywhereIf P step ∧ body.Everywhere P
  | locals bindings body =>
    P (locals bindings body) ∧ EverywhereBound P bindings ∧ body.Everywhere P

/-- A property holds everywhere in some arguments. -/
def EverywhereIn (P : Expr → Prop) : List Expr → Prop
  | [] => True
  | arg :: args => arg.Everywhere P ∧ EverywhereIn P args

/-- A property holds everywhere in an expression that may be missing. -/
def EverywhereIf (P : Expr → Prop) : Option Expr → Prop
  | none => True
  | some e => e.Everywhere P

/-- A property holds everywhere in the initial values of some names. -/
def EverywhereBound (P : Expr → Prop) : List (String × Option Expr) → Prop
  | [] => True
  | (_, value) :: bindings => EverywhereIf P value ∧ EverywhereBound P bindings

end

variable {P Q : Expr → Prop} {e : Expr}

theorem everywhereIn_iff {args : List Expr} :
    EverywhereIn P args ↔ ∀ arg ∈ args, arg.Everywhere P := by
  induction args with
  | nil => simp [EverywhereIn]
  | cons arg args ih => simp [EverywhereIn, ih]

theorem everywhereIf_iff {value? : Option Expr} :
    EverywhereIf P value? ↔ ∀ value ∈ value?, value.Everywhere P := by
  cases value? <;> simp [EverywhereIf]

theorem everywhereBound_iff {bindings : List (String × Option Expr)} :
    EverywhereBound P bindings ↔ ∀ binding ∈ bindings, EverywhereIf P binding.2 := by
  induction bindings with
  | nil => simp [EverywhereBound]
  | cons binding bindings ih => simp [EverywhereBound, ih]

/-- What holds of all expressions holds everywhere. -/
theorem everywhere_of_forall (h : ∀ e, P e) (e : Expr) : e.Everywhere P := by
  induction e using Expr.induction with
  | number value => exact h _
  | var name => exact h _
  | unary op operand ih => exact ⟨h _, ih⟩
  | binary op left right ihl ihr => exact ⟨h _, ihl, ihr⟩
  | call name args ih => exact ⟨h _, everywhereIn_iff.mpr ih⟩
  | cond condition thenBranch elseBranch ihc iht ihe => exact ⟨h _, ihc, iht, ihe⟩
  | loop name start finish step body ihs ihf ihstep ihb =>
      exact ⟨h _, ihs, ihf, everywhereIf_iff.mpr ihstep, ihb⟩
  | locals bindings body ihbindings ihbody =>
      exact ⟨h _, everywhereBound_iff.mpr fun binding hbinding =>
        everywhereIf_iff.mpr (ihbindings binding hbinding), ihbody⟩

theorem Everywhere.mono (hPQ : ∀ e, P e → Q e) (h : e.Everywhere P) : e.Everywhere Q := by
  induction e using Expr.induction with
  | number value => exact hPQ _ h
  | var name => exact hPQ _ h
  | unary op operand ih => exact ⟨hPQ _ h.1, ih h.2⟩
  | binary op left right ihl ihr => exact ⟨hPQ _ h.1, ihl h.2.1, ihr h.2.2⟩
  | call name args ih =>
      have hargs := everywhereIn_iff.mp h.2
      exact ⟨hPQ _ h.1, everywhereIn_iff.mpr fun arg harg => ih arg harg (hargs arg harg)⟩
  | cond condition thenBranch elseBranch ihc iht ihe =>
      exact ⟨hPQ _ h.1, ihc h.2.1, iht h.2.2.1, ihe h.2.2.2⟩
  | loop name start finish step body ihs ihf ihstep ihb =>
      have hstep := everywhereIf_iff.mp h.2.2.2.1
      exact ⟨hPQ _ h.1, ihs h.2.1, ihf h.2.2.1,
        everywhereIf_iff.mpr fun value hvalue => ihstep value hvalue (hstep value hvalue),
        ihb h.2.2.2.2⟩
  | locals bindings body ihbindings ihbody =>
      have hbindings := everywhereBound_iff.mp h.2.1
      refine ⟨hPQ _ h.1, everywhereBound_iff.mpr fun binding hbinding => ?_, ihbody h.2.2⟩
      have hvalue := everywhereIf_iff.mp (hbindings binding hbinding)
      exact everywhereIf_iff.mpr fun value hmem =>
        ihbindings binding hbinding value hmem (hvalue value hmem)

end Expr

end Reckon
