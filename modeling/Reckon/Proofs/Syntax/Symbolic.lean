import Reckon.Proofs.Syntax.Bracketed
import Reckon.Proofs.Syntax.Everywhere

/-!
# Symbolic expressions show their trees

A symbolic expression is a bracketed text (`Expr.toList_symbolic`), which is read in one way.
What is left is to tell trees apart by these texts (`Expr.shownOneWay`): the head says which form
it is, the number of parts tells prefix from infix operators and loops with a step from those
without, and of the parts of new names the last one is the body, although a name and its initial
value may look like a call.  So a symbolic expression shows one tree only
(`Expr.symbolic_eq_iff`), whatever characters its operators are.
-/

namespace Reckon

namespace Expr

mutual

/-- The bracketed text that an expression is shown as. -/
def bracketed : Expr → Bracketed
  | number value => .word (Binary64.plain value).toList
  | var name => .word name.toList
  | unary op operand => .form [op] [operand.bracketed]
  | binary op left right => .form [op] [left.bracketed, right.bracketed]
  | call name args => .form ['c', 'a', 'l', 'l'] (.word name.toList :: argumentParts args)
  | cond condition thenBranch elseBranch =>
    .form ['i', 'f'] [condition.bracketed, thenBranch.bracketed, elseBranch.bracketed]
  | loop name start finish step body =>
    .form ['f', 'o', 'r']
      (.word name.toList :: start.bracketed :: finish.bracketed ::
        (optionalParts step ++ [body.bracketed]))
  | locals bindings body => .form ['v', 'a', 'r'] (bindingParts bindings ++ [body.bracketed])

/-- The parts that arguments are shown as. -/
def argumentParts : List Expr → List Bracketed
  | [] => []
  | arg :: args => arg.bracketed :: argumentParts args

/-- The part that an expression is shown as, if it is there. -/
def optionalParts : Option Expr → List Bracketed
  | none => []
  | some e => [e.bracketed]

/-- The parts that bindings are shown as. -/
def bindingParts : List (String × Option Expr) → List Bracketed
  | [] => []
  | (name, value) :: bindings => .headed name.toList (optionalParts value) :: bindingParts bindings

end

mutual

/-- A symbolic expression is a bracketed text. -/
theorem toList_symbolic : (e : Expr) → e.symbolic.toList = e.bracketed.text
  | number value => rfl
  | var name => rfl
  | unary op operand => by
    simp [symbolic, bracketed, Bracketed.text, Bracketed.spaced, toString, toList_symbolic operand]
  | binary op left right => by
    simp [symbolic, bracketed, Bracketed.text, Bracketed.spaced, toString, toList_symbolic left,
      toList_symbolic right]
  | call name args => by
    simp [symbolic, bracketed, Bracketed.text, Bracketed.spaced, toString, toList_symbolicArgs args]
  | cond condition thenBranch elseBranch => by
    simp [symbolic, bracketed, Bracketed.text, Bracketed.spaced, toString,
      toList_symbolic condition, toList_symbolic thenBranch, toList_symbolic elseBranch]
  | loop name start finish step body => by
    simp [symbolic, bracketed, Bracketed.text, Bracketed.spaced, toString, toList_symbolic start,
      toList_symbolic finish, toList_symbolicStep step, toList_symbolic body]
  | locals bindings body => by
    simp [symbolic, bracketed, Bracketed.text, Bracketed.spaced, toString,
      toList_symbolicBindings bindings, toList_symbolic body]

theorem toList_symbolicArgs :
    (args : List Expr) → (symbolicArgs args).toList = Bracketed.spaced (argumentParts args)
  | [] => rfl
  | arg :: args => by
    simp [symbolicArgs, argumentParts, Bracketed.spaced, toString, toList_symbolic arg,
      toList_symbolicArgs args]

theorem toList_symbolicStep :
    (step : Option Expr) → (symbolicStep step).toList = Bracketed.spaced (optionalParts step)
  | none => rfl
  | some step => by
    simp [symbolicStep, optionalParts, Bracketed.spaced, toString, toList_symbolic step]

theorem toList_symbolicBindings :
    (bindings : List (String × Option Expr)) →
      (symbolicBindings bindings).toList = Bracketed.spaced (bindingParts bindings)
  | [] => rfl
  | (name, none) :: bindings => by
    simp [symbolicBindings, bindingParts, optionalParts, Bracketed.headed, Bracketed.spaced,
      Bracketed.text, toString, toList_symbolicBindings bindings]
  | (name, some value) :: bindings => by
    simp [symbolicBindings, bindingParts, optionalParts, Bracketed.headed, Bracketed.spaced,
      Bracketed.text, toString, toList_symbolic value, toList_symbolicBindings bindings]

end

/-- What an expression needs so that a text can spell its names, its operator and its number,
apart from its parts. -/
def CanBeShown : Expr → Prop
  | number value => value.isFinite = true ∧ Binary64.isNegative value = false
  | var name => Word.IsName name
  | unary op _ => IsSymbol op
  | binary op _ _ => IsSymbol op
  | call name _ => Word.IsName name
  | cond _ _ _ => True
  | loop name _ _ _ _ => Word.IsName name
  | locals bindings _ => ∀ binding ∈ bindings, Word.IsName binding.1

end Expr

section Words

variable {name : String} {value : Float} {op : Char}

theorem Word.IsName.isWordChar (h : Word.IsName name) :
    ∀ c ∈ name.toList, Word.isWordChar c = true := by
  obtain ⟨c, rest, htext, hletter, hrest⟩ := h.spelled
  rw [htext]
  refine List.forall_mem_cons.mpr ⟨?_, hrest⟩
  have halpha : c.isAlpha = true := hletter
  simp [Word.isWordChar, Char.isAlphanum, halpha]

/-- A name is readable as a word. -/
theorem Word.IsName.isReadable (h : Word.IsName name) :
    (Bracketed.word name.toList).IsReadable := by
  refine .word ?_ fun c hc => ?_
  · obtain ⟨c, rest, htext, -⟩ := h.spelled
    simp [htext]
  · simp [Bracketed.isWordChar, h.isWordChar c hc]

/-- There is no blank in a name. -/
theorem Word.IsName.unbroken (h : Word.IsName name) : ∀ c ∈ name.toList, c ≠ ' ' := by
  rintro c hc rfl
  exact absurd (h.isWordChar ' ' hc) (by decide)

/-- An operator is not a blank. -/
theorem IsSymbol.unbroken (h : IsSymbol op) : ∀ c ∈ [op], c ≠ ' ' := by
  intro c hc
  obtain rfl := List.mem_singleton.mp hc
  rintro rfl
  exact absurd h.visible (by decide)

/-- The plain text of a number is readable as a word. -/
theorem Numeral.isReadable_plain (hfinite : value.isFinite = true)
    (hpositive : Binary64.isNegative value = false) :
    (Bracketed.word (Binary64.plain value).toList).IsReadable := by
  obtain ⟨digits, places, hspells, -⟩ := Numeral.plain_spells hfinite hpositive
  refine .word hspells.nonempty fun c hc => ?_
  simp [Bracketed.isWordChar, hspells.chars c hc]

/-- No number is written like a name. -/
theorem Numeral.plain_ne_name (hfinite : value.isFinite = true)
    (hpositive : Binary64.isNegative value = false) (hname : Word.IsName name) :
    (Binary64.plain value).toList ≠ name.toList := by
  intro heq
  obtain ⟨digits, places, hspells, -⟩ := Numeral.plain_spells hfinite hpositive
  obtain ⟨c, rest, htext, hletter, -⟩ := hname.spelled
  have hnumeral : Numeral.isNumeralChar c = true := by
    apply hspells.chars
    rw [heq, htext]
    exact List.mem_cons_self
  rw [(code_of_isNumeralChar hnumeral).2.2] at hletter
  cases hletter

/-- Different numbers have different plain texts. -/
theorem Numeral.plain_inj {value' : Float} (hfinite : value.isFinite = true)
    (hpositive : Binary64.isNegative value = false) (hfinite' : value'.isFinite = true)
    (hpositive' : Binary64.isNegative value' = false)
    (heq : (Binary64.plain value).toList = (Binary64.plain value').toList) : value = value' := by
  rw [← Numeral.read_plain hfinite hpositive, heq, Numeral.read_plain hfinite' hpositive']

end Words

namespace Expr

variable {e e' : Expr}

theorem isReadable_argumentParts {args : List Expr} (h : ∀ arg ∈ args, arg.bracketed.IsReadable) :
    ∀ part ∈ argumentParts args, part.IsReadable := by
  induction args with
  | nil => simp [argumentParts]
  | cons arg args ih =>
      obtain ⟨harg, hothers⟩ := List.forall_mem_cons.mp h
      exact List.forall_mem_cons.mpr ⟨harg, ih hothers⟩

theorem isReadable_optionalParts {step : Option Expr}
    (h : ∀ value ∈ step, value.bracketed.IsReadable) :
    ∀ part ∈ optionalParts step, part.IsReadable := by
  cases step with
  | none => simp [optionalParts]
  | some value => exact List.forall_mem_singleton.mpr (h value rfl)

theorem isReadable_bindingParts {bindings : List (String × Option Expr)}
    (hnames : ∀ binding ∈ bindings, Word.IsName binding.1)
    (hvalues : ∀ binding ∈ bindings, ∀ value ∈ binding.2, value.bracketed.IsReadable) :
    ∀ part ∈ bindingParts bindings, part.IsReadable := by
  induction bindings with
  | nil => simp [bindingParts]
  | cons binding bindings ih =>
      obtain ⟨hname, hnames⟩ := List.forall_mem_cons.mp hnames
      obtain ⟨hvalue, hvalues⟩ := List.forall_mem_cons.mp hvalues
      have hbound := hname.isReadable.headed hname.unbroken (isReadable_optionalParts hvalue)
      exact List.forall_mem_cons.mpr ⟨hbound, ih hnames hvalues⟩

/-- The bracketed text of an expression is readable. -/
theorem isReadable_bracketed (h : e.Everywhere CanBeShown) : e.bracketed.IsReadable := by
  induction e using Expr.induction with
  | number value => exact Numeral.isReadable_plain h.1 h.2
  | var name => exact Word.IsName.isReadable h
  | unary op operand ih =>
      refine .form (IsSymbol.unbroken h.1) (by simp) ?_
      simpa using ih h.2
  | binary op left right ihl ihr =>
      refine .form (IsSymbol.unbroken h.1) (by simp) ?_
      simpa using ⟨ihl h.2.1, ihr h.2.2⟩
  | call name args ih =>
      have hargs := isReadable_argumentParts fun arg harg =>
        ih arg harg (everywhereIn_iff.mp h.2 arg harg)
      exact .form (by simp) (by simp)
        (List.forall_mem_cons.mpr ⟨Word.IsName.isReadable h.1, hargs⟩)
  | cond condition thenBranch elseBranch ihc iht ihe =>
      refine .form (by simp) (by simp) ?_
      simpa using ⟨ihc h.2.1, iht h.2.2.1, ihe h.2.2.2⟩
  | loop name start finish step body ihs ihf ihstep ihb =>
      obtain ⟨hname, hstart, hfinish, hstep, hbody⟩ := h
      have hsteps := isReadable_optionalParts fun value hvalue =>
        ihstep value hvalue (everywhereIf_iff.mp hstep value hvalue)
      refine .form (by simp) (by simp) ?_
      simp only [List.forall_mem_cons, List.forall_mem_append]
      exact ⟨Word.IsName.isReadable hname, ihs hstart, ihf hfinish, hsteps, ihb hbody,
        List.forall_mem_nil _⟩
  | locals bindings body ihbindings ihbody =>
      obtain ⟨hnames, hvalues, hbody⟩ := h
      have hbound := isReadable_bindingParts hnames fun binding hbinding value hvalue =>
        ihbindings binding hbinding value hvalue
          (everywhereIf_iff.mp (everywhereBound_iff.mp hvalues binding hbinding) value hvalue)
      refine .form (by simp) (by simp) ?_
      simp only [List.forall_mem_append, List.forall_mem_singleton]
      exact ⟨hbound, ihbody hbody⟩

/-- No other expression is shown as the same bracketed text. -/
def ShownOneWay (e : Expr) : Prop :=
  ∀ ⦃e' : Expr⦄, e'.Everywhere CanBeShown → e.bracketed = e'.bracketed → e = e'

theorem argumentParts_inj {args args' : List Expr} (hargs : ∀ arg ∈ args, arg.ShownOneWay)
    (hargs' : ∀ arg ∈ args', arg.Everywhere CanBeShown)
    (heq : argumentParts args = argumentParts args') : args = args' := by
  induction args generalizing args' with
  | nil =>
      cases args' with
      | nil => rfl
      | cons arg' args' => cases heq
  | cons arg args ih =>
      cases args' with
      | nil => cases heq
      | cons arg' args' =>
          obtain ⟨harg, hothers⟩ := List.forall_mem_cons.mp hargs
          obtain ⟨harg', hothers'⟩ := List.forall_mem_cons.mp hargs'
          obtain ⟨hpart, hparts⟩ := List.cons.inj heq
          rw [harg harg' hpart, ih hothers hothers' hparts]

theorem optionalParts_inj {step step' : Option Expr} (hstep : ∀ value ∈ step, value.ShownOneWay)
    (hstep' : ∀ value ∈ step', value.Everywhere CanBeShown)
    (heq : optionalParts step = optionalParts step') : step = step' := by
  cases step with
  | none =>
      cases step' with
      | none => rfl
      | some value' => cases heq
  | some value =>
      cases step' with
      | none => cases heq
      | some value' => rw [hstep value rfl (hstep' value' rfl) (List.cons.inj heq).1]

theorem bindingParts_inj {bindings bindings' : List (String × Option Expr)}
    (hbindings : ∀ binding ∈ bindings, ∀ value ∈ binding.2, value.ShownOneWay)
    (hbindings' : ∀ binding ∈ bindings', ∀ value ∈ binding.2, value.Everywhere CanBeShown)
    (heq : bindingParts bindings = bindingParts bindings') : bindings = bindings' := by
  induction bindings generalizing bindings' with
  | nil =>
      cases bindings' with
      | nil => rfl
      | cons binding' bindings' => cases heq
  | cons binding bindings ih =>
      cases bindings' with
      | nil => cases heq
      | cons binding' bindings' =>
          obtain ⟨hvalue, hothers⟩ := List.forall_mem_cons.mp hbindings
          obtain ⟨hvalue', hothers'⟩ := List.forall_mem_cons.mp hbindings'
          obtain ⟨hpart, hparts⟩ := List.cons.inj heq
          obtain ⟨hname, hpart⟩ := Bracketed.headed_inj hpart
          have hbinding : binding = binding' :=
            Prod.ext (String.toList_inj.mp hname) (optionalParts_inj hvalue hvalue' hpart)
          rw [hbinding, ih hothers hothers' hparts]

/-- The bracketed text of an expression determines it. -/
theorem shownOneWay (h : e.Everywhere CanBeShown) : e.ShownOneWay := by
  intro e' h' heq
  induction e using Expr.induction generalizing e' with
  | number value =>
      cases e' with
      | number value' =>
          rw [Numeral.plain_inj h.1 h.2 h'.1 h'.2 (Bracketed.word.inj heq)]
      | var name' => exact absurd (Bracketed.word.inj heq) (Numeral.plain_ne_name h.1 h.2 h')
      | _ => cases heq
  | var name =>
      cases e' with
      | number value' =>
          exact absurd (Bracketed.word.inj heq).symm (Numeral.plain_ne_name h'.1 h'.2 h)
      | var name' => rw [String.toList_inj.mp (Bracketed.word.inj heq)]
      | _ => cases heq
  | unary op operand ih =>
      cases e' with
      | unary op' operand' =>
          simp only [bracketed, Bracketed.form.injEq, List.cons.injEq, and_true] at heq
          rw [heq.1, ih h.2 h'.2 heq.2]
      | _ => simp [bracketed] at heq
  | binary op left right ihl ihr =>
      cases e' with
      | binary op' left' right' =>
          simp only [bracketed, Bracketed.form.injEq, List.cons.injEq, and_true] at heq
          rw [heq.1, ihl h.2.1 h'.2.1 heq.2.1, ihr h.2.2 h'.2.2 heq.2.2]
      | _ => simp [bracketed] at heq
  | call name args ih =>
      cases e' with
      | call name' args' =>
          simp only [bracketed, Bracketed.form.injEq, List.cons.injEq, Bracketed.word.injEq,
            true_and] at heq
          have hargs : args = args' := argumentParts_inj
            (fun arg harg _ h'' => ih arg harg (everywhereIn_iff.mp h.2 arg harg) h'')
            (everywhereIn_iff.mp h'.2) heq.2
          rw [String.toList_inj.mp heq.1, hargs]
      | _ => simp [bracketed] at heq
  | cond condition thenBranch elseBranch ihc iht ihe =>
      cases e' with
      | cond condition' thenBranch' elseBranch' =>
          simp only [bracketed, Bracketed.form.injEq, List.cons.injEq, and_true, true_and] at heq
          rw [ihc h.2.1 h'.2.1 heq.1, iht h.2.2.1 h'.2.2.1 heq.2.1, ihe h.2.2.2 h'.2.2.2 heq.2.2]
      | _ => simp [bracketed] at heq
  | loop name start finish step body ihs ihf ihstep ihb =>
      cases e' with
      | loop name' start' finish' step' body' =>
          simp only [bracketed, Bracketed.form.injEq, List.cons.injEq, Bracketed.word.injEq,
            true_and] at heq
          obtain ⟨-, hstart, hfinish, hstep, hbody⟩ := h
          obtain ⟨-, hstart', hfinish', hstep', hbody'⟩ := h'
          obtain ⟨hnames, hstarts, hfinishes, hlast⟩ := heq
          obtain ⟨hsteps, hbodies⟩ := List.append_inj' hlast rfl
          have hsteps : step = step' := optionalParts_inj
            (fun value hvalue _ h'' =>
              ihstep value hvalue (everywhereIf_iff.mp hstep value hvalue) h'')
            (everywhereIf_iff.mp hstep') hsteps
          rw [String.toList_inj.mp hnames, ihs hstart hstart' hstarts,
            ihf hfinish hfinish' hfinishes, hsteps,
            ihb hbody hbody' (List.singleton_inj.mp hbodies)]
      | _ => simp [bracketed] at heq
  | locals bindings body ihbindings ihbody =>
      cases e' with
      | locals bindings' body' =>
          simp only [bracketed, Bracketed.form.injEq, true_and] at heq
          obtain ⟨-, hbindings, hbody⟩ := h
          obtain ⟨-, hbindings', hbody'⟩ := h'
          obtain ⟨hbounds, hbodies⟩ := List.append_inj' heq rfl
          have hbounds : bindings = bindings' := bindingParts_inj
            (fun binding hbinding value hvalue _ h'' => ihbindings binding hbinding value hvalue
              (everywhereIf_iff.mp (everywhereBound_iff.mp hbindings binding hbinding) value hvalue)
              h'')
            (fun binding hbinding =>
              everywhereIf_iff.mp (everywhereBound_iff.mp hbindings' binding hbinding)) hbounds
          rw [hbounds, ihbody hbody hbody' (List.singleton_inj.mp hbodies)]
      | _ => simp [bracketed] at heq

/-- **A symbolic expression shows one tree only.** -/
theorem symbolic_eq_iff (h : e.Everywhere CanBeShown) (h' : e'.Everywhere CanBeShown) :
    e.symbolic = e'.symbolic ↔ e = e' := by
  constructor
  · intro heq
    have htexts : e.bracketed.text = e'.bracketed.text := by
      rw [← toList_symbolic, ← toList_symbolic, heq]
    exact shownOneWay h h' ((isReadable_bracketed h).text_inj (isReadable_bracketed h') htexts)
  · rintro rfl
    rfl

/-- A new name `call` with an initial value looks like a call without arguments. -/
theorem symbolic_eq_iff_call :
    let bound : Expr := .locals [("call", some (.var "f"))] (.unary '(' (.var "x"))
    let called : Expr := .locals [("x", none)] (.call "f" [])
    bound.Everywhere CanBeShown ∧ called.Everywhere CanBeShown ∧
      bound.symbolic = "(var (call f) (( x))" ∧ called.symbolic = "(var x (call f))" ∧
      (bound.symbolic = called.symbolic ↔ bound = called) := by
  intro bound called
  have hcall : Word.IsName "call" := Word.isName_of_all (by decide) (by decide) (by decide)
  have hf : Word.IsName "f" := Word.isName_of_all (by decide) (by decide) (by decide)
  have hx : Word.IsName "x" := Word.isName_of_all (by decide) (by decide) (by decide)
  have hopening : IsSymbol '(' := by decide
  have hbound : bound.Everywhere CanBeShown :=
    ⟨List.forall_mem_singleton.mpr hcall, ⟨hf, trivial⟩, hopening, hx⟩
  have hcalled : called.Everywhere CanBeShown :=
    ⟨List.forall_mem_singleton.mpr hx, ⟨trivial, trivial⟩, hf, trivial⟩
  exact ⟨hbound, hcalled, by decide +kernel, by decide +kernel, symbolic_eq_iff hbound hcalled⟩

end Expr

end Reckon
