import Mathlib.Tactic.MkIffOfInductiveProp
import Mathlib.Tactic.Tauto
import Reckon.Lowering.Basic
import Reckon.Proofs.Syntax.Callees
import Reckon.Proofs.Syntax.Everywhere

/-!
# What is wrong with an expression

What can be wrong with an expression is a matter of its text and of what is known of the
callees, not of the code that is made of it.  `Expr.violations` lists everything, in the
order in which lowering comes to it, and `Expr.WellScoped` is what there is to violate
(`Expr.violations_eq_nil_iff`).
-/

namespace Reckon

/-- What is known of callees. -/
structure Acquaintance where
  /-- The number of parameters of a callee, if it is known. -/
  arity? : Callee → Option Nat
  /-- Whether a callee has an address or a cell. -/
  offers : Callee → Bool

/-- The violation of a requirement, if it is violated. -/
def LowerError.unless (required : Bool) (e : LowerError) : List LowerError :=
  if required then [] else [e]

@[simp] theorem LowerError.unless_eq_nil {required : Bool} {e : LowerError} :
    LowerError.unless required e = [] ↔ required = true := by
  cases required <;> simp [LowerError.unless]

namespace Acquaintance

/-- Whether a callee is known. -/
def knows (known : Acquaintance) (callee : Callee) : Bool := (known.arity? callee).isSome

/-- What is wrong with a callee of its own: it is not known, or there is nothing to be
called. -/
def violations (known : Acquaintance) (callee : Callee) (missing : LowerError) :
    List LowerError :=
  LowerError.unless (known.knows callee) missing ++
    LowerError.unless (known.offers callee) (.unresolvedSymbol callee.symbol)

/-- What is wrong with the number of arguments of a call: the function is not known, or
has another number of parameters. -/
def mismatch (known : Acquaintance) (name : String) (found : Nat) : List LowerError :=
  match known.arity? (.named name) with
  | none => [.unknownFunction name]
  | some arity => LowerError.unless (arity == found) (.arityMismatch name arity found)

theorem mismatch_eq_nil {known : Acquaintance} {name : String} {found : Nat} :
    known.mismatch name found = [] ↔ known.arity? (.named name) = some found := by
  unfold mismatch
  cases known.arity? (.named name) <;> simp

end Acquaintance

namespace Expr

/-- The names in scope after some names have been bound, the last one first. -/
def bound (scope : List String) : List (String × Option Expr) → List String
  | [] => scope
  | (name, _) :: bindings => bound (name :: scope) bindings

section Violations

variable (known : Acquaintance)

mutual

/-- Everything that is wrong with an expression where some names are in scope, in the
order in which lowering comes to it. -/
def violations (scope : List String) : Expr → List LowerError
  | number _ => []
  | var name => LowerError.unless (scope.contains name) (.unknownVariable name)
  | unary op operand =>
    operand.violations scope ++ known.violations (.unary op) (.unknownUnaryOperator op)
  | binary op left right =>
    if op = '=' then
      match left with
      | var name =>
        right.violations scope ++ LowerError.unless (scope.contains name) (.unknownVariable name)
      | _ => .invalidAssignment :: right.violations scope
    else
      left.violations scope ++ (right.violations scope ++
        (Callee.ofInfix op).flatMap fun callee =>
          known.violations callee (.missingBinaryOperator op))
  | call name args =>
    known.mismatch name args.length ++ (violationsIn scope args ++
      LowerError.unless (known.offers (.named name)) (.unresolvedSymbol name))
  | cond condition thenBranch elseBranch =>
    condition.violations scope ++ (thenBranch.violations scope ++ elseBranch.violations scope)
  | loop name start finish step body =>
    start.violations scope ++ (body.violations (name :: scope) ++
      (violationsIf (name :: scope) step ++ finish.violations (name :: scope)))
  | locals bindings body =>
    violationsBound scope bindings ++ body.violations (bound scope bindings)

/-- What is wrong with arguments. -/
def violationsIn (scope : List String) : List Expr → List LowerError
  | [] => []
  | arg :: args => arg.violations scope ++ violationsIn scope args

/-- What is wrong with an expression that may be missing. -/
def violationsIf (scope : List String) : Option Expr → List LowerError
  | none => []
  | some e => e.violations scope

/-- What is wrong with the initial values of names, each of which sees the names before
it. -/
def violationsBound (scope : List String) : List (String × Option Expr) → List LowerError
  | [] => []
  | (name, value) :: bindings =>
    violationsIf scope value ++ violationsBound (name :: scope) bindings

end

end Violations

mutual

/-- Every name that is read or assigned is in scope. -/
def InScope (scope : List String) : Expr → Prop
  | number _ => True
  | var name => name ∈ scope
  | unary _ operand => operand.InScope scope
  | binary _ left right => left.InScope scope ∧ right.InScope scope
  | call _ args => InScopeIn scope args
  | cond condition thenBranch elseBranch =>
    condition.InScope scope ∧ thenBranch.InScope scope ∧ elseBranch.InScope scope
  | loop name start finish step body =>
    start.InScope scope ∧ body.InScope (name :: scope) ∧ InScopeIf (name :: scope) step ∧
      finish.InScope (name :: scope)
  | locals bindings body => InScopeBound scope bindings ∧ body.InScope (bound scope bindings)

/-- Every name in some arguments is in scope. -/
def InScopeIn (scope : List String) : List Expr → Prop
  | [] => True
  | arg :: args => arg.InScope scope ∧ InScopeIn scope args

/-- Every name in an expression that may be missing is in scope. -/
def InScopeIf (scope : List String) : Option Expr → Prop
  | none => True
  | some e => e.InScope scope

/-- Every name in the initial values of names is in scope. -/
def InScopeBound (scope : List String) : List (String × Option Expr) → Prop
  | [] => True
  | (name, value) :: bindings => InScopeIf scope value ∧ InScopeBound (name :: scope) bindings

end

/-- What is asked of an expression apart from its names and parts: an assignment is to a
name, a function is known with the given number of arguments, and an operator that is not
built in is known. -/
def Proper (known : Acquaintance) : Expr → Prop
  | unary op _ => known.knows (.unary op) = true
  | binary op left _ =>
    if op = '=' then ∃ name, left = var name
    else ∀ callee ∈ Callee.ofInfix op, known.knows callee = true
  | call name args => known.arity? (.named name) = some args.length
  | _ => True

/-- An expression makes sense where some names are in scope and some callees are known. -/
@[mk_iff]
structure WellScoped (known : Acquaintance) (scope : List String) (e : Expr) : Prop where
  names : e.InScope scope
  proper : e.Everywhere (Proper known)
  callees : ∀ callee ∈ e.callees, known.offers callee = true

variable {known : Acquaintance} {scope : List String}

theorem violationsIn_eq_nil_iff {args : List Expr}
    (h : ∀ arg ∈ args, ∀ scope, arg.violations known scope = [] ↔ arg.WellScoped known scope) :
    violationsIn known scope args = [] ↔ InScopeIn scope args ∧
      EverywhereIn (Proper known) args ∧ ∀ callee ∈ calleesIn args, known.offers callee = true := by
  induction args with
  | nil => simp [violationsIn, InScopeIn, EverywhereIn, calleesIn]
  | cons arg args ih =>
      obtain ⟨harg, hargs⟩ := List.forall_mem_cons.mp h
      simp only [violationsIn, InScopeIn, EverywhereIn, calleesIn, List.append_eq_nil_iff,
        List.forall_mem_append, harg, ih hargs, wellScoped_iff]
      tauto

theorem violationsIf_eq_nil_iff {value? : Option Expr}
    (h : ∀ value ∈ value?, ∀ scope,
      value.violations known scope = [] ↔ value.WellScoped known scope) :
    violationsIf known scope value? = [] ↔ InScopeIf scope value? ∧
      EverywhereIf (Proper known) value? ∧
        ∀ callee ∈ calleesIf value?, known.offers callee = true := by
  cases value? with
  | none => simp [violationsIf, InScopeIf, EverywhereIf, calleesIf]
  | some value =>
      simp only [violationsIf, InScopeIf, EverywhereIf, calleesIf]
      exact (h value rfl scope).trans (wellScoped_iff _ _ _)

theorem violationsBound_eq_nil_iff {bindings : List (String × Option Expr)}
    (h : ∀ binding ∈ bindings, ∀ value ∈ binding.2, ∀ scope,
      value.violations known scope = [] ↔ value.WellScoped known scope) :
    violationsBound known scope bindings = [] ↔ InScopeBound scope bindings ∧
      EverywhereBound (Proper known) bindings ∧
        ∀ callee ∈ calleesBound bindings, known.offers callee = true := by
  induction bindings generalizing scope with
  | nil => simp [violationsBound, InScopeBound, EverywhereBound, calleesBound]
  | cons binding bindings ih =>
      obtain ⟨hbinding, hbindings⟩ := List.forall_mem_cons.mp h
      simp only [violationsBound, InScopeBound, EverywhereBound, calleesBound,
        List.append_eq_nil_iff, List.forall_mem_append, violationsIf_eq_nil_iff hbinding,
        ih hbindings]
      tauto

/-- **Nothing is wrong with an expression** exactly if it makes sense. -/
theorem violations_eq_nil_iff (e : Expr) (scope : List String) :
    e.violations known scope = [] ↔ e.WellScoped known scope := by
  induction e using Expr.induction generalizing scope with
  | number value => simp [violations, wellScoped_iff, InScope, Everywhere, Proper, callees]
  | var name => simp [violations, wellScoped_iff, InScope, Everywhere, Proper, callees]
  | unary op operand ih =>
      simp only [violations, Acquaintance.violations, List.append_eq_nil_iff,
        LowerError.unless_eq_nil, ih, wellScoped_iff, InScope, Everywhere, Proper, callees,
        List.forall_mem_append, List.forall_mem_singleton]
      tauto
  | binary op left right ihl ihr =>
      by_cases hassign : op = '='
      · cases left with
        | var name =>
            simp only [violations, if_pos hassign, List.append_eq_nil_iff,
              LowerError.unless_eq_nil, ihr, wellScoped_iff, InScope, Everywhere, Proper, callees,
              List.contains_iff_mem]
            simp only [Expr.var.injEq, exists_eq', true_and]
            tauto
        | _ => simp [violations, hassign, wellScoped_iff, Everywhere, Proper]
      · simp only [violations, if_neg hassign, List.append_eq_nil_iff, ihl, ihr,
          Acquaintance.violations, List.flatMap_eq_nil_iff, LowerError.unless_eq_nil,
          wellScoped_iff, InScope, Everywhere, Proper, callees, List.forall_mem_append]
        constructor
        · rintro ⟨⟨hl, hpl, hcl⟩, ⟨hr, hpr, hcr⟩, hop⟩
          exact ⟨⟨hl, hr⟩, ⟨fun callee hcallee => (hop callee hcallee).1, hpl, hpr⟩, ⟨hcl, hcr⟩,
            fun callee hcallee => (hop callee hcallee).2⟩
        · rintro ⟨⟨hl, hr⟩, ⟨hknown, hpl, hpr⟩, ⟨hcl, hcr⟩, hop⟩
          exact ⟨⟨hl, hpl, hcl⟩, ⟨hr, hpr, hcr⟩, fun callee hcallee =>
            ⟨hknown callee hcallee, hop callee hcallee⟩⟩
  | call name args ih =>
      simp only [violations, List.append_eq_nil_iff, Acquaintance.mismatch_eq_nil,
        violationsIn_eq_nil_iff ih, LowerError.unless_eq_nil, wellScoped_iff, InScope, Everywhere,
        Proper, callees, List.forall_mem_append, List.forall_mem_singleton]
      tauto
  | cond condition thenBranch elseBranch ihc iht ihe =>
      simp only [violations, List.append_eq_nil_iff, ihc, iht, ihe, wellScoped_iff, InScope,
        Everywhere, Proper, callees, List.forall_mem_append]
      tauto
  | loop name start finish step body ihs ihf ihstep ihb =>
      simp only [violations, List.append_eq_nil_iff, ihs, ihf, violationsIf_eq_nil_iff ihstep, ihb,
        wellScoped_iff, InScope, Everywhere, Proper, callees, List.forall_mem_append]
      tauto
  | locals bindings body ihbindings ihbody =>
      simp only [violations, List.append_eq_nil_iff, violationsBound_eq_nil_iff ihbindings, ihbody,
        wellScoped_iff, InScope, Everywhere, Proper, callees, List.forall_mem_append]
      tauto

instance (known : Acquaintance) (scope : List String) (e : Expr) :
    Decidable (e.WellScoped known scope) :=
  decidable_of_iff _ (e.violations_eq_nil_iff scope)

end Expr

end Reckon
