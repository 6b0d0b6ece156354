import Reckon.Binary64.Plain

/-!
# Expressions

Every value is a number, so there is one kind of expression.  `symbolic`
writes a tree as a symbolic expression; it is how trees are shown to people.
-/

namespace Reckon

/-- An expression. -/
inductive Expr where
  /-- A number. -/
  | number (value : Float)
  /-- The current value of a name. -/
  | var (name : String)
  /-- A prefix operator. -/
  | unary (op : Char) (operand : Expr)
  /-- An infix operator.  The operator `=` assigns to the name on its left. -/
  | binary (op : Char) (left right : Expr)
  /-- A call of a function. -/
  | call (name : String) (args : List Expr)
  /-- A choice between two expressions, of which one is evaluated. -/
  | cond (condition thenBranch elseBranch : Expr)
  /-- A loop over a name.  Without a step the name grows by one. -/
  | loop (name : String) (start finish : Expr) (step : Option Expr) (body : Expr)
  /-- New names for a body, each with an initial value or with zero. -/
  | locals (bindings : List (String × Option Expr)) (body : Expr)
deriving Repr, Inhabited

namespace Expr

/-- Induction over expressions.  The arguments of a call, the step of a loop and
the initial values of new names are reached through membership. -/
@[elab_as_elim]
theorem induction {P : Expr → Prop} (number : ∀ value, P (.number value))
    (var : ∀ name, P (.var name))
    (unary : ∀ op operand, P operand → P (.unary op operand))
    (binary : ∀ op left right, P left → P right → P (.binary op left right))
    (call : ∀ name args, (∀ arg ∈ args, P arg) → P (.call name args))
    (cond : ∀ condition thenBranch elseBranch, P condition → P thenBranch → P elseBranch →
      P (.cond condition thenBranch elseBranch))
    (loop : ∀ name start finish step body, P start → P finish → (∀ value ∈ step, P value) →
      P body → P (.loop name start finish step body))
    (locals : ∀ bindings body, (∀ binding ∈ bindings, ∀ value ∈ binding.2, P value) → P body →
      P (.locals bindings body)) (e : Expr) : P e := by
  refine @Expr.rec P (fun args => ∀ arg ∈ args, P arg)
    (fun value? => ∀ value ∈ value?, P value)
    (fun bindings => ∀ binding ∈ bindings, ∀ value ∈ binding.2, P value)
    (fun binding => ∀ value ∈ binding.2, P value)
    number var unary binary call cond loop locals ?_ ?_ ?_ ?_ ?_ ?_ ?_ e
  · simp
  · intro arg args harg hargs
    exact List.forall_mem_cons.mpr ⟨harg, hargs⟩
  · simp
  · intro value hvalue other hother
    exact Option.mem_some_iff.mp hother ▸ hvalue
  · simp
  · intro binding bindings hbinding hbindings
    exact List.forall_mem_cons.mpr ⟨hbinding, hbindings⟩
  · intro name value? hvalue
    exact hvalue

mutual

/-- An expression as a symbolic expression. -/
def symbolic : Expr → String
  | number value => Binary64.plain value
  | var name => name
  | unary op operand => s!"({op} {operand.symbolic})"
  | binary op left right => s!"({op} {left.symbolic} {right.symbolic})"
  | call name args => s!"(call {name}{symbolicArgs args})"
  | cond condition thenBranch elseBranch =>
    s!"(if {condition.symbolic} {thenBranch.symbolic} {elseBranch.symbolic})"
  | loop name start finish step body =>
    s!"(for {name} {start.symbolic} {finish.symbolic}{symbolicStep step} {body.symbolic})"
  | locals bindings body => s!"(var{symbolicBindings bindings} {body.symbolic})"

/-- Arguments as symbolic expressions, a space before each. -/
def symbolicArgs : List Expr → String
  | [] => ""
  | arg :: args => s!" {arg.symbolic}{symbolicArgs args}"

/-- The step of a loop, if there is one, with a space before it. -/
def symbolicStep : Option Expr → String
  | none => ""
  | some step => s!" {step.symbolic}"

/-- Bindings with a space before each: a bare name, or a name and its initial
value in parentheses. -/
def symbolicBindings : List (String × Option Expr) → String
  | [] => ""
  | (name, none) :: bindings => s!" {name}{symbolicBindings bindings}"
  | (name, some value) :: bindings =>
    s!" ({name} {value.symbolic}){symbolicBindings bindings}"

end

end Expr

end Reckon
