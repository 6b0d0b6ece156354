import Reckon.Syntax.Prototype

/-!
# What an expression calls

The callees of an expression, one for each call of it, in the order in which the
calls are lowered: operands and arguments from left to right before the call itself,
and of a loop the first value, the body, the step and the end.  A function needs the
symbols of the callees of its body, itself apart.
-/

namespace Reckon

/-- What an infix operator calls.  Four of them are instructions. -/
def Callee.ofInfix : Char → List Callee
  | '+' => []
  | '-' => []
  | '*' => []
  | '<' => []
  | op => [.binary op]

theorem Callee.ofInfix_eq {op : Char} (hplus : op ≠ '+') (hminus : op ≠ '-') (htimes : op ≠ '*')
    (hless : op ≠ '<') : Callee.ofInfix op = [.binary op] := by
  unfold Callee.ofInfix
  split <;> first | contradiction | rfl

namespace Expr

mutual

/-- The callees of an expression. -/
def callees : Expr → List Callee
  | number _ => []
  | var _ => []
  | unary op operand => operand.callees ++ [.unary op]
  | binary op left right =>
    if op = '=' then right.callees
    else left.callees ++ right.callees ++ Callee.ofInfix op
  | call name args => calleesIn args ++ [.named name]
  | cond condition thenBranch elseBranch =>
    condition.callees ++ (thenBranch.callees ++ elseBranch.callees)
  | loop _ start finish step body =>
    start.callees ++ (body.callees ++ (calleesIf step ++ finish.callees))
  | locals bindings body => calleesBound bindings ++ body.callees

/-- The callees of some arguments. -/
def calleesIn : List Expr → List Callee
  | [] => []
  | arg :: args => arg.callees ++ calleesIn args

/-- The callees of an expression that may be missing. -/
def calleesIf : Option Expr → List Callee
  | none => []
  | some e => e.callees

/-- The callees of the initial values of some names. -/
def calleesBound : List (String × Option Expr) → List Callee
  | [] => []
  | (_, value) :: bindings => calleesIf value ++ calleesBound bindings

end

theorem callees_subset_calleesIn {arg : Expr} {args : List Expr} (h : arg ∈ args) :
    arg.callees ⊆ calleesIn args := by
  induction args with
  | nil => cases h
  | cons first args ih =>
      rw [calleesIn]
      rcases List.mem_cons.mp h with rfl | h
      · exact List.subset_append_left _ _
      · exact List.subset_append_of_subset_right _ (ih h)

theorem callees_subset_calleesIf {value : Expr} {value? : Option Expr} (h : value ∈ value?) :
    value.callees ⊆ calleesIf value? := by
  cases h
  rw [calleesIf]
  exact List.Subset.refl _

theorem callees_subset_calleesBound {binding : String × Option Expr} {value : Expr}
    {bindings : List (String × Option Expr)} (h : binding ∈ bindings) (hvalue : value ∈ binding.2) :
    value.callees ⊆ calleesBound bindings := by
  induction bindings with
  | nil => cases h
  | cons first bindings ih =>
      rw [calleesBound]
      rcases List.mem_cons.mp h with rfl | h
      · exact List.subset_append_of_subset_left _ (callees_subset_calleesIf hvalue)
      · exact List.subset_append_of_subset_right _ (ih h)

end Expr

namespace Function

/-- The symbol of a function. -/
abbrev symbol (f : Function) : String := f.prototype.callee.symbol

/-- The symbols that a function needs: those of the callees of its body other than the
function itself. -/
def needs (f : Function) : List String :=
  (f.body.callees.filter (· ≠ f.prototype.callee)).map Callee.symbol

theorem mem_needs {f : Function} {symbol : String} :
    symbol ∈ f.needs ↔
      ∃ callee ∈ f.body.callees, callee ≠ f.prototype.callee ∧ callee.symbol = symbol := by
  simp [needs, and_assoc]

end Function

end Reckon
