import Reckon.Proofs.Syntax.Everywhere
import Reckon.Syntax.Prototype

/-!
# The parts of an expression

An expression and everything in it, as a list.  A property holds everywhere in an expression
exactly if it holds of each of its parts (`Expr.everywhere_iff_parts`), so what is known of every
node carries over to what the nodes call (`Expr.mentions`).
-/

namespace Reckon

namespace Expr

mutual

/-- The parts of an expression, the expression itself first. -/
def parts : Expr → List Expr
  | number value => [number value]
  | var name => [var name]
  | unary op operand => unary op operand :: operand.parts
  | binary op left right => binary op left right :: (left.parts ++ right.parts)
  | call name args => call name args :: partsIn args
  | cond condition thenBranch elseBranch =>
    cond condition thenBranch elseBranch ::
      (condition.parts ++ (thenBranch.parts ++ elseBranch.parts))
  | loop name start finish step body =>
    loop name start finish step body ::
      (start.parts ++ (finish.parts ++ (partsIf step ++ body.parts)))
  | locals bindings body => locals bindings body :: (partsBound bindings ++ body.parts)

/-- The parts of some arguments. -/
def partsIn : List Expr → List Expr
  | [] => []
  | arg :: args => arg.parts ++ partsIn args

/-- The parts of an expression that may be missing. -/
def partsIf : Option Expr → List Expr
  | none => []
  | some e => e.parts

/-- The parts of the initial values of some names. -/
def partsBound : List (String × Option Expr) → List Expr
  | [] => []
  | (_, value) :: bindings => partsIf value ++ partsBound bindings

end

variable {P : Expr → Prop}

mutual

theorem everywhere_iff_parts : (e : Expr) → (e.Everywhere P ↔ ∀ part ∈ e.parts, P part)
  | number _ => by simp [Everywhere, parts]
  | var _ => by simp [Everywhere, parts]
  | unary _ operand => by simp [Everywhere, parts, everywhere_iff_parts operand]
  | binary _ left right => by
    simp [Everywhere, parts, everywhere_iff_parts left, everywhere_iff_parts right, or_imp,
      forall_and]
  | call _ args => by simp [Everywhere, parts, everywhereIn_iff_parts args]
  | cond condition thenBranch elseBranch => by
    simp [Everywhere, parts, everywhere_iff_parts condition, everywhere_iff_parts thenBranch,
      everywhere_iff_parts elseBranch, or_imp, forall_and]
  | loop _ start finish step body => by
    simp [Everywhere, parts, everywhere_iff_parts start, everywhere_iff_parts finish,
      everywhereIf_iff_parts step, everywhere_iff_parts body, or_imp, forall_and]
  | locals bindings body => by
    simp [Everywhere, parts, everywhereBound_iff_parts bindings, everywhere_iff_parts body,
      or_imp, forall_and]

theorem everywhereIn_iff_parts :
    (args : List Expr) → (EverywhereIn P args ↔ ∀ part ∈ partsIn args, P part)
  | [] => by simp [EverywhereIn, partsIn]
  | arg :: args => by
    simp [EverywhereIn, partsIn, everywhere_iff_parts arg, everywhereIn_iff_parts args, or_imp,
      forall_and]

theorem everywhereIf_iff_parts :
    (value? : Option Expr) → (EverywhereIf P value? ↔ ∀ part ∈ partsIf value?, P part)
  | none => by simp [EverywhereIf, partsIf]
  | some e => by simp [EverywhereIf, partsIf, everywhere_iff_parts e]

theorem everywhereBound_iff_parts :
    (bindings : List (String × Option Expr)) →
      (EverywhereBound P bindings ↔ ∀ part ∈ partsBound bindings, P part)
  | [] => by simp [EverywhereBound, partsBound]
  | (_, value?) :: bindings => by
    simp [EverywhereBound, partsBound, everywhereIf_iff_parts value?,
      everywhereBound_iff_parts bindings, or_imp, forall_and]

end

/-- What a node refers to, if it is an operator or a call. -/
def callee? : Expr → Option Callee
  | unary op _ => some (.unary op)
  | binary op _ _ => some (.binary op)
  | call name _ => some (.named name)
  | _ => none

/-- The callees that an expression refers to anywhere, those of built-in operators included. -/
def mentions (e : Expr) : List Callee := e.parts.filterMap callee?

/-- What holds of the callee of every node holds of everything that is mentioned. -/
theorem Everywhere.mentions {e : Expr} {Q : Callee → Prop} (h : e.Everywhere P)
    (hPQ : ∀ node, P node → ∀ callee ∈ node.callee?, Q callee) :
    ∀ callee ∈ e.mentions, Q callee := by
  intro callee hcallee
  obtain ⟨node, hnode, hfound⟩ := List.mem_filterMap.mp hcallee
  exact hPQ node ((everywhere_iff_parts e).mp h node hnode) callee hfound

end Expr

end Reckon
