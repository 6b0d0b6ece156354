import Reckon.Lowering.Expr
import Reckon.Proofs.Syntax.Callees

/-!
# What lowering cannot tell apart

Lowering is a sequence of single steps: it changes the code, asks where a name is kept, binds a
name, stops, or asks how a callee is reached.  So a relation between computations that single
steps and sequences keep (`Lower.Congruence`) holds between the two lowerings of an expression in
two surroundings if it holds for what is asked about each callee of the expression
(`Lower.Congruence.expr`).  Nothing else of the surroundings is read.
-/

namespace Reckon

namespace Lower

/-- A relation between computations that the single steps of lowering satisfy and that sequences
and bindings keep. -/
structure Congruence (R : {α : Type} → Lower α → Lower α → Prop) : Prop where
  pure : ∀ {α : Type} (a : α), R (Pure.pure a) (Pure.pure a)
  throw : ∀ {α : Type} (e : LowerError),
    R (MonadExcept.throw e : Lower α) (MonadExcept.throw e)
  bind : ∀ {α β : Type} {m m' : Lower α} {k k' : α → Lower β}, R m m' →
    (∀ a, R (k a) (k' a)) → R (m >>= k) (m' >>= k')
  build : ∀ {α : Type} (f : Code.Builder → α × Code.Builder), R (build f) (build f)
  here : ∀ value, R (here value) (here value)
  jumpWith : ∀ computed target next params,
    R (jumpWith computed target next params) (jumpWith computed target next params)
  slotOf : ∀ name, R (slotOf name) (slotOf name)
  withBinding : ∀ {α : Type} (name : String) (slot : Code.SlotId) {inner inner' : Lower α},
    R inner inner' → R (withBinding name slot inner) (withBinding name slot inner')

/-- A relation holds for what is asked about a callee in two surroundings: how many parameters it
has and how it is reached. -/
structure RelatedAt (R : {α : Type} → Lower α → Lower α → Prop) (around around' : Surroundings)
    (callee : Callee) : Prop where
  arity : R (arity? around callee) (arity? around' callee)
  route : R (route? around callee) (route? around' callee)

namespace Congruence

/-- Equality is such a relation. -/
theorem same : Congruence fun m m' => m' = m where
  pure _ := rfl
  throw _ := rfl
  bind hm hk := by rw [hm, funext hk]
  build _ := rfl
  here _ := rfl
  jumpWith _ _ _ _ := rfl
  slotOf _ := rfl
  withBinding name slot := by
    rintro _ _ rfl
    rfl

variable {R : {α : Type} → Lower α → Lower α → Prop} (hR : Congruence R)

include hR

theorem emit (operation : Code.Operation) : R (Lower.emit operation) (Lower.emit operation) :=
  hR.bind (hR.build _) fun value => hR.here value

theorem isTrue (value : Code.ValueId) : R (Lower.isTrue value) (Lower.isTrue value) :=
  hR.bind (hR.build _) fun _ => hR.build _

theorem call (route : Route) (args : List Code.ValueId) :
    R (Lower.call route args) (Lower.call route args) := by
  cases route with
  | direct external => exact hR.emit _
  | throughCell symbol signature =>
      exact hR.bind (hR.build _) fun _ => hR.bind (hR.build _) fun _ => hR.emit _

variable (around around' : Surroundings)

theorem callOrThrow {callee : Callee} (h : RelatedAt R around around' callee)
    (missing : LowerError) (args : List Code.ValueId) :
    R (Lower.callOrThrow around callee missing args)
      (Lower.callOrThrow around' callee missing args) := by
  refine hR.bind h.route fun found => ?_
  split
  · exact hR.call _ _
  · exact hR.throw _

theorem infixOperator {op : Char}
    (h : ∀ callee ∈ Callee.ofInfix op, RelatedAt R around around' callee)
    (left right : Code.ValueId) :
    R (Lower.infixOperator around op left right) (Lower.infixOperator around' op left right) := by
  unfold Lower.infixOperator
  split
  · exact hR.emit _
  · exact hR.emit _
  · exact hR.emit _
  · exact hR.bind (hR.build _) fun _ => hR.bind (hR.build _) fun _ => hR.emit _
  · next hplus hminus htimes hless =>
      refine hR.callOrThrow _ _ (h _ ?_) _ _
      rw [Callee.ofInfix_eq hplus hminus htimes hless]
      exact List.mem_singleton_self _

theorem arguments {args : List Expr}
    (hargs : ∀ arg ∈ args, R (Lower.expr around arg) (Lower.expr around' arg)) :
    R (Lower.arguments around args) (Lower.arguments around' args) := by
  induction args with
  | nil =>
      rw [Lower.arguments, Lower.arguments]
      exact hR.pure _
  | cons arg args ih =>
      obtain ⟨harg, hothers⟩ := List.forall_mem_cons.mp hargs
      rw [Lower.arguments, Lower.arguments]
      exact hR.bind harg fun _ => hR.bind (ih hothers) fun _ => hR.pure _

theorem valueOr (otherwise : Float) {value? : Option Expr}
    (hvalue : ∀ value ∈ value?, R (Lower.expr around value) (Lower.expr around' value)) :
    R (Lower.valueOr around otherwise value?) (Lower.valueOr around' otherwise value?) := by
  cases value? with
  | none =>
      rw [Lower.valueOr, Lower.valueOr]
      exact hR.build _
  | some value =>
      rw [Lower.valueOr, Lower.valueOr]
      exact hR.bind (hvalue value rfl) fun _ => hR.pure _

/-- Each binding contains the ones after it. -/
theorem locals {body body' : Lower Computed} (hbody : R body body')
    {bindings : List (String × Option Expr)}
    (hbindings : ∀ binding ∈ bindings, ∀ value ∈ binding.2,
      R (Lower.expr around value) (Lower.expr around' value)) :
    R (Lower.locals around body bindings) (Lower.locals around' body' bindings) := by
  induction bindings with
  | nil =>
      rw [Lower.locals, Lower.locals]
      exact hbody
  | cons binding bindings ih =>
      obtain ⟨hbinding, hothers⟩ := List.forall_mem_cons.mp hbindings
      rw [Lower.locals, Lower.locals]
      refine hR.bind (hR.valueOr _ _ 0 hbinding) fun value => hR.bind (hR.build _) fun slot => ?_
      exact hR.bind (hR.build _) fun _ => hR.withBinding _ _ (ih hothers)

/-- **What single steps and sequences keep, lowering keeps**, if it holds for the callees. -/
theorem expr (e : Expr) (h : ∀ callee ∈ e.callees, RelatedAt R around around' callee) :
    R (Lower.expr around e) (Lower.expr around' e) := by
  induction e using Expr.induction with
  | number value =>
      rw [Lower.expr, Lower.expr]
      exact hR.emit _
  | var name =>
      rw [Lower.expr, Lower.expr]
      exact hR.bind (hR.slotOf _) fun _ => hR.emit _
  | unary op operand ih =>
      rw [Expr.callees, List.forall_mem_append] at h
      obtain ⟨hoperand, hop⟩ := h
      rw [Lower.expr, Lower.expr]
      refine hR.bind (ih hoperand) fun value => ?_
      exact hR.callOrThrow _ _ (hop _ (List.mem_singleton_self _)) _ _
  | binary op left right ihl ihr =>
      rw [Expr.callees] at h
      by_cases hassign : op = '='
      · subst hassign
        rw [if_pos rfl] at h
        cases left with
        | var name =>
            simp only [Lower.expr, if_true]
            refine hR.bind (ihr h) fun value => hR.bind (hR.slotOf _) fun slot => ?_
            exact hR.bind (hR.build _) fun _ => hR.pure _
        | _ =>
            simp only [Lower.expr, if_true]
            exact hR.throw _
      · rw [if_neg hassign, List.forall_mem_append, List.forall_mem_append] at h
        obtain ⟨⟨hleft, hright⟩, hop⟩ := h
        simp only [Lower.expr, if_neg hassign]
        refine hR.bind (ihl hleft) fun lhs => hR.bind (ihr hright) fun rhs => ?_
        exact hR.infixOperator _ _ hop _ _
  | call name args ih =>
      rw [Expr.callees, List.forall_mem_append] at h
      obtain ⟨hargs, hname⟩ := h
      have hcallee := hname _ (List.mem_singleton_self _)
      rw [Lower.expr, Lower.expr]
      refine hR.bind hcallee.arity fun arity => ?_
      split
      · exact hR.throw _
      · split
        · refine hR.bind (hR.arguments _ _ fun arg harg => ih arg harg fun callee hmem => ?_)
            fun values => hR.callOrThrow _ _ hcallee _ _
          exact hargs callee (Expr.callees_subset_calleesIn harg hmem)
        · exact hR.throw _
  | cond condition thenBranch elseBranch ihc iht ihe =>
      rw [Expr.callees, List.forall_mem_append, List.forall_mem_append] at h
      obtain ⟨hcondition, hthen, helse⟩ := h
      rw [Lower.expr, Lower.expr]
      refine hR.bind (ihc hcondition) fun condition => hR.bind (hR.isTrue _) fun truth => ?_
      refine hR.bind (hR.build _) fun _ => hR.bind (hR.build _) fun _ => ?_
      refine hR.bind (hR.build _) fun _ => hR.bind (hR.build _) fun _ => ?_
      refine hR.bind (hR.build _) fun _ => hR.bind (iht hthen) fun thenValue => ?_
      refine hR.bind (hR.jumpWith _ _ _ _) fun _ => hR.bind (ihe helse) fun elseValue => ?_
      exact hR.bind (hR.jumpWith _ _ _ _) fun _ => hR.here _
  | loop name start finish step body ihs ihf ihstep ihb =>
      rw [Expr.callees, List.forall_mem_append, List.forall_mem_append, List.forall_mem_append]
        at h
      obtain ⟨hstart, hbody, hstep, hfinish⟩ := h
      rw [Lower.expr, Lower.expr]
      refine hR.bind (hR.build _) fun slot => hR.bind (ihs hstart) fun start => ?_
      refine hR.bind (hR.build _) fun _ => hR.bind (hR.build _) fun _ => ?_
      refine hR.bind (hR.build _) fun _ => hR.bind (hR.withBinding _ _ ?_) fun _ => hR.emit _
      refine hR.bind (ihb hbody) fun _ => hR.bind (hR.valueOr _ _ 1 fun value hvalue => ?_)
        fun step => ?_
      · exact ihstep value hvalue fun callee hmem =>
          hstep callee (Expr.callees_subset_calleesIf hvalue hmem)
      · refine hR.bind (ihf hfinish) fun finish => hR.bind (hR.build _) fun _ => ?_
        refine hR.bind (hR.build _) fun _ => hR.bind (hR.build _) fun _ => ?_
        exact hR.bind (hR.isTrue _) fun _ => hR.bind (hR.build _) fun _ => hR.build _
  | locals bindings body ihbindings ihbody =>
      rw [Expr.callees, List.forall_mem_append] at h
      obtain ⟨hbindings, hbody⟩ := h
      rw [Lower.expr, Lower.expr]
      refine hR.locals _ _ (ihbody hbody) fun binding hbinding value hvalue => ?_
      exact ihbindings binding hbinding value hvalue fun callee hmem =>
        hbindings callee (Expr.callees_subset_calleesBound hbinding hvalue hmem)

end Congruence

end Lower

end Reckon
