import Reckon.Proofs.Lowering.Compiling
import Reckon.Proofs.Lowering.Needs
import Reckon.Proofs.Lowering.Violations

/-!
# Lowering answers to what is wrong

Lowering succeeds where nothing is wrong with an expression, and otherwise stops with the
first thing that is (`Lower.expr_answers`).  The list of what is wrong is made without the
state of lowering: it does not know which callees have been met before, whose routes are
kept and not looked for again, nor what the unit has declared on the way.  That neither
makes a difference is the verdict on a callee (`LowerState.Tracked.verdict_eq`), which needs
that distinct callees have distinct symbols.

So a function compiles exactly if nothing is wrong with its body
(`Surroundings.compile_answers`): the check of its code adds nothing.
-/

namespace Reckon

/-- What is known of callees where a function is compiled. -/
def Surroundings.acquaintance (around : Surroundings) (own : Prototype) : Acquaintance :=
  ⟨around.arityOf? own, fun callee => decide (around.Offers own callee)⟩

/-- A scope has places for some names and for no others. -/
def Scope.Holds {σ : Type} (s : Scope σ) (names : List String) : Prop :=
  ∀ name, (s.lookup name).isSome = names.contains name

theorem Scope.Holds.bind {σ : Type} {s : Scope σ} {names : List String} (h : s.Holds names)
    (name : String) (place : σ) : (s.bind name place).1.Holds (name :: names) := by
  intro other
  rw [Scope.lookup_bind, List.contains_cons]
  by_cases heq : name = other
  · simp [heq]
  · rw [if_neg heq, h other, beq_false_of_ne (Ne.symm heq), Bool.false_or]

namespace LowerState

variable {around : Surroundings} {own : Prototype} {s : LowerState} {callee : Callee}
  {scope : Scope Code.SlotId}

/-- The verdict on a callee that was not met before goes by what is known of it. -/
theorem Tracked.verdict_eq (hsensible : around.Sensible own) (h : s.Tracked around own)
    (hnew : callee ∉ s.routes.keys) :
    Lower.verdict around callee s.unit =
      if (around.acquaintance own).knows callee then
        if (around.acquaintance own).offers callee then .ok true
        else .error (.unresolvedSymbol callee.symbol)
      else .ok false := by
  have hdeclared := h.declared_iff hnew
  unfold Lower.verdict
  by_cases hown : own.callee = callee
  · simp [hdeclared.mpr hown, Acquaintance.knows, Surroundings.acquaintance,
      Surroundings.arityOf?, Surroundings.Offers, hown]
  · have hundeclared : s.unit.declared? callee = none :=
      Option.not_isSome_iff_eq_none.mp fun hsome => hown (hdeclared.mp hsome)
    cases hknown : around.registry.get? callee with
    | none =>
        simp [hundeclared, Acquaintance.knows, Surroundings.acquaintance, Surroundings.arityOf?,
          hown, hknown]
    | some p =>
        obtain rfl := hsensible.keyed _ _ hknown
        have harity := Lower.arityOf?_registry h.listed.unit hundeclared hknown
        have hfresh : s.unit.arityAt? p.callee.symbol = none := by
          refine Option.eq_none_iff_forall_not_mem.mpr fun m hm => ?_
          have hclash : s.unit.declare p.callee.symbol (m + 1) .own = .error _ :=
            CompilationUnit.declare_clash hm m.succ_ne_self.symm
          exact h.listed.unit.declare_ne_clash hsensible hundeclared (by rw [harity]; rfl) hclash
        by_cases hlinked : around.linker.isLinked p.callee.symbol = true
        · simp [hundeclared, hfresh, Acquaintance.knows, Surroundings.acquaintance, harity,
            Surroundings.Offers, hlinked]
        · simp [hundeclared, Acquaintance.knows, Surroundings.acquaintance, harity,
            Surroundings.Offers, hlinked, hown]

/-- Lowering stands at a point where the scope is a given one. -/
structure Stands (around : Surroundings) (own : Prototype) (scope : Scope Code.SlotId)
    (s : LowerState) : Prop where
  accounted : s.Accounted around own
  scope : s.scope = scope

theorem Stands.plain (h : s.Stands around own scope) {b : Code.Builder}
    (hplain : s.builder.EmitsPlain b) : (s.built b).Stands around own scope :=
  ⟨h.accounted.plain hplain, h.scope⟩

theorem Stands.rescope (h : s.Stands around own scope) (scope' : Scope Code.SlotId) :
    (s.scoped scope').Stands around own scope' :=
  ⟨h.accounted.rescope scope', rfl⟩

end LowerState

namespace Lower

variable {α β : Type} {around : Surroundings} {own : Prototype} {s s' : LowerState}
  {scope : Scope Code.SlotId} {names : List String} {errors errors' : List LowerError}

/-- A computation answers to some errors: without any it yields something, in a state as
it should be, and otherwise it stops with the first of them. -/
inductive Answers (Q : α → LowerState → Prop) (m : Lower α) (s : LowerState) :
    List LowerError → Prop where
  | yields {a : α} {t : LowerState} (ran : m s = .ok a t) (good : Q a t) : Answers Q m s []
  | stops {e : LowerError} {errors : List LowerError} {t : LowerState}
      (ran : m s = .error e t) : Answers Q m s (e :: errors)

namespace Answers

variable {Q : α → LowerState → Prop} {R : β → LowerState → Prop} {m : Lower α}
  {k : α → Lower β}

/-- A sequence answers to the errors of its first part, then to those of the second. -/
theorem bind (hm : Answers Q m s errors)
    (hk : ∀ a t, m s = .ok a t → Q a t → Answers R (k a) t errors') :
    Answers R (m >>= k) s (errors ++ errors') := by
  cases hm with
  | yields ran good =>
      cases hk _ _ ran good with
      | yields ran' good' => exact .yields ((bind_of_ok ran).trans ran') good'
      | stops ran' => exact .stops ((bind_of_ok ran).trans ran')
  | stops ran => exact .stops (bind_of_error ran)

/-- A first part that never stops answers to nothing. -/
theorem after (hm : Answers Q m s [])
    (hk : ∀ a t, m s = .ok a t → Q a t → Answers R (k a) t errors) :
    Answers R (m >>= k) s errors :=
  hm.bind hk

/-- A second part that never stops answers to nothing. -/
theorem before (hm : Answers Q m s errors)
    (hk : ∀ a t, m s = .ok a t → Q a t → Answers R (k a) t []) :
    Answers R (m >>= k) s errors :=
  errors.append_nil ▸ hm.bind hk

theorem bind_of_ok {a : α} {t : LowerState} (hm : m s = .ok a t)
    (hk : Answers R (k a) t errors) : Answers R (m >>= k) s errors :=
  (Answers.yields (Q := fun b u => b = a ∧ u = t) hm ⟨rfl, rfl⟩).after
    fun _ _ _ ⟨ha, ht⟩ => ha ▸ ht ▸ hk

theorem pure {a : α} (h : Q a s) : Answers Q (Pure.pure a) s [] := .yields rfl h

theorem throw (e : LowerError) (errors : List LowerError) :
    Answers Q (MonadExcept.throw e) s (e :: errors) :=
  .stops rfl

end Answers

/-- What lowering an expression, or a part of one, leaves behind: it still stands where it
stood. -/
abbrev Stays (around : Surroundings) (own : Prototype) (scope : Scope Code.SlotId) (α : Type) :
    α → LowerState → Prop :=
  fun _ t => t.Stands around own scope

/-- Lowering an expression answers to what is wrong with it, wherever it stands. -/
def ExprAnswers (around : Surroundings) (own : Prototype) (e : Expr) : Prop :=
  ∀ s scope names, s.Stands around own scope → scope.Holds names →
    Answers (Stays around own scope Computed) (expr around e) s
      (e.violations (around.acquaintance own) names)

theorem build_answers (h : s.Stands around own scope) {f : Code.Builder → α × Code.Builder}
    (hplain : s.builder.EmitsPlain (f s.builder).2) :
    Answers (Stays around own scope α) (build f) s [] :=
  .yields rfl (h.plain hplain)

theorem define_answers (h : s.Stands around own scope) {operation : Code.Operation}
    (hplain : operation.reaches = false) :
    Answers (Stays around own scope Code.ValueId) (define operation) s [] :=
  build_answers h (.define operation hplain)

theorem emit_answers (h : s.Stands around own scope) {operation : Code.Operation}
    (hplain : operation.reaches = false) :
    Answers (Stays around own scope Computed) (emit operation) s [] :=
  (define_answers h hplain).after fun _ _ _ ht => .yields rfl ht

theorem isTrue_answers (h : s.Stands around own scope) (value : Code.ValueId) :
    Answers (Stays around own scope Code.ValueId) (isTrue value) s [] :=
  (define_answers h rfl).after fun _ _ _ ht => define_answers ht rfl

/-- Only a name in scope has a slot. -/
theorem slotOf_answers (h : s.Stands around own scope) (hnames : scope.Holds names)
    (name : String) :
    Answers (Stays around own scope Code.SlotId) (slotOf name) s
      (LowerError.unless (names.contains name) (.unknownVariable name)) := by
  refine .bind_of_ok (a := s) (m := get) rfl ?_
  rw [← hnames name, h.scope]
  cases scope.lookup name with
  | some slot => exact .yields rfl h
  | none => exact .stops rfl

theorem withBinding_answers (h : s.Stands around own scope) {name : String}
    {slot : Code.SlotId} {inner : Lower α}
    (hinner : Answers (Stays around own (scope.bind name slot).1 α) inner
      (s.scoped (scope.bind name slot).1) errors) :
    Answers (Stays around own scope α) (withBinding name slot inner) s errors := by
  obtain rfl := h.scope
  cases hinner with
  | @yields a t ran good =>
      refine .yields (withBinding_ok.mpr ⟨t, ran, rfl⟩) ⟨good.accounted.rescope _, ?_⟩
      change t.scope.restore (s.scope.bind name slot).2 = s.scope
      rw [good.scope, Scope.restore_bind]
  | stops ran => exact .stops (withBinding_of_error ran)

/-- A jump leaves the block in which its value was computed. -/
theorem jumpWith_answers (h : s.Stands around own scope) {computed : Computed}
    (hblock : computed.block = s.builder.current) (target next : Code.BlockId)
    (params : List Code.ValueId) :
    Answers (Stays around own scope Unit) (jumpWith computed target next params) s [] := by
  refine .bind_of_ok (a := s) (m := get) rfl ?_
  rw [if_pos hblock.symm]
  exact build_answers h (.enter _ _ _)

theorem call_answers (h : s.Stands around own scope) (route : Route) (args : List Code.ValueId) :
    Answers (Stays around own scope Computed) (call route args) s [] := by
  cases route with
  | direct external => exact .yields rfl ⟨h.accounted.of_same rfl rfl rfl rfl, h.scope⟩
  | throughCell symbol signature =>
      exact .yields rfl ⟨h.accounted.of_same rfl rfl rfl rfl, h.scope⟩

section Expressions

variable (hsensible : around.Sensible own)

include hsensible

/-- There is a route to a callee that is known, if there is something to be called. -/
theorem route?_answers (h : s.Stands around own scope) (callee : Callee) :
    Answers (fun route? t => route?.isSome = (around.acquaintance own).knows callee ∧
        t.Stands around own scope) (route? around callee) s
      (if (around.acquaintance own).knows callee then
        LowerError.unless ((around.acquaintance own).offers callee)
          (.unresolvedSymbol callee.symbol)
      else []) := by
  refine .bind_of_ok (a := s) (m := get) rfl ?_
  cases hkept : s.routes.find? callee with
  | some route =>
      have hmet : callee ∈ s.routes.keys := Table.mem_keys_of_find? (by simp [hkept])
      obtain ⟨n, hn⟩ := h.accounted.tracked.listed.known hmet
      have hknows : (around.acquaintance own).knows callee = true := Option.isSome_of_mem hn
      have hoffers : (around.acquaintance own).offers callee = true :=
        decide_eq_true (h.accounted.offered callee hmet)
      rw [hknows, hoffers]
      exact .yields rfl ⟨rfl, h⟩
  | none =>
      have hcomes := findRoute_verdict hsensible.keyed callee s
      rw [h.accounted.tracked.verdict_eq hsensible (Table.not_mem_keys hkept)] at hcomes
      cases hknows : (around.acquaintance own).knows callee with
      | false =>
          rw [hknows] at hcomes
          exact .bind_of_ok hcomes (.yields rfl ⟨rfl, h⟩)
      | true =>
          rw [hknows] at hcomes
          cases hoffers : (around.acquaintance own).offers callee with
          | false =>
              rw [hoffers] at hcomes
              obtain ⟨t, ht⟩ := hcomes
              exact .stops (bind_of_error ht)
          | true =>
              rw [hoffers] at hcomes
              obtain ⟨route, t, ht⟩ := hcomes
              have hfinds := finds_of_findRoute ht
              refine .bind_of_ok ht (.yields rfl ⟨rfl, ?_, ?_⟩)
              · exact h.accounted.finds hsensible.keyed hkept hfinds
              · exact (hfinds.notes hsensible.keyed).scope.trans h.scope

theorem callOrThrow_answers (h : s.Stands around own scope) (callee : Callee)
    (missing : LowerError) (args : List Code.ValueId) :
    Answers (Stays around own scope Computed) (callOrThrow around callee missing args) s
      ((around.acquaintance own).violations callee missing) := by
  have hroute := route?_answers hsensible h callee
  unfold Acquaintance.violations
  cases hknows : (around.acquaintance own).knows callee with
  | false =>
      rw [hknows] at hroute
      refine hroute.after fun route? t _ hfound => ?_
      obtain rfl := Option.not_isSome_iff_eq_none.mp (Bool.eq_false_iff.mp hfound.1)
      exact .throw missing _
  | true =>
      rw [hknows] at hroute
      refine hroute.before fun route? t _ hfound => ?_
      obtain ⟨route, rfl⟩ := Option.isSome_iff_exists.mp hfound.1
      exact call_answers hfound.2 route args

theorem infixOperator_answers (h : s.Stands around own scope) (op : Char)
    (left right : Code.ValueId) :
    Answers (Stays around own scope Computed) (infixOperator around op left right) s
      ((Callee.ofInfix op).flatMap fun callee =>
        (around.acquaintance own).violations callee (.missingBinaryOperator op)) := by
  unfold infixOperator
  split
  · exact emit_answers h rfl
  · exact emit_answers h rfl
  · exact emit_answers h rfl
  · refine (define_answers h rfl).after fun _ t _ ht => ?_
    exact (define_answers ht rfl).after fun _ _ _ hu => emit_answers hu rfl
  · next hplus hminus htimes hless =>
      rw [Callee.ofInfix_eq hplus hminus htimes hless, List.flatMap_singleton]
      exact callOrThrow_answers hsensible h _ _ _

end Expressions

theorem arguments_answers {args : List Expr} (hargs : ∀ arg ∈ args, ExprAnswers around own arg)
    (h : s.Stands around own scope) (hnames : scope.Holds names) :
    Answers (Stays around own scope (List Code.ValueId)) (arguments around args) s
      (Expr.violationsIn (around.acquaintance own) names args) := by
  induction args generalizing s with
  | nil =>
      rw [arguments, Expr.violationsIn]
      exact .pure h
  | cons arg args ih =>
      obtain ⟨harg, hothers⟩ := List.forall_mem_cons.mp hargs
      rw [arguments, Expr.violationsIn]
      refine (harg _ _ _ h hnames).bind fun _ t _ ht => ?_
      exact (ih hothers ht).before fun _ _ _ hu => .pure hu

theorem valueOr_answers {otherwise : Float} {value? : Option Expr}
    (hvalue : ∀ value ∈ value?, ExprAnswers around own value)
    (h : s.Stands around own scope) (hnames : scope.Holds names) :
    Answers (Stays around own scope Code.ValueId) (valueOr around otherwise value?) s
      (Expr.violationsIf (around.acquaintance own) names value?) := by
  cases value? with
  | none =>
      rw [valueOr, Expr.violationsIf]
      exact define_answers h rfl
  | some value =>
      rw [valueOr, Expr.violationsIf]
      exact (hvalue value rfl _ _ _ h hnames).before fun _ _ _ ht => .pure ht

theorem locals_answers {bindings : List (String × Option Expr)} {body : Expr}
    (hbindings : ∀ binding ∈ bindings, ∀ value ∈ binding.2, ExprAnswers around own value)
    (hbody : ExprAnswers around own body) (h : s.Stands around own scope)
    (hnames : scope.Holds names) :
    Answers (Stays around own scope Computed) (locals around (expr around body) bindings) s
      (Expr.violationsBound (around.acquaintance own) names bindings ++
        body.violations (around.acquaintance own) (Expr.bound names bindings)) := by
  induction bindings generalizing s scope names with
  | nil =>
      rw [locals, Expr.violationsBound, Expr.bound]
      exact hbody _ _ _ h hnames
  | cons binding bindings ih =>
      obtain ⟨name, value?⟩ := binding
      obtain ⟨hbinding, hothers⟩ := List.forall_mem_cons.mp hbindings
      rw [locals, Expr.violationsBound, Expr.bound, List.append_assoc]
      refine (valueOr_answers hbinding h hnames).bind fun value t _ ht => ?_
      refine (build_answers ht .newSlot).after fun slot u _ hu => ?_
      refine (build_answers hu (.storeSlot _ _)).after fun _ v _ hv => ?_
      exact withBinding_answers hv (ih hothers (hv.rescope _) (hnames.bind name slot))

theorem cond_answers {condition thenBranch elseBranch : Expr}
    (hcondition : ExprAnswers around own condition) (hthen : ExprAnswers around own thenBranch)
    (helse : ExprAnswers around own elseBranch) :
    ExprAnswers around own (.cond condition thenBranch elseBranch) := by
  intro s scope names h hnames
  rw [expr, Expr.violations]
  refine (hcondition _ _ _ h hnames).bind fun c s₁ _ h₁ => ?_
  refine (isTrue_answers h₁ _).after fun truth s₂ _ h₂ => ?_
  refine (build_answers h₂ .newBlock).after fun _ s₃ _ h₃ => ?_
  refine (build_answers h₃ .newBlock).after fun _ s₄ _ h₄ => ?_
  refine (build_answers h₄ .newBlock).after fun _ s₅ _ h₅ => ?_
  refine (build_answers h₅ .newParam).after fun _ s₆ _ h₆ => ?_
  refine (build_answers h₆ (.enter _ _ _)).after fun _ s₇ _ h₇ => ?_
  refine (hthen _ _ _ h₇ hnames).bind fun t s₈ ht h₈ => ?_
  refine (jumpWith_answers h₈ (expr_block ht) _ _ _).after fun _ s₉ _ h₉ => ?_
  refine (helse _ _ _ h₉ hnames).before fun e s₁₀ he h₁₀ => ?_
  exact (jumpWith_answers h₁₀ (expr_block he) _ _ _).after fun _ _ _ h₁₁ => .yields rfl h₁₁

theorem loop_answers {name : String} {start finish body : Expr} {step : Option Expr}
    (hstart : ExprAnswers around own start) (hfinish : ExprAnswers around own finish)
    (hstep : ∀ value ∈ step, ExprAnswers around own value)
    (hbody : ExprAnswers around own body) :
    ExprAnswers around own (.loop name start finish step body) := by
  intro s scope names h hnames
  rw [expr, Expr.violations]
  refine (build_answers h .newSlot).after fun slot s₁ _ h₁ => ?_
  refine (hstart _ _ _ h₁ hnames).bind fun first s₂ _ h₂ => ?_
  refine (build_answers h₂ (.storeSlot _ _)).after fun _ s₃ _ h₃ => ?_
  refine (build_answers h₃ .newBlock).after fun _ s₄ _ h₄ => ?_
  refine (build_answers h₄ (.enter _ _ _)).after fun _ s₅ _ h₅ => ?_
  have hinner := hnames.bind name slot
  refine (withBinding_answers (α := Unit) h₅ ?_).before fun _ _ _ h₆ => emit_answers h₆ rfl
  refine (hbody _ _ _ (h₅.rescope _) hinner).bind fun _ s₆ _ h₆ => ?_
  refine (valueOr_answers hstep h₆ hinner).bind fun _ s₇ _ h₇ => ?_
  refine (hfinish _ _ _ h₇ hinner).before fun _ s₈ _ h₈ => ?_
  refine (define_answers h₈ rfl).after fun _ s₉ _ h₉ => ?_
  refine (define_answers h₉ rfl).after fun _ s₁₀ _ h₁₀ => ?_
  refine (build_answers h₁₀ (.storeSlot _ _)).after fun _ s₁₁ _ h₁₁ => ?_
  refine (isTrue_answers h₁₁ _).after fun _ s₁₂ _ h₁₂ => ?_
  refine (build_answers h₁₂ .newBlock).after fun _ s₁₃ _ h₁₃ => ?_
  exact build_answers h₁₃ (.enter _ _ _)

/-- **Lowering an expression answers** to what is wrong with it. -/
theorem expr_answers (hsensible : around.Sensible own) (e : Expr) : ExprAnswers around own e := by
  induction e using Expr.induction with
  | number value =>
      intro s scope names h _
      rw [expr, Expr.violations]
      exact emit_answers h rfl
  | var name =>
      intro s scope names h hnames
      rw [expr, Expr.violations]
      exact (slotOf_answers h hnames name).before fun _ _ _ ht => emit_answers ht rfl
  | unary op operand ih =>
      intro s scope names h hnames
      rw [expr, Expr.violations]
      refine (ih _ _ _ h hnames).bind fun value t _ ht => ?_
      exact callOrThrow_answers hsensible ht _ _ _
  | binary op left right ihl ihr =>
      intro s scope names h hnames
      by_cases hassign : op = '='
      · subst hassign
        cases left with
        | var name =>
            simp only [expr, Expr.violations, if_true]
            refine (ihr _ _ _ h hnames).bind fun value t _ ht => ?_
            refine (slotOf_answers ht hnames name).before fun slot u _ hu => ?_
            exact (build_answers hu (.storeSlot _ _)).after fun _ _ _ hv => .pure hv
        | _ =>
            simp only [expr, Expr.violations, if_true]
            exact .throw _ _
      · simp only [expr, Expr.violations, if_neg hassign]
        refine (ihl _ _ _ h hnames).bind fun lhs t _ ht => ?_
        refine (ihr _ _ _ ht hnames).bind fun rhs u _ hu => ?_
        exact infixOperator_answers hsensible hu op _ _
  | call name args ih =>
      intro s scope names h hnames
      have harity : (around.acquaintance own).arity? (.named name) =
          around.arityOf? own (.named name) := rfl
      rw [expr, Expr.violations, Acquaintance.mismatch, harity]
      refine .bind_of_ok (arity?_eq h.accounted.tracked.listed.unit _) ?_
      cases hknown : around.arityOf? own (.named name) with
      | none => exact .throw _ _
      | some arity =>
          by_cases hlength : arity = args.length
          · rw [hlength]
            simp only [if_true, beq_self_eq_true]
            refine (arguments_answers ih h hnames).bind fun vs t _ ht => ?_
            have hcall := callOrThrow_answers hsensible ht (.named name) (.unknownFunction name) vs
            rwa [Acquaintance.violations, Acquaintance.knows, harity, hknown] at hcall
          · simp only [if_neg hlength, beq_false_of_ne hlength]
            exact .throw _ _
  | cond condition thenBranch elseBranch ihc iht ihe => exact cond_answers ihc iht ihe
  | loop name start finish step body ihs ihf ihstep ihb => exact loop_answers ihs ihf ihstep ihb
  | locals bindings body ihbindings ihbody =>
      intro s scope names h hnames
      rw [expr, Expr.violations]
      exact locals_answers ihbindings ihbody h hnames

/-- Parameters are kept in slots, and are in scope from then on. -/
theorem parameters_holds (hnames : s.scope.Holds names) (params : List String)
    (first : Code.ValueId) :
    ∃ t, parameters first params s = .ok () t ∧ t.scope.Holds (params ++ names) := by
  induction params generalizing s names first with
  | nil => exact ⟨s, parameters_nil_ok.mpr rfl, hnames⟩
  | cons name params ih =>
      have hbound : ((s.built (s.builder.newSlot.2.storeSlot first s.builder.slots)).scoped
          (s.scope.bind name s.builder.slots).1).scope.Holds (name :: names) :=
        hnames.bind name _
      obtain ⟨t, hparams, ht⟩ := ih hbound (first + 1)
      refine ⟨t, parameters_cons_ok.mpr hparams, fun other => ?_⟩
      rw [ht other]
      simp [or_left_comm]

end Lower

/-- **A function compiles exactly if nothing is wrong with its body**, and otherwise the
error is the first thing that is. -/
theorem Surroundings.compile_answers {around : Surroundings} {f : Function}
    (hsensible : around.Sensible f.prototype) :
    ((∃ c, around.compile f = .ok c) ↔
      f.body.violations (around.acquaintance f.prototype) f.prototype.params = []) ∧
    ∀ e, around.compile f = .error e ↔
      (f.body.violations (around.acquaintance f.prototype) f.prototype.params).head? = some e := by
  obtain ⟨declared, unit, hdeclare⟩ := CompilationUnit.declareDefinition_empty f.prototype
  have hstart : (LowerState.start unit f.prototype.arity).scope.Holds [] := fun _ => rfl
  obtain ⟨s, hparams, hholds⟩ := Lower.parameters_holds hstart f.prototype.params 0
  rw [List.append_nil] at hholds
  have hbody := Lower.expr_answers hsensible f.body s s.scope f.prototype.params
    ⟨Lower.parameters_accounted hdeclare hparams, rfl⟩ hholds
  have hfunction : Lower.Answers _ (Lower.function around f) (.start unit f.prototype.arity) _ :=
    .bind_of_ok hparams hbody
  generalize f.body.violations (around.acquaintance f.prototype) f.prototype.params = errors
    at hfunction
  rw [compile_eq hdeclare]
  cases hfunction with
  | @yields r t ran =>
      have hcheck := (Lower.function_wellFormed hsensible hdeclare ran
        f.prototype.callee.symbol).check
      simp [ran, hcheck]
  | stops ran => simp [ran]

end Reckon
