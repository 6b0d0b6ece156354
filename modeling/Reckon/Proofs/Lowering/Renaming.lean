import Reckon.Proofs.Lowering.Heads
import Reckon.Proofs.Lowering.Scoping
import Reckon.Proofs.Syntax.Renaming

/-!
# Lowering does not see the names of variables

A name is only there to find a slot.  So lowering an expression whose free names have been
renamed, in a scope that keeps the same slots under the renamed names, comes to the same code
or the same error (`Lower.expr_rename`).  The two runs differ in their scopes alone
(`Lower.Mirrors`), and since every part leaves the scope as it found it, they go on doing so.

Renaming one binder and what it binds makes two scopes of that kind where the name is bound,
and no difference at all outside.  It follows that a function compiles in the same way under
other names of its variables (`Surroundings.SameHeads.compile_renamed`), also where the
registry holds the other prototype of the function.
-/

namespace Reckon

/-- Two scopes keep the same slots, the second one under renamed names.  The only name that
another one becomes is `new`, and no name becomes another one unless it is in scope. -/
structure Scope.Renamed {σ : Type} (r : Renaming) (new : String) (scope scope' : Scope σ) :
    Prop where
  near : ∀ name, r name = name ∨ r name = new
  lookup : ∀ name, name ≠ new → scope'.lookup (r name) = scope.lookup name
  free : ∀ name, scope.lookup name = none → r name = name

namespace Scope.Renamed

variable {σ : Type} {r : Renaming} {new : String} {scope scope' : Scope σ}

/-- A name that is bound anew is bound alike in both scopes. -/
theorem bind (h : Renamed r new scope scope') {name : String} (hname : name ≠ new) (place : σ) :
    Renamed (r.past name) new (scope.bind name place).1 (scope'.bind name place).1 where
  near other := by
    unfold Renaming.past
    split
    · exact Or.inl rfl
    · exact h.near other
  lookup other hother := by
    rw [lookup_bind, lookup_bind]
    unfold Renaming.past
    by_cases heq : other = name
    · simp [heq]
    · have hdistinct : name ≠ r other := by
        rcases h.near other with hsame | hnew
        · rw [hsame]
          exact Ne.symm heq
        · rw [hnew]
          exact hname
      rw [if_neg heq, if_neg hdistinct, if_neg (Ne.symm heq)]
      exact h.lookup other hother
  free other hother := by
    rw [lookup_bind] at hother
    unfold Renaming.past
    split at hother
    · cases hother
    · next hne =>
        rw [if_neg (Ne.symm hne)]
        exact h.free other hother

/-- Where two names are bound to the same place, one stands for the other. -/
theorem single (scope : Scope σ) (old new : String) (place : σ) :
    Renamed (.single old new) new (scope.bind old place).1 (scope.bind new place).1 where
  near name := by
    unfold Renaming.single
    split
    · exact Or.inr rfl
    · exact Or.inl rfl
  lookup name hname := by
    rw [lookup_bind, lookup_bind]
    unfold Renaming.single
    by_cases heq : name = old
    · simp [heq]
    · rw [if_neg heq, if_neg (Ne.symm hname), if_neg (Ne.symm heq)]
  free name hname := by
    rw [lookup_bind] at hname
    unfold Renaming.single
    split at hname
    · cases hname
    · next hne => exact if_neg (Ne.symm hne)

end Scope.Renamed

namespace Lower

variable {α β : Type} {around : Surroundings} {new : String} {r : Renaming}
  {scope scope' : Scope Code.SlotId}

/-- A computation in one scope mirrors another one in another scope: they come to the same,
and each leaves its scope as it found it. -/
structure Mirrors (scope scope' : Scope Code.SlotId) (m m' : Lower α) : Prop where
  keeps : m.KeepsScope
  run : ∀ s, s.scope = scope → m' (s.scoped scope') = mapScope (fun _ => scope') (m s)

namespace Mirrors

theorem scopeless {m : Lower α} (h : m.Scopeless) : Mirrors scope scope' m m where
  keeps := h.keepsScope
  run s _ := h scope' s

theorem refl {m : Lower α} (h : m.KeepsScope) : Mirrors scope scope m m where
  keeps := h
  run s hscope := by
    subst hscope
    exact (h.mapScope_self s).symm

/-- Computations that mirror each other in every scope are the same. -/
theorem eq {m m' : Lower α} (h : ∀ scope, Mirrors scope scope m m') : m' = m := by
  funext s
  exact ((h s.scope).run s rfl).trans ((h s.scope).keeps.mapScope_self s)

theorem build (f : Code.Builder → α × Code.Builder) :
    Mirrors scope scope' (Lower.build f) (Lower.build f) :=
  scopeless (.build f)

theorem pure (a : α) : Mirrors scope scope' (Pure.pure a : Lower α) (Pure.pure a) :=
  scopeless (.pure a)

/-- Sequences mirror each other if their parts do. -/
theorem bind {m m' : Lower α} {k k' : α → Lower β} (hm : Mirrors scope scope' m m')
    (hk : ∀ a, Mirrors scope scope' (k a) (k' a)) :
    Mirrors scope scope' (m >>= k) (m' >>= k') where
  keeps := .bind hm.keeps fun a => (hk a).keeps
  run s hscope := by
    have hfirst := hm.run s hscope
    cases hrun : m s with
    | ok a t =>
        rw [hrun] at hfirst
        rw [bind_of_ok hfirst, bind_of_ok hrun]
        exact (hk a).run t ((hm.keeps.of_ok hrun).trans hscope)
    | error e t =>
        rw [hrun] at hfirst
        rw [bind_of_error hfirst, bind_of_error hrun]
        rfl

/-- Two names are bound in their own scopes, and both scopes are there again afterwards. -/
theorem withBinding {name name' : String} {slot : Code.SlotId} {inner inner' : Lower α}
    (h : Mirrors (scope.bind name slot).1 (scope'.bind name' slot).1 inner inner') :
    Mirrors scope scope' (Lower.withBinding name slot inner)
      (Lower.withBinding name' slot inner') where
  keeps := h.keeps.withBinding name slot
  run s hscope := by
    subst hscope
    rw [withBinding_eq, withBinding_eq, mapScope_mapScope]
    change mapScope _ (inner' ((s.scoped (s.scope.bind name slot).1).scoped
      (scope'.bind name' slot).1)) = _
    rw [h.run (s.scoped (s.scope.bind name slot).1) rfl, mapScope_mapScope]
    exact congrArg (fun scope => mapScope (fun _ => scope) _) (Scope.restore_bind scope' name' slot)

end Mirrors

/-- A name has the slot that its new name has in the other scope, or is unknown like it. -/
theorem slotOf_mirrors (h : scope.Renamed r new scope') {name : String} (hname : name ≠ new) :
    Mirrors scope scope' (slotOf name) (slotOf (r name)) where
  keeps := slotOf_keepsScope name
  run s hscope := by
    subst hscope
    have hget (s : LowerState) : (get : Lower LowerState) s = .ok s s := rfl
    unfold slotOf
    rw [bind_of_ok (hget s), bind_of_ok (hget (s.scoped scope'))]
    simp only [LowerState.scoped, h.lookup name hname]
    cases hslot : s.scope.lookup name with
    | some slot => rfl
    | none =>
        rw [h.free name hslot]
        rfl

/-- Lowering an expression with renamed names mirrors lowering the expression, wherever the
other scope keeps the same slots under the renamed names. -/
def ExprMirrors (around : Surroundings) (new : String) (e : Expr) : Prop :=
  new ∉ e.names → ∀ r scope scope', scope.Renamed r new scope' →
    Mirrors scope scope' (expr around e) (expr around (e.rename r))

theorem arguments_rename {args : List Expr} (hargs : ∀ arg ∈ args, ExprMirrors around new arg)
    (hfresh : new ∉ Expr.namesIn args) (h : scope.Renamed r new scope') :
    Mirrors scope scope' (arguments around args) (arguments around (Expr.renameIn r args)) := by
  induction args with
  | nil =>
      rw [Expr.renameIn, arguments]
      exact .pure _
  | cons arg args ih =>
      obtain ⟨harg, hothers⟩ := List.forall_mem_cons.mp hargs
      simp only [Expr.namesIn, List.mem_append, not_or] at hfresh
      rw [Expr.renameIn, arguments, arguments]
      refine .bind (harg hfresh.1 r scope scope' h) fun first => ?_
      exact .bind (ih hothers hfresh.2) fun others => .pure _

theorem valueOr_rename (otherwise : Float) {value? : Option Expr}
    (hvalue : ∀ value ∈ value?, ExprMirrors around new value)
    (hfresh : new ∉ Expr.namesIf value?) (h : scope.Renamed r new scope') :
    Mirrors scope scope' (valueOr around otherwise value?)
      (valueOr around otherwise (Expr.renameIf r value?)) := by
  cases value? with
  | none =>
      rw [Expr.renameIf, valueOr]
      exact .build _
  | some value =>
      rw [Expr.renameIf, valueOr, valueOr]
      exact .bind (hvalue value rfl hfresh r scope scope' h) fun _ => .pure _

/-- The induction is over the new names, of which each takes its own name out of the
renaming. -/
theorem locals_rename {bindings : List (String × Option Expr)} {body : Expr}
    (hbindings : ∀ binding ∈ bindings, ∀ value ∈ binding.2, ExprMirrors around new value)
    (hbody : ExprMirrors around new body) (hfresh : new ∉ Expr.namesBound bindings)
    (hfresh' : new ∉ body.names) (h : scope.Renamed r new scope') :
    Mirrors scope scope' (locals around (expr around body) bindings)
      (locals around (expr around (body.rename (r.pastAll (bindings.map Prod.fst))))
        (Expr.renameBound r bindings)) := by
  induction bindings generalizing r scope scope' with
  | nil =>
      rw [Expr.renameBound, locals, locals]
      exact hbody hfresh' r scope scope' h
  | cons binding bindings ih =>
      obtain ⟨name, initial⟩ := binding
      obtain ⟨hinitial, hothers⟩ := List.forall_mem_cons.mp hbindings
      simp only [Expr.namesBound, List.mem_cons, List.mem_append, not_or] at hfresh
      rw [Expr.renameBound, locals, locals]
      refine .bind (valueOr_rename 0 hinitial hfresh.2.1 h) fun value => ?_
      refine .bind (.build _) fun slot => .bind (.build _) fun _ => ?_
      exact .withBinding (ih hothers hfresh.2.2 (h.bind (Ne.symm hfresh.1) slot))

/-- Two loops mirror each other if their first values do and the rest of one of them is the
rest of the other one under the names that they bind. -/
theorem loop_mirrors {name name' : String} {start start' finish : Expr} {step : Option Expr}
    {body : Expr} (hstart : Mirrors scope scope' (expr around start) (expr around start'))
    (hfinish : ExprMirrors around new finish)
    (hstep : ∀ value ∈ step, ExprMirrors around new value)
    (hbody : ExprMirrors around new body) (hfinishes : new ∉ finish.names)
    (hsteps : new ∉ Expr.namesIf step) (hbodies : new ∉ body.names)
    (h : ∀ slot, (scope.bind name slot).1.Renamed r new (scope'.bind name' slot).1) :
    Mirrors scope scope' (expr around (.loop name start finish step body))
      (expr around (.loop name' start' (finish.rename r) (Expr.renameIf r step)
        (body.rename r))) := by
  rw [expr, expr]
  refine .bind (.build _) fun slot => .bind hstart fun start => .bind (.build _) fun _ => ?_
  refine .bind (.build _) fun loopBlock => .bind (.build _) fun _ => ?_
  refine .bind (Mirrors.withBinding ?_) fun _ => .scopeless (emit_scopeless _)
  refine .bind (hbody hbodies r _ _ (h slot)) fun _ => ?_
  refine .bind (valueOr_rename 1 hstep hsteps (h slot)) fun step => ?_
  refine .bind (hfinish hfinishes r _ _ (h slot)) fun finish => ?_
  refine .bind (.build _) fun _ => .bind (.build _) fun _ => .bind (.build _) fun _ => ?_
  refine .bind (.scopeless (isTrue_scopeless _)) fun _ => ?_
  exact .bind (.build _) fun _ => .build _

theorem binary_rename {op : Char} {left right : Expr} (hleft : ExprMirrors around new left)
    (hright : ExprMirrors around new right) : ExprMirrors around new (.binary op left right) := by
  intro hfresh r scope scope' h
  simp only [Expr.names, List.mem_append, not_or] at hfresh
  by_cases hassign : op = '='
  · subst hassign
    cases left with
    | var name =>
        have hname : name ≠ new := by
          rintro rfl
          simp [Expr.names] at hfresh
        simp only [Expr.rename, expr, if_true]
        refine .bind (hright hfresh.2 r scope scope' h) fun value => ?_
        exact .bind (slotOf_mirrors h hname) fun slot => .bind (.build _) fun _ => .pure _
    | _ =>
        simp only [Expr.rename, expr, if_true]
        exact .scopeless (.throw _)
  · simp only [Expr.rename, expr, if_neg hassign]
    refine .bind (hleft hfresh.1 r scope scope' h) fun lhs => ?_
    refine .bind (hright hfresh.2 r scope scope' h) fun rhs => ?_
    exact .scopeless (infixOperator_scopeless around op _ _)

theorem cond_rename {condition thenBranch elseBranch : Expr}
    (hcondition : ExprMirrors around new condition) (hthen : ExprMirrors around new thenBranch)
    (helse : ExprMirrors around new elseBranch) :
    ExprMirrors around new (.cond condition thenBranch elseBranch) := by
  intro hfresh r scope scope' h
  simp only [Expr.names, List.mem_append, not_or] at hfresh
  rw [Expr.rename, expr, expr]
  refine .bind (hcondition hfresh.1 r scope scope' h) fun c => ?_
  refine .bind (.scopeless (isTrue_scopeless _)) fun truth => .bind (.build _) fun _ => ?_
  refine .bind (.build _) fun _ => .bind (.build _) fun _ => ?_
  refine .bind (.build _) fun _ => .bind (.build _) fun _ => ?_
  refine .bind (hthen hfresh.2.1 r scope scope' h) fun thenValue => ?_
  refine .bind (.scopeless (jumpWith_scopeless _ _ _ _)) fun _ => ?_
  refine .bind (helse hfresh.2.2 r scope scope' h) fun elseValue => ?_
  refine .bind (.scopeless (jumpWith_scopeless _ _ _ _)) fun _ => ?_
  exact .scopeless fun _ _ => rfl

/-- **Lowering does not see the names of variables.** -/
theorem expr_rename (around : Surroundings) (new : String) (e : Expr) :
    ExprMirrors around new e := by
  induction e using Expr.induction with
  | number value =>
      intro _ r scope scope' _
      rw [Expr.rename, expr]
      exact .scopeless (emit_scopeless _)
  | var name =>
      intro hfresh r scope scope' h
      have hname : name ≠ new := by
        rintro rfl
        simp [Expr.names] at hfresh
      rw [Expr.rename, expr, expr]
      exact .bind (slotOf_mirrors h hname) fun _ => .scopeless (emit_scopeless _)
  | unary op operand ih =>
      intro hfresh r scope scope' h
      rw [Expr.rename, expr, expr]
      refine .bind (ih hfresh r scope scope' h) fun _ => ?_
      exact .scopeless (callOrThrow_scopeless around _ _ _)
  | binary op left right ihl ihr => exact binary_rename ihl ihr
  | call name args ih =>
      intro hfresh r scope scope' h
      rw [Expr.rename, expr, expr, Expr.length_renameIn]
      refine .bind (.scopeless (arity?_scopeless around _)) fun arity? => ?_
      split
      · exact .scopeless (.throw _)
      · split
        · refine .bind (arguments_rename ih hfresh h) fun values => ?_
          exact .scopeless (callOrThrow_scopeless around _ _ _)
        · exact .scopeless (.throw _)
  | cond condition thenBranch elseBranch ihc iht ihe => exact cond_rename ihc iht ihe
  | loop name start finish step body ihs ihf ihstep ihb =>
      intro hfresh r scope scope' h
      simp only [Expr.names, List.mem_cons, List.mem_append, not_or] at hfresh
      obtain ⟨hname, hs, hf, hstep, hb⟩ := hfresh
      rw [Expr.rename]
      exact loop_mirrors (ihs hs r scope scope' h) ihf ihstep ihb hf hstep hb fun slot =>
        h.bind (Ne.symm hname) slot
  | locals bindings body ihbindings ihbody =>
      intro hfresh r scope scope' h
      simp only [Expr.names, List.mem_append, not_or] at hfresh
      rw [Expr.rename, expr, expr]
      exact locals_rename ihbindings ihbody hfresh.1 hfresh.2 h

theorem arguments_of_one (before after : List Expr) {arg arg' : Expr}
    (h : expr around arg' = expr around arg) :
    arguments around (before ++ arg' :: after) = arguments around (before ++ arg :: after) := by
  induction before with
  | nil => simp only [List.nil_append, arguments, h]
  | cons first before ih => simp only [List.cons_append, arguments, ih]

theorem locals_of_tail (before : List (String × Option Expr)) {body body' : Lower Computed}
    {bindings bindings' : List (String × Option Expr)}
    (h : locals around body' bindings' = locals around body bindings) :
    locals around body' (before ++ bindings') = locals around body (before ++ bindings) := by
  induction before with
  | nil => exact h
  | cons binding before ih => simp only [List.cons_append, locals, ih]

/-- **Changing the name of one binder of an expression changes nothing in what lowering it
comes to.**  Two scopes are at variance only where the binder binds. -/
theorem expr_renamesBinder {e e' : Expr} (h : e.RenamesBinder new e') (hfresh : new ∉ e.names) :
    expr around e' = expr around e := by
  induction h with
  | ofLoop name start finish step body =>
      simp only [Expr.names, List.mem_cons, List.mem_append, not_or] at hfresh
      obtain ⟨-, -, hfinish, hstep, hbody⟩ := hfresh
      refine Mirrors.eq fun scope => ?_
      exact loop_mirrors (.refl (expr_keepsScope around start)) (expr_rename around new finish)
        (fun value _ => expr_rename around new value) (expr_rename around new body)
        hfinish hstep hbody fun slot => .single scope name new slot
  | ofLocal before name value after body =>
      simp only [Expr.names, Expr.namesBound_append, Expr.namesBound, List.mem_cons,
        List.mem_append, not_or] at hfresh
      obtain ⟨⟨-, -, -, hafter⟩, hbody⟩ := hfresh
      rw [expr, expr]
      refine locals_of_tail before (Mirrors.eq fun scope => ?_)
      have hkeeps : (valueOr around 0 value).KeepsScope :=
        valueOr_keepsScope around 0 value
      rw [locals, locals]
      refine .bind (.refl hkeeps) fun _ => .bind (.build _) fun slot => .bind (.build _) fun _ => ?_
      exact .withBinding (locals_rename (fun _ _ initial _ => expr_rename around new initial)
        (expr_rename around new body) hafter hbody (.single scope name new slot))
  | unary h ih => rw [expr, expr, ih hfresh]
  | @left op left left' right h ih =>
      simp only [Expr.names, List.mem_append, not_or] at hfresh
      by_cases hassign : op = '='
      · -- neither operand is a variable, in which nothing is bound
        subst hassign
        cases h <;> simp only [expr, if_true]
      · simp only [expr, if_neg hassign, ih hfresh.1]
  | @right op left right right' h ih =>
      simp only [Expr.names, List.mem_append, not_or] at hfresh
      cases left <;> simp only [expr, ih hfresh.2]
  | argument before after h ih =>
      simp only [Expr.names, Expr.namesIn_append, Expr.namesIn, List.mem_append, not_or] at hfresh
      rw [expr, expr, arguments_of_one before after (ih hfresh.2.1)]
      simp only [List.length_append, List.length_cons]
  | condition h ih =>
      simp only [Expr.names, List.mem_append, not_or] at hfresh
      rw [expr, expr, ih hfresh.1]
  | thenBranch h ih =>
      simp only [Expr.names, List.mem_append, not_or] at hfresh
      rw [expr, expr, ih hfresh.2.1]
  | elseBranch h ih =>
      simp only [Expr.names, List.mem_append, not_or] at hfresh
      rw [expr, expr, ih hfresh.2.2]
  | start h ih =>
      simp only [Expr.names, List.mem_cons, List.mem_append, not_or] at hfresh
      rw [expr, expr, ih hfresh.2.1]
  | finish h ih =>
      simp only [Expr.names, List.mem_cons, List.mem_append, not_or] at hfresh
      rw [expr, expr, ih hfresh.2.2.1]
  | step h ih =>
      simp only [Expr.names, Expr.namesIf, List.mem_cons, List.mem_append, not_or] at hfresh
      simp only [expr, valueOr, ih hfresh.2.2.2.1]
  | loopBody h ih =>
      simp only [Expr.names, List.mem_cons, List.mem_append, not_or] at hfresh
      rw [expr, expr, ih hfresh.2.2.2.2]
  | initial before after h ih =>
      simp only [Expr.names, Expr.namesBound_append, Expr.namesBound, Expr.namesIf,
        List.mem_cons, List.mem_append, not_or] at hfresh
      rw [expr, expr]
      refine locals_of_tail before ?_
      simp only [locals, valueOr, ih hfresh.1.2.2.1]
  | localsBody h ih =>
      simp only [Expr.names, List.mem_append, not_or] at hfresh
      rw [expr, expr, ih hfresh.2]

/-- Parameters that are bound alike keep two scopes alike. -/
theorem parameters_rename (first : Code.ValueId) {names : List String} (hfresh : new ∉ names)
    (s : LowerState) (h : s.scope.Renamed r new scope') :
    ∃ t scope'', parameters first names s = .ok () t ∧
      parameters first names (s.scoped scope') = .ok () (t.scoped scope'') ∧
      t.scope.Renamed (r.pastAll names) new scope'' := by
  induction names generalizing first s r scope' with
  | nil => exact ⟨s, scope', rfl, rfl, h⟩
  | cons name names ih =>
      simp only [List.mem_cons, not_or] at hfresh
      let slot := s.builder.slots
      let s₁ := (s.built s.builder.newSlot.2).built (s.builder.newSlot.2.storeSlot first slot)
      exact ih (first + 1) hfresh.2 (s₁.scoped (s.scope.bind name slot).1)
        (h.bind (Ne.symm hfresh.1) slot)

/-- The name of one parameter may be another one. -/
theorem parameters_of_one (first : Code.ValueId) (before : List String) (param : String)
    {after : List String} (hfresh : new ∉ after) (s : LowerState) :
    ∃ t scope'', parameters first (before ++ param :: after) s = .ok () t ∧
      parameters first (before ++ new :: after) s = .ok () (t.scoped scope'') ∧
      t.scope.Renamed ((Renaming.single param new).pastAll after) new scope'' := by
  induction before generalizing first s with
  | nil =>
      let slot := s.builder.slots
      let s₁ := (s.built s.builder.newSlot.2).built (s.builder.newSlot.2.storeSlot first slot)
      exact parameters_rename (first + 1) hfresh (s₁.scoped (s.scope.bind param slot).1)
        (.single s.scope param new slot)
  | cons name before ih => exact ih (first + 1) _

/-- Changing the name of one binder of a function changes at most the scope in what lowering
the function comes to. -/
theorem function_renamesBinder (around : Surroundings) {f f' : Function}
    (h : f.RenamesBinder new f') (hfresh : new ∉ f.names) (s : LowerState) :
    ∃ change, function around f' s = mapScope change (function around f s) := by
  cases h with
  | ofParameter name kind before param after body =>
      simp only [Function.names, List.mem_append, List.mem_cons, not_or] at hfresh
      obtain ⟨⟨-, -, hafter⟩, hbody⟩ := hfresh
      obtain ⟨t, scope'', hparams, hparams', hrenamed⟩ :=
        parameters_of_one 0 before param hafter s
      refine ⟨fun _ => scope'', ?_⟩
      unfold function
      rw [bind_of_ok hparams, bind_of_ok hparams']
      exact (expr_rename around new body hbody _ t.scope scope'' hrenamed).run t rfl
  | @inBody prototype body body' h =>
      simp only [Function.names, List.mem_append, not_or] at hfresh
      refine ⟨fun scope => scope, ?_⟩
      have hself : mapScope (fun scope => scope) (function around ⟨prototype, body⟩ s) =
          function around ⟨prototype, body⟩ s := by
        cases function around ⟨prototype, body⟩ s <;> rfl
      rw [hself]
      simp only [function, expr_renamesBinder h hfresh.2]

end Lower

theorem Function.RenamesBinder.head {new : String} {f f' : Function}
    (h : f.RenamesBinder new f') : f'.prototype.head = f.prototype.head := by
  cases h with
  | ofParameter name kind before param after body =>
      simp [Prototype.head, Prototype.callee, Prototype.arity]
  | inBody h => rfl

/-- **A function compiles in the same way under another name of one of its variables**, where
the same heads are registered: to the same code in the same unit, or to the same error. -/
theorem Surroundings.SameHeads.compile_renamed {around around' : Surroundings}
    (hheads : around.SameHeads around') {new : String} {f f' : Function}
    (h : f.RenamesBinder new f') (hfresh : new ∉ f.names) :
    around'.compile f' =
      (around.compile f).map fun c => ⟨f'.prototype, c.procedure, c.unit⟩ := by
  obtain ⟨declared, unit, hdeclare⟩ := CompilationUnit.declareDefinition_empty f.prototype
  have hdeclare' : CompilationUnit.empty.declareDefinition f'.prototype = .ok (declared, unit) :=
    (CompilationUnit.empty.declareDefinition_head h.head).trans hdeclare
  obtain ⟨hcallee, harity⟩ := Prod.mk.inj h.head
  obtain ⟨change, hlower⟩ := Lower.function_renamesBinder around h hfresh
    (.start unit f.prototype.arity)
  have hfunction : Lower.function around' f' = Lower.function around f' := by
    simp only [Lower.function, hheads.expr_eq]
  rw [Surroundings.compile_eq hdeclare', Surroundings.compile_eq hdeclare, hcallee, harity,
    hfunction, hlower]
  cases Lower.function around f (.start unit f.prototype.arity) with
  | error e s => rfl
  | ok r s =>
      simp only [Lower.mapScope, LowerState.scoped]
      cases (s.builder.finish f.prototype.callee.symbol f.prototype.arity
        (.leave r.value)).check <;> rfl

end Reckon
