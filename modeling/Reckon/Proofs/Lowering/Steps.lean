import Reckon.Proofs.Lowering.Computation

/-!
# Relations that lowering respects

Lowering an expression is a sequence of small changes of its state: something
is emitted, a route to a callee is found, a name is bound and freed again, and
choices and loops put blocks around what their parts emit.  A reflexive and
transitive relation that each of these respects holds between the state before
and the state after every expression (`Respected.expr`).  What lowering never
undoes is proved by giving such a relation.
-/

namespace Reckon

namespace Code

/-- The symbol of the cell that an operation names. -/
def Operation.cell? : Operation → Option String
  | .cell symbol => some symbol
  | _ => none

/-- Whether an operation has to do with other functions. -/
def Operation.reaches : Operation → Bool
  | .cell _ => true
  | .loadCell _ => true
  | .call _ _ => true
  | .callThrough _ _ _ => true
  | _ => false

theorem Operation.cell?_eq_none {operation : Operation} (h : operation.reaches = false) :
    operation.cell? = none := by
  cases operation <;> first | rfl | cases h

/-- Call what the cell of a symbol refers to. -/
def Builder.callCell (b : Builder) (symbol : String) (signature : Nat) (args : List ValueId) :
    Builder :=
  (((b.define (.cell symbol)).2.define (.loadCell b.values)).2.define
    (.callThrough signature (b.values + 1) args)).2

/-- What some operations make of a builder. -/
inductive Builder.Emits : Builder → Builder → Prop
  | define {b} (operation : Operation) : Emits b (b.define operation).2
  | storeSlot {b} (value : ValueId) (slot : SlotId) : Emits b (b.storeSlot value slot)
  | newSlot {b} : Emits b b.newSlot.2
  | newBlock {b} : Emits b b.newBlock.2
  | newParam {b} : Emits b b.newParam.2
  | enter {b} (transfer : Transfer) (next : BlockId) (params : List ValueId) :
      Emits b (b.enter transfer next params)
  | trans {b₁ b₂ b₃} (h : Emits b₁ b₂) (h' : Emits b₂ b₃) : Emits b₁ b₃

/-- What some operations make of a builder that have to do with no other function. -/
inductive Builder.EmitsPlain : Builder → Builder → Prop
  | define {b} (operation : Operation) (plain : operation.reaches = false) :
      EmitsPlain b (b.define operation).2
  | storeSlot {b} (value : ValueId) (slot : SlotId) : EmitsPlain b (b.storeSlot value slot)
  | newSlot {b} : EmitsPlain b b.newSlot.2
  | newBlock {b} : EmitsPlain b b.newBlock.2
  | newParam {b} : EmitsPlain b b.newParam.2
  | enter {b} (transfer : Transfer) (next : BlockId) (params : List ValueId) :
      EmitsPlain b (b.enter transfer next params)
  | trans {b₁ b₂ b₃} (h : EmitsPlain b₁ b₂) (h' : EmitsPlain b₂ b₃) : EmitsPlain b₁ b₃

namespace Builder.EmitsPlain

theorem emits {b b' : Builder} (h : b.EmitsPlain b') : b.Emits b' := by
  induction h with
  | define operation plain => exact .define operation
  | storeSlot value slot => exact .storeSlot value slot
  | newSlot => exact .newSlot
  | newBlock => exact .newBlock
  | newParam => exact .newParam
  | enter transfer next params => exact .enter transfer next params
  | trans _ _ ih ih' => exact ih.trans ih'

theorem test (b : Builder) (value : ValueId) : b.EmitsPlain (b.test value) :=
  .trans (.define (.number 0) rfl) (.define (.compare .distinct value b.values) rfl)

theorem choose (b : Builder) (condition : ValueId) : b.EmitsPlain (b.choose condition) := by
  refine .trans (test b condition) ?_
  refine .trans .newBlock (.trans .newBlock (.trans .newBlock (.trans .newParam ?_)))
  exact .enter _ _ _

theorem beginLoop (b : Builder) (start : ValueId) (slot : SlotId) :
    b.EmitsPlain (b.beginLoop start slot) :=
  .trans (.storeSlot start slot) (.trans .newBlock (.enter _ _ _))

theorem advance (b : Builder) (slot : SlotId) (step : ValueId) :
    b.EmitsPlain (b.advance slot step) :=
  .trans (.define (.loadSlot slot) rfl)
    (.trans (.define (.arithmetic .add b.values step) rfl) (.storeSlot (b.values + 1) slot))

theorem endLoop (b : Builder) (slot : SlotId) (step finish : ValueId) (loop : BlockId) :
    b.EmitsPlain (b.endLoop slot step finish loop) :=
  .trans (advance b slot step) (.trans (test _ finish) (.trans .newBlock (.enter _ _ _)))

end Builder.EmitsPlain

namespace Builder.Emits

theorem callCell (b : Builder) (symbol : String) (signature : Nat) (args : List ValueId) :
    b.Emits (b.callCell symbol signature args) :=
  .trans (.define (.cell symbol))
    (.trans (.define (.loadCell b.values)) (.define (.callThrough signature (b.values + 1) args)))

theorem test (b : Builder) (value : ValueId) : b.Emits (b.test value) :=
  (EmitsPlain.test b value).emits

theorem choose (b : Builder) (condition : ValueId) : b.Emits (b.choose condition) :=
  (EmitsPlain.choose b condition).emits

theorem beginLoop (b : Builder) (start : ValueId) (slot : SlotId) :
    b.Emits (b.beginLoop start slot) :=
  (EmitsPlain.beginLoop b start slot).emits

theorem advance (b : Builder) (slot : SlotId) (step : ValueId) : b.Emits (b.advance slot step) :=
  (EmitsPlain.advance b slot step).emits

theorem endLoop (b : Builder) (slot : SlotId) (step finish : ValueId) (loop : BlockId) :
    b.Emits (b.endLoop slot step finish loop) :=
  (EmitsPlain.endLoop b slot step finish loop).emits

end Builder.Emits

end Code

namespace Lower

/-- A relation between states that lowering respects at every turn. -/
structure Respected (around : Surroundings) (R : LowerState → LowerState → Prop) : Prop where
  refl : ∀ s, R s s
  trans : ∀ {s₁ s₂ s₃}, R s₁ s₂ → R s₂ s₃ → R s₁ s₃
  define : ∀ {s} operation, operation.reaches = false →
    R s (s.built (s.builder.define operation).2)
  callDirect : ∀ {s callee external} args, s.routes.find? callee = some (.direct external) →
    R s (s.built (s.builder.define (.call external args)).2)
  callCell : ∀ {s callee symbol signature} args,
    s.routes.find? callee = some (.throughCell symbol signature) →
      R s (s.built (s.builder.callCell symbol signature args))
  storeSlot : ∀ {s} value slot, R s (s.built (s.builder.storeSlot value slot))
  newSlot : ∀ {s}, R s (s.built s.builder.newSlot.2)
  finds : ∀ {callee s route s'}, s.routes.find? callee = none →
    Finds around callee s route s' → R s { s' with routes := s'.routes.insert callee route }
  binds : ∀ {s s'} name slot, R (s.scoped (s.scope.bind name slot).1) s' →
    R s (s'.scoped (s'.scope.restore (s.scope.bind name slot).2))
  cond : ∀ {s s₁ s₂} condition thenValue elseValue,
    R (s.built (s.builder.choose condition)) s₁ →
    R (s₁.built (s₁.builder.enter (.jump (s.builder.blocks + 2) [thenValue])
      (s.builder.blocks + 1) [])) s₂ →
    R s (s₂.built (s₂.builder.enter (.jump (s.builder.blocks + 2) [elseValue])
      (s.builder.blocks + 2) [s.builder.values + 2]))
  loop : ∀ {s s₁} start slot step finish,
    R (s.built (s.builder.beginLoop start slot)) s₁ →
    R s (s₁.built (s₁.builder.endLoop slot step finish s.builder.blocks))

namespace Respected

variable {around : Surroundings} {R : LowerState → LowerState → Prop} {s s' : LowerState}

/-- What every single emission respects is respected by choices and loops, which
emit nothing that has to do with other functions. -/
theorem of_plain (refl : ∀ s, R s s) (trans : ∀ {s₁ s₂ s₃}, R s₁ s₂ → R s₂ s₃ → R s₁ s₃)
    (plain : ∀ {s b}, s.builder.EmitsPlain b → R s (s.built b))
    (callDirect : ∀ {s callee external} args, s.routes.find? callee = some (.direct external) →
      R s (s.built (s.builder.define (.call external args)).2))
    (callCell : ∀ {s callee symbol signature} args,
      s.routes.find? callee = some (.throughCell symbol signature) →
        R s (s.built (s.builder.callCell symbol signature args)))
    (finds : ∀ {callee s route s'}, s.routes.find? callee = none →
      Finds around callee s route s' → R s { s' with routes := s'.routes.insert callee route })
    (binds : ∀ {s s'} name slot, R (s.scoped (s.scope.bind name slot).1) s' →
      R s (s'.scoped (s'.scope.restore (s.scope.bind name slot).2))) :
    Respected around R := by
  refine ⟨refl, trans, fun operation h => plain (.define operation h), callDirect, callCell,
    fun _ _ => plain (.storeSlot _ _), plain .newSlot, finds, binds, ?_, ?_⟩
  · intro s s₁ s₂ condition thenValue elseValue hthen helse
    refine trans (plain (.choose _ condition)) (trans hthen ?_)
    exact trans (plain (.enter _ _ _)) (trans helse (plain (.enter _ _ _)))
  · intro s s₁ start slot step finish hbody
    exact trans (plain (.beginLoop _ start slot)) (trans hbody (plain (.endLoop _ _ _ _ _)))

theorem of_emits (refl : ∀ s, R s s) (trans : ∀ {s₁ s₂ s₃}, R s₁ s₂ → R s₂ s₃ → R s₁ s₃)
    (emits : ∀ {s b}, s.builder.Emits b → R s (s.built b))
    (finds : ∀ {callee s route s'}, s.routes.find? callee = none →
      Finds around callee s route s' → R s { s' with routes := s'.routes.insert callee route })
    (binds : ∀ {s s'} name slot, R (s.scoped (s.scope.bind name slot).1) s' →
      R s (s'.scoped (s'.scope.restore (s.scope.bind name slot).2))) :
    Respected around R :=
  .of_plain refl trans (fun h => emits h.emits) (fun _ _ => emits (.define _))
    (fun _ _ => emits (.callCell _ _ _ _)) finds binds

theorem emit (hR : Respected around R) {operation : Code.Operation} {r : Computed}
    (hreaches : operation.reaches = false) (h : Lower.emit operation s = .ok r s') : R s s' := by
  obtain ⟨-, rfl⟩ := emit_ok.mp h
  exact hR.define operation hreaches

/-- Finding a route and calling through it. -/
theorem callOrThrow (hR : Respected around R) {callee : Callee} {missing : LowerError}
    {args : List Code.ValueId} {r : Computed}
    (h : Lower.callOrThrow around callee missing args s = .ok r s') : R s s' := by
  obtain ⟨route, s₁, hroute, hcall⟩ := callOrThrow_ok.mp h
  have hfound : R s s₁ ∧ s₁.routes.find? callee = some route := by
    rcases route?_ok hroute with ⟨hkept, rfl⟩ | ⟨hnew, s₂, hfinds, rfl⟩
    · exact ⟨hR.refl _, hkept⟩
    · refine ⟨hR.finds hnew hfinds, ?_⟩
      rw [Table.find?_insert, if_pos rfl]
  refine hR.trans hfound.1 ?_
  cases route with
  | direct external =>
      obtain ⟨-, rfl⟩ := emit_ok.mp (call_direct_ok.mp hcall)
      exact hR.callDirect args hfound.2
  | throughCell symbol signature =>
      obtain ⟨-, rfl⟩ := emit_ok.mp (call_throughCell_ok.mp hcall)
      exact hR.callCell args hfound.2

theorem infixOperator (hR : Respected around R) {op : Char} {left right : Code.ValueId}
    {r : Computed} (h : Lower.infixOperator around op left right s = .ok r s') : R s s' := by
  unfold Lower.infixOperator at h
  split at h
  · exact hR.emit rfl h
  · exact hR.emit rfl h
  · exact hR.emit rfl h
  · simp only [bind_ok, define_ok] at h
    obtain ⟨_, _, ⟨rfl, rfl⟩, _, _, ⟨rfl, rfl⟩, h⟩ := h
    refine hR.trans (hR.define (.compare .less left right) rfl) ?_
    exact hR.trans (hR.define (s := s.built _) (.extend s.builder.values) rfl) (hR.emit rfl h)
  · exact hR.callOrThrow h

/-- Arguments respect what each of them respects. -/
theorem arguments (hR : Respected around R) {args : List Expr}
    (hargs : ∀ arg ∈ args, ∀ {s s' r}, Lower.expr around arg s = .ok r s' → R s s')
    {s s' : LowerState} {vs : List Code.ValueId}
    (h : Lower.arguments around args s = .ok vs s') : R s s' := by
  induction args generalizing s vs with
  | nil =>
      obtain ⟨-, rfl⟩ := arguments_nil_ok.mp h
      exact hR.refl _
  | cons arg args ih =>
      obtain ⟨v, s₁, others, harg, hothers, -⟩ := arguments_cons_ok.mp h
      refine hR.trans (hargs arg List.mem_cons_self harg) ?_
      exact ih (fun other hother => hargs other (List.mem_cons_of_mem _ hother)) hothers

theorem valueOr (hR : Respected around R) {otherwise : Float} {value? : Option Expr}
    (hvalue : ∀ value ∈ value?, ∀ {s s' r}, Lower.expr around value s = .ok r s' → R s s')
    {v : Code.ValueId} (h : Lower.valueOr around otherwise value? s = .ok v s') : R s s' := by
  cases value? with
  | none =>
      obtain ⟨-, rfl⟩ := define_ok.mp (valueOr_none_ok.mp h)
      exact hR.define (.number otherwise) rfl
  | some value =>
      obtain ⟨r, hr, -⟩ := valueOr_some_ok.mp h
      exact hvalue value rfl hr

/-- New names respect what their initial values and their body respect. -/
theorem locals (hR : Respected around R) {bindings : List (String × Option Expr)} {body : Expr}
    (hbindings : ∀ binding ∈ bindings, ∀ value ∈ binding.2,
      ∀ {s s' r}, Lower.expr around value s = .ok r s' → R s s')
    (hbody : ∀ {s s' r}, Lower.expr around body s = .ok r s' → R s s')
    {s s' : LowerState} {r : Computed}
    (h : Lower.locals around (Lower.expr around body) bindings s = .ok r s') : R s s' := by
  induction bindings generalizing s s' with
  | nil => exact hbody h
  | cons binding bindings ih =>
      obtain ⟨v, s₁, s₂, hv, hr, rfl⟩ := locals_cons_ok.mp h
      refine hR.trans (hR.valueOr (hbindings binding List.mem_cons_self) hv) ?_
      refine hR.trans hR.newSlot ?_
      refine hR.trans (hR.storeSlot (s := s₁.built _) v s₁.builder.slots) ?_
      refine hR.binds binding.1 s₁.builder.slots ?_
      exact ih (fun other hother => hbindings other (List.mem_cons_of_mem _ hother)) hr

/-- **Lowering an expression respects** what the small changes respect. -/
theorem expr (hR : Respected around R) (e : Expr) {s s' : LowerState} {r : Computed}
    (h : Lower.expr around e s = .ok r s') : R s s' := by
  induction e using Expr.induction generalizing s s' r with
  | number value => exact hR.emit rfl (expr_number_ok.mp h)
  | var name =>
      obtain ⟨slot, -, h⟩ := expr_var_ok.mp h
      exact hR.emit rfl h
  | unary op operand ih =>
      obtain ⟨v, s₁, hv, hcall⟩ := expr_unary_ok.mp h
      exact hR.trans (ih hv) (hR.callOrThrow hcall)
  | binary op left right ihl ihr =>
      by_cases hop : op = '='
      · subst hop
        obtain ⟨name, slot, s₁, -, hr, -, rfl⟩ := expr_assign_ok.mp h
        exact hR.trans (ihr hr) (hR.storeSlot _ _)
      · obtain ⟨a, s₁, b, s₂, ha, hb, hoperator⟩ := (expr_binary_ok hop).mp h
        exact hR.trans (ihl ha) (hR.trans (ihr hb) (hR.infixOperator hoperator))
  | call name args ih =>
      obtain ⟨-, vs, s₁, hargs, hcall⟩ := expr_call_ok.mp h
      exact hR.trans (hR.arguments (fun arg harg => ih arg harg) hargs) (hR.callOrThrow hcall)
  | cond condition thenBranch elseBranch ihc iht ihe =>
      obtain ⟨c, s₁, t, s₂, e, s₃, hc, ht, -, he, -, rfl, -⟩ := expr_cond_ok.mp h
      exact hR.trans (ihc hc) (hR.cond c.value t.value e.value (iht ht) (ihe he))
  | loop name start finish step body ihs ihf ihstep ihb =>
      obtain ⟨a, s₁, b, s₂, v, s₃, f, s₄, ha, hb, hv, hf, hr⟩ := expr_loop_ok.mp h
      have hstep : R s₂ s₃ := hR.valueOr (fun value hvalue => ihstep value hvalue) hv
      have hinner := hR.binds name s.builder.slots (hR.trans (ihb hb) (hR.trans hstep (ihf hf)))
      have hloop := hR.loop a.value s.builder.slots v f.value hinner
      exact hR.trans hR.newSlot (hR.trans (ihs ha) (hR.trans hloop (hR.emit rfl hr)))
  | locals bindings body ihbindings ihbody =>
      rw [Lower.expr] at h
      exact hR.locals
        (fun binding hbinding value hvalue => ihbindings binding hbinding value hvalue)
        (fun hbody => ihbody hbody) h

end Respected

end Lower

end Reckon
