import Reckon.Proofs.Lowering.Listing
import Reckon.Proofs.Syntax.Callees

/-!
# What calls use

The calls that lowering an expression emits are calls of the callees of the
expression, one after the other, and each uses the route of its own callee
(`expr_calls`).
-/

namespace Reckon

/-- Everything in a list is related to something in a list that is related to it. -/
theorem exists_of_forall₂ {α β : Type} {R : α → β → Prop} {xs : List α} {ys : List β}
    (h : List.Forall₂ R xs ys) {x : α} (hx : x ∈ xs) : ∃ y ∈ ys, R x y := by
  obtain ⟨i, rfl⟩ := List.mem_iff_get.mp hx
  exact ⟨_, List.get_mem ys ⟨i, h.length_eq ▸ i.2⟩, h.get i.2 _⟩

namespace Code

/-- Whether an instruction is a call. -/
def Instruction.isCall : Instruction → Bool
  | .define _ (.call _ _) => true
  | .define _ (.callThrough _ _ _) => true
  | _ => false

theorem Instruction.isCall_define {operation : Operation} (h : operation.reaches = false)
    (result : ValueId) : (Instruction.define result operation).isCall = false := by
  cases operation <;> first | rfl | cases h

/-- The calls of a procedure, block by block. -/
def Procedure.calls (p : Procedure) : List Instruction := p.instructions.filter Instruction.isCall

theorem Builder.instructions_callCell (b : Builder) (symbol : String) (signature : Nat)
    (args : List ValueId) :
    (b.callCell symbol signature args).instructions = b.instructions ++
      [.define b.values (.cell symbol), .define (b.values + 1) (.loadCell b.values),
        .define (b.values + 2) (.callThrough signature (b.values + 1) args)] := by
  unfold Builder.callCell
  simp only [Builder.instructions_define, List.append_assoc, List.cons_append, List.nil_append]
  rfl

/-- The calls so far. -/
def Builder.calls (b : Builder) : List Instruction := b.instructions.filter Instruction.isCall

end Code

namespace Code.Builder.EmitsPlain

variable {b b' : Builder}

/-- What has to do with no other function adds no call. -/
theorem calls (h : b.EmitsPlain b') :
    b'.calls = b.calls ∧ b.instructions <+: b'.instructions := by
  induction h with
  | define operation plain =>
      rw [Builder.calls, Builder.instructions_define, List.filter_append,
        List.filter_singleton, Instruction.isCall_define plain]
      exact ⟨List.append_nil _, List.prefix_append _ _⟩
  | storeSlot value slot =>
      rw [Builder.calls, Builder.instructions_storeSlot, List.filter_append]
      exact ⟨List.append_nil _, List.prefix_append _ _⟩
  | enter transfer next params =>
      rw [Builder.calls, Builder.instructions_enter]
      exact ⟨rfl, List.prefix_rfl⟩
  | trans _ _ ih ih' => exact ⟨ih'.1.trans ih.1, ih.2.trans ih'.2⟩
  | _ => exact ⟨rfl, List.prefix_rfl⟩

end Code.Builder.EmitsPlain

/-- The number of arguments that a call of a callee passes: as many as its operator has
operands, and else as many as it is known to have parameters. -/
def Surroundings.passed? (around : Surroundings) (own : Prototype) (callee : Callee) :
    Option Nat :=
  callee.operands?.or (around.arityOf? own callee)

/-- Where what is known is right, calls pass as many arguments as the callee has
parameters. -/
theorem Surroundings.Sensible.passed? {around : Surroundings} {own : Prototype}
    (h : around.Sensible own) {callee : Callee} {n : Nat}
    (hknown : around.arityOf? own callee = some n) : around.passed? own callee = some n := by
  unfold Surroundings.passed?
  cases hoperands : callee.operands? with
  | none => exact hknown
  | some operands => exact congrArg some (h.operands callee n hknown operands hoperands).symm

namespace LowerState

/-- An instruction calls a callee, by the route to the callee and with as many arguments
as every call of it passes. -/
def Reaches (around : Surroundings) (own : Prototype) (s : LowerState) :
    Code.Instruction → Callee → Prop
  | .define _ (.call external args), callee =>
    s.routes.find? callee = some (.direct external) ∧
      around.passed? own callee = some args.length
  | .define _ (.callThrough signature code args), callee =>
    s.routes.find? callee = some (.throughCell callee.symbol signature) ∧
      around.passed? own callee = some args.length ∧
      ∃ address, .define code (.loadCell address) ∈ s.builder.instructions ∧
        .define address (.cell callee.symbol) ∈ s.builder.instructions
  | _, _ => False

/-- Lowering has met callees and has emitted one call for each of them. -/
structure Calls (around : Surroundings) (own : Prototype) (s : LowerState)
    (callees : List Callee) (s' : LowerState) : Prop where
  listed : s'.Listed around own
  kept : ∀ callee route, s.routes.find? callee = some route →
    s'.routes.find? callee = some route
  met : ∀ callee, callee ∈ s'.routes.keys ↔ callee ∈ s.routes.keys ∨ callee ∈ callees
  instructions : s.builder.instructions <+: s'.builder.instructions
  calls : ∃ new, s'.builder.calls = s.builder.calls ++ new ∧
    List.Forall₂ (s'.Reaches around own) new callees

variable {around : Surroundings} {own : Prototype} {s s₁ s₂ : LowerState}
  {callees callees' : List Callee}

theorem Reaches.mono {instruction : Code.Instruction} {callee : Callee}
    (h : s.Reaches around own instruction callee)
    (hkept : ∀ callee route, s.routes.find? callee = some route →
      s₁.routes.find? callee = some route)
    (hinstructions : s.builder.instructions <+: s₁.builder.instructions) :
    s₁.Reaches around own instruction callee := by
  unfold Reaches at h ⊢
  split at h
  · exact ⟨hkept _ _ h.1, h.2⟩
  · obtain ⟨hroute, hlength, address, hload, hcell⟩ := h
    exact ⟨hkept _ _ hroute, hlength, address, hinstructions.subset hload,
      hinstructions.subset hcell⟩
  · exact h

theorem Calls.refl (h : s.Listed around own) : s.Calls around own [] s :=
  ⟨h, fun _ _ => id, fun _ => by simp, List.prefix_rfl, [], by simp, .nil⟩

theorem Calls.trans (h : s.Calls around own callees s₁) (h' : s₁.Calls around own callees' s₂) :
    s.Calls around own (callees ++ callees') s₂ where
  listed := h'.listed
  kept := fun callee route hroute => h'.kept callee route (h.kept callee route hroute)
  met := by
    intro callee
    rw [h'.met, h.met, List.mem_append, or_assoc]
  instructions := h.instructions.trans h'.instructions
  calls := by
    obtain ⟨new, hnew, hreaches⟩ := h.calls
    obtain ⟨new', hnew', hreaches'⟩ := h'.calls
    refine ⟨new ++ new', by rw [hnew', hnew, List.append_assoc], ?_⟩
    exact List.rel_append (hreaches.imp fun _ _ hr => hr.mono h'.kept h'.instructions) hreaches'

/-- What has to do with no other function calls none. -/
theorem Calls.plain {b : Code.Builder} (h : s.Listed around own)
    (hplain : s.builder.EmitsPlain b) : s.Calls around own [] (s.built b) := by
  obtain ⟨hsignatures, hexternals⟩ := hplain.listing
  obtain ⟨hcalls, hinstructions⟩ := hplain.calls
  exact ⟨h.of_same rfl rfl hsignatures hexternals, fun _ _ => id, fun _ => by simp [built],
    hinstructions, [], by rw [List.append_nil]; exact hcalls, .nil⟩

theorem Calls.binds {name : String} {slot : Code.SlotId}
    (h : (s.scoped (s.scope.bind name slot).1).Calls around own callees s₁) :
    s.Calls around own callees (s₁.scoped (s₁.scope.restore (s.scope.bind name slot).2)) :=
  ⟨h.listed.rescope _, h.kept, h.met, h.instructions, h.calls⟩

end LowerState

namespace Lower

variable {around : Surroundings} {own : Prototype} {s s' : LowerState} {callee : Callee}
  {route : Route}

/-- A callee that is called is met, and the call uses its route. -/
theorem callOrThrow_calls (hkeyed : around.registry.Keyed) {missing : LowerError}
    {args : List Code.ValueId} {r : Computed} (h : s.Listed around own)
    (hpassed : around.passed? own callee = some args.length)
    (hcall : callOrThrow around callee missing args s = .ok r s') :
    s.Calls around own [callee] s' := by
  obtain ⟨route, s₁, hroute, hcall⟩ := callOrThrow_ok.mp hcall
  obtain ⟨hlisted, hfound, hkept, hmet, hsame⟩ := route?_meets hkeyed h hroute
  cases route with
  | direct external =>
      obtain ⟨-, rfl⟩ := emit_ok.mp (call_direct_ok.mp hcall)
      have hinstructions := s₁.builder.instructions_define (.call external args)
      refine ⟨hlisted.of_same rfl rfl rfl rfl, hkept, hmet, ?_, ?_⟩
      · rw [← hsame]
        exact hinstructions ▸ List.prefix_append _ _
      · refine ⟨[.define s₁.builder.values (.call external args)], ?_, .cons ⟨hfound, hpassed⟩ .nil⟩
        have hcalls := congrArg (List.filter Code.Instruction.isCall) hinstructions
        rw [List.filter_append, hsame] at hcalls
        exact hcalls
  | throughCell symbol signature =>
      obtain ⟨-, rfl⟩ := emit_ok.mp (call_throughCell_ok.mp hcall)
      obtain ⟨i, hi⟩ := List.mem_iff_getElem?.mp (Table.mem_entries_of_find? hfound)
      obtain ⟨rfl, -⟩ := hlisted.routes i callee _ hi
      have hinstructions := s₁.builder.instructions_callCell callee.symbol signature args
      refine ⟨hlisted.of_same rfl rfl rfl rfl, hkept, hmet, ?_, ?_⟩
      · rw [← hsame]
        exact hinstructions ▸ List.prefix_append _ _
      · refine ⟨[.define (s₁.builder.values + 2)
            (.callThrough signature (s₁.builder.values + 1) args)], ?_,
          .cons ⟨hfound, hpassed, s₁.builder.values, ?_, ?_⟩ .nil⟩
        · have hcalls := congrArg (List.filter Code.Instruction.isCall) hinstructions
          rw [List.filter_append, hsame] at hcalls
          exact hcalls
        · exact hinstructions ▸ by simp
        · exact hinstructions ▸ by simp

/-- What is known of a callee is what its calls are checked against. -/
theorem arityOf?_arity? (h : s.unit.Declares around own) {n : Nat}
    (harity : arity? around callee s = .ok (some n) s') : around.arityOf? own callee = some n := by
  obtain ⟨-, hn⟩ := arity?_ok.mp harity
  cases hdeclared : s.unit.declared? callee with
  | some found =>
      simp only [hdeclared] at hn
      rw [h.callees callee found hdeclared, hn]
  | none =>
      simp only [hdeclared] at hn
      obtain ⟨p, hp, rfl⟩ := Option.map_eq_some_iff.mp hn.symm
      exact arityOf?_registry h hdeclared hp

theorem emit_calls (h : s.Listed around own) {operation : Code.Operation} {r : Computed}
    (hplain : operation.reaches = false) (hemit : emit operation s = .ok r s') :
    s.Calls around own [] s' := by
  obtain ⟨-, rfl⟩ := emit_ok.mp hemit
  exact .plain h (.define operation hplain)

theorem infixOperator_calls (hkeyed : around.registry.Keyed) {op : Char}
    {left right : Code.ValueId} {r : Computed} (h : s.Listed around own)
    (hoperator : infixOperator around op left right s = .ok r s') :
    s.Calls around own (Callee.ofInfix op) s' := by
  unfold infixOperator at hoperator
  split at hoperator
  · exact emit_calls h rfl hoperator
  · exact emit_calls h rfl hoperator
  · exact emit_calls h rfl hoperator
  · simp only [bind_ok, define_ok] at hoperator
    obtain ⟨_, _, ⟨rfl, rfl⟩, _, _, ⟨rfl, rfl⟩, hoperator⟩ := hoperator
    have hbefore := LowerState.Calls.plain h (.trans (.define (.compare .less left right) rfl)
      (.define (.extend s.builder.values) rfl))
    exact hbefore.trans (emit_calls hbefore.listed rfl hoperator)
  · next hplus hminus htimes hless =>
      rw [Callee.ofInfix_eq hplus hminus htimes hless]
      exact callOrThrow_calls hkeyed h rfl hoperator

/-- Lowering an expression calls its callees, one call for each and in their order. -/
def ExprCalls (around : Surroundings) (own : Prototype) (e : Expr) : Prop :=
  ∀ ⦃s s' : LowerState⦄ ⦃r : Computed⦄, s.Listed around own → expr around e s = .ok r s' →
    s.Calls around own e.callees s'

/-- Arguments call what each of them calls, one after the other. -/
theorem arguments_calls {args : List Expr} (hargs : ∀ arg ∈ args, ExprCalls around own arg)
    {vs : List Code.ValueId} (h : s.Listed around own)
    (hlowered : arguments around args s = .ok vs s') :
    s.Calls around own (Expr.calleesIn args) s' ∧ vs.length = args.length := by
  induction args generalizing s vs with
  | nil =>
      obtain ⟨rfl, rfl⟩ := arguments_nil_ok.mp hlowered
      rw [Expr.calleesIn]
      exact ⟨.refl h, rfl⟩
  | cons arg args ih =>
      obtain ⟨v, s₁, others, harg, hothers, rfl⟩ := arguments_cons_ok.mp hlowered
      have hfirst := hargs arg List.mem_cons_self h harg
      obtain ⟨hrest, hlength⟩ := ih
        (fun other hother => hargs other (List.mem_cons_of_mem _ hother)) hfirst.listed hothers
      rw [Expr.calleesIn]
      exact ⟨hfirst.trans hrest, congrArg (· + 1) hlength⟩

theorem valueOr_calls {otherwise : Float} {value? : Option Expr}
    (hvalue : ∀ value ∈ value?, ExprCalls around own value) {v : Code.ValueId}
    (h : s.Listed around own)
    (hlowered : valueOr around otherwise value? s = .ok v s') :
    s.Calls around own (Expr.calleesIf value?) s' := by
  cases value? with
  | none =>
      obtain ⟨-, rfl⟩ := define_ok.mp (valueOr_none_ok.mp hlowered)
      rw [Expr.calleesIf]
      exact .plain h (.define (.number otherwise) rfl)
  | some value =>
      obtain ⟨r, hr, -⟩ := valueOr_some_ok.mp hlowered
      rw [Expr.calleesIf]
      exact hvalue value rfl h hr

/-- New names call what their initial values call, and then what their body calls. -/
theorem locals_calls {bindings : List (String × Option Expr)} {body : Expr}
    (hbindings : ∀ binding ∈ bindings, ∀ value ∈ binding.2, ExprCalls around own value)
    (hbody : ExprCalls around own body) {r : Computed} (h : s.Listed around own)
    (hlowered : locals around (expr around body) bindings s = .ok r s') :
    s.Calls around own (Expr.calleesBound bindings ++ body.callees) s' := by
  induction bindings generalizing s s' with
  | nil =>
      rw [Expr.calleesBound]
      exact hbody h hlowered
  | cons binding bindings ih =>
      obtain ⟨name, initial⟩ := binding
      obtain ⟨v, s₁, s₂, hv, hr, rfl⟩ := locals_cons_ok.mp hlowered
      have hvalue := valueOr_calls (hbindings (name, initial) List.mem_cons_self) h hv
      have hstore := LowerState.Calls.plain hvalue.listed
        (.trans .newSlot (.storeSlot v s₁.builder.slots))
      rw [Expr.calleesBound, List.append_assoc]
      have hinner := ih (fun other hother => hbindings other (List.mem_cons_of_mem _ hother))
        (hstore.listed.rescope _) hr
      exact hvalue.trans (hstore.trans hinner.binds)

/-- A choice calls what its condition calls and then what both branches call. -/
theorem cond_calls {condition thenBranch elseBranch : Expr}
    (hcondition : ExprCalls around own condition) (hthenBranch : ExprCalls around own thenBranch)
    (helseBranch : ExprCalls around own elseBranch) :
    ExprCalls around own (.cond condition thenBranch elseBranch) := by
  intro s s' r h hlowered
  obtain ⟨c, s₁, t, s₂, e, s₃, hc, ht, -, he, -, rfl, rfl⟩ := expr_cond_ok.mp hlowered
  have htest := hcondition h hc
  have hchoose := LowerState.Calls.plain htest.listed (.choose s₁.builder c.value)
  have hthen := hchoose.trans (hthenBranch hchoose.listed ht)
  have hjump := hthen.trans (.plain hthen.listed
    (.enter (.jump (s₁.builder.blocks + 2) [t.value]) (s₁.builder.blocks + 1) []))
  have helse := hjump.trans (helseBranch hjump.listed he)
  have hjoin := htest.trans (helse.trans (.plain helse.listed
    (.enter (.jump (s₁.builder.blocks + 2) [e.value]) (s₁.builder.blocks + 2)
      [s₁.builder.values + 2])))
  simpa [Expr.callees] using hjoin

/-- A loop calls what its parts call, each of them once. -/
theorem loop_calls {name : String} {start finish body : Expr} {step : Option Expr}
    (hstart : ExprCalls around own start) (hfinish : ExprCalls around own finish)
    (hstep : ∀ value ∈ step, ExprCalls around own value) (hbody : ExprCalls around own body) :
    ExprCalls around own (.loop name start finish step body) := by
  intro s s' r h hlowered
  obtain ⟨a, s₁, b, s₂, v, s₃, f, s₄, ha, hb, hv, hf, hr⟩ := expr_loop_ok.mp hlowered
  have hslot := LowerState.Calls.plain h .newSlot
  have hfirst := hslot.trans (hstart hslot.listed ha)
  have hbegin := LowerState.Calls.plain hfirst.listed
    (.beginLoop s₁.builder a.value s.builder.slots)
  have hround := hbody (hbegin.listed.rescope _) hb
  have hgrowth := hround.trans (valueOr_calls hstep hround.listed hv)
  have htest := hgrowth.trans (hfinish hgrowth.listed hf)
  have hinner := htest.trans
    (.plain htest.listed (.endLoop s₄.builder s.builder.slots v f.value s₁.builder.blocks))
  have hloop := hfirst.trans (hbegin.trans hinner.binds)
  simpa [Expr.callees] using hloop.trans (emit_calls hloop.listed rfl hr)

/-- **Lowering calls what an expression calls**, whatever the expression is. -/
theorem expr_calls (hkeyed : around.registry.Keyed) (e : Expr) : ExprCalls around own e := by
  induction e using Expr.induction with
  | number value =>
      intro s s' r h hlowered
      exact emit_calls h rfl (expr_number_ok.mp hlowered)
  | var name =>
      intro s s' r h hlowered
      obtain ⟨slot, -, hlowered⟩ := expr_var_ok.mp hlowered
      exact emit_calls h rfl hlowered
  | unary op operand ih =>
      intro s s' r h hlowered
      obtain ⟨v, s₁, hv, hcall⟩ := expr_unary_ok.mp hlowered
      have hoperand := ih h hv
      rw [Expr.callees]
      exact hoperand.trans (callOrThrow_calls hkeyed hoperand.listed rfl hcall)
  | binary op left right ihl ihr =>
      intro s s' r h hlowered
      by_cases hop : op = '='
      · subst hop
        obtain ⟨name, slot, s₁, -, hr, -, rfl⟩ := expr_assign_ok.mp hlowered
        have hright := ihr h hr
        have hstore := hright.trans (.plain hright.listed (.storeSlot r.value slot))
        rwa [List.append_nil] at hstore
      · obtain ⟨a, s₁, b, s₂, ha, hb, hoperator⟩ := (expr_binary_ok hop).mp hlowered
        have hboth := (ihl h ha).trans (ihr (ihl h ha).listed hb)
        rw [Expr.callees, if_neg hop]
        exact hboth.trans (infixOperator_calls hkeyed hboth.listed hoperator)
  | call name args ih =>
      intro s s' r h hlowered
      obtain ⟨harity, vs, s₁, hargs, hcall⟩ := expr_call_ok.mp hlowered
      obtain ⟨hvalues, hlength⟩ := arguments_calls ih h hargs
      have hknown := arityOf?_arity? h.unit harity
      rw [Expr.callees]
      exact hvalues.trans (callOrThrow_calls hkeyed hvalues.listed (hlength ▸ hknown) hcall)
  | cond condition thenBranch elseBranch ihc iht ihe => exact cond_calls ihc iht ihe
  | loop name start finish step body ihs ihf ihstep ihb => exact loop_calls ihs ihf ihstep ihb
  | locals bindings body ihbindings ihbody =>
      intro s s' r h hlowered
      rw [expr] at hlowered
      exact locals_calls ihbindings ihbody h hlowered

end Lower

end Reckon
