import Reckon.Proofs.Grammar.Declared
import Reckon.Proofs.Lowering.Steps

/-!
# How lowering fails

Lowering an expression stops for two reasons: the expression is at fault, or a route
to a callee cannot be found (`expr_stops`).  In particular the code of an operand
always ends in the block that is being filled (`expr_block`), so a branch is never
merged out of place.

An error ends a session if it says that the grammar and the definitions of operators
disagree.  No such error occurs where every infix operator is built in or known to
the registry (`Surroundings.compile_survives`).
-/

namespace Reckon

/-- Whether an error says what is wrong with an expression itself. -/
def LowerError.isOfExpression : LowerError → Bool
  | unknownVariable _ => true
  | invalidAssignment => true
  | unknownUnaryOperator _ => true
  | unknownFunction _ => true
  | arityMismatch _ _ _ => true
  | _ => false

namespace Lower

variable {α β : Type} {P : LowerError → Prop} {s s' : LowerState} {around : Surroundings}

/-- A computation stops, if it does, with an error of some kind. -/
def Stops (P : LowerError → Prop) (m : Lower α) (s : LowerState) : Prop :=
  ∀ e s', m s = .error e s' → P e

theorem stops_pure (a : α) : (pure a : Lower α).Stops P s := by
  intro e s' h
  cases h

theorem stops_throw {e : LowerError} (h : P e) : (throw e : Lower α).Stops P s := by
  intro e' s' heq
  cases heq
  exact h

theorem stops_build (f : Code.Builder → α × Code.Builder) : (build f).Stops P s := by
  intro e s' h
  cases h

/-- A sequence stops as its first part does, or as the second one does wherever the
first one leads. -/
theorem stops_bind {m : Lower α} {k : α → Lower β} (hm : m.Stops P s)
    (hk : ∀ a s', m s = .ok a s' → (k a).Stops P s') : (m >>= k).Stops P s := by
  intro e s' h
  change EStateM.bind m k s = .error e s' at h
  unfold EStateM.bind at h
  cases hrun : m s with
  | ok a s₁ =>
      rw [hrun] at h
      exact hk a s₁ hrun e s' h
  | error e' s₁ =>
      rw [hrun] at h
      cases h
      exact hm _ _ hrun

theorem stops_get_bind {k : LowerState → Lower β} (h : (k s).Stops P s) :
    ((get : Lower LowerState) >>= k).Stops P s := h

theorem stops_map {f : α → β} {m : Lower α} (hm : m.Stops P s) : (f <$> m).Stops P s := by
  intro e s' h
  change EStateM.map f m s = .error e s' at h
  unfold EStateM.map at h
  cases hrun : m s with
  | ok a s₁ => simp [hrun] at h
  | error e' s₁ =>
      rw [hrun] at h
      cases h
      exact hm _ _ hrun

theorem stops_slotOf {name : String} (h : P (.unknownVariable name)) :
    (slotOf name).Stops P s := by
  apply stops_get_bind
  split
  · exact stops_pure _
  · exact stops_throw h

theorem stops_withBinding {name : String} {slot : Code.SlotId} {inner : Lower α}
    (h : inner.Stops P (s.scoped (s.scope.bind name slot).1)) :
    (withBinding name slot inner).Stops P s := by
  intro e s' hrun
  simp only [withBinding] at hrun
  split at hrun
  · cases hrun
  · next found left hinner =>
      cases hrun
      exact h _ _ hinner

theorem stops_emit (operation : Code.Operation) : (emit operation).Stops P s :=
  stops_bind (stops_build _) fun _ _ _ => stops_pure _

/-- A jump with a value does not stop where the block of the value is being filled. -/
theorem stops_jumpWith {computed : Computed} {target next : Code.BlockId}
    {params : List Code.ValueId} (h : s.builder.current = computed.block) :
    (jumpWith computed target next params).Stops P s := by
  apply stops_get_bind
  rw [if_pos h]
  exact stops_build _

theorem stops_arity? (callee : Callee) : (arity? around callee).Stops P s := by
  apply stops_get_bind
  split
  · exact stops_pure _
  · exact stops_pure _

/-- Looking for a route stops where a declaration would clash, or where there is neither
an address nor a cell. -/
theorem stops_findRoute {callee : Callee}
    (hclash : ∀ p address clash, s.unit.declared? callee = none →
      around.registry.get? callee = some p → s.unit.declareImport p address = .error clash →
      P (.clash clash))
    (hunresolved : P (.unresolvedSymbol callee.symbol)) :
    (findRoute around callee).Stops P s := by
  have hdirect (found : Declared) (s : LowerState) : (some <$> direct found).Stops P s := by
    apply stops_map
    intro e s' h
    cases h
  apply stops_get_bind
  split
  · exact hdirect _ _
  · next hnew =>
    split
    · exact stops_pure _
    · next p hp =>
      dsimp only
      split
      · next address haddress =>
        apply stops_get_bind
        split
        · exact stops_bind (fun _ _ h => nomatch h) fun _ _ _ => hdirect _ _
        · next clash himport => exact stops_throw (hclash p address clash hnew hp himport)
      · split
        · refine stops_bind (fun _ _ h => nomatch h) fun _ _ _ => ?_
          exact stops_bind (stops_build _) fun _ _ _ => stops_pure _
        · exact stops_throw hunresolved

theorem stops_route? {callee : Callee} (h : (findRoute around callee).Stops P s) :
    (route? around callee).Stops P s := by
  apply stops_get_bind
  split
  · exact stops_pure _
  · refine stops_bind h fun found _ _ => ?_
    cases found with
    | none => exact stops_pure _
    | some route => exact stops_bind (fun _ _ h => nomatch h) fun _ _ _ => stops_pure _

theorem findRoute_ne_none {callee : Callee} (hknown : (around.registry.get? callee).isSome) :
    findRoute around callee s ≠ .ok none s' := by
  obtain ⟨p, hp⟩ := Option.isSome_iff_exists.mp hknown
  have hdirect {found : Declared} {s s' : LowerState} :
      (some <$> direct found) s ≠ .ok none s' := by
    intro h
    obtain ⟨_, -, hnone⟩ := map_ok.mp h
    cases hnone
  rw [findRoute, Ne, get_bind_ok]
  cases s.unit.declared? callee with
  | some found => exact hdirect
  | none =>
      simp only [hp]
      cases around.linker.address? callee.symbol with
      | some address =>
          dsimp only
          rw [get_bind_ok]
          cases s.unit.declareImport p address with
          | error clash => exact fun h => throw_ok.mp h
          | ok result =>
              intro h
              obtain ⟨_, _, -, h⟩ := bind_ok.mp h
              exact hdirect h
      | none =>
          dsimp only
          split
          · intro h
            obtain ⟨_, _, -, h⟩ := bind_ok.mp h
            obtain ⟨_, _, -, h⟩ := bind_ok.mp h
            exact absurd (pure_ok.mp h).1 (by simp)
          · exact fun h => throw_ok.mp h

/-- A known callee has a route, or looking for it fails. -/
theorem route?_ne_none {callee : Callee} (hknown : (around.registry.get? callee).isSome) :
    route? around callee s ≠ .ok none s' := by
  rw [route?, Ne, get_bind_ok]
  cases s.routes.find? callee with
  | some kept =>
      intro h
      exact absurd (pure_ok.mp h).1 (by simp)
  | none =>
      intro h
      obtain ⟨found, s₁, hfound, h⟩ := bind_ok.mp h
      cases found with
      | none => exact findRoute_ne_none hknown hfound
      | some route =>
          obtain ⟨_, _, -, h⟩ := bind_ok.mp h
          exact absurd (pure_ok.mp h).1 (by simp)

theorem stops_call (route : Route) (args : List Code.ValueId) :
    (call route args).Stops P s := by
  cases route with
  | direct external => exact stops_emit _
  | throughCell symbol signature =>
      refine stops_bind (stops_build _) fun _ _ _ => ?_
      exact stops_bind (stops_build _) fun _ _ _ => stops_emit _

/-- A call stops as looking for its route does, or where its callee is missing. -/
theorem stops_callOrThrow {callee : Callee} {missing : LowerError} {args : List Code.ValueId}
    (hroute : (findRoute around callee).Stops P s)
    (h : (around.registry.get? callee).isSome ∨ P missing) :
    (callOrThrow around callee missing args).Stops P s := by
  refine stops_bind (stops_route? hroute) fun found s₁ hfound => ?_
  cases found with
  | some route => exact stops_call route args
  | none =>
      rcases h with hknown | hmissing
      · exact absurd hfound (route?_ne_none hknown)
      · exact stops_throw hmissing

end Lower

/-- An infix operator that lowering has code for, or can call. -/
def Surroundings.Knows (around : Surroundings) (op : Char) : Prop :=
  op ∈ ['=', '<', '+', '-', '*'] ∨ (around.registry.get? (.binary op)).isSome

namespace Lower

theorem stops_infixOperator {op : Char} {left right : Code.ValueId} (hassign : op ≠ '=')
    (hroute : (findRoute around (.binary op)).Stops P s)
    (h : around.Knows op ∨ P (.missingBinaryOperator op)) :
    (infixOperator around op left right).Stops P s := by
  unfold infixOperator
  split
  · exact stops_emit _
  · exact stops_emit _
  · exact stops_emit _
  · refine stops_bind (stops_build _) fun _ _ _ => ?_
    exact stops_bind (stops_build _) fun _ _ _ => stops_emit _
  · next hplus hminus htimes hless =>
      refine stops_callOrThrow hroute ?_
      rcases h with (hbuiltin | hknown) | hmissing
      · simp_all
      · exact Or.inl hknown
      · exact Or.inr hmissing

/-- A value stands in the block that is being filled when it is complete. -/
theorem emit_block {operation : Code.Operation} {r : Computed}
    (h : emit operation s = .ok r s') : r.block = s'.builder.current := by
  obtain ⟨rfl, rfl⟩ := emit_ok.mp h
  rfl

theorem callOrThrow_block {callee : Callee} {missing : LowerError} {args : List Code.ValueId}
    {r : Computed} (h : callOrThrow around callee missing args s = .ok r s') :
    r.block = s'.builder.current := by
  obtain ⟨route, s₁, -, hcall⟩ := callOrThrow_ok.mp h
  cases route with
  | direct external => exact emit_block hcall
  | throughCell symbol signature => exact emit_block (call_throughCell_ok.mp hcall)

theorem infixOperator_block {op : Char} {left right : Code.ValueId} {r : Computed}
    (h : infixOperator around op left right s = .ok r s') : r.block = s'.builder.current := by
  unfold infixOperator at h
  split at h
  · exact emit_block h
  · exact emit_block h
  · exact emit_block h
  · obtain ⟨_, _, -, h⟩ := bind_ok.mp h
    obtain ⟨_, _, -, h⟩ := bind_ok.mp h
    exact emit_block h
  · exact callOrThrow_block h

theorem locals_block {body : Lower Computed}
    (hbody : ∀ {s s' r}, body s = .ok r s' → r.block = s'.builder.current)
    {bindings : List (String × Option Expr)} {s s' : LowerState} {r : Computed}
    (h : locals around body bindings s = .ok r s') : r.block = s'.builder.current := by
  induction bindings generalizing s s' with
  | nil =>
      rw [locals] at h
      exact hbody h
  | cons binding bindings ih =>
      obtain ⟨v, s₁, s₂, -, hr, rfl⟩ := locals_cons_ok.mp h
      have hblock := ih hr
      exact hblock

/-- The code of an expression ends in the block that is being filled. -/
theorem expr_block {e : Expr} {s s' : LowerState} {r : Computed}
    (h : expr around e s = .ok r s') : r.block = s'.builder.current := by
  induction e using Expr.induction generalizing s s' r with
  | number value => exact emit_block (expr_number_ok.mp h)
  | var name =>
      obtain ⟨slot, -, h⟩ := expr_var_ok.mp h
      exact emit_block h
  | unary op operand ih =>
      obtain ⟨v, s₁, -, hcall⟩ := expr_unary_ok.mp h
      exact callOrThrow_block hcall
  | binary op left right ihl ihr =>
      by_cases hop : op = '='
      · subst hop
        obtain ⟨name, slot, s₁, -, hr, -, rfl⟩ := expr_assign_ok.mp h
        have hblock := ihr hr
        exact hblock
      · obtain ⟨a, s₁, b, s₂, -, -, hoperator⟩ := (expr_binary_ok hop).mp h
        exact infixOperator_block hoperator
  | call name args ih =>
      obtain ⟨-, vs, s₁, -, hcall⟩ := expr_call_ok.mp h
      exact callOrThrow_block hcall
  | cond condition thenBranch elseBranch ihc iht ihe =>
      obtain ⟨c, s₁, t, s₂, e, s₃, -, -, -, -, -, rfl, rfl⟩ := expr_cond_ok.mp h
      rfl
  | loop name start finish step body ihs ihf ihstep ihb =>
      obtain ⟨a, s₁, b, s₂, v, s₃, f, s₄, -, -, -, -, hr⟩ := expr_loop_ok.mp h
      exact emit_block hr
  | locals bindings body ihbindings ihbody =>
      rw [expr] at h
      exact locals_block (fun hbody => ihbody hbody) h

/-- Errors of some kind cover what can go wrong with an expression, and with finding a
route in a state with some property that lowering keeps. -/
structure Rejects (around : Surroundings) (P : LowerError → Prop) (I : LowerState → Prop) :
    Prop where
  expression : ∀ e, e.isOfExpression = true → P e
  routes : ∀ callee s, I s → (findRoute around callee).Stops P s
  expr : ∀ {e s s' r}, I s → expr around e s = .ok r s' → I s'
  plain : ∀ {s b}, I s → s.builder.EmitsPlain b → I (s.built b)
  rescope : ∀ {s} scope, I s → I (s.scoped scope)

/-- Lowering an expression stops only with errors of the kind, in every state with the property. -/
def ExprStops (around : Surroundings) (P : LowerError → Prop) (I : LowerState → Prop)
    (e : Expr) : Prop :=
  ∀ ⦃s⦄, I s → (expr around e).Stops P s

variable {I : LowerState → Prop}

theorem Rejects.valueOr (hrejects : Rejects around P I) {otherwise : Float}
    {value? : Option Expr} {v : Code.ValueId} (hs : I s)
    (h : Lower.valueOr around otherwise value? s = .ok v s') : I s' := by
  cases value? with
  | none =>
      obtain ⟨-, rfl⟩ := define_ok.mp (valueOr_none_ok.mp h)
      exact hrejects.plain hs (.define (.number otherwise) rfl)
  | some value =>
      obtain ⟨r, hr, -⟩ := valueOr_some_ok.mp h
      exact hrejects.expr hs hr

theorem Rejects.arguments (hrejects : Rejects around P I) {args : List Expr}
    {vs : List Code.ValueId} (hs : I s) (h : Lower.arguments around args s = .ok vs s') : I s' := by
  induction args generalizing s vs with
  | nil =>
      obtain ⟨-, rfl⟩ := arguments_nil_ok.mp h
      exact hs
  | cons arg args ih =>
      obtain ⟨v, s₁, others, harg, hothers, -⟩ := arguments_cons_ok.mp h
      exact ih (hrejects.expr hs harg) hothers

theorem Rejects.jumpWith (hrejects : Rejects around P I) {computed : Computed}
    {target next : Code.BlockId} {params : List Code.ValueId} {u : Unit} (hs : I s)
    (h : Lower.jumpWith computed target next params s = .ok u s') : I s' := by
  obtain ⟨-, rfl⟩ := jumpWith_ok.mp h
  exact hrejects.plain hs (.enter (.jump target [computed.value]) next params)

theorem stops_arguments (hrejects : Rejects around P I) {args : List Expr}
    (hargs : ∀ arg ∈ args, ExprStops around P I arg) (hs : I s) :
    (arguments around args).Stops P s := by
  induction args generalizing s with
  | nil =>
      rw [arguments]
      exact stops_pure _
  | cons arg args ih =>
      obtain ⟨harg, hothers⟩ := List.forall_mem_cons.mp hargs
      rw [arguments]
      refine stops_bind (harg hs) fun first s₁ hfirst => ?_
      exact stops_bind (ih hothers (hrejects.expr hs hfirst)) fun _ _ _ => stops_pure _

theorem stops_valueOr {otherwise : Float} {value? : Option Expr}
    (hvalue : ∀ value ∈ value?, (expr around value).Stops P s) :
    (valueOr around otherwise value?).Stops P s := by
  cases value? with
  | none =>
      rw [valueOr]
      exact stops_build _
  | some value =>
      rw [valueOr]
      exact stops_bind (hvalue value rfl) fun _ _ _ => stops_pure _

theorem stops_locals (hrejects : Rejects around P I) {body : Lower Computed}
    (hbody : ∀ s, I s → body.Stops P s) {bindings : List (String × Option Expr)}
    (hbindings : ∀ binding ∈ bindings, ∀ value ∈ binding.2, ExprStops around P I value)
    (hs : I s) : (locals around body bindings).Stops P s := by
  induction bindings generalizing s with
  | nil =>
      rw [locals]
      exact hbody s hs
  | cons binding bindings ih =>
      obtain ⟨hbinding, hothers⟩ := List.forall_mem_cons.mp hbindings
      rw [locals]
      refine stops_bind (stops_valueOr fun value hvalue => hbinding value hvalue hs)
        fun value s₁ hvalue => ?_
      refine stops_bind (stops_build _) fun slot s₂ hslot => ?_
      refine stops_bind (stops_build _) fun _ s₃ hstore => ?_
      obtain ⟨rfl, rfl⟩ := newSlot_ok.mp hslot
      obtain rfl := storeSlot_ok.mp hstore
      have hstored := hrejects.plain (hrejects.valueOr hs hvalue)
        (.trans .newSlot (.storeSlot value s₁.builder.slots))
      exact stops_withBinding (ih hothers (hrejects.rescope _ hstored))

/-- A choice stops as its parts do: its blocks are entered one after the other, so both
branches are left in the block of their value. -/
theorem stops_cond (hrejects : Rejects around P I) {condition thenBranch elseBranch : Expr}
    (hcondition : ExprStops around P I condition) (hthenBranch : ExprStops around P I thenBranch)
    (helseBranch : ExprStops around P I elseBranch) :
    ExprStops around P I (.cond condition thenBranch elseBranch) := by
  intro s hs
  rw [expr]
  refine stops_bind (hcondition hs) fun c s₁ hc => ?_
  refine stops_bind ?_ fun truth s₂ htruth => ?_
  · exact stops_bind (stops_build _) fun _ _ _ => stops_build _
  refine stops_bind (stops_build _) fun thenBlock s₃ hthenBlock => ?_
  refine stops_bind (stops_build _) fun elseBlock s₄ helseBlock => ?_
  refine stops_bind (stops_build _) fun joinBlock s₅ hjoinBlock => ?_
  refine stops_bind (stops_build _) fun result s₆ hresult => ?_
  refine stops_bind (stops_build _) fun _ s₇ henter => ?_
  obtain ⟨rfl, rfl⟩ := isTrue_ok.mp htruth
  obtain ⟨rfl, rfl⟩ := newBlock_ok.mp hthenBlock
  obtain ⟨rfl, rfl⟩ := newBlock_ok.mp helseBlock
  obtain ⟨rfl, rfl⟩ := newBlock_ok.mp hjoinBlock
  obtain ⟨rfl, rfl⟩ := newParam_ok.mp hresult
  obtain rfl := enter_ok.mp henter
  have hs₇ := hrejects.plain (hrejects.expr hs hc) (.choose s₁.builder c.value)
  refine stops_bind (hthenBranch hs₇) fun thenValue s₈ hthen => ?_
  refine stops_bind (stops_jumpWith (expr_block hthen).symm) fun _ s₉ hjump => ?_
  have hs₉ := hrejects.jumpWith (hrejects.expr hs₇ hthen) hjump
  refine stops_bind (helseBranch hs₉) fun elseValue s₁₀ helse => ?_
  refine stops_bind (stops_jumpWith (expr_block helse).symm) fun _ s₁₁ _ => ?_
  exact stops_pure _

/-- A loop stops as its parts do: the body, the step and the end with the name bound. -/
theorem stops_loop (hrejects : Rejects around P I) {name : String} {start finish body : Expr}
    {step : Option Expr} (hstart : ExprStops around P I start)
    (hfinish : ExprStops around P I finish)
    (hstep : ∀ value ∈ step, ExprStops around P I value) (hbody : ExprStops around P I body) :
    ExprStops around P I (.loop name start finish step body) := by
  intro s hs
  rw [expr]
  refine stops_bind (stops_build _) fun slot s₁ hslot => ?_
  obtain ⟨rfl, rfl⟩ := newSlot_ok.mp hslot
  have hs₁ := hrejects.plain hs .newSlot
  refine stops_bind (hstart hs₁) fun first s₂ hfirst => ?_
  refine stops_bind (stops_build _) fun _ s₃ hstore => ?_
  refine stops_bind (stops_build _) fun loopBlock s₄ hblock => ?_
  refine stops_bind (stops_build _) fun _ s₅ henter => ?_
  obtain rfl := storeSlot_ok.mp hstore
  obtain ⟨rfl, rfl⟩ := newBlock_ok.mp hblock
  obtain rfl := enter_ok.mp henter
  have hs₅ := hrejects.plain (hrejects.expr hs₁ hfirst)
    (.beginLoop s₂.builder first.value s.builder.slots)
  refine stops_bind (stops_withBinding ?_) fun _ _ _ => stops_emit _
  have hbound := hrejects.rescope (s₂.scope.bind name s.builder.slots).1 hs₅
  refine stops_bind (hbody hbound) fun _ s₆ hvalue => ?_
  have hs₆ := hrejects.expr hbound hvalue
  refine stops_bind (stops_valueOr fun value hvalue => hstep value hvalue hs₆)
    fun step s₇ hstepped => ?_
  refine stops_bind (hfinish (hrejects.valueOr hs₆ hstepped)) fun finish s₈ _ => ?_
  refine stops_bind (stops_build _) fun current s₉ _ => ?_
  refine stops_bind (stops_build _) fun next s₁₀ _ => ?_
  refine stops_bind (stops_build _) fun _ s₁₁ _ => ?_
  refine stops_bind ?_ fun goOn s₁₂ _ => ?_
  · exact stops_bind (stops_build _) fun _ _ _ => stops_build _
  refine stops_bind (stops_build _) fun afterBlock s₁₃ _ => ?_
  exact stops_build _

/-- **Lowering stops** only where the expression is at fault, an infix operator is
missing, or a route cannot be found. -/
theorem expr_stops (hrejects : Rejects around P I) {e : Expr}
    (h : e.Everywhere (Expr.Infix fun op => around.Knows op ∨ P (.missingBinaryOperator op))) :
    ExprStops around P I e := by
  induction e using Expr.induction with
  | number value =>
      intro s hs
      rw [expr]
      exact stops_emit _
  | var name =>
      intro s hs
      rw [expr]
      exact stops_bind (stops_slotOf (hrejects.expression _ rfl)) fun _ _ _ => stops_emit _
  | unary op operand ih =>
      intro s hs
      rw [expr]
      refine stops_bind (ih h.2 hs) fun operand s₁ hoperand => ?_
      exact stops_callOrThrow (hrejects.routes _ _ (hrejects.expr hs hoperand))
        (Or.inr (hrejects.expression _ rfl))
  | binary op left right ihl ihr =>
      intro s hs
      obtain ⟨hop, hleft, hright⟩ := h
      by_cases hassign : op = '='
      · subst hassign
        cases left with
        | var name =>
            simp only [expr, if_true]
            refine stops_bind (ihr hright hs) fun value s₁ _ => ?_
            refine stops_bind (stops_slotOf (hrejects.expression _ rfl)) fun slot s₂ _ => ?_
            exact stops_bind (stops_build _) fun _ _ _ => stops_pure _
        | _ =>
            simp only [expr, if_true]
            exact stops_throw (hrejects.expression _ rfl)
      · simp only [expr, if_neg hassign]
        refine stops_bind (ihl hleft hs) fun lhs s₁ hlhs => ?_
        have hs₁ := hrejects.expr hs hlhs
        refine stops_bind (ihr hright hs₁) fun rhs s₂ hrhs => ?_
        exact stops_infixOperator hassign (hrejects.routes _ _ (hrejects.expr hs₁ hrhs)) hop
  | call name args ih =>
      intro s hs
      have hargs := Expr.everywhereIn_iff.mp h.2
      rw [expr]
      refine stops_bind (stops_arity? _) fun arity s₁ harity => ?_
      obtain ⟨rfl, -⟩ := arity?_ok.mp harity
      split
      · exact stops_throw (hrejects.expression _ rfl)
      · split
        · refine stops_bind ?_ fun _ s₂ hvalues => ?_
          · exact stops_arguments hrejects (fun arg harg => ih arg harg (hargs arg harg)) hs
          exact stops_callOrThrow (hrejects.routes _ _ (hrejects.arguments hs hvalues))
            (Or.inr (hrejects.expression _ rfl))
        · exact stops_throw (hrejects.expression _ rfl)
  | cond condition thenBranch elseBranch ihc iht ihe =>
      obtain ⟨-, hc, ht, he⟩ := h
      exact stops_cond hrejects (ihc hc) (iht ht) (ihe he)
  | loop name start finish step body ihs ihf ihstep ihb =>
      obtain ⟨-, hstart, hfinish, hstep, hbody⟩ := h
      have hstep := Expr.everywhereIf_iff.mp hstep
      exact stops_loop hrejects (ihs hstart) (ihf hfinish)
        (fun value hvalue => ihstep value hvalue (hstep value hvalue)) (ihb hbody)
  | locals bindings body ihbindings ihbody =>
      intro s hs
      obtain ⟨-, hbindings, hbody⟩ := h
      have hbindings := Expr.everywhereBound_iff.mp hbindings
      rw [expr]
      exact stops_locals hrejects (fun s hs => ihbody hbody hs)
        (fun binding hbinding value hvalue => ihbindings binding hbinding value hvalue
          (Expr.everywhereIf_iff.mp (hbindings binding hbinding) value hvalue)) hs

theorem stops_parameters (first : Code.ValueId) (names : List String) (s : LowerState) :
    (parameters first names).Stops P s := by
  induction names generalizing first s with
  | nil =>
      rw [parameters]
      exact stops_pure _
  | cons name names ih =>
      rw [parameters]
      refine stops_bind (stops_build _) fun slot s₁ _ => ?_
      refine stops_bind (stops_build _) fun _ s₂ _ => ?_
      exact stops_bind (fun _ _ h => by cases h) fun _ s₃ _ => ih _ s₃

end Lower

/-- Compiling a function fails where its unit cannot declare it, its body cannot be
lowered, or the code is faulty. -/
theorem Surroundings.compile_error {around : Surroundings} {f : Function} {e : LowerError}
    (h : around.compile f = .error e) :
    (∃ clash, CompilationUnit.empty.declareDefinition f.prototype = .error clash ∧
        e = .clash clash) ∨
      ∃ declared unit, CompilationUnit.empty.declareDefinition f.prototype = .ok (declared, unit) ∧
        ((∃ s, Lower.function around f (.start unit f.prototype.arity) = .error e s) ∨
          ∃ r s fault, Lower.function around f (.start unit f.prototype.arity) = .ok r s ∧
            (s.builder.finish f.prototype.callee.symbol f.prototype.arity
              (.leave r.value)).check = .error fault ∧ e = .faultyCode fault) := by
  simp only [Surroundings.compile] at h
  cases hdeclare : CompilationUnit.empty.declareDefinition f.prototype with
  | error clash =>
      simp only [hdeclare, Except.mapError, bind, Except.bind] at h
      cases h
      exact Or.inl ⟨clash, rfl, rfl⟩
  | ok declared =>
      obtain ⟨declared, unit⟩ := declared
      refine Or.inr ⟨declared, unit, rfl, ?_⟩
      simp only [hdeclare, Except.mapError, bind, Except.bind] at h
      cases hlower : Lower.function around f (.start unit f.prototype.arity) with
      | error e' s =>
          simp only [hlower] at h
          cases h
          exact Or.inl ⟨s, rfl⟩
      | ok r s =>
          simp only [hlower] at h
          cases hcheck : (s.builder.finish f.prototype.callee.symbol f.prototype.arity
              (.leave r.value)).check with
          | error fault =>
              simp only [hcheck] at h
              cases h
              exact Or.inr ⟨r, s, fault, rfl, hcheck, rfl⟩
          | ok _ =>
              simp only [hcheck] at h
              cases h

/-- Compiling a function whose infix operators are known fails, if it does, with
an error that a session survives. -/
theorem Surroundings.compile_survives {around : Surroundings} {f : Function}
    (h : f.body.Everywhere (Expr.Infix around.Knows)) {e : LowerError}
    (herror : around.compile f = .error e) : e.isFatal = false := by
  obtain ⟨clash, -, rfl⟩ | ⟨declared, unit, -, ⟨s, hlower⟩ | ⟨r, s, fault, -, -, rfl⟩⟩ :=
    compile_error herror
  · rfl
  · have hrejects : Lower.Rejects around (fun e => e.isFatal = false) fun _ => True := by
      refine ⟨fun e he => ?_, fun callee s _ => ?_, fun _ _ => trivial, fun _ _ => trivial,
        fun _ _ => trivial⟩
      · cases e <;> first | rfl | cases he
      · exact Lower.stops_findRoute (fun _ _ _ _ _ _ => rfl) rfl
    have hbody : f.body.Everywhere (Expr.Infix fun op =>
        around.Knows op ∨ (LowerError.missingBinaryOperator op).isFatal = false) :=
      h.mono fun e he => by
        cases e <;> first | exact Or.inl he | trivial
    exact Lower.stops_bind (Lower.stops_parameters _ _ _)
      (fun _ s _ => Lower.expr_stops hrejects hbody trivial) _ _ hlower
  · rfl

end Reckon
