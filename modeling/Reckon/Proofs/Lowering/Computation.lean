import Mathlib.Data.List.Basic
import Reckon.Lowering.Function

/-!
# Taking lowering apart

A computation that lowers something either succeeds, with a result and a state,
or fails.  This file says for each form of expression what its success consists
of: which parts were lowered, in which states, and what was emitted between
them.  What is proved about code that was lowered starts from these equivalences,
which are all about success.
-/

namespace Reckon

namespace Code.Builder

/-- Compare a value with zero. -/
def test (b : Builder) (value : ValueId) : Builder :=
  ((b.define (.number 0)).2.define (.compare .distinct value b.values)).2

/-- Test a value, create the two branches of a choice and the block that joins
them, and enter the first branch. -/
def choose (b : Builder) (condition : ValueId) : Builder :=
  (b.test condition).newBlock.2.newBlock.2.newBlock.2.newParam.2.enter
    (.branch (b.values + 1) b.blocks (b.blocks + 1)) b.blocks []

/-- Keep the first value of a loop in its slot and enter its block. -/
def beginLoop (b : Builder) (start : ValueId) (slot : SlotId) : Builder :=
  (b.storeSlot start slot).newBlock.2.enter (.jump b.blocks []) b.blocks []

/-- Add the step of a loop to what its slot holds. -/
def advance (b : Builder) (slot : SlotId) (step : ValueId) : Builder :=
  ((b.define (.loadSlot slot)).2.define (.arithmetic .add b.values step)).2.storeSlot
    (b.values + 1) slot

/-- Advance a loop, test its end, go back to its block or leave it. -/
def endLoop (b : Builder) (slot : SlotId) (step finish : ValueId) (loop : BlockId) : Builder :=
  ((b.advance slot step).test finish).newBlock.2.enter
    (.branch (b.values + 3) loop b.blocks) b.blocks []

end Code.Builder

/-- The state with another builder. -/
def LowerState.built (s : LowerState) (b : Code.Builder) : LowerState := { s with builder := b }

/-- The state with another scope. -/
def LowerState.scoped (s : LowerState) (scope : Scope Code.SlotId) : LowerState :=
  { s with scope := scope }

namespace Lower

variable {α β : Type} {s s' : LowerState} {around : Surroundings}

-- the equations of lowering are made here, once, and not by each proof that uses them
attribute [local simp] expr

theorem bind_ok {m : Lower α} {k : α → Lower β} {b : β} :
    (m >>= k) s = .ok b s' ↔ ∃ a s₁, m s = .ok a s₁ ∧ k a s₁ = .ok b s' := by
  show EStateM.bind m k s = .ok b s' ↔ _
  unfold EStateM.bind
  cases m s with
  | ok a s₁ =>
      constructor
      · intro h
        exact ⟨a, s₁, rfl, h⟩
      · rintro ⟨_, _, h, hk⟩
        cases h
        exact hk
  | error e s₁ => simp

theorem bind_of_ok {m : Lower α} {k : α → Lower β} {a : α} (h : m s = .ok a s') :
    (m >>= k) s = k a s' := by
  change EStateM.bind m k s = _
  unfold EStateM.bind
  rw [h]

theorem bind_of_error {m : Lower α} {k : α → Lower β} {e : LowerError} (h : m s = .error e s') :
    (m >>= k) s = .error e s' := by
  change EStateM.bind m k s = _
  unfold EStateM.bind
  rw [h]

theorem pure_ok {a b : α} : (pure a : Lower α) s = .ok b s' ↔ b = a ∧ s' = s := by
  show EStateM.Result.ok a s = .ok b s' ↔ _
  simp [eq_comm]

theorem map_ok {f : α → β} {m : Lower α} {b : β} :
    (f <$> m) s = .ok b s' ↔ ∃ a, m s = .ok a s' ∧ b = f a := by
  show EStateM.map f m s = .ok b s' ↔ _
  unfold EStateM.map
  cases m s with
  | ok a s₁ => grind
  | error e s₁ => simp

theorem throw_ok {e : LowerError} {b : α} : (throw e : Lower α) s = .ok b s' ↔ False := by
  show EStateM.Result.error e s = .ok b s' ↔ _
  simp

theorem get_bind_ok {k : LowerState → Lower β} {b : β} :
    ((get : Lower LowerState) >>= k) s = .ok b s' ↔ k s s = .ok b s' := Iff.rfl

theorem modify_ok {f : LowerState → LowerState} {u : Unit} :
    (modify f : Lower Unit) s = .ok u s' ↔ s' = f s := by
  show EStateM.Result.ok () (f s) = .ok u s' ↔ _
  simp [eq_comm]

theorem build_ok {f : Code.Builder → α × Code.Builder} {a : α} :
    build f s = .ok a s' ↔ a = (f s.builder).1 ∧ s' = s.built (f s.builder).2 := by
  show EStateM.Result.ok _ _ = .ok a s' ↔ _
  simp [eq_comm, LowerState.built]

theorem define_ok {operation : Code.Operation} {v : Code.ValueId} :
    define operation s = .ok v s' ↔
      v = s.builder.values ∧ s' = s.built (s.builder.define operation).2 :=
  build_ok

theorem storeSlot_ok {value : Code.ValueId} {slot : Code.SlotId} {u : Unit} :
    storeSlot value slot s = .ok u s' ↔ s' = s.built (s.builder.storeSlot value slot) := by
  simp [storeSlot, build_ok]

theorem newSlot_ok {slot : Code.SlotId} :
    newSlot s = .ok slot s' ↔
      slot = s.builder.slots ∧ s' = s.built s.builder.newSlot.2 :=
  build_ok

theorem newBlock_ok {block : Code.BlockId} :
    newBlock s = .ok block s' ↔
      block = s.builder.blocks ∧ s' = s.built s.builder.newBlock.2 :=
  build_ok

theorem newParam_ok {v : Code.ValueId} :
    newParam s = .ok v s' ↔ v = s.builder.values ∧ s' = s.built s.builder.newParam.2 :=
  build_ok

theorem enter_ok {transfer : Code.Transfer} {next : Code.BlockId} {params : List Code.ValueId}
    {u : Unit} :
    enter transfer next params s = .ok u s' ↔
      s' = s.built (s.builder.enter transfer next params) := by
  simp [enter, build_ok]

theorem here_ok {value : Code.ValueId} {r : Computed} :
    here value s = .ok r s' ↔ r = ⟨value, s.builder.current⟩ ∧ s' = s := by
  show EStateM.Result.ok _ s = .ok r s' ↔ _
  simp [eq_comm]

theorem emit_ok {operation : Code.Operation} {r : Computed} :
    emit operation s = .ok r s' ↔
      r = ⟨s.builder.values, s.builder.current⟩ ∧
        s' = s.built (s.builder.define operation).2 := by
  show EStateM.Result.ok _ _ = .ok r s' ↔ _
  simp [eq_comm, LowerState.built, Code.Builder.define]

theorem slotOf_ok {name : String} {slot : Code.SlotId} :
    slotOf name s = .ok slot s' ↔ s.scope.lookup name = some slot ∧ s' = s := by
  rw [slotOf, get_bind_ok]
  cases s.scope.lookup name with
  | none => simp [throw_ok]
  | some found => simp [pure_ok, eq_comm]

/-- What is lowered with a name bound is lowered in the extended scope, and the
scope is what it was before as soon as it is done. -/
theorem withBinding_ok {name : String} {slot : Code.SlotId} {inner : Lower α} {a : α} :
    withBinding name slot inner s = .ok a s' ↔
      ∃ s₁, inner (s.scoped (s.scope.bind name slot).1) = .ok a s₁ ∧
        s' = s₁.scoped (s₁.scope.restore (s.scope.bind name slot).2) := by
  simp only [withBinding, LowerState.scoped]
  cases inner { s with scope := (s.scope.bind name slot).1 } with
  | ok b s₁ => grind
  | error e s₁ => simp

theorem isTrue_ok {value flag : Code.ValueId} :
    isTrue value s = .ok flag s' ↔
      flag = s.builder.values + 1 ∧ s' = s.built (s.builder.test value) := by
  simp only [isTrue, bind_ok, define_ok]
  constructor
  · rintro ⟨_, _, ⟨rfl, rfl⟩, rfl, rfl⟩
    exact ⟨rfl, rfl⟩
  · rintro ⟨rfl, rfl⟩
    exact ⟨_, _, ⟨rfl, rfl⟩, rfl, rfl⟩

/-- A jump with a value is emitted only from the block of the value. -/
theorem jumpWith_ok {computed : Computed} {target next : Code.BlockId}
    {params : List Code.ValueId} {u : Unit} :
    jumpWith computed target next params s = .ok u s' ↔
      s.builder.current = computed.block ∧
        s' = s.built (s.builder.enter (.jump target [computed.value]) next params) := by
  rw [jumpWith, get_bind_ok]
  split
  · next hblock => simp [enter_ok, hblock]
  · next hblock => simp [throw_ok, hblock]

theorem call_direct_ok {external : Nat} {args : List Code.ValueId} {r : Computed} :
    call (.direct external) args s = .ok r s' ↔
      emit (.call external args) s = .ok r s' := Iff.rfl

theorem call_throughCell_ok {symbol : String} {signature : Nat} {args : List Code.ValueId}
    {r : Computed} :
    call (.throughCell symbol signature) args s = .ok r s' ↔
      emit (.callThrough signature (s.builder.values + 1) args)
        (s.built ((s.builder.define (.cell symbol)).2.define
          (.loadCell s.builder.values)).2) = .ok r s' := by
  simp only [call, bind_ok, define_ok]
  constructor
  · rintro ⟨_, _, ⟨rfl, rfl⟩, _, _, ⟨rfl, rfl⟩, h⟩
    exact h
  · intro h
    exact ⟨_, _, ⟨rfl, rfl⟩, _, _, ⟨rfl, rfl⟩, h⟩

theorem callOrThrow_ok {callee : Callee} {missing : LowerError} {args : List Code.ValueId}
    {r : Computed} :
    callOrThrow around callee missing args s = .ok r s' ↔
      ∃ route s₁, route? around callee s = .ok (some route) s₁ ∧
        call route args s₁ = .ok r s' := by
  simp only [callOrThrow, bind_ok]
  constructor
  · rintro ⟨found, s₁, hfound, h⟩
    cases found with
    | none => exact (throw_ok.mp h).elim
    | some route => exact ⟨route, s₁, hfound, h⟩
  · rintro ⟨route, s₁, hfound, h⟩
    exact ⟨some route, s₁, hfound, h⟩

/-- Asking for the number of parameters of a callee changes nothing. -/
theorem arity?_ok {callee : Callee} {arity : Option Nat} :
    arity? around callee s = .ok arity s' ↔
      s' = s ∧ arity = match s.unit.declared? callee with
        | some declared => some declared.arity
        | none => (around.registry.get? callee).map Prototype.arity := by
  rw [arity?, get_bind_ok]
  cases s.unit.declared? callee with
  | none => simp [pure_ok, and_comm]
  | some declared => simp [pure_ok, and_comm]

/-- The ways in which the route to a callee that was not met before is found. -/
inductive Finds (around : Surroundings) (callee : Callee) (s : LowerState) :
    Route → LowerState → Prop
  /-- The unit declares the callee already. -/
  | declared {found : Declared} (hfound : s.unit.declared? callee = some found) :
      Finds around callee s (.direct s.builder.externals.size)
        (s.built (s.builder.newExternal found.declaration found.arity
          (s.unit.isOwn found.declaration)).2)
  /-- The callee has an address, and the unit declares it now. -/
  | imported {p : Prototype} {address : Address} {found : Declared} {unit : CompilationUnit}
      (hnew : s.unit.declared? callee = none)
      (hknown : around.registry.get? callee = some p)
      (haddress : around.linker.address? callee.symbol = some address)
      (himport : s.unit.declareImport p address = .ok (found, unit)) :
      Finds around callee s (.direct s.builder.externals.size)
        { s with
          unit := unit
          builder := (s.builder.newExternal found.declaration found.arity
            (unit.isOwn found.declaration)).2 }
  /-- The callee has no address, and is called through its cell. -/
  | throughCell {p : Prototype} (hnew : s.unit.declared? callee = none)
      (hknown : around.registry.get? callee = some p)
      (haddress : around.linker.address? callee.symbol = none)
      (hcell : around.linker.hasCell callee.symbol = true) :
      Finds around callee s (.throughCell callee.symbol s.builder.signatures.size)
        { s with
          unit := s.unit.refer callee.symbol
          builder := (s.builder.newSignature p.arity).2 }

theorem direct_ok {found : Declared} {route : Route} :
    direct found s = .ok route s' ↔
      route = .direct s.builder.externals.size ∧
        s' = s.built (s.builder.newExternal found.declaration found.arity
          (s.unit.isOwn found.declaration)).2 := by
  show EStateM.Result.ok _ _ = .ok route s' ↔ _
  simp [eq_comm, LowerState.built, Code.Builder.newExternal, Code.Builder.newSignature]

/-- A route that is found is found in one of these ways. -/
theorem finds_of_findRoute {callee : Callee} {route : Route}
    (h : findRoute around callee s = .ok (some route) s') :
    Finds around callee s route s' := by
  rw [findRoute, get_bind_ok] at h
  revert h
  cases hdeclared : s.unit.declared? callee with
  | some found =>
      intro h
      obtain ⟨_, hdirect, hroute⟩ := map_ok.mp h
      obtain ⟨rfl, rfl⟩ := direct_ok.mp hdirect
      obtain rfl := Option.some.inj hroute
      exact .declared hdeclared
  | none =>
      cases hknown : around.registry.get? callee with
      | none => exact fun h => by simp [pure_ok] at h
      | some p =>
          dsimp only
          cases haddress : around.linker.address? callee.symbol with
          | some address =>
              dsimp only
              rw [get_bind_ok]
              cases himport : s.unit.declareImport p address with
              | error clash => exact fun h => (throw_ok.mp h).elim
              | ok result =>
                  intro h
                  obtain ⟨_, _, hmodify, h⟩ := bind_ok.mp h
                  obtain rfl := modify_ok.mp hmodify
                  obtain ⟨_, hdirect, hroute⟩ := map_ok.mp h
                  obtain ⟨rfl, rfl⟩ := direct_ok.mp hdirect
                  obtain rfl := Option.some.inj hroute
                  exact .imported hdeclared hknown haddress himport
          | none =>
              dsimp only
              split
              · next hcell =>
                intro h
                obtain ⟨_, _, hmodify, h⟩ := bind_ok.mp h
                obtain rfl := modify_ok.mp hmodify
                obtain ⟨_, _, hbuild, h⟩ := bind_ok.mp h
                obtain ⟨rfl, rfl⟩ := build_ok.mp hbuild
                obtain ⟨hroute, rfl⟩ := pure_ok.mp h
                obtain rfl := Option.some.inj hroute
                exact .throughCell hdeclared hknown haddress hcell
              · exact fun h => (throw_ok.mp h).elim

/-- Finding a route emits no code. -/
theorem Finds.code {callee : Callee} {route : Route} (h : Finds around callee s route s') :
    s'.builder.values = s.builder.values ∧ s'.builder.current = s.builder.current ∧
      s'.builder.body = s.builder.body := by
  cases h with
  | declared hfound => exact ⟨rfl, rfl, rfl⟩
  | imported hnew hknown haddress himport => exact ⟨rfl, rfl, rfl⟩
  | throughCell hnew hknown haddress hcell => exact ⟨rfl, rfl, rfl⟩

/-- A route is the one found at the first call, or the one kept since then. -/
theorem route?_ok {callee : Callee} {route : Route}
    (h : route? around callee s = .ok (some route) s') :
    (s.routes.find? callee = some route ∧ s' = s) ∨
      s.routes.find? callee = none ∧ ∃ s₁, Finds around callee s route s₁ ∧
        s' = { s₁ with routes := s₁.routes.insert callee route } := by
  rw [route?, get_bind_ok] at h
  revert h
  cases hkept : s.routes.find? callee with
  | some kept =>
      intro h
      obtain ⟨hroute, rfl⟩ := pure_ok.mp h
      obtain rfl := Option.some.inj hroute
      exact Or.inl ⟨rfl, rfl⟩
  | none =>
      intro h
      obtain ⟨found, s₁, hfound, h⟩ := bind_ok.mp h
      cases found with
      | none => exact absurd (pure_ok.mp h).1 (by simp)
      | some found =>
          obtain ⟨_, _, hmodify, h⟩ := bind_ok.mp h
          obtain rfl := modify_ok.mp hmodify
          obtain ⟨hroute, rfl⟩ := pure_ok.mp h
          obtain rfl := Option.some.inj hroute
          exact Or.inr ⟨rfl, s₁, finds_of_findRoute hfound, rfl⟩

theorem expr_number_ok {value : Float} {r : Computed} :
    expr around (.number value) s = .ok r s' ↔ emit (.number value) s = .ok r s' := by
  rw [expr]

theorem expr_var_ok {name : String} {r : Computed} :
    expr around (.var name) s = .ok r s' ↔
      ∃ slot, s.scope.lookup name = some slot ∧ emit (.loadSlot slot) s = .ok r s' := by
  simp only [expr, bind_ok, slotOf_ok]
  grind

theorem expr_unary_ok {op : Char} {operand : Expr} {r : Computed} :
    expr around (.unary op operand) s = .ok r s' ↔
      ∃ v s₁, expr around operand s = .ok v s₁ ∧
        callOrThrow around (.unary op) (.unknownUnaryOperator op) [v.value] s₁ = .ok r s' := by
  simp only [expr, bind_ok]

/-- An assignment is to a name, and its value is that of its right side. -/
theorem expr_assign_ok {left right : Expr} {r : Computed} :
    expr around (.binary '=' left right) s = .ok r s' ↔
      ∃ name slot s₁, left = .var name ∧ expr around right s = .ok r s₁ ∧
        s₁.scope.lookup name = some slot ∧
        s' = s₁.built (s₁.builder.storeSlot r.value slot) := by
  cases left with
  | var name =>
      simp only [expr, if_true, bind_ok, slotOf_ok, storeSlot_ok, pure_ok]
      grind
  | _ => simp [expr, throw_ok]

theorem expr_binary_ok {op : Char} {left right : Expr} {r : Computed} (hop : op ≠ '=') :
    expr around (.binary op left right) s = .ok r s' ↔
      ∃ a s₁ b s₂, expr around left s = .ok a s₁ ∧ expr around right s₁ = .ok b s₂ ∧
        infixOperator around op a.value b.value s₂ = .ok r s' := by
  simp only [expr, if_neg hop, bind_ok]
  grind

/-- A call is lowered only with as many arguments as its callee has parameters. -/
theorem expr_call_ok {name : String} {args : List Expr} {r : Computed} :
    expr around (.call name args) s = .ok r s' ↔
      arity? around (.named name) s = .ok (some args.length) s ∧
        ∃ vs s₁, arguments around args s = .ok vs s₁ ∧
          callOrThrow around (.named name) (.unknownFunction name) vs s₁ = .ok r s' := by
  rw [expr, bind_ok]
  constructor
  · rintro ⟨arity, s₁, harity, h⟩
    obtain ⟨rfl, -⟩ := arity?_ok.mp harity
    cases arity with
    | none => exact (throw_ok.mp h).elim
    | some arity =>
        dsimp only at h
        split at h
        · next hlength =>
            obtain ⟨vs, s₂, hargs, h⟩ := bind_ok.mp h
            exact ⟨hlength ▸ harity, vs, s₂, hargs, h⟩
        · exact (throw_ok.mp h).elim
  · rintro ⟨harity, vs, s₁, hargs, h⟩
    refine ⟨some args.length, s, harity, ?_⟩
    dsimp only
    rw [if_pos rfl]
    exact bind_ok.mpr ⟨vs, s₁, hargs, h⟩

/-- A choice tests its condition and lowers its branches one after the other;
both end with a jump to the block whose parameter is the value. -/
theorem expr_cond_ok {condition thenBranch elseBranch : Expr} {r : Computed} :
    expr around (.cond condition thenBranch elseBranch) s = .ok r s' ↔
      ∃ c s₁ t s₂ e s₃, expr around condition s = .ok c s₁ ∧
        expr around thenBranch (s₁.built (s₁.builder.choose c.value)) = .ok t s₂ ∧
        s₂.builder.current = t.block ∧
        expr around elseBranch (s₂.built (s₂.builder.enter
          (.jump (s₁.builder.blocks + 2) [t.value]) (s₁.builder.blocks + 1) [])) = .ok e s₃ ∧
        s₃.builder.current = e.block ∧
        s' = s₃.built (s₃.builder.enter (.jump (s₁.builder.blocks + 2) [e.value])
          (s₁.builder.blocks + 2) [s₁.builder.values + 2]) ∧
        r = ⟨s₁.builder.values + 2, s₁.builder.blocks + 2⟩ := by
  simp only [expr, bind_ok, isTrue_ok, newBlock_ok, newParam_ok, enter_ok, jumpWith_ok, here_ok]
  constructor
  · rintro ⟨c, s₁, hc, _, _, ⟨rfl, rfl⟩, _, _, ⟨rfl, rfl⟩, _, _, ⟨rfl, rfl⟩, _, _, ⟨rfl, rfl⟩,
      _, _, ⟨rfl, rfl⟩, _, _, rfl, t, s₂, ht, _, _, ⟨htblock, rfl⟩, e, s₃, he, _, _,
      ⟨heblock, rfl⟩, rfl, rfl⟩
    exact ⟨c, s₁, t, s₂, e, s₃, hc, ht, htblock, he, heblock, rfl, rfl⟩
  · rintro ⟨c, s₁, t, s₂, e, s₃, hc, ht, htblock, he, heblock, rfl, rfl⟩
    exact ⟨c, s₁, hc, _, _, ⟨rfl, rfl⟩, _, _, ⟨rfl, rfl⟩, _, _, ⟨rfl, rfl⟩, _, _, ⟨rfl, rfl⟩,
      _, _, ⟨rfl, rfl⟩, (), _, rfl, t, s₂, ht, (), _, ⟨htblock, rfl⟩, e, s₃, he, (), _,
      ⟨heblock, rfl⟩, rfl, rfl⟩

/-- A loop lowers its first value outside the scope of its name, and inside it
the body, the step and the end in this order. -/
theorem expr_loop_ok {name : String} {start finish body : Expr} {step : Option Expr}
    {r : Computed} :
    expr around (.loop name start finish step body) s = .ok r s' ↔
      ∃ a s₁ b s₂ v s₃ f s₄,
        expr around start (s.built s.builder.newSlot.2) = .ok a s₁ ∧
        expr around body ((s₁.built (s₁.builder.beginLoop a.value s.builder.slots)).scoped
          (s₁.scope.bind name s.builder.slots).1) = .ok b s₂ ∧
        valueOr around 1 step s₂ = .ok v s₃ ∧ expr around finish s₃ = .ok f s₄ ∧
        emit (.number 0) ((s₄.built (s₄.builder.endLoop s.builder.slots v f.value
            s₁.builder.blocks)).scoped
          (s₄.scope.restore (s₁.scope.bind name s.builder.slots).2)) = .ok r s' := by
  simp only [expr, bind_ok, newSlot_ok, storeSlot_ok, newBlock_ok, enter_ok, withBinding_ok,
    define_ok, isTrue_ok]
  constructor
  · rintro ⟨_, _, ⟨rfl, rfl⟩, a, s₁, ha, _, _, rfl, _, _, ⟨rfl, rfl⟩, _, _, rfl, _, _,
      ⟨_, ⟨b, s₂, hb, v, s₃, hv, f, s₄, hf, _, _, ⟨rfl, rfl⟩, _, _, ⟨rfl, rfl⟩, _, _, rfl,
        _, _, ⟨rfl, rfl⟩, _, _, ⟨rfl, rfl⟩, rfl⟩, rfl⟩, hr⟩
    exact ⟨a, s₁, b, s₂, v, s₃, f, s₄, ha, hb, hv, hf, hr⟩
  · rintro ⟨a, s₁, b, s₂, v, s₃, f, s₄, ha, hb, hv, hf, hr⟩
    exact ⟨_, _, ⟨rfl, rfl⟩, a, s₁, ha, (), _, rfl, _, _, ⟨rfl, rfl⟩, (), _, rfl, (), _,
      ⟨_, ⟨b, s₂, hb, v, s₃, hv, f, s₄, hf, _, _, ⟨rfl, rfl⟩, _, _, ⟨rfl, rfl⟩, (), _, rfl,
        _, _, ⟨rfl, rfl⟩, _, _, ⟨rfl, rfl⟩, rfl⟩, rfl⟩, hr⟩

theorem arguments_nil_ok {vs : List Code.ValueId} :
    arguments around [] s = .ok vs s' ↔ vs = [] ∧ s' = s := by
  simp only [arguments, pure_ok]

theorem arguments_cons_ok {arg : Expr} {args : List Expr} {vs : List Code.ValueId} :
    arguments around (arg :: args) s = .ok vs s' ↔
      ∃ v s₁ others, expr around arg s = .ok v s₁ ∧
        arguments around args s₁ = .ok others s' ∧ vs = v.value :: others := by
  simp only [arguments, bind_ok, pure_ok]
  grind

theorem valueOr_none_ok {otherwise : Float} {v : Code.ValueId} :
    valueOr around otherwise none s = .ok v s' ↔ define (.number otherwise) s = .ok v s' := by
  rw [valueOr]

theorem valueOr_some_ok {otherwise : Float} {value : Expr} {v : Code.ValueId} :
    valueOr around otherwise (some value) s = .ok v s' ↔
      ∃ r, expr around value s = .ok r s' ∧ v = r.value := by
  simp only [valueOr, bind_ok, pure_ok]
  grind

/-- An initial value is lowered before its name is bound, and the rest with the
name bound to a new slot that holds the value. -/
theorem locals_cons_ok {name : String} {initial : Option Expr} {body : Lower Computed}
    {bindings : List (String × Option Expr)} {r : Computed} :
    locals around body ((name, initial) :: bindings) s = .ok r s' ↔
      ∃ v s₁ s₂, valueOr around 0 initial s = .ok v s₁ ∧
        locals around body bindings
          ((s₁.built (s₁.builder.newSlot.2.storeSlot v s₁.builder.slots)).scoped
            (s₁.scope.bind name s₁.builder.slots).1) = .ok r s₂ ∧
        s' = s₂.scoped (s₂.scope.restore (s₁.scope.bind name s₁.builder.slots).2) := by
  simp only [locals, bind_ok, newSlot_ok, storeSlot_ok, withBinding_ok]
  constructor
  · rintro ⟨v, s₁, hv, _, _, ⟨rfl, rfl⟩, _, _, rfl, s₂, hr, rfl⟩
    exact ⟨v, s₁, s₂, hv, hr, rfl⟩
  · rintro ⟨v, s₁, s₂, hv, hr, rfl⟩
    exact ⟨v, s₁, hv, _, _, ⟨rfl, rfl⟩, (), _, rfl, s₂, hr, rfl⟩

theorem parameters_nil_ok {first : Code.ValueId} {u : Unit} :
    parameters first [] s = .ok u s' ↔ s' = s := by
  simp [parameters, pure_ok]

/-- A parameter is kept in a new slot and stays bound. -/
theorem parameters_cons_ok {first : Code.ValueId} {name : String} {names : List String}
    {u : Unit} :
    parameters first (name :: names) s = .ok u s' ↔
      parameters (first + 1) names
        ((s.built (s.builder.newSlot.2.storeSlot first s.builder.slots)).scoped
          (s.scope.bind name s.builder.slots).1) = .ok u s' := by
  simp only [parameters, bind_ok, newSlot_ok, storeSlot_ok, modify_ok]
  constructor
  · rintro ⟨_, _, ⟨rfl, rfl⟩, _, _, rfl, _, _, rfl, h⟩
    exact h
  · intro h
    exact ⟨_, _, ⟨rfl, rfl⟩, (), _, rfl, (), _, rfl, h⟩

/-- Lowering parameters touches neither the unit nor the routes. -/
theorem parameters_unit {s s' : LowerState} {first : Code.ValueId} {names : List String} {u : Unit}
    (h : parameters first names s = .ok u s') : s'.unit = s.unit ∧ s'.routes = s.routes := by
  induction names generalizing first s with
  | nil =>
      obtain rfl := parameters_nil_ok.mp h
      exact ⟨rfl, rfl⟩
  | cons name names ih =>
      have hrest := ih (parameters_cons_ok.mp h)
      exact hrest

theorem function_ok {f : Function} {r : Computed} :
    function around f s = .ok r s' ↔
      ∃ s₁, parameters 0 f.prototype.params s = .ok () s₁ ∧ expr around f.body s₁ = .ok r s' := by
  rw [function, bind_ok]
  exact ⟨fun ⟨_, s₁, hparams, h⟩ => ⟨s₁, hparams, h⟩, fun ⟨s₁, hparams, h⟩ => ⟨(), s₁, hparams, h⟩⟩

end Lower

/-- A function compiles exactly if its unit declares it, its body is lowered,
and the code passes its check. -/
theorem Surroundings.compile_ok {around : Surroundings} {f : Function} {c : Compilation} :
    around.compile f = .ok c ↔
      ∃ declared unit r s,
        CompilationUnit.empty.declareDefinition f.prototype = .ok (declared, unit) ∧
        Lower.function around f (.start unit f.prototype.arity) = .ok r s ∧
        c = ⟨f.prototype, s.builder.finish f.prototype.callee.symbol f.prototype.arity
          (.leave r.value), s.unit⟩ ∧
        c.procedure.check = .ok () := by
  simp only [Surroundings.compile]
  cases hdeclare : CompilationUnit.empty.declareDefinition f.prototype with
  | error clash => simp [Except.mapError, bind, Except.bind]
  | ok declared =>
      obtain ⟨declared, unit⟩ := declared
      simp only [Except.mapError, bind, Except.bind]
      cases hlower : Lower.function around f (.start unit f.prototype.arity) with
      | error e s => simp [throw, throwThe, MonadExceptOf.throw, hlower]
      | ok r s =>
          cases hcheck : (s.builder.finish f.prototype.callee.symbol f.prototype.arity
              (.leave r.value)).check with
          | error fault =>
              simp only [hcheck, reduceCtorEq, false_iff]
              rintro ⟨_, _, _, _, heq, hagain, rfl, hok⟩
              obtain ⟨rfl, rfl⟩ := Prod.mk.inj (Except.ok.inj heq)
              obtain ⟨rfl, rfl⟩ := EStateM.Result.ok.inj (hlower.symm.trans hagain)
              exact absurd (hcheck.symm.trans hok) (by simp)
          | ok _ =>
              simp only [hcheck, pure, Except.pure]
              constructor
              · intro h
                obtain rfl := Except.ok.inj h
                exact ⟨declared, unit, r, s, rfl, hlower, rfl, hcheck⟩
              · rintro ⟨_, _, _, _, heq, hagain, rfl, -⟩
                obtain ⟨rfl, rfl⟩ := Prod.mk.inj (Except.ok.inj heq)
                obtain ⟨rfl, rfl⟩ := EStateM.Result.ok.inj (hlower.symm.trans hagain)
                rfl

/-- Compiled code is that of the function it was compiled from. -/
theorem Surroundings.compile_head {around : Surroundings} {f : Function} {c : Compilation}
    (h : around.compile f = .ok c) :
    c.prototype = f.prototype ∧ c.procedure.symbol = f.prototype.callee.symbol ∧
      c.procedure.arity = f.prototype.arity := by
  obtain ⟨declared, unit, r, s, -, -, rfl, -⟩ := compile_ok.mp h
  exact ⟨rfl, rfl, rfl⟩

end Reckon
