import Reckon.Proofs.Lowering.Congruence
import Reckon.Proofs.Lowering.Heads

/-!
# Lowering sees the callees of an expression and nothing else

Surroundings can be large, but lowering asks only for the callees that it meets: whether they
are registered and with how many parameters, whether they have an address, and whether they have
a cell (`Surroundings.AgreeOn`).  Where two surroundings agree on the callees of an expression,
it is lowered to the same code with the same numbers, or to the same error (`Lower.expr_parallel`).

The address of an imported function goes into the unit, from where the linker takes it, and it
may differ.  So the two runs keep states that are the same but for such addresses
(`LowerState.Parallel`).  It is enough that single steps keep them so
(`Lower.Parallel.congruence`) and that a callee is reached the same way
(`Lower.findRoute_parallel`).
-/

namespace Reckon

/-- What lowering can find out about a callee is the same in two surroundings. -/
structure Surroundings.AgreeOn (around around' : Surroundings) (callee : Callee) : Prop where
  arity : (around'.registry.get? callee).map Prototype.arity =
    (around.registry.get? callee).map Prototype.arity
  linked : around'.linker.isLinked callee.symbol = around.linker.isLinked callee.symbol
  cell : around'.linker.hasCell callee.symbol = around.linker.hasCell callee.symbol

/-- A binding without the address of what it imports. -/
def Binding.unlinked : Binding → Binding
  | .own => .own
  | .imported _ => .imported (.unit 0)

/-- A declaration without the address of what it imports. -/
def Declaration.unlinked (d : Declaration) : Declaration := { d with binding := d.binding.unlinked }

namespace CompilationUnit

/-- A unit without the addresses of what it imports. -/
def unlinked (u : CompilationUnit) : CompilationUnit :=
  { u with declarations := u.declarations.map Declaration.unlinked }

variable (u : CompilationUnit)

theorem refer_unlinked (symbol : String) : (u.refer symbol).unlinked = u.unlinked.refer symbol := by
  unfold refer
  split
  · rw [if_pos (by assumption)]
  · rw [if_neg (by assumption)]
    rfl

theorem isOwn_unlinked (n : Nat) : u.unlinked.isOwn n = u.isOwn n := by
  have hown (d : Declaration) : (d.unlinked.binding == .own) = (d.binding == .own) := by
    cases hbinding : d.binding <;> simp [Declaration.unlinked, Binding.unlinked, hbinding]
  cases hfound : u.declarations[n]? with
  | none => simp [isOwn, unlinked, hfound]
  | some d => simpa [isOwn, unlinked, hfound] using hown d

/-- A declaration takes the same place whatever addresses there are. -/
theorem declare_unlinked (symbol : String) (arity : Nat) (binding : Binding) :
    u.unlinked.declare symbol arity binding.unlinked =
      (u.declare symbol arity binding).map (Prod.map id unlinked) := by
  have hsearch : (u.declarations.map Declaration.unlinked).findIdx? (fun d => d.symbol == symbol) =
      u.declarations.findIdx? fun d => d.symbol == symbol := List.findIdx?_map ..
  unfold declare
  simp only [unlinked, hsearch, List.getElem?_map, List.length_map]
  cases hindex : u.declarations.findIdx? fun d => d.symbol == symbol with
  | none => simp [Except.map, unlinked, Declaration.unlinked]
  | some n =>
      cases hfound : u.declarations[n]? with
      | none => simp [Except.map, unlinked, hfound]
      | some d =>
          simp only [hfound, Option.map_some, Declaration.unlinked]
          split <;> rfl

theorem declareImport_unlinked (p : Prototype) (address : Address) :
    u.unlinked.declareImport p (.unit 0) =
      (u.declareImport p address).map (Prod.map id unlinked) := by
  have hdeclare := u.declare_unlinked p.callee.symbol p.arity (.imported address)
  simp only [declareImport, declareCallee]
  change u.unlinked.declare p.callee.symbol p.arity (.imported (.unit 0)) = _ at hdeclare
  rw [hdeclare]
  cases u.declare p.callee.symbol p.arity (.imported address) with
  | error clash => rfl
  | ok found =>
      simp only [Except.map, bind, Except.bind, pure, Except.pure, Prod.map, refer_unlinked]
      rfl

end CompilationUnit

/-- Two states of lowering are the same but for the addresses of what their units import. -/
structure LowerState.Parallel (s s' : LowerState) : Prop where
  builder : s'.builder = s.builder
  unit : s'.unit.unlinked = s.unit.unlinked
  routes : s'.routes = s.routes
  scope : s'.scope = s.scope

namespace LowerState.Parallel

variable {s s' : LowerState}

theorem refl (s : LowerState) : s.Parallel s := ⟨rfl, rfl, rfl, rfl⟩

theorem declared? (h : s.Parallel s') (callee : Callee) :
    s'.unit.declared? callee = s.unit.declared? callee := by
  have hcallees := congrArg CompilationUnit.callees h.unit
  exact congrArg (Table.find? · callee) hcallees

theorem isOwn (h : s.Parallel s') (n : Nat) : s'.unit.isOwn n = s.unit.isOwn n := by
  rw [← s'.unit.isOwn_unlinked, h.unit, s.unit.isOwn_unlinked]

/-- Functions with the same head are imported at the same place, wherever they are. -/
theorem declareImport (h : s.Parallel s') {p p' : Prototype} (hhead : p'.head = p.head)
    (address address' : Address) :
    (s'.unit.declareImport p' address').map (Prod.map id CompilationUnit.unlinked) =
      (s.unit.declareImport p address).map (Prod.map id CompilationUnit.unlinked) := by
  rw [← CompilationUnit.declareImport_unlinked, ← CompilationUnit.declareImport_unlinked, h.unit,
    CompilationUnit.declareImport_head _ hhead]

end LowerState.Parallel

namespace Lower

/-- Two computations run in parallel: from states that are the same but for addresses they yield
the same and leave such states, or they stop with the same error. -/
def Parallel {α : Type} (m m' : Lower α) : Prop :=
  ∀ s s', s.Parallel s' → Agree (fun a a' t t' => a' = a ∧ t.Parallel t') m m' s s'

namespace Parallel

variable {α β : Type}

theorem pure (a : α) : Parallel (Pure.pure a) (Pure.pure a) :=
  fun _ _ h => .pure ⟨rfl, h⟩

theorem throw (e : LowerError) :
    Parallel (MonadExcept.throw e : Lower α) (MonadExcept.throw e) :=
  fun _ _ _ => .throw e

theorem bind {m m' : Lower α} {k k' : α → Lower β} (hm : Parallel m m')
    (hk : ∀ a, Parallel (k a) (k' a)) : Parallel (m >>= k) (m' >>= k') := by
  refine fun s s' h => (hm s s' h).bind fun a a' t t' _ _ hrelated => ?_
  obtain ⟨rfl, ht⟩ := hrelated
  exact hk _ t t' ht

/-- What is made of the state may differ only where the states do. -/
theorem get_bind {k k' : LowerState → Lower β}
    (hk : ∀ s s', s.Parallel s' → Parallel (k s) (k' s')) :
    Parallel ((get : Lower LowerState) >>= k) ((get : Lower LowerState) >>= k') :=
  fun s s' h => .get_bind (hk s s' h s s' h)

theorem modify {f f' : LowerState → LowerState}
    (hf : ∀ s s', s.Parallel s' → (f s).Parallel (f' s')) :
    Parallel (modify f : Lower Unit) (modify f') :=
  fun s s' h => .both rfl rfl ⟨rfl, hf s s' h⟩

theorem build (f : Code.Builder → α × Code.Builder) : Parallel (build f) (build f) := by
  refine fun s s' h => .both rfl rfl ⟨?_, ?_, h.unit, h.routes, h.scope⟩
  · rw [h.builder]
  · dsimp only
    rw [h.builder]

theorem withBinding (name : String) (slot : Code.SlotId) {inner inner' : Lower α}
    (hinner : Parallel inner inner') :
    Parallel (withBinding name slot inner) (withBinding name slot inner') := by
  intro s s' h
  have hbound : (s.scoped (s.scope.bind name slot).1).Parallel
      (s'.scoped (s'.scope.bind name slot).1) := by
    refine ⟨h.builder, h.unit, h.routes, ?_⟩
    exact congrArg (fun scope => (scope.bind name slot).1) h.scope
  cases hinner _ _ hbound with
  | @both a a' t t' left right related =>
      obtain ⟨ha, ht⟩ := related
      refine .both (withBinding_ok.mpr ⟨t, left, rfl⟩) (withBinding_ok.mpr ⟨t', right, rfl⟩)
        ⟨ha, ht.builder, ht.unit, ht.routes, ?_⟩
      change t'.scope.restore _ = t.scope.restore _
      rw [ht.scope, h.scope]
  | neither left right => exact .neither (withBinding_of_error left) (withBinding_of_error right)

theorem here (value : Code.ValueId) : Parallel (here value) (here value) := by
  refine get_bind fun s s' h => ?_
  rw [h.builder]
  exact .pure _

theorem slotOf (name : String) : Parallel (slotOf name) (slotOf name) := by
  refine get_bind fun s s' h => ?_
  rw [h.scope]
  split
  · exact .pure _
  · exact .throw _

theorem jumpWith (computed : Computed) (target next : Code.BlockId) (params : List Code.ValueId) :
    Parallel (jumpWith computed target next params) (jumpWith computed target next params) := by
  refine get_bind fun s s' h => ?_
  rw [h.builder]
  split
  · exact .build _
  · exact .throw _

/-- Lowering in parallel surroundings is a matter of its single steps. -/
theorem congruence : Congruence Parallel where
  pure := pure
  throw := throw
  bind := bind
  build := build
  here := here
  jumpWith := jumpWith
  slotOf := slotOf
  withBinding := withBinding

theorem direct (declared : Declared) : Parallel (direct declared) (direct declared) := by
  refine fun s s' h => .both rfl rfl ⟨?_, ?_, h.unit, h.routes, h.scope⟩
  · rw [h.builder]
  · dsimp only
    rw [h.builder, h.isOwn]

end Parallel

/-- A function that has been imported is called directly. -/
theorem enter_parallel {found found' : Except Clash (Declared × CompilationUnit)} :
    found'.map (Prod.map id CompilationUnit.unlinked) =
      found.map (Prod.map id CompilationUnit.unlinked) →
    Parallel (α := Option Route)
      (match found with
        | .ok (declared, unit) => do
          modify fun s => { s with unit := unit }
          some <$> direct declared
        | .error clash => throw (.clash clash))
      (match found' with
        | .ok (declared, unit) => do
          modify fun s => { s with unit := unit }
          some <$> direct declared
        | .error clash => throw (.clash clash)) := by
  intro h
  rcases found with clash | ⟨declared, unit⟩ <;> rcases found' with clash' | ⟨declared', unit'⟩
  · cases h
    exact .throw _
  · cases h
  · cases h
  · obtain ⟨hdeclared, hunit⟩ := Prod.mk.inj (Except.ok.inj h)
    obtain rfl : declared' = declared := hdeclared
    exact .bind (.modify fun s s' hs => ⟨hs.builder, hunit, hs.routes, hs.scope⟩)
      fun _ => .bind (.direct _) fun _ => .pure _

section Callees

variable {around around' : Surroundings} (hkeyed : around.registry.Keyed)
  (hkeyed' : around'.registry.Keyed) {callee : Callee} (h : around.AgreeOn around' callee)

include h

theorem arity?_parallel : Parallel (arity? around callee) (arity? around' callee) := by
  refine .get_bind fun s s' hs => ?_
  rw [hs.declared?]
  split
  · exact .pure _
  · rw [h.arity]
    exact .pure _

include hkeyed hkeyed'

/-- **A callee is reached the same way wherever the same is known of it.** -/
theorem findRoute_parallel : Parallel (findRoute around callee) (findRoute around' callee) := by
  refine .get_bind fun s s' hs => ?_
  rw [hs.declared?]
  split
  · exact .bind (.direct _) fun _ => .pure _
  · have harity := h.arity
    have hlinked := h.linked
    unfold Linker.isLinked at hlinked
    cases hget : around.registry.get? callee with
    | none =>
        rw [hget, Option.map_none, Option.map_eq_none_iff] at harity
        rw [harity]
        exact .pure _
    | some p =>
        rw [hget, Option.map_some, Option.map_eq_some_iff] at harity
        obtain ⟨p', hget', harity⟩ := harity
        have hhead : p'.head = p.head :=
          Prod.ext ((hkeyed' _ _ hget').trans (hkeyed _ _ hget).symm) harity
        rw [hget']
        dsimp only
        cases haddress : around.linker.address? callee.symbol with
        | some address =>
            rw [haddress] at hlinked
            obtain ⟨address', haddress'⟩ := Option.isSome_iff_exists.mp hlinked
            rw [haddress']
            refine .get_bind fun s s' hs => ?_
            exact enter_parallel (hs.declareImport hhead address address')
        | none =>
            rw [haddress] at hlinked
            rw [Option.not_isSome_iff_eq_none.mp (Bool.eq_false_iff.mp hlinked), h.cell, harity]
            dsimp only
            split
            · refine .bind (.modify fun s s' hs => ⟨hs.builder, ?_, hs.routes, hs.scope⟩)
                fun _ => .bind (.build _) fun _ => .pure _
              rw [CompilationUnit.refer_unlinked, CompilationUnit.refer_unlinked, hs.unit]
            · exact .throw _

theorem route?_parallel : Parallel (route? around callee) (route? around' callee) := by
  refine .get_bind fun s s' hs => ?_
  rw [hs.routes]
  split
  · exact .pure _
  · refine .bind (findRoute_parallel hkeyed hkeyed' h) fun found => ?_
    split
    · refine .bind (.modify fun s s' hs => ⟨hs.builder, hs.unit, ?_, hs.scope⟩) fun _ => .pure _
      rw [hs.routes]
    · exact .pure _

end Callees

/-- **An expression is lowered the same way wherever the same is known of its callees.** -/
theorem expr_parallel {around around' : Surroundings} (hkeyed : around.registry.Keyed)
    (hkeyed' : around'.registry.Keyed) (e : Expr)
    (h : ∀ callee ∈ e.callees, around.AgreeOn around' callee) :
    Parallel (expr around e) (expr around' e) :=
  Parallel.congruence.expr around around' e fun callee hmem =>
    ⟨arity?_parallel (h callee hmem), route?_parallel hkeyed hkeyed' (h callee hmem)⟩

theorem parameters_parallel (first : Code.ValueId) (names : List String) :
    Parallel (parameters first names) (parameters first names) := by
  induction names generalizing first with
  | nil => exact .pure _
  | cons name names ih =>
      rw [parameters]
      refine .bind (.build _) fun slot => .bind (.build _) fun _ => .bind (.modify ?_) fun _ => ih _
      exact fun s s' hs => ⟨hs.builder, hs.unit, hs.routes, by rw [hs.scope]⟩

end Lower

/-- A compiled function without the addresses of what it imports. -/
def Compilation.unlinked (c : Compilation) : Compilation := { c with unit := c.unit.unlinked }

/-- Only what is imported has an address. -/
theorem Compilation.of_unlinked_eq {c c' : Compilation} (h : c'.unlinked = c.unlinked) :
    c'.procedure = c.procedure ∧ c'.unit.references = c.unit.references := by
  obtain ⟨-, hprocedure, hunit⟩ := Compilation.mk.inj h
  exact ⟨hprocedure, (CompilationUnit.mk.inj hunit).2.2⟩

/-- **A function compiles the same way wherever the same is known of the callees of its body**:
to the same code in the same unit, addresses apart, or to the same error. -/
theorem Surroundings.compile_background {around around' : Surroundings} {f : Function}
    (hkeyed : around.registry.Keyed) (hkeyed' : around'.registry.Keyed)
    (h : ∀ callee ∈ f.body.callees, around.AgreeOn around' callee) :
    (around'.compile f).map Compilation.unlinked = (around.compile f).map Compilation.unlinked := by
  obtain ⟨declared, unit, hdeclare⟩ := CompilationUnit.declareDefinition_empty f.prototype
  have hfunction : Lower.Parallel (Lower.function around f) (Lower.function around' f) :=
    .bind (Lower.parameters_parallel 0 f.prototype.params) fun _ =>
      Lower.expr_parallel hkeyed hkeyed' f.body h
  rw [compile_eq hdeclare, compile_eq hdeclare]
  cases hfunction _ _ (.refl (.start unit f.prototype.arity)) with
  | @both r r' s s' left right related =>
      obtain ⟨rfl, hs⟩ := related
      rw [left, right]
      dsimp only
      rw [hs.builder]
      split
      · rfl
      · simp only [Except.map, Compilation.unlinked, hs.unit]
  | neither left right => rw [left, right]

end Reckon
