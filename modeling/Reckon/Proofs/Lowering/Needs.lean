import Reckon.Proofs.Lowering.Akin

/-!
# What a function needs

A compiled unit refers to exactly the symbols that its function needs, and there is
code or a cell for everything that the body calls (`Surroundings.compile_needs`).  A
reference is noted at the first call of a callee only, by two different routes and never
for the function itself, so the invariant goes by the callees that have been met.

Where there is code or a cell for every callee that is known, lowering never finds that
a symbol is unresolved (`Surroundings.compile_ne_unresolved`).
-/

namespace Reckon

/-- There is something to call where a function is compiled: the callee is the function
itself, which the unit has the code of, or its symbol has an address or a cell. -/
def Surroundings.Offers (around : Surroundings) (own : Prototype) (callee : Callee) : Prop :=
  own.callee = callee ∨ around.linker.isLinked callee.symbol = true ∨
    around.linker.hasCell callee.symbol = true

instance (around : Surroundings) (own : Prototype) (callee : Callee) :
    Decidable (around.Offers own callee) :=
  inferInstanceAs (Decidable (_ ∨ _ ∨ _))

namespace LowerState

/-- The references of the unit account for the callees that have been met. -/
structure Accounted (around : Surroundings) (own : Prototype) (s : LowerState) : Prop where
  tracked : s.Tracked around own
  offered : ∀ callee ∈ s.routes.keys, around.Offers own callee
  references : ∀ symbol, symbol ∈ s.unit.references ↔
    ∃ callee ∈ s.routes.keys, callee ≠ own.callee ∧ callee.symbol = symbol

variable {around : Surroundings} {own : Prototype} {s t : LowerState} {callee : Callee}
  {route : Route}

theorem Accounted.of_same (h : s.Accounted around own) (hunit : t.unit = s.unit)
    (hroutes : t.routes = s.routes) (hsignatures : t.builder.signatures = s.builder.signatures)
    (hexternals : t.builder.externals = s.builder.externals) : t.Accounted around own where
  tracked := h.tracked.of_same hunit hroutes hsignatures hexternals
  offered := by
    rw [hroutes]
    exact h.offered
  references := by
    rw [hunit, hroutes]
    exact h.references

theorem Accounted.plain (h : s.Accounted around own) {b : Code.Builder}
    (hplain : s.builder.EmitsPlain b) : (s.built b).Accounted around own :=
  h.of_same rfl rfl hplain.listing.1 hplain.listing.2

theorem Accounted.rescope (h : s.Accounted around own) (scope : Scope Code.SlotId) :
    (s.scoped scope).Accounted around own :=
  h.of_same rfl rfl rfl rfl

/-- A callee that is met is accounted for from then on. -/
theorem Accounted.finds (h : s.Accounted around own) (hkeyed : around.registry.Keyed)
    (hnew : s.routes.find? callee = none) (hfinds : Lower.Finds around callee s route t) :
    Accounted around own { t with routes := t.routes.insert callee route } := by
  have hnotes := hfinds.notes hkeyed
  have hkeys : (t.routes.insert callee route).keys = s.routes.keys ++ [callee] := by
    rw [hnotes.routes, Table.keys_insert hnew]
  have hself := h.tracked.declared_iff (Table.not_mem_keys hnew)
  refine ⟨h.tracked.finds hkeyed hnew hfinds, ?_, fun symbol => ?_⟩
  · simp only [hkeys]
    refine List.forall_mem_append.mpr ⟨h.offered, List.forall_mem_singleton.mpr ?_⟩
    cases hfinds with
    | declared hfound => exact Or.inl (hself.mp (by rw [hfound]; rfl))
    | imported _ _ haddress _ => exact Or.inr (Or.inl (Linker.isLinked_eq_true.mpr ⟨_, haddress⟩))
    | throughCell _ _ _ hcell => exact Or.inr (Or.inr hcell)
  · change symbol ∈ t.unit.references ↔ _
    simp only [hnotes.references, hkeys, List.mem_append, List.mem_singleton]
    by_cases hown : own.callee = callee
    · rw [if_pos (hself.mpr hown), h.references]
      constructor
      · rintro ⟨other, hother, hne, hsymbol⟩
        exact ⟨other, Or.inl hother, hne, hsymbol⟩
      · rintro ⟨other, hother | rfl, hne, hsymbol⟩
        · exact ⟨other, hother, hne, hsymbol⟩
        · exact absurd hown.symm hne
    · rw [if_neg fun hdeclared => hown (hself.mp hdeclared), CompilationUnit.mem_refer,
        h.references]
      constructor
      · rintro (⟨other, hother, hne, hsymbol⟩ | rfl)
        · exact ⟨other, Or.inl hother, hne, hsymbol⟩
        · exact ⟨callee, Or.inr rfl, Ne.symm hown, rfl⟩
      · rintro ⟨other, hother | rfl, hne, hsymbol⟩
        · exact Or.inl ⟨other, hother, hne, hsymbol⟩
        · exact Or.inr hsymbol.symm

end LowerState

namespace Lower

variable {around : Surroundings} {own : Prototype} {s s' : LowerState}

/-- Whatever lowering meets is accounted for. -/
theorem respected_accounted (hkeyed : around.registry.Keyed) :
    Respected around fun s s' => s.Accounted around own → s'.Accounted around own := by
  apply Respected.of_plain
  case refl => exact fun _ h => h
  case trans => exact fun h h' haccounted => h' (h haccounted)
  case plain => exact fun hplain h => h.plain hplain
  case callDirect => exact fun args _ h => h.of_same rfl rfl rfl rfl
  case callCell => exact fun args _ h => h.of_same rfl rfl rfl rfl
  case finds => exact fun hnew hfinds h => h.finds hkeyed hnew hfinds
  case binds => exact fun name slot hinner h => (hinner (h.rescope _)).rescope _

/-- Keeping parameters in slots meets no callee. -/
theorem parameters_accounted {p : Prototype} {declared : Declared} {unit : CompilationUnit}
    (hdeclare : CompilationUnit.empty.declareDefinition p = .ok (declared, unit))
    {names : List String} {first : Code.ValueId} {u : Unit}
    (hparams : parameters first names (.start unit p.arity) = .ok u s) :
    s.Accounted around p := by
  obtain ⟨hunit, hroutes⟩ := parameters_unit hparams
  have hreferences : s.unit.references = [] :=
    (congrArg CompilationUnit.references hunit).trans
      (CompilationUnit.declareCallee_references hdeclare)
  have hkeys : s.routes.keys = [] := congrArg Table.keys hroutes
  exact ⟨parameters_tracked (tracked_start around hdeclare) hparams, by simp [hkeys],
    by simp [hkeys, hreferences]⟩

/-- Looking for a route stops only with the error that the verdict on the callee says. -/
theorem stops_findRoute_of_verdict {P : LowerError → Prop} (hkeyed : around.registry.Keyed)
    {callee : Callee} (h : ∀ e, verdict around callee s.unit = .error e → P e) :
    (findRoute around callee).Stops P s := by
  intro e t herror
  have hcomes := findRoute_verdict hkeyed callee s
  rcases hverdict : verdict around callee s.unit with e' | (_ | _)
  · rw [hverdict] at hcomes
    obtain ⟨t', ht⟩ := hcomes
    obtain ⟨rfl, -⟩ := EStateM.Result.error.inj (ht.symm.trans herror)
    exact h _ hverdict
  · rw [hverdict] at hcomes
    cases hcomes.symm.trans herror
  · rw [hverdict] at hcomes
    obtain ⟨route, t', ht⟩ := hcomes
    cases ht.symm.trans herror

/-- A callee is unresolved if it is known and there is neither code nor a cell for it. -/
theorem unresolved_of_verdict {callee : Callee} {symbol : String}
    (h : verdict around callee s.unit = .error (.unresolvedSymbol symbol)) :
    (s.unit.declared? callee).isSome = false ∧ (around.registry.get? callee).isSome = true ∧
      around.linker.isLinked callee.symbol = false ∧
        around.linker.hasCell callee.symbol = false := by
  unfold verdict at h
  split at h
  · cases h
  · next hundeclared =>
      split at h
      · cases h
      · next p hknown =>
          split at h
          · split at h
            · cases h
            · split at h <;> cases h
          · next hunlinked =>
              split at h
              · cases h
              · next hnoCell =>
                  exact ⟨Bool.eq_false_iff.mpr hundeclared, by rw [hknown]; rfl,
                    Bool.eq_false_iff.mpr hunlinked, Bool.eq_false_iff.mpr hnoCell⟩

/-- A callee that is known is never unresolved if there is code or a cell for it. -/
theorem verdict_ne_unresolved {callee : Callee} {symbol : String}
    (hitself : (s.unit.declared? own.callee).isSome = true)
    (hoffers : (around.registry.get? callee).isSome = true → around.Offers own callee) :
    verdict around callee s.unit ≠ .error (.unresolvedSymbol symbol) := by
  intro herror
  obtain ⟨hundeclared, hknown, hunlinked, hnoCell⟩ := unresolved_of_verdict herror
  rcases hoffers hknown with rfl | hlinked | hcell
  · exact Bool.false_ne_true (hundeclared.symm.trans hitself)
  · exact Bool.false_ne_true (hunlinked.symm.trans hlinked)
  · exact Bool.false_ne_true (hnoCell.symm.trans hcell)

end Lower

/-- **A compiled unit refers to what its function needs**, and whatever the body calls
is there to be called. -/
theorem Surroundings.compile_needs {around : Surroundings} (hkeyed : around.registry.Keyed)
    {f : Function} {c : Compilation} (h : around.compile f = .ok c) :
    (∀ symbol, symbol ∈ c.unit.references ↔ symbol ∈ f.needs) ∧
      ∀ callee ∈ f.body.callees, around.Offers f.prototype callee := by
  obtain ⟨declared, unit, r, s, hdeclare, hfunction, rfl, -⟩ := compile_ok.mp h
  obtain ⟨s₁, hparams, hbody⟩ := Lower.function_ok.mp hfunction
  have hend := (Lower.respected_accounted hkeyed).expr f.body hbody
    (Lower.parameters_accounted hdeclare hparams)
  have hmet (callee : Callee) : callee ∈ s.routes.keys ↔ callee ∈ f.body.callees := by
    rw [(Lower.function_calls hkeyed hdeclare hfunction).1.met]
    simp [LowerState.start, Table.keys, Table.empty]
  simp only [← hmet, Function.mem_needs]
  exact ⟨hend.references, hend.offered⟩

/-- Where there is code or a cell for all that is known, no symbol is found to be
unresolved by lowering. -/
theorem Surroundings.compile_ne_unresolved {around : Surroundings}
    (hkeyed : around.registry.Keyed) {f : Function}
    (hoffers : ∀ callee, (around.registry.get? callee).isSome = true →
      around.Offers f.prototype callee) (symbol : String) :
    around.compile f ≠ .error (.unresolvedSymbol symbol) := by
  intro herror
  obtain ⟨clash, -, hclash⟩ | ⟨declared, unit, hdeclare, ⟨s, hlower⟩ | ⟨_, _, fault, _, _, hfault⟩⟩ :=
    compile_error herror
  · cases hclash
  · have hrejects : Lower.Rejects around (· ≠ .unresolvedSymbol symbol)
        (LowerState.Accounted around f.prototype) := by
      refine ⟨fun e he => ?_, fun callee s hs => ?_,
        fun hs h => (Lower.respected_accounted hkeyed).expr _ h hs,
        fun hs hplain => hs.plain hplain, fun scope hs => hs.rescope scope⟩
      · rintro rfl
        cases he
      · refine Lower.stops_findRoute_of_verdict hkeyed fun e hverdict => ?_
        rintro rfl
        exact Lower.verdict_ne_unresolved hs.tracked.listed.unit.itself (hoffers callee) hverdict
    have hbody : f.body.Everywhere (Expr.Infix fun op => around.Knows op ∨
        LowerError.missingBinaryOperator op ≠ .unresolvedSymbol symbol) :=
      Expr.everywhere_of_forall (fun e => by
        cases e <;> first | exact Or.inr (fun heq => by cases heq) | trivial) _
    have hfunction : (Lower.function around f).Stops (· ≠ .unresolvedSymbol symbol)
        (.start unit f.prototype.arity) := by
      refine Lower.stops_bind (Lower.stops_parameters _ _ _) fun _ s hparams => ?_
      exact Lower.expr_stops hrejects hbody (Lower.parameters_accounted hdeclare hparams)
    exact hfunction _ _ hlower rfl
  · cases hfault

end Reckon
