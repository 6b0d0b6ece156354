import Reckon.Proofs.Lowering.Routes
import Reckon.Proofs.Lowering.WellFormed

/-!
# Lowering before and after other functions are linked

A function that is declared can be called whether or not it has code already.  It is
reached by its address or through its cell, so the code of its callers differs, but
whether their bodies can be lowered, and what they refer to, does not.  So lowering
agrees in surroundings that differ only in which of some declared functions have been
linked (`Lower.expr_agree`).
-/

namespace Reckon

/-- Two surroundings are akin if they know the same callees, and differ only in which
of some loose symbols are linked.  A loose symbol has an address or a cell, and only one
callee has it. -/
structure Surroundings.Akin (loose : String → Prop) (around around' : Surroundings) : Prop where
  registry : around'.registry = around.registry
  keyed : around.registry.Keyed
  address? : ∀ symbol, ¬loose symbol →
    around'.linker.address? symbol = around.linker.address? symbol
  hasCell : ∀ symbol, ¬loose symbol →
    around'.linker.hasCell symbol = around.linker.hasCell symbol
  there : ∀ symbol, loose symbol →
    around.linker.isLinked symbol = true ∨ around.linker.hasCell symbol = true
  there' : ∀ symbol, loose symbol →
    around'.linker.isLinked symbol = true ∨ around'.linker.hasCell symbol = true
  alone : ∀ callee, (around.registry.get? callee).isSome → loose callee.symbol →
    callee = .named callee.symbol

namespace LowerState

/-- What a unit declares is the function itself or has been met. -/
structure Tracked (around : Surroundings) (own : Prototype) (s : LowerState) : Prop where
  listed : s.Listed around own
  declared : ∀ callee, (s.unit.declared? callee).isSome →
    own.callee = callee ∨ callee ∈ s.routes.keys

variable {around around' : Surroundings} {own : Prototype} {s s' t t' : LowerState}
  {callee : Callee} {route : Route} {loose : String → Prop}

theorem Tracked.of_same (h : s.Tracked around own) (hunit : t.unit = s.unit)
    (hroutes : t.routes = s.routes) (hsignatures : t.builder.signatures = s.builder.signatures)
    (hexternals : t.builder.externals = s.builder.externals) : t.Tracked around own where
  listed := h.listed.of_same hunit hroutes hsignatures hexternals
  declared := by
    rw [hunit, hroutes]
    exact h.declared

/-- A callee that was not met before is declared only if it is the function itself. -/
theorem Tracked.declared_iff (h : s.Tracked around own) (hnew : callee ∉ s.routes.keys) :
    (s.unit.declared? callee).isSome = true ↔ own.callee = callee := by
  constructor
  · exact fun hdeclared => (h.declared callee hdeclared).resolve_right hnew
  · rintro rfl
    exact h.listed.unit.itself

/-- A callee that is met is tracked from then on. -/
theorem Tracked.finds (h : s.Tracked around own) (hkeyed : around.registry.Keyed)
    (hnew : s.routes.find? callee = none) (hfinds : Lower.Finds around callee s route t) :
    Tracked around own { t with routes := t.routes.insert callee route } where
  listed := hfinds.listed hkeyed hnew h.listed
  declared := by
    have hnotes := hfinds.notes hkeyed
    intro other hother
    have hkeys : (t.routes.insert callee route).keys = s.routes.keys ++ [callee] := by
      rw [hnotes.routes, Table.keys_insert hnew]
    simp only [hkeys, List.mem_append, List.mem_singleton]
    rcases hnotes.declared other hother with hold | rfl
    · exact (h.declared other hold).imp_right Or.inl
    · exact Or.inr (Or.inr rfl)

/-- Two states of lowering one function in akin surroundings.  The same callees have
been met, and what is loose apart they have the same declarations. -/
structure Akin (loose : String → Prop) (around around' : Surroundings) (own : Prototype)
    (s s' : LowerState) : Prop where
  tracked : s.Tracked around own
  tracked' : s'.Tracked around' own
  scope : s'.scope = s.scope
  slots : s'.builder.slots = s.builder.slots
  met : s'.routes.keys = s.routes.keys
  references : s'.unit.references = s.unit.references
  arities : ∀ symbol, ¬loose symbol → s'.unit.arityAt? symbol = s.unit.arityAt? symbol

namespace Akin

theorem of_same (h : s.Akin loose around around' own s') (htracked : t.Tracked around own)
    (htracked' : t'.Tracked around' own) (hscope : t'.scope = t.scope)
    (hslots : t'.builder.slots = t.builder.slots) (hroutes : t.routes = s.routes)
    (hroutes' : t'.routes = s'.routes) (hunit : t.unit = s.unit) (hunit' : t'.unit = s'.unit) :
    t.Akin loose around around' own t' := by
  refine ⟨htracked, htracked', hscope, hslots, ?_, ?_, ?_⟩
  · rw [hroutes, hroutes', h.met]
  · rw [hunit, hunit', h.references]
  · rw [hunit, hunit']
    exact h.arities

/-- Both states go on with code that calls nothing new. -/
theorem built (h : s.Akin loose around around' own s') {b b' : Code.Builder}
    (hsignatures : b.signatures = s.builder.signatures)
    (hexternals : b.externals = s.builder.externals)
    (hsignatures' : b'.signatures = s'.builder.signatures)
    (hexternals' : b'.externals = s'.builder.externals) (hslots : b'.slots = b.slots) :
    (s.built b).Akin loose around around' own (s'.built b') :=
  h.of_same (h.tracked.of_same rfl rfl hsignatures hexternals)
    (h.tracked'.of_same rfl rfl hsignatures' hexternals') h.scope hslots rfl rfl rfl rfl

theorem plain (h : s.Akin loose around around' own s') {b b' : Code.Builder}
    (hplain : s.builder.EmitsPlain b) (hplain' : s'.builder.EmitsPlain b')
    (hslots : b'.slots = b.slots) : (s.built b).Akin loose around around' own (s'.built b') :=
  h.built hplain.listing.1 hplain.listing.2 hplain'.listing.1 hplain'.listing.2 hslots

theorem rescope (h : s.Akin loose around around' own s') (scope : Scope Code.SlotId) :
    (s.scoped scope).Akin loose around around' own (s'.scoped scope) :=
  h.of_same (h.tracked.of_same rfl rfl rfl rfl) (h.tracked'.of_same rfl rfl rfl rfl) rfl h.slots
    rfl rfl rfl rfl

end Akin

/-- Where a callee is loose, there is a route to it. -/
theorem Tracked.verdict_of_loose (h : s.Tracked around own)
    (hown : own.callee = .named own.callee.symbol)
    (halone : ∀ callee, (around.registry.get? callee).isSome → loose callee.symbol →
      callee = .named callee.symbol)
    (hthere : around.linker.isLinked callee.symbol = true ∨
      around.linker.hasCell callee.symbol = true)
    (hundeclared : s.unit.declared? callee = none)
    (hknown : (around.registry.get? callee).isSome) (hloose : loose callee.symbol) :
    Lower.verdict around callee s.unit = .ok true := by
  obtain ⟨p, hp⟩ := Option.isSome_iff_exists.mp hknown
  have hfresh : s.unit.arityAt? callee.symbol = none := by
    refine CompilationUnit.arityAt?_eq_none fun d hd hsymbol => ?_
    obtain ⟨other, found, hfound, hother⟩ := h.listed.unit.declarations d hd
    have hsame : other.symbol = callee.symbol := hother.trans hsymbol
    have hnamed : other = .named other.symbol := by
      by_cases heq : own.callee = other
      · exact heq ▸ hown
      · have harity := h.listed.unit.callees other found hfound
        rw [Surroundings.arityOf?, if_neg heq] at harity
        obtain ⟨q, hq, -⟩ := Option.map_eq_some_iff.mp harity
        exact halone other (by rw [hq]; rfl) (hsame ▸ hloose)
    have hcallee : callee = other := by
      rw [hnamed, hsame]
      exact halone callee hknown hloose
    rw [← hcallee, hundeclared] at hfound
    cases hfound
  unfold Lower.verdict
  rw [hundeclared, if_neg (by simp), hp]
  dsimp only
  by_cases hlinked : around.linker.isLinked callee.symbol = true
  · rw [if_pos hlinked, hfresh]
  · rw [if_neg hlinked, if_pos (hthere.resolve_left hlinked)]

end LowerState

namespace Surroundings.Akin

variable {around around' : Surroundings} {own : Prototype} {s s' : LowerState}
  {callee : Callee} {loose : String → Prop}

theorem arityOf? (h : around.Akin loose around') (own : Prototype) (callee : Callee) :
    around'.arityOf? own callee = around.arityOf? own callee := by
  unfold Surroundings.arityOf?
  rw [h.registry]

theorem keyed' (h : around.Akin loose around') : around'.registry.Keyed :=
  h.registry ▸ h.keyed

theorem isLinked (h : around.Akin loose around') {symbol : String} (hloose : ¬loose symbol) :
    around'.linker.isLinked symbol = around.linker.isLinked symbol := by
  rw [Linker.isLinked, Linker.isLinked, h.address? symbol hloose]

/-- A callee that was not met before gets the same verdict in both states. -/
theorem verdict (h : around.Akin loose around') (hown : own.callee = .named own.callee.symbol)
    (hs : s.Akin loose around around' own s') (hnew : callee ∉ s.routes.keys) :
    Lower.verdict around' callee s'.unit = Lower.verdict around callee s.unit := by
  have hnew' : callee ∉ s'.routes.keys := hs.met ▸ hnew
  have hdeclared : (s'.unit.declared? callee).isSome = (s.unit.declared? callee).isSome := by
    rw [Bool.eq_iff_iff, hs.tracked.declared_iff hnew, hs.tracked'.declared_iff hnew']
  by_cases hsome : (s.unit.declared? callee).isSome = true
  · rw [Lower.verdict, Lower.verdict, hdeclared, if_pos hsome, if_pos hsome]
  · have hnone : s.unit.declared? callee = none := Option.not_isSome_iff_eq_none.mp hsome
    have hnone' : s'.unit.declared? callee = none :=
      Option.not_isSome_iff_eq_none.mp (hdeclared ▸ hsome)
    cases hknown : around.registry.get? callee with
    | none => simp [Lower.verdict, hnone, hnone', h.registry, hknown]
    | some p =>
        by_cases hloose : loose callee.symbol
        · have hregistered : (around.registry.get? callee).isSome := by simp [hknown]
          rw [hs.tracked.verdict_of_loose hown h.alone (h.there _ hloose) hnone hregistered hloose]
          have halone' := h.alone
          rw [← h.registry] at halone' hregistered
          exact hs.tracked'.verdict_of_loose hown halone' (h.there' _ hloose) hnone' hregistered
            hloose
        · simp only [Lower.verdict, hnone, hnone', h.registry, hknown, h.isLinked hloose,
            h.hasCell _ hloose, hs.arities _ hloose]

/-- Both states meet a callee. -/
theorem finds (h : around.Akin loose around') (hs : s.Akin loose around around' own s')
    {route route' : Route} {t t' : LowerState} (hnew : s.routes.find? callee = none)
    (hnew' : s'.routes.find? callee = none) (hfinds : Lower.Finds around callee s route t)
    (hfinds' : Lower.Finds around' callee s' route' t') :
    LowerState.Akin loose around around' own { t with routes := t.routes.insert callee route }
      { t' with routes := t'.routes.insert callee route' } := by
  have hnotes := hfinds.notes h.keyed
  have hnotes' := hfinds'.notes h.keyed'
  have hdeclared : (s'.unit.declared? callee).isSome = (s.unit.declared? callee).isSome := by
    rw [Bool.eq_iff_iff, hs.tracked.declared_iff (Table.not_mem_keys hnew),
      hs.tracked'.declared_iff (Table.not_mem_keys hnew')]
  refine ⟨hs.tracked.finds h.keyed hnew hfinds, hs.tracked'.finds h.keyed' hnew' hfinds',
    ?_, ?_, ?_, ?_, fun symbol hsymbol => ?_⟩
  · change t'.scope = t.scope
    rw [hnotes'.scope, hnotes.scope, hs.scope]
  · change t'.builder.slots = t.builder.slots
    rw [hnotes'.slots, hnotes.slots, hs.slots]
  · change (t'.routes.insert callee route').keys = (t.routes.insert callee route).keys
    rw [hnotes'.routes, hnotes.routes, Table.keys_insert hnew, Table.keys_insert hnew', hs.met]
  · change t'.unit.references = t.unit.references
    rw [hnotes'.references, hnotes.references, hdeclared, hs.references,
      CompilationUnit.references_refer_congr hs.references]
  · change t'.unit.arityAt? symbol = t.unit.arityAt? symbol
    rw [hnotes'.arities, hnotes.arities, hdeclared, hs.arities symbol hsymbol, h.registry]
    by_cases heq : callee.symbol = symbol
    · rw [heq, h.isLinked hsymbol]
    · rw [if_neg fun hall => heq hall.2.2, if_neg fun hall => heq hall.2.2]

end Surroundings.Akin

namespace Lower

variable {α β : Type} {around around' : Surroundings} {own : Prototype} {s s' : LowerState}
  {callee : Callee} {loose : String → Prop}

theorem withBinding_of_error {name : String} {slot : Code.SlotId} {inner : Lower α}
    {e : LowerError} (h : inner (s.scoped (s.scope.bind name slot).1) = .error e s') :
    withBinding name slot inner s =
      .error e (s'.scoped (s'.scope.restore (s.scope.bind name slot).2)) := by
  simp only [withBinding]
  rw [show inner { s with scope := (s.scope.bind name slot).1 } = .error e s' from h]
  rfl

/-- Two computations agree: both yield something, and the results and the states they
leave are related, or both stop with the same error. -/
inductive Agree (R : α → α → LowerState → LowerState → Prop) (m m' : Lower α)
    (s s' : LowerState) : Prop where
  | both {a a' : α} {t t' : LowerState} (left : m s = .ok a t) (right : m' s' = .ok a' t')
      (related : R a a' t t') : Agree R m m' s s'
  | neither {e : LowerError} {t t' : LowerState} (left : m s = .error e t)
      (right : m' s' = .error e t') : Agree R m m' s s'

namespace Agree

variable {R : α → α → LowerState → LowerState → Prop}
  {Q : β → β → LowerState → LowerState → Prop}

theorem pure {a a' : α} (h : R a a' s s') : Agree R (Pure.pure a) (Pure.pure a') s s' :=
  .both rfl rfl h

theorem throw (e : LowerError) : Agree R (MonadExcept.throw e) (MonadExcept.throw e) s s' :=
  .neither rfl rfl

/-- Sequences agree if their first parts do, and their second parts wherever the first
ones lead. -/
theorem bind {m m' : Lower α} {k k' : α → Lower β} (hm : Agree R m m' s s')
    (hk : ∀ a a' t t', m s = .ok a t → m' s' = .ok a' t' → R a a' t t' →
      Agree Q (k a) (k' a') t t') : Agree Q (m >>= k) (m' >>= k') s s' := by
  cases hm with
  | @both a a' t t' left right related =>
      cases hk a a' t t' left right related with
      | both left' right' related' =>
          exact .both ((bind_of_ok left).trans left') ((bind_of_ok right).trans right') related'
      | neither left' right' =>
          exact .neither ((bind_of_ok left).trans left') ((bind_of_ok right).trans right')
  | neither left right => exact .neither (bind_of_error left) (bind_of_error right)

/-- Sequences agree if their first parts stop with the same error. -/
theorem bind_of_errors {m m' : Lower α} {k k' : α → Lower β} {e : LowerError}
    {t t' : LowerState} (hm : m s = .error e t) (hm' : m' s' = .error e t') :
    Agree Q (m >>= k) (m' >>= k') s s' :=
  .neither (bind_of_error hm) (bind_of_error hm')

theorem get_bind {k k' : LowerState → Lower β} (h : Agree Q (k s) (k' s') s s') :
    Agree Q ((get : Lower LowerState) >>= k) ((get : Lower LowerState) >>= k') s s' := by
  cases h with
  | both left right related => exact .both left right related
  | neither left right => exact .neither left right

end Agree

/-- What two computations are to agree in: the states that they leave are akin. -/
abbrev Alike (loose : String → Prop) (around around' : Surroundings) (own : Prototype)
    (α : Type) : α → α → LowerState → LowerState → Prop :=
  fun _ _ t t' => t.Akin loose around around' own t'

/-- Lowering an expression agrees in whatever akin states it starts. -/
def ExprAgrees (loose : String → Prop) (around around' : Surroundings) (own : Prototype)
    (e : Expr) : Prop :=
  ∀ s s', s.Akin loose around around' own s' →
    Agree (Alike loose around around' own Computed) (expr around e) (expr around' e) s s'

theorem build_agree (h : s.Akin loose around around' own s')
    {f f' : Code.Builder → α × Code.Builder}
    (hplain : s.builder.EmitsPlain (f s.builder).2)
    (hplain' : s'.builder.EmitsPlain (f' s'.builder).2)
    (hslots : (f' s'.builder).2.slots = (f s.builder).2.slots) :
    Agree (Alike loose around around' own α) (build f) (build f') s s' :=
  .both rfl rfl (h.plain hplain hplain' hslots)

theorem define_agree (h : s.Akin loose around around' own s')
    {operation operation' : Code.Operation}
    (hplain : operation.reaches = false) (hplain' : operation'.reaches = false) :
    Agree (Alike loose around around' own Code.ValueId) (define operation) (define operation')
      s s' :=
  build_agree h (.define operation hplain) (.define operation' hplain') h.slots

theorem emit_agree (h : s.Akin loose around around' own s')
    {operation operation' : Code.Operation}
    (hplain : operation.reaches = false) (hplain' : operation'.reaches = false) :
    Agree (Alike loose around around' own Computed) (emit operation) (emit operation') s s' :=
  (define_agree h hplain hplain').bind fun _ _ _ _ _ _ hs => .both rfl rfl hs

/-- A new slot has the same number in both states. -/
theorem newSlot_agree (h : s.Akin loose around around' own s') :
    Agree (fun slot slot' t t' => slot' = slot ∧ t.Akin loose around around' own t') newSlot
      newSlot s s' :=
  .both rfl rfl ⟨h.slots, h.plain .newSlot .newSlot (congrArg (· + 1) h.slots)⟩

theorem isTrue_agree (h : s.Akin loose around around' own s') (value value' : Code.ValueId) :
    Agree (Alike loose around around' own Code.ValueId) (isTrue value) (isTrue value') s s' :=
  (define_agree h rfl rfl).bind fun _ _ _ _ _ _ hs => define_agree hs rfl rfl

/-- A name has the same slot in both states, or is unknown in both. -/
theorem slotOf_agree (h : s.Akin loose around around' own s') (name : String) :
    Agree (fun slot slot' t t' => slot' = slot ∧ t.Akin loose around around' own t') (slotOf name)
      (slotOf name) s s' := by
  refine .get_bind ?_
  rw [h.scope]
  split
  · exact .both rfl rfl ⟨rfl, h⟩
  · exact .neither rfl rfl

theorem withBinding_agree (h : s.Akin loose around around' own s') {name : String}
    {slot : Code.SlotId} {inner inner' : Lower α}
    (hinner : Agree (Alike loose around around' own α) inner inner'
      (s.scoped (s.scope.bind name slot).1) (s'.scoped (s'.scope.bind name slot).1)) :
    Agree (Alike loose around around' own α) (withBinding name slot inner)
      (withBinding name slot inner') s s' := by
  cases hinner with
  | @both a a' t t' left right related =>
      refine .both (withBinding_ok.mpr ⟨t, left, rfl⟩) (withBinding_ok.mpr ⟨t', right, rfl⟩) ?_
      rw [related.scope, h.scope]
      exact related.rescope _
  | neither left right => exact .neither (withBinding_of_error left) (withBinding_of_error right)

/-- A jump leaves the block in which its value was computed. -/
theorem jumpWith_agree (h : s.Akin loose around around' own s') {computed computed' : Computed}
    (hblock : computed.block = s.builder.current) (hblock' : computed'.block = s'.builder.current)
    (target next target' next' : Code.BlockId) (params params' : List Code.ValueId) :
    Agree (Alike loose around around' own Unit) (jumpWith computed target next params)
      (jumpWith computed' target' next' params') s s' := by
  refine .get_bind ?_
  rw [if_pos hblock.symm, if_pos hblock'.symm]
  exact build_agree h (.enter _ _ _) (.enter _ _ _) h.slots

/-- The number of parameters of a callee is what is known of it. -/
theorem arity?_eq (h : s.unit.Declares around own) (callee : Callee) :
    arity? around callee s = .ok (around.arityOf? own callee) s := by
  refine (bind_of_ok (m := get) (a := s) rfl).trans ?_
  cases hdeclared : s.unit.declared? callee with
  | some found =>
      rw [h.callees callee found hdeclared]
      rfl
  | none =>
      have hne : own.callee ≠ callee := by
        rintro rfl
        have hitself := h.itself
        simp [hdeclared] at hitself
      rw [Surroundings.arityOf?, if_neg hne]
      rfl

theorem arity?_agree (haround : around.Akin loose around')
    (h : s.Akin loose around around' own s') (callee : Callee) :
    Agree (fun arity arity' t t' => arity' = arity ∧ t.Akin loose around around' own t')
      (arity? around callee) (arity? around' callee) s s' :=
  .both (arity?_eq h.tracked.listed.unit callee) (arity?_eq h.tracked'.listed.unit callee)
    ⟨haround.arityOf? own callee, h⟩

/-- There is a route to a callee in both states, or in neither. -/
theorem route?_agree (haround : around.Akin loose around')
    (hown : own.callee = .named own.callee.symbol) (h : s.Akin loose around around' own s')
    (callee : Callee) :
    Agree (fun route? route?' t t' => route?'.isSome = route?.isSome ∧
      t.Akin loose around around' own t') (route? around callee) (route? around' callee) s s' := by
  refine .get_bind ?_
  cases hkept : s.routes.find? callee with
  | some route =>
      cases hkept' : s'.routes.find? callee with
      | some route' => exact .both rfl rfl ⟨rfl, h⟩
      | none =>
          have hmet : callee ∈ s.routes.keys := Table.mem_keys_of_find? (by simp [hkept])
          exact absurd (h.met ▸ hmet) (Table.not_mem_keys hkept')
  | none =>
      have hnew := Table.not_mem_keys hkept
      have hkept' : s'.routes.find? callee = none := by
        by_contra hfound
        exact hnew (h.met ▸ Table.mem_keys_of_find? hfound)
      rw [hkept']
      have hverdict := findRoute_verdict haround.keyed callee s
      have hverdict' := findRoute_verdict haround.keyed' callee s'
      rw [haround.verdict hown h hnew] at hverdict'
      rcases hcase : verdict around callee s.unit with e | (_ | _)
      · rw [hcase] at hverdict hverdict'
        obtain ⟨t, ht⟩ := hverdict
        obtain ⟨t', ht'⟩ := hverdict'
        exact .bind_of_errors ht ht'
      · rw [hcase] at hverdict hverdict'
        refine .bind (R := fun found found' t t' => found = none ∧ found' = none ∧
          t.Akin loose around around' own t') (.both hverdict hverdict' ⟨rfl, rfl, h⟩) ?_
        rintro _ _ t t' - - ⟨rfl, rfl, ht⟩
        exact .both rfl rfl ⟨rfl, ht⟩
      · rw [hcase] at hverdict hverdict'
        obtain ⟨route, t, ht⟩ := hverdict
        obtain ⟨route', t', ht'⟩ := hverdict'
        have hfinds := haround.finds h hkept hkept' (finds_of_findRoute ht) (finds_of_findRoute ht')
        refine .bind (R := fun found found' u u' => found = some route ∧ found' = some route' ∧
          u = t ∧ u' = t') (.both ht ht' ⟨rfl, rfl, rfl, rfl⟩) ?_
        rintro _ _ _ _ - - ⟨rfl, rfl, rfl, rfl⟩
        exact .both rfl rfl ⟨rfl, hfinds⟩

theorem call_agree (h : s.Akin loose around around' own s') (route route' : Route)
    (args args' : List Code.ValueId) :
    Agree (Alike loose around around' own Computed) (call route args) (call route' args') s s' := by
  have hcall (s : LowerState) (route : Route) (args : List Code.ValueId) :
      ∃ (r : Computed) (b : Code.Builder), call route args s = .ok r (s.built b) ∧
        b.signatures = s.builder.signatures ∧ b.externals = s.builder.externals ∧
        b.slots = s.builder.slots := by
    cases route with
    | direct external => exact ⟨_, _, rfl, rfl, rfl, rfl⟩
    | throughCell symbol signature => exact ⟨_, _, rfl, rfl, rfl, rfl⟩
  obtain ⟨r, b, hr, hsignatures, hexternals, hslots⟩ := hcall s route args
  obtain ⟨r', b', hr', hsignatures', hexternals', hslots'⟩ := hcall s' route' args'
  refine .both hr hr' (h.built hsignatures hexternals hsignatures' hexternals' ?_)
  rw [hslots, hslots', h.slots]

theorem arguments_agree {args : List Expr}
    (hargs : ∀ arg ∈ args, ExprAgrees loose around around' own arg)
    (h : s.Akin loose around around' own s') :
    Agree (Alike loose around around' own (List Code.ValueId)) (arguments around args)
      (arguments around' args) s s' := by
  induction args generalizing s s' with
  | nil =>
      rw [arguments, arguments]
      exact .pure h
  | cons arg args ih =>
      obtain ⟨harg, hothers⟩ := List.forall_mem_cons.mp hargs
      rw [arguments, arguments]
      refine (harg _ _ h).bind fun _ _ t t' _ _ ht => ?_
      exact (ih hothers ht).bind fun _ _ _ _ _ _ hu => .pure hu

theorem valueOr_agree {otherwise : Float} {value? : Option Expr}
    (hvalue : ∀ value ∈ value?, ExprAgrees loose around around' own value)
    (h : s.Akin loose around around' own s') :
    Agree (Alike loose around around' own Code.ValueId) (valueOr around otherwise value?)
      (valueOr around' otherwise value?) s s' := by
  cases value? with
  | none =>
      rw [valueOr, valueOr]
      exact define_agree h rfl rfl
  | some value =>
      rw [valueOr, valueOr]
      exact (hvalue value rfl _ _ h).bind fun _ _ _ _ _ _ ht => .pure ht

theorem locals_agree {bindings : List (String × Option Expr)} {body : Expr}
    (hbindings : ∀ binding ∈ bindings, ∀ value ∈ binding.2,
      ExprAgrees loose around around' own value)
    (hbody : ExprAgrees loose around around' own body)
    (h : s.Akin loose around around' own s') :
    Agree (Alike loose around around' own Computed) (locals around (expr around body) bindings)
      (locals around' (expr around' body) bindings) s s' := by
  induction bindings generalizing s s' with
  | nil =>
      rw [locals, locals]
      exact hbody _ _ h
  | cons binding bindings ih =>
      obtain ⟨hbinding, hothers⟩ := List.forall_mem_cons.mp hbindings
      rw [locals, locals]
      refine (valueOr_agree hbinding h).bind fun value value' t t' _ _ ht => ?_
      refine (newSlot_agree ht).bind fun slot slot' u u' _ _ hu => ?_
      obtain ⟨rfl, hu⟩ := hu
      refine (build_agree hu (.storeSlot _ _) (.storeSlot _ _) hu.slots).bind
        fun _ _ v v' _ _ hv => ?_
      refine withBinding_agree hv (ih hothers ?_)
      rw [hv.scope]
      exact hv.rescope _

theorem cond_agree {condition thenBranch elseBranch : Expr}
    (hcondition : ExprAgrees loose around around' own condition)
    (hthen : ExprAgrees loose around around' own thenBranch)
    (helse : ExprAgrees loose around around' own elseBranch) :
    ExprAgrees loose around around' own (.cond condition thenBranch elseBranch) := by
  intro s s' h
  rw [expr, expr]
  refine (hcondition _ _ h).bind fun c c' s₁ s₁' _ _ h₁ => ?_
  refine (isTrue_agree h₁ _ _).bind fun truth truth' s₂ s₂' _ _ h₂ => ?_
  refine (build_agree h₂ .newBlock .newBlock h₂.slots).bind fun _ _ s₃ s₃' _ _ h₃ => ?_
  refine (build_agree h₃ .newBlock .newBlock h₃.slots).bind fun _ _ s₄ s₄' _ _ h₄ => ?_
  refine (build_agree h₄ .newBlock .newBlock h₄.slots).bind fun _ _ s₅ s₅' _ _ h₅ => ?_
  refine (build_agree h₅ .newParam .newParam h₅.slots).bind fun _ _ s₆ s₆' _ _ h₆ => ?_
  refine (build_agree h₆ (.enter _ _ _) (.enter _ _ _) h₆.slots).bind
    fun _ _ s₇ s₇' _ _ h₇ => ?_
  refine (hthen _ _ h₇).bind fun t t' s₈ s₈' ht ht' h₈ => ?_
  refine (jumpWith_agree h₈ (expr_block ht) (expr_block ht') _ _ _ _ _ _).bind
    fun _ _ s₉ s₉' _ _ h₉ => ?_
  refine (helse _ _ h₉).bind fun e e' s₁₀ s₁₀' he he' h₁₀ => ?_
  refine (jumpWith_agree h₁₀ (expr_block he) (expr_block he') _ _ _ _ _ _).bind
    fun _ _ s₁₁ s₁₁' _ _ h₁₁ => ?_
  exact .both rfl rfl h₁₁

theorem loop_agree {name : String} {start finish body : Expr} {step : Option Expr}
    (hstart : ExprAgrees loose around around' own start)
    (hfinish : ExprAgrees loose around around' own finish)
    (hstep : ∀ value ∈ step, ExprAgrees loose around around' own value)
    (hbody : ExprAgrees loose around around' own body) :
    ExprAgrees loose around around' own (.loop name start finish step body) := by
  intro s s' h
  rw [expr, expr]
  refine (newSlot_agree h).bind fun slot slot' s₁ s₁' _ _ h₁ => ?_
  obtain ⟨rfl, h₁⟩ := h₁
  refine (hstart _ _ h₁).bind fun first first' s₂ s₂' _ _ h₂ => ?_
  refine (build_agree h₂ (.storeSlot _ _) (.storeSlot _ _) h₂.slots).bind
    fun _ _ s₃ s₃' _ _ h₃ => ?_
  refine (build_agree h₃ .newBlock .newBlock h₃.slots).bind fun _ _ s₄ s₄' _ _ h₄ => ?_
  refine (build_agree h₄ (.enter _ _ _) (.enter _ _ _) h₄.slots).bind
    fun _ _ s₅ s₅' _ _ h₅ => ?_
  refine (withBinding_agree (α := Unit) h₅ ?_).bind fun _ _ s₆ s₆' _ _ h₆ =>
    emit_agree h₆ rfl rfl
  have hbound : (s₅.scoped (s₅.scope.bind name slot').1).Akin loose around around' own
      (s₅'.scoped (s₅'.scope.bind name slot').1) := by
    rw [h₅.scope]
    exact h₅.rescope _
  refine (hbody _ _ hbound).bind fun _ _ s₆ s₆' _ _ h₆ => ?_
  refine (valueOr_agree hstep h₆).bind fun _ _ s₇ s₇' _ _ h₇ => ?_
  refine (hfinish _ _ h₇).bind fun _ _ s₈ s₈' _ _ h₈ => ?_
  refine (define_agree h₈ rfl rfl).bind fun _ _ s₉ s₉' _ _ h₉ => ?_
  refine (define_agree h₉ rfl rfl).bind fun _ _ s₁₀ s₁₀' _ _ h₁₀ => ?_
  refine (build_agree h₁₀ (.storeSlot _ _) (.storeSlot _ _) h₁₀.slots).bind
    fun _ _ s₁₁ s₁₁' _ _ h₁₁ => ?_
  refine (isTrue_agree h₁₁ _ _).bind fun _ _ s₁₂ s₁₂' _ _ h₁₂ => ?_
  refine (build_agree h₁₂ .newBlock .newBlock h₁₂.slots).bind fun _ _ s₁₃ s₁₃' _ _ h₁₃ => ?_
  exact build_agree h₁₃ (.enter _ _ _) (.enter _ _ _) h₁₃.slots

section Expressions

variable (haround : around.Akin loose around') (hown : own.callee = .named own.callee.symbol)

include haround hown

theorem callOrThrow_agree (h : s.Akin loose around around' own s') (callee : Callee)
    (missing : LowerError) (args args' : List Code.ValueId) :
    Agree (Alike loose around around' own Computed) (callOrThrow around callee missing args)
      (callOrThrow around' callee missing args') s s' := by
  refine (route?_agree haround hown h callee).bind fun route? route?' t t' _ _ hroutes => ?_
  obtain ⟨hsome, ht⟩ := hroutes
  cases route? with
  | none =>
      obtain rfl : route?' = none := Option.not_isSome_iff_eq_none.mp (by simp [hsome])
      exact .throw missing
  | some route =>
      obtain ⟨route', rfl⟩ := Option.isSome_iff_exists.mp (hsome.trans rfl)
      exact call_agree ht route route' args args'

theorem infixOperator_agree (h : s.Akin loose around around' own s') (op : Char)
    (left left' right right' : Code.ValueId) :
    Agree (Alike loose around around' own Computed) (infixOperator around op left right)
      (infixOperator around' op left' right') s s' := by
  unfold infixOperator
  split
  · exact emit_agree h rfl rfl
  · exact emit_agree h rfl rfl
  · exact emit_agree h rfl rfl
  · refine (define_agree h rfl rfl).bind fun _ _ t t' _ _ ht => ?_
    exact (define_agree ht rfl rfl).bind fun _ _ _ _ _ _ hu => emit_agree hu rfl rfl
  · exact callOrThrow_agree haround hown h _ _ _ _

/-- **Lowering an expression agrees** in akin surroundings. -/
theorem expr_agree (e : Expr) : ExprAgrees loose around around' own e := by
  induction e using Expr.induction with
  | number value =>
      intro s s' h
      rw [expr, expr]
      exact emit_agree h rfl rfl
  | var name =>
      intro s s' h
      rw [expr, expr]
      refine (slotOf_agree h name).bind fun slot slot' t t' _ _ ht => ?_
      exact emit_agree ht.2 rfl rfl
  | unary op operand ih =>
      intro s s' h
      rw [expr, expr]
      refine (ih _ _ h).bind fun value value' t t' _ _ ht => ?_
      exact callOrThrow_agree haround hown ht _ _ _ _
  | binary op left right ihl ihr =>
      intro s s' h
      by_cases hassign : op = '='
      · subst hassign
        cases left with
        | var name =>
            simp only [expr, if_true]
            refine (ihr _ _ h).bind fun value value' t t' _ _ ht => ?_
            refine (slotOf_agree ht name).bind fun slot slot' u u' _ _ hu => ?_
            obtain ⟨rfl, hu⟩ := hu
            exact (build_agree hu (.storeSlot _ _) (.storeSlot _ _) hu.slots).bind
              fun _ _ _ _ _ _ hv => .pure hv
        | _ =>
            simp only [expr, if_true]
            exact .throw _
      · simp only [expr, if_neg hassign]
        refine (ihl _ _ h).bind fun lhs lhs' t t' _ _ ht => ?_
        refine (ihr _ _ ht).bind fun rhs rhs' u u' _ _ hu => ?_
        exact infixOperator_agree haround hown hu op _ _ _ _
  | call name args ih =>
      intro s s' h
      rw [expr, expr]
      refine (arity?_agree haround h _).bind fun arity arity' t t' _ _ ht => ?_
      obtain ⟨rfl, ht⟩ := ht
      split
      · exact .throw _
      · split
        · refine (arguments_agree ih ht).bind fun vs vs' u u' _ _ hu => ?_
          exact callOrThrow_agree haround hown hu _ _ _ _
        · exact .throw _
  | cond condition thenBranch elseBranch ihc iht ihe => exact cond_agree ihc iht ihe
  | loop name start finish step body ihs ihf ihstep ihb => exact loop_agree ihs ihf ihstep ihb
  | locals bindings body ihbindings ihbody =>
      intro s s' h
      rw [expr, expr]
      exact locals_agree ihbindings ihbody h

end Expressions

/-- Keeping parameters in slots does not depend on the surroundings. -/
theorem parameters_tracked (h : s.Tracked around own) {first : Code.ValueId}
    {names : List String} {u : Unit} {t : LowerState}
    (hparams : parameters first names s = .ok u t) : t.Tracked around own := by
  obtain ⟨hunit, hroutes⟩ := parameters_unit hparams
  refine ⟨(parameters_calls h.listed hparams).1.listed, ?_⟩
  rw [hunit, hroutes]
  exact h.declared

/-- A fresh unit declares the function itself and nothing else. -/
theorem tracked_start (around : Surroundings) {p : Prototype} {declared : Declared}
    {unit : CompilationUnit}
    (h : CompilationUnit.empty.declareDefinition p = .ok (declared, unit)) :
    (LowerState.start unit p.arity).Tracked around p := by
  refine ⟨(listed_start around h).1, fun callee hcallee => ?_⟩
  change (unit.declared? callee).isSome = true at hcallee
  rw [CompilationUnit.declared?_declareCallee h] at hcallee
  split at hcallee
  · next heq => exact Or.inl heq
  · cases hcallee

end Lower

end Reckon
