import Reckon.Proofs.Link.Coherence
import Reckon.Proofs.Lowering.WellFormed

/-!
# How calls are bound

When a function is compiled, each of its calls is bound in one of two ways: to the
code at an address, once and for all, or to the cell of a symbol, which is read when
the call is executed.  Which of them it is follows from what the linker knows of the
callee at that moment (`Linker.bond`), and the calls of the code are bound as the
callees of the body are, one after the other (`compile_bonds`).
-/

namespace Reckon

/-- How a call is bound to what it calls. -/
inductive Bond where
  /-- To the code at an address. -/
  | fixed (address : Address)
  /-- To whatever the cell of a symbol holds at the time of the call. -/
  | late (symbol : String)
deriving Repr, DecidableEq

/-- How a callee is bound in the function that becomes the next unit.  A function is
bound to itself, also under another callee of the same symbol if that has an address,
because a unit declares a symbol only once. -/
def Linker.bond (l : Linker) (own : Prototype) (callee : Callee) : Bond :=
  if own.callee = callee then .fixed (.unit l.unitCount)
  else
    match l.address? callee.symbol with
    | none => .late callee.symbol
    | some address =>
      .fixed (if own.callee.symbol = callee.symbol then .unit l.unitCount else address)

/-- An instruction of a unit is a call that is bound in some way. -/
inductive LinkedUnit.Calls (u : LinkedUnit) : Code.Instruction → Bond → Prop where
  | direct {v : Code.ValueId} {external : Nat} {args : List Code.ValueId} {e : Code.External}
      {address : Address} (hexternal : u.procedure.externals[external]? = some e)
      (htarget : u.targets[e.declaration]? = some address) :
      Calls u (.define v (.call external args)) (.fixed address)
  | through {v code cell : Code.ValueId} {signature : Nat} {args : List Code.ValueId}
      {symbol : String} (hload : .define code (.loadCell cell) ∈ u.procedure.instructions)
      (hcell : .define cell (.cell symbol) ∈ u.procedure.instructions) :
      Calls u (.define v (.callThrough signature code args)) (.late symbol)

namespace LowerState

/-- What has been declared and met is reached in the way in which it is bound: directly
if it is the function itself or has an address, and through its cell if not. -/
structure Bonded (l : Linker) (own : Prototype) (s : LowerState) : Prop where
  itself : (s.unit.declared? own.callee).isSome
  symbol : ∃ d ∈ s.unit.declarations, d.symbol = own.callee.symbol
  declarations : ∀ d ∈ s.unit.declarations,
    (d.symbol = own.callee.symbol ∧ d.binding = .own) ∨
      (d.symbol ≠ own.callee.symbol ∧ ∃ address, d.binding = .imported address ∧
        l.address? d.symbol = some address)
  callees : ∀ callee, (s.unit.declared? callee).isSome →
    own.callee = callee ∨ l.isLinked callee.symbol = true
  direct : ∀ callee external, s.routes.find? callee = some (.direct external) →
    own.callee = callee ∨ l.isLinked callee.symbol = true
  throughCell : ∀ callee symbol signature,
    s.routes.find? callee = some (.throughCell symbol signature) →
      own.callee ≠ callee ∧ l.address? callee.symbol = none

namespace Bonded

variable {l : Linker} {own : Prototype} {s s' : LowerState} {callee : Callee} {route : Route}

theorem of_same (h : s.Bonded l own) (hunit : s'.unit = s.unit) (hroutes : s'.routes = s.routes) :
    s'.Bonded l own := by
  refine ⟨?_, ?_, ?_, ?_, ?_, ?_⟩
  · exact hunit ▸ h.itself
  · exact hunit ▸ h.symbol
  · exact hunit ▸ h.declarations
  · exact hunit ▸ h.callees
  · exact hroutes ▸ h.direct
  · exact hroutes ▸ h.throughCell

/-- A route to a callee may be added that reaches it in the way in which it is bound. -/
theorem insert (h : s.Bonded l own)
    (hdirect : ∀ external, route = .direct external →
      own.callee = callee ∨ l.isLinked callee.symbol = true)
    (hthrough : ∀ symbol signature, route = .throughCell symbol signature →
      own.callee ≠ callee ∧ l.address? callee.symbol = none) :
    Bonded l own { s with routes := s.routes.insert callee route } := by
  refine ⟨h.itself, h.symbol, h.declarations, h.callees, ?_, ?_⟩
  · intro other external hfound
    rw [Table.find?_insert] at hfound
    split at hfound
    · next heq => exact heq ▸ hdirect external (Option.some.inj hfound)
    · exact h.direct other external hfound
  · intro other symbol signature hfound
    rw [Table.find?_insert] at hfound
    split at hfound
    · next heq => exact heq ▸ hthrough symbol signature (Option.some.inj hfound)
    · exact h.throughCell other symbol signature hfound

/-- A unit may declare a callee that has an address. -/
theorem declareImport {p : Prototype} {address : Address} {found : Declared}
    {unit : CompilationUnit} (h : s.Bonded l own)
    (haddress : l.address? p.callee.symbol = some address)
    (himport : s.unit.declareImport p address = .ok (found, unit)) :
    Bonded l own { s with unit := unit } := by
  obtain ⟨u, hcallee, rfl⟩ := CompilationUnit.declareImport_ok himport
  have hdeclared := CompilationUnit.declared?_declareCallee hcallee
  obtain ⟨itself, hitself, hsymbol⟩ := h.symbol
  refine ⟨?_, ?_, ?_, ?_, h.direct, h.throughCell⟩
  · simp only [CompilationUnit.declared?_refer, hdeclared]
    split
    · rfl
    · exact h.itself
  · rw [CompilationUnit.refer_declarations]
    exact ⟨itself, (CompilationUnit.declareCallee_extends hcallee).subset hitself, hsymbol⟩
  · intro d hd
    rw [CompilationUnit.refer_declarations] at hd
    by_cases hold : d ∈ s.unit.declarations
    · exact h.declarations d hold
    · have hfresh := CompilationUnit.declareCallee_fresh hcallee hd hold itself hitself
      rcases CompilationUnit.mem_declareCallee hcallee hd with hmem | rfl
      · exact absurd hmem hold
      · exact Or.inr ⟨fun heq => hfresh (hsymbol.trans heq.symm), address, rfl, haddress⟩
  · intro other hother
    simp only [CompilationUnit.declared?_refer, hdeclared] at hother
    split at hother
    · next heq => exact Or.inr (heq ▸ Linker.isLinked_eq_true.mpr ⟨address, haddress⟩)
    · exact h.callees other hother

theorem refer (h : s.Bonded l own) (symbol : String) :
    Bonded l own { s with unit := s.unit.refer symbol } := by
  refine ⟨?_, ?_, ?_, ?_, h.direct, h.throughCell⟩
  · simpa only [CompilationUnit.declared?_refer] using h.itself
  · simpa only [CompilationUnit.refer_declarations] using h.symbol
  · simpa only [CompilationUnit.refer_declarations] using h.declarations
  · simpa only [CompilationUnit.declared?_refer] using h.callees

end Bonded

end LowerState

namespace Lower

variable {around : Surroundings} {own : Prototype} {s s' : LowerState} {callee : Callee}
  {route : Route}

/-- A route that is found reaches its callee in the way in which it is bound. -/
theorem Finds.bonded (hkeyed : around.registry.Keyed) (h : Finds around callee s route s')
    (hbonded : s.Bonded around.linker own) :
    LowerState.Bonded around.linker own { s' with routes := s'.routes.insert callee route } := by
  cases h with
  | @declared found hfound =>
      have hsame : (s.built (s.builder.newExternal found.declaration found.arity
          (s.unit.isOwn found.declaration)).2).Bonded around.linker own :=
        hbonded.of_same rfl rfl
      exact hsame.insert (fun _ _ => hbonded.callees callee (by rw [hfound]; rfl))
        fun _ _ heq => by cases heq
  | @imported p address found unit hnew hknown haddress himport =>
      obtain rfl := hkeyed _ _ hknown
      have hdeclared : LowerState.Bonded around.linker own
          { s with unit := unit
                   builder := (s.builder.newExternal found.declaration found.arity
                     (unit.isOwn found.declaration)).2 } :=
        (hbonded.declareImport haddress himport).of_same rfl rfl
      exact hdeclared.insert
        (fun _ _ => Or.inr (Linker.isLinked_eq_true.mpr ⟨address, haddress⟩))
        fun _ _ heq => by cases heq
  | @throughCell p hnew hknown haddress hcell =>
      have hreferred : LowerState.Bonded around.linker own
          { s with unit := s.unit.refer callee.symbol
                   builder := (s.builder.newSignature p.arity).2 } :=
        (hbonded.refer callee.symbol).of_same rfl rfl
      refine hreferred.insert (fun _ heq => by cases heq) fun _ _ _ => ⟨?_, haddress⟩
      rintro rfl
      have hitself := hbonded.itself
      simp [hnew] at hitself

/-- Lowering reaches every callee in the way in which it is bound. -/
theorem respected_bonded (hkeyed : around.registry.Keyed) :
    Respected around fun s s' => s.Bonded around.linker own → s'.Bonded around.linker own := by
  apply Respected.of_emits
  case refl => exact fun _ h => h
  case trans => exact fun h h' hbonded => h' (h hbonded)
  case emits => exact fun _ h => h.of_same rfl rfl
  case finds => exact fun _ hfinds h => hfinds.bonded hkeyed h
  case binds =>
    intro s s' name slot hinner h
    exact (hinner (h.of_same rfl rfl)).of_same rfl rfl

/-- A call that has been emitted is bound as its callee is. -/
theorem calls_of_reaches {c : Compilation} (hbonded : s.Bonded around.linker own)
    (hnamed : s.Named) (hexternals : c.procedure.externals = s.builder.externals.toList)
    (hunit : c.unit = s.unit) (hinstructions : c.procedure.instructions = s.builder.instructions)
    {instruction : Code.Instruction} (h : s.Reaches around own instruction callee) :
    (around.linker.unitOf c).Calls instruction (around.linker.bond own callee) := by
  unfold LowerState.Reaches at h
  split at h
  · next v external args =>
      obtain ⟨hroute, -⟩ := h
      obtain ⟨e, d, he, hd, hsymbol⟩ := hnamed.routes callee _ hroute
      have hexternal : c.procedure.externals[external]? = some e := hexternals ▸ he
      rcases hbonded.declarations d (List.mem_of_getElem? hd) with
        ⟨hitself, hown⟩ | ⟨hother, address, himported, haddress⟩
      · -- the function itself, or a callee that has its symbol
        have hbond : around.linker.bond own callee = .fixed (.unit around.linker.units.size) := by
          unfold Linker.bond
          split
          · rfl
          · next hne =>
              obtain ⟨address, haddress⟩ := Linker.isLinked_eq_true.mp
                ((hbonded.direct callee external hroute).resolve_left hne)
              rw [haddress]
              dsimp only
              rw [if_pos (hitself.symm.trans hsymbol)]
              rfl
        rw [hbond]
        exact .direct hexternal (by simp [Linker.unitOf, hunit, hd, hown])
      · have hbond : around.linker.bond own callee = .fixed address := by
          rw [hsymbol] at hother haddress
          have hne : own.callee ≠ callee := fun heq => hother (congrArg Callee.symbol heq.symm)
          rw [Linker.bond, if_neg hne, haddress]
          dsimp only
          rw [if_neg (Ne.symm hother)]
        rw [hbond]
        exact .direct hexternal (by simp [Linker.unitOf, hunit, hd, himported])
  · next v signature code args =>
      obtain ⟨hroute, -, cell, hload, hcell⟩ := h
      obtain ⟨hne, haddress⟩ := hbonded.throughCell callee _ _ hroute
      have hbond : around.linker.bond own callee = .late callee.symbol := by
        rw [Linker.bond, if_neg hne, haddress]
      rw [hbond]
      exact .through (hinstructions ▸ hload) (hinstructions ▸ hcell)
  · exact h.elim

end Lower

namespace Lower

/-- Lowering a function reaches everything in the way in which it is bound. -/
theorem function_bonded {around : Surroundings} (hkeyed : around.registry.Keyed) {f : Function}
    {declared : Declared} {unit : CompilationUnit} {r : Computed} {s : LowerState}
    (hdeclare : CompilationUnit.empty.declareDefinition f.prototype = .ok (declared, unit))
    (h : function around f (.start unit f.prototype.arity) = .ok r s) :
    s.Bonded around.linker f.prototype := by
  obtain ⟨s₁, hparams, hbody⟩ := function_ok.mp h
  obtain ⟨hunit, hroutes⟩ := parameters_unit hparams
  have hdeclared := CompilationUnit.declared?_declareCallee hdeclare
  have hitself : (unit.declared? f.prototype.callee).isSome := by
    rw [hdeclared, if_pos rfl]
    rfl
  have hstart : s₁.Bonded around.linker f.prototype := by
    refine ⟨hunit ▸ hitself, ?_, fun d hd => ?_, fun callee hcallee => ?_,
      fun callee external hroute => ?_, fun callee symbol signature hroute => ?_⟩
    · obtain ⟨d, hd, hsymbol⟩ := CompilationUnit.declareCallee_symbol hdeclare
      exact ⟨d, hunit ▸ List.mem_of_getElem? hd, hsymbol⟩
    · rw [hunit] at hd
      rcases CompilationUnit.mem_declareCallee hdeclare hd with hnone | rfl
      · cases hnone
      · exact Or.inl ⟨rfl, rfl⟩
    · rw [hunit] at hcallee
      change (unit.declared? callee).isSome = true at hcallee
      rw [hdeclared] at hcallee
      split at hcallee
      · next heq => exact Or.inl heq
      · cases hcallee
    · rw [hroutes] at hroute
      cases hroute
    · rw [hroutes] at hroute
      cases hroute
  exact (respected_bonded hkeyed).expr f.body hbody hstart

end Lower

/-- **The calls of compiled code are bound as the callees of its body**, one call for
each of them and in their order. -/
theorem compile_bonds {around : Surroundings} (hkeyed : around.registry.Keyed) {f : Function}
    {c : Compilation} (h : around.compile f = .ok c) :
    List.Forall₂ (around.linker.unitOf c).Calls c.procedure.calls
      (f.body.callees.map (around.linker.bond f.prototype)) := by
  obtain ⟨declared, unit, r, s, hdeclare, hfunction, rfl, -⟩ := Surroundings.compile_ok.mp h
  have hbonded := Lower.function_bonded hkeyed hdeclare hfunction
  obtain ⟨hcalls, hnamed⟩ := Lower.function_calls hkeyed hdeclare hfunction
  obtain ⟨new, hnew, hreaches⟩ := hcalls.calls
  have hinstructions := s.builder.instructions_finish f.prototype.callee.symbol
    f.prototype.arity (.leave r.value)
  have hsame : Code.Procedure.calls (s.builder.finish f.prototype.callee.symbol
      f.prototype.arity (.leave r.value)) = new := by
    rw [Code.Procedure.calls, hinstructions]
    exact hnew
  rw [hsame, List.forall₂_map_right_iff]
  exact hreaches.imp fun _ _ hr => Lower.calls_of_reaches hbonded hnamed rfl rfl hinstructions hr

/-- A unit declares its own function, and functions of other symbols that had an
address. -/
theorem compile_declarations {around : Surroundings} (hkeyed : around.registry.Keyed)
    {f : Function} {c : Compilation} (h : around.compile f = .ok c) :
    ∀ d ∈ c.unit.declarations,
      (d.symbol = f.prototype.callee.symbol ∧ d.binding = .own) ∨
        (d.symbol ≠ f.prototype.callee.symbol ∧ ∃ address, d.binding = .imported address ∧
          around.linker.address? d.symbol = some address) := by
  obtain ⟨declared, unit, r, s, hdeclare, hfunction, rfl, -⟩ := Surroundings.compile_ok.mp h
  exact (Lower.function_bonded hkeyed hdeclare hfunction).declarations

/-- Compiled code defines every value once. -/
theorem compile_definitions {around : Surroundings} {f : Function} {c : Compilation}
    (h : around.compile f = .ok c) : c.procedure.definitions.Nodup := by
  obtain ⟨declared, unit, r, s, hdeclare, hfunction, rfl, -⟩ := Surroundings.compile_ok.mp h
  rw [Code.Builder.definitions_finish]
  exact (Lower.function_entered hdeclare hfunction).2.nodup_iff.mpr List.nodup_range

end Reckon
