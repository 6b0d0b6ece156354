import Reckon.Proofs.Lowering.Akin

/-!
# Compiling in akin surroundings

The check of compiled code can only find fault with the number of arguments of a call,
and that is settled by the callee (`Lower.function_check`).  So a function compiles in
the same way in surroundings that differ only in which of some declared functions have
been linked: to code that refers to the same symbols, or to the same error
(`Surroundings.Akin.compile`).
-/

namespace Reckon

namespace Surroundings

/-- What checking a call of a callee comes to. -/
def checkCall (around : Surroundings) (own : Prototype) (callee : Callee) :
    Except Code.Fault Unit :=
  match around.arityOf? own callee, around.passed? own callee with
  | some arity, some passed =>
    if arity = passed then .ok () else .error (.argumentCount arity passed)
  | _, _ => .ok ()

end Surroundings

namespace Lower

variable {around : Surroundings} {f : Function} {unit : CompilationUnit} {s : LowerState}
  {r : Computed}

/-- **Checking compiled code is checking the calls of its callees**, one after the other:
everything else about it passes the check. -/
theorem function_check {declared : Declared} (hkeyed : around.registry.Keyed)
    (hdeclare : CompilationUnit.empty.declareDefinition f.prototype = .ok (declared, unit))
    (h : function around f (.start unit f.prototype.arity) = .ok r s) (symbol : String) :
    (s.builder.finish symbol f.prototype.arity (.leave r.value)).check =
      forM f.body.callees (around.checkCall f.prototype) := by
  let p := s.builder.finish symbol f.prototype.arity (.leave r.value)
  have hcalls := (function_calls hkeyed hdeclare h).1
  have hlisted := hcalls.listed
  -- the signature of a route has as many parameters as the callee
  have hsignature {callee : Callee} {route : Route} {signature passed : Nat}
      (hentry : s.routes.entries[signature]? = some (callee, route))
      (hpassed : around.passed? f.prototype callee = some passed) :
      p.checkSignature signature passed = around.checkCall f.prototype callee := by
    have hmet : callee ∈ s.routes.keys :=
      List.mem_of_getElem? (LowerState.Listed.getElem?_keys hentry)
    obtain ⟨n, hn⟩ := hlisted.known hmet
    have hfound : p.signatures[signature]? = some n := signature_of_uses hlisted hentry hn
    simp only [Code.Procedure.checkSignature, hfound, Surroundings.checkCall, hn, hpassed]
  have hcheck {instruction : Code.Instruction} {callee : Callee}
      (hreaches : s.Reaches around f.prototype instruction callee) :
      p.checkInstruction instruction = around.checkCall f.prototype callee := by
    unfold LowerState.Reaches at hreaches
    split at hreaches
    · next v external args =>
        obtain ⟨hroute, hpassed⟩ := hreaches
        obtain ⟨i, hi, e, he, rfl⟩ := hlisted.uses hroute
        have hexternal : p.externals[external]? = some e := he
        simp only [Code.Procedure.checkInstruction, Code.Procedure.checkOperation, hexternal]
        exact hsignature hi hpassed
    · next v signature code args =>
        obtain ⟨hroute, hpassed, -⟩ := hreaches
        obtain ⟨i, hi, -, rfl⟩ := hlisted.uses hroute
        exact hsignature hi hpassed
    · exact hreaches.elim
  obtain ⟨new, hnew, hreaches⟩ := hcalls.calls
  have hsame : p.calls = new := by
    rw [Code.Procedure.calls, s.builder.instructions_finish]
    exact hnew
  have htargeted : p.Targeted := (function_targeted hdeclare h symbol).2
  change p.check = _
  rw [htargeted.check, hsame]
  clear hnew hsame
  generalize f.body.callees = callees at hreaches
  induction hreaches with
  | nil => rfl
  | cons hfirst _ ih => rw [List.forM_cons, List.forM_cons, hcheck hfirst, ih]

end Lower

theorem Surroundings.Akin.checkCall {around around' : Surroundings} {loose : String → Prop}
    (h : around.Akin loose around') (own : Prototype) :
    around'.checkCall own = around.checkCall own := by
  funext callee
  rw [Surroundings.checkCall, Surroundings.checkCall, Surroundings.passed?,
    Surroundings.passed?, h.arityOf?]

/-- Compiling a function is lowering it and checking the code. -/
theorem Surroundings.compile_eq {around : Surroundings} {f : Function} {declared : Declared}
    {unit : CompilationUnit}
    (hdeclare : CompilationUnit.empty.declareDefinition f.prototype = .ok (declared, unit)) :
    around.compile f =
      match Lower.function around f (.start unit f.prototype.arity) with
      | .error e _ => .error e
      | .ok r s =>
        match (s.builder.finish f.prototype.callee.symbol f.prototype.arity
          (.leave r.value)).check with
        | .error fault => .error (.faultyCode fault)
        | .ok _ => .ok ⟨f.prototype, s.builder.finish f.prototype.callee.symbol
            f.prototype.arity (.leave r.value), s.unit⟩ := by
  simp only [Surroundings.compile, hdeclare, Except.mapError, bind, Except.bind]
  cases Lower.function around f (.start unit f.prototype.arity) with
  | error e s => rfl
  | ok r s =>
      dsimp only
      cases (s.builder.finish f.prototype.callee.symbol f.prototype.arity
        (.leave r.value)).check <;> rfl

/-- **A function compiles in the same way in akin surroundings**: to code that refers to
the same symbols, or to the same error. -/
theorem Surroundings.Akin.compile {around around' : Surroundings} {loose : String → Prop}
    {f : Function} (h : around.Akin loose around') (hkind : f.prototype.kind = .function) :
    (∃ c c', around.compile f = .ok c ∧ around'.compile f = .ok c' ∧
      c'.unit.references = c.unit.references) ∨
      ∃ e, around.compile f = .error e ∧ around'.compile f = .error e := by
  have hcallee : f.prototype.callee = .named f.prototype.callee.symbol := by
    rw [Prototype.callee, hkind]
    rfl
  obtain ⟨declared, unit, hdeclare⟩ := CompilationUnit.declareDefinition_empty f.prototype
  have htracked (around : Surroundings) := Lower.tracked_start around hdeclare
  have hagree : Lower.Agree (Lower.Alike loose around around' f.prototype Computed)
      (Lower.function around f) (Lower.function around' f) (.start unit f.prototype.arity)
      (.start unit f.prototype.arity) := by
    cases hparams : Lower.parameters 0 f.prototype.params (.start unit f.prototype.arity) with
    | error e s =>
        exact .bind_of_errors hparams hparams
    | ok u s =>
        refine .bind (R := fun _ _ t t' => t = s ∧ t' = s) (.both hparams hparams ⟨rfl, rfl⟩) ?_
        rintro _ _ _ _ - - ⟨rfl, rfl⟩
        exact Lower.expr_agree h hcallee f.body _ _
          ⟨Lower.parameters_tracked (htracked around) hparams,
            Lower.parameters_tracked (htracked around') hparams, rfl, rfl, rfl, rfl,
            fun _ _ => rfl⟩
  rw [compile_eq hdeclare, compile_eq hdeclare]
  cases hagree with
  | @both r r' s s' hlower hlower' hs =>
      have hcheck := Lower.function_check h.keyed hdeclare hlower f.prototype.callee.symbol
      have hcheck' := Lower.function_check h.keyed' hdeclare hlower' f.prototype.callee.symbol
      rw [h.checkCall, ← hcheck] at hcheck'
      simp only [hlower, hlower', hcheck']
      cases (s.builder.finish f.prototype.callee.symbol f.prototype.arity
          (.leave r.value)).check with
      | error fault => exact Or.inr ⟨_, rfl, rfl⟩
      | ok _ => exact Or.inl ⟨_, _, rfl, rfl, hs.references⟩
  | @neither e s s' hlower hlower' =>
      simp only [hlower, hlower']
      exact Or.inr ⟨e, rfl, rfl⟩

end Reckon
