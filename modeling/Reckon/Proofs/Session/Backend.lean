import Reckon.Proofs.Session.Forms

/-!
# Forms over a code generator that can fail

A session hands what it compiles to a code generator.  The generator can reject
a compiled function, and making a unit executable can fail as well.  A definition
is announced by then: a rejected function is retracted like one that does not
compile, but a definition that cannot be made executable stays announced
(`Session.defineOver`).  The session relies on this not happening.  A generator
makes a unit executable if everything that the unit imports has an address
(`Backend.Finalizes`), and everything has.

Over a generator that never fails, a form does what `Session.handle` says
(`Session.handleOver_reliable`).
-/

namespace Reckon

/-- A code generator.  It can reject a compiled function, and fail to make a
unit executable. -/
structure Backend (ε : Type) where
  reject? : Compilation → Option ε
  finalize? : Linker → Compilation → Option ε

/-- Why a form is rejected: for a reason of the session, or by the generator. -/
inductive Rejection (ε : Type) where
  | form (problem : FormError)
  | backend (problem : ε)

/-- What came of a form over a generator, and the text that running it wrote. -/
structure BackendResponse (ε : Type) where
  outcome : Except (Rejection ε) Outcome
  output : String

/-- An answer for reasons of the session only. -/
def Response.over (ε : Type) (r : Response) : BackendResponse ε :=
  ⟨r.outcome.mapError .form, r.output⟩

/-- Everything that the unit of a compilation imports has an address. -/
def Compilation.Importable (c : Compilation) (l : Linker) : Prop :=
  ∀ d ∈ c.unit.declarations, d.binding = .own ∨
    ∃ address, d.binding = .imported address ∧ l.address? d.symbol = some address

/-- A generator makes a unit executable if its imports have addresses. -/
def Backend.Finalizes {ε : Type} (backend : Backend ε) : Prop :=
  ∀ l c, c.Importable l → backend.finalize? l c = none

namespace Session

variable {ε : Type} (backend : Backend ε) {s : Session}

/-- Compile a function and hand it to the generator, leaving it announced if
that succeeds. -/
def compileOver (s : Session) (f : Function) :
    Session × Except (Rejection ε) Compilation :=
  let (announced, displaced) := s.announce f.prototype
  match announced.surroundings.compile f with
  | .error e => (announced.retract f.prototype displaced, .error (.form (.lowerError e)))
  | .ok compiled =>
    match backend.reject? compiled with
    | some e => (announced.retract f.prototype displaced, .error (.backend e))
    | none => (announced, .ok compiled)

/-- Compile and link a definition. -/
def defineOver (s : Session) (f : Function) : Session × BackendResponse ε :=
  match s.compileOver backend f with
  | (s, .error e) => (s, ⟨.error e, ""⟩)
  | (s, .ok compiled) =>
    match backend.finalize? s.linker compiled with
    | some e => (s, ⟨.error (.backend e), ""⟩)
    | none =>
      ({ s with linker := s.linker.link compiled },
        ⟨.ok (.defined f.prototype compiled.procedure.listing), ""⟩)

/-- Evaluate an expression, if all the code it could reach is there. -/
def evaluateOver (s : Session) (limit : Nat) (body : Expr) : Session × BackendResponse ε :=
  match s.compileOver backend ⟨.anonymous, body⟩ with
  | (s, .error e) => (s, ⟨.error e, ""⟩)
  | (s, .ok compiled) =>
    match s.linker.unresolved? compiled.unit with
    | some symbol => (s, ⟨.error (.form (.lowerError (.unresolvedSymbol symbol))), ""⟩)
    | none =>
      match backend.finalize? s.linker compiled with
      | some e => (s, ⟨.error (.backend e), ""⟩)
      | none => (s, (s.runOnce limit compiled).over ε)

/-- Deal with a form. -/
def handleOver (s : Session) (limit : Nat) : Item → Session × BackendResponse ε
  | .definition f => s.defineOver backend f
  | .declaration p => ((s.declare p).1, (s.declare p).2.over ε)
  | .expression body => s.evaluateOver backend limit body

variable {backend}

/-- Compiling leaves a function announced, or the session as it was. -/
theorem compileOver_cases (backend : Backend ε) (s : Session) (f : Function) :
    (∃ e, s.compileOver backend f = (s, .error e)) ∨
      ∃ c, (s.announce f.prototype).1.surroundings.compile f = .ok c ∧
        backend.reject? c = none ∧
        s.compileOver backend f = ((s.announce f.prototype).1, .ok c) := by
  unfold compileOver
  cases hcompile : (s.announce f.prototype).1.surroundings.compile f with
  | error e =>
      refine Or.inl ⟨.form (.lowerError e), ?_⟩
      simp only [hcompile, retract_announce]
  | ok c =>
      cases hreject : backend.reject? c with
      | some e =>
          refine Or.inl ⟨.backend e, ?_⟩
          simp only [hcompile, hreject, retract_announce]
      | none =>
          refine Or.inr ⟨c, rfl, hreject, ?_⟩
          simp only [hcompile, hreject]

/-- What a definition imports has an address by the time it is linked. -/
theorem compile_importable (hkeyed : s.registry.Keyed) {f : Function} {c : Compilation}
    (hok : (s.announce f.prototype).1.surroundings.compile f = .ok c) :
    c.Importable s.linker := by
  intro d hd
  have hresolved := compile_resolved (s.announce_keyed hkeyed f.prototype) hok
  rcases hresolved.imports d hd with hown | ⟨address, hbinding, haddress, -⟩
  · exact Or.inl hown
  · refine Or.inr ⟨address, hbinding, ?_⟩
    simpa [surroundings] using haddress

/-- A definition that is rejected leaves the session as it was. -/
theorem defineOver_error (hkeyed : s.registry.Keyed) (hfinalizes : backend.Finalizes)
    {f : Function} {e : Rejection ε} (h : (s.defineOver backend f).2.outcome = .error e) :
    s.defineOver backend f = (s, ⟨.error e, ""⟩) := by
  unfold defineOver at h ⊢
  rcases compileOver_cases backend s f with ⟨e', hcompile⟩ | ⟨c, hok, -, hcompile⟩
  · rw [hcompile] at h ⊢
    obtain rfl := Except.error.inj h
    rfl
  · rw [hcompile] at h
    -- the only failure after the announcement, and it does not happen
    have hfinal : backend.finalize? (s.announce f.prototype).1.linker c = none := by
      rw [announce_linker]
      exact hfinalizes s.linker c (compile_importable hkeyed hok)
    dsimp only at h
    rw [hfinal] at h
    cases h

/-- An expression leaves the session as it was. -/
theorem evaluateOver_session (s : Session) (limit : Nat) (body : Expr) :
    (s.evaluateOver backend limit body).1 = s := by
  unfold evaluateOver
  rcases compileOver_cases backend s ⟨.anonymous, body⟩ with
    ⟨e, hcompile⟩ | ⟨c, -, -, hcompile⟩
  · rw [hcompile]
  · rw [hcompile, announce_anonymous]
    dsimp only
    split
    · rfl
    · split <;> rfl

/-- An expression that is rejected has written nothing. -/
theorem evaluateOver_output {limit : Nat} {body : Expr} {e : Rejection ε}
    (h : (s.evaluateOver backend limit body).2.outcome = .error e) :
    (s.evaluateOver backend limit body).2.output = "" := by
  unfold evaluateOver at h ⊢
  split
  · rfl
  · next s' c hcompile =>
      rw [hcompile] at h
      dsimp only at h
      split
      · rfl
      · next hguard =>
          rw [hguard] at h
          dsimp only at h
          split
          · rfl
          · next hfinal =>
              rw [hfinal] at h
              cases houtcome : (s'.runOnce limit c).outcome with
              | error e' => exact absurd houtcome (s'.runOnce_outcome limit c e')
              | ok outcome =>
                  simp only [Response.over, houtcome] at h
                  cases h

/-- Over a generator that never fails, compiling is what it is without one. -/
theorem compileOver_reliable (hreject : ∀ c, backend.reject? c = none) (s : Session)
    (f : Function) :
    s.compileOver backend f =
      ((s.compile f).1, (s.compile f).2.mapError fun e => .form (.lowerError e)) := by
  unfold compileOver compile
  cases hcompile : (s.announce f.prototype).1.surroundings.compile f with
  | error e =>
      simp only [hcompile]
      rfl
  | ok c =>
      simp only [hcompile, hreject]
      rfl

/-- Over a generator that never fails, a form does what it does without one. -/
theorem handleOver_reliable (hreject : ∀ c, backend.reject? c = none)
    (hfinalize : ∀ l c, backend.finalize? l c = none) (s : Session) (limit : Nat)
    (item : Item) :
    s.handleOver backend limit item =
      ((s.handle limit item).1, (s.handle limit item).2.over ε) := by
  cases item with
  | declaration p => rfl
  | definition f =>
      simp only [handleOver, handle, defineOver, define, compileOver_reliable hreject]
      rcases hcompile : s.compile f with ⟨s', r⟩
      cases r with
      | error e => rfl
      | ok c =>
          simp only [Except.mapError, hfinalize]
          rfl
  | expression body =>
      simp only [handleOver, handle, evaluateOver, evaluate, compileOver_reliable hreject]
      rcases hcompile : s.compile ⟨.anonymous, body⟩ with ⟨s', r⟩
      cases r with
      | error e => rfl
      | ok c =>
          simp only [Except.mapError]
          cases hguard : s'.linker.unresolved? c.unit with
          | some symbol => rfl
          | none => simp only [hfinalize]

/-- A generator that fails if an import has no address. -/
def importing : Backend String where
  reject? _ := none
  finalize? l c :=
    if c.unit.declarations.all fun d =>
        d.binding == .own || d.binding == (l.address? d.symbol).elim .own .imported then none
    else some "can't resolve symbol"

theorem finalizes_importing : importing.Finalizes := by
  intro l c himportable
  refine if_pos (List.all_eq_true.mpr ?_)
  intro d hd
  rcases himportable d hd with hown | ⟨address, hbinding, haddress⟩
  · simp [hown]
  · simp [hbinding, haddress]

end Session

end Reckon
