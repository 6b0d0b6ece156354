import Reckon.Proofs.Lowering.Background
import Reckon.Proofs.Session.Guard
import Reckon.Proofs.Session.Operators

/-!
# Compiled code does not show the history of a session

A session can have a long history when it compiles a function: declarations, definitions,
operators, units.  The code shows nothing of it but what it says about the callees of the body.
Two sessions that agree on these compile the function to the same code, or reject it with the
same error (`Session.compile_agreeOn`).

A function is announced before it is compiled, and that keeps the agreement, for its own callee
as well as for any other (`Surroundings.AgreeOn.announce`).  What is announced is also all that
stays in the session if the function compiles (`Session.announce_gains`).
-/

namespace Reckon

instance (around around' : Surroundings) (callee : Callee) :
    Decidable (around.AgreeOn around' callee) :=
  decidable_of_iff
    ((around'.registry.get? callee).map Prototype.arity =
        (around.registry.get? callee).map Prototype.arity ∧
      around'.linker.isLinked callee.symbol = around.linker.isLinked callee.symbol ∧
      around'.linker.hasCell callee.symbol = around.linker.hasCell callee.symbol)
    ⟨fun h => ⟨h.1, h.2.1, h.2.2⟩, fun h => ⟨h.arity, h.linked, h.cell⟩⟩

/-- Announcing one function in two sessions keeps what they agree on. -/
theorem Surroundings.AgreeOn.announce {s s' : Session} {callee : Callee}
    (h : s.surroundings.AgreeOn s'.surroundings callee) (p : Prototype) :
    (s.announce p).1.surroundings.AgreeOn (s'.announce p).1.surroundings callee := by
  obtain ⟨harity, hlinked, hcell⟩ := h
  unfold Session.surroundings at harity hlinked hcell ⊢
  rw [Session.announce_registry, Session.announce_registry, Session.announce_linker,
    Session.announce_linker]
  refine ⟨?_, hlinked, hcell⟩
  dsimp only
  split
  · exact harity
  · rw [Registry.get?_insert, Registry.get?_insert]
    split
    · rfl
    · exact harity

namespace Session

variable {s s' : Session} {f : Function}

/-- A session has become another that has the entries of a function and is otherwise the same:
its prototype, unless it is that of a bare expression, and its precedence if it is an infix
operator. -/
structure Gains (s : Session) (p : Prototype) (t : Session) : Prop where
  prototype : p.isAnonymous = false → t.registry.get? p.callee = some p
  otherPrototypes : ∀ callee, (p.isAnonymous = false → callee ≠ p.callee) →
    t.registry.get? callee = s.registry.get? callee
  operator : ∀ op precedence, p.infixOperator? = some (op, precedence) →
    t.operators.table.find? op = some (OperatorTable.entry precedence)
  otherOperators : ∀ op, (∀ precedence, p.infixOperator? ≠ some (op, precedence)) →
    t.operators.table.find? op = s.operators.table.find? op
  linker : t.linker = s.linker
  options : t.options = s.options

theorem announce_options (s : Session) (p : Prototype) : (s.announce p).1.options = s.options := by
  have hname : (s.announceName p).1.options = s.options := by
    unfold announceName
    split <;> rfl
  change ((s.announceName p).1.announceOperator p).1.options = _
  unfold announceOperator
  cases p.infixOperator? with
  | none => exact hname
  | some found => exact hname

/-- **A session gains no more from an announcement than the entries of the function.** -/
theorem announce_gains (s : Session) (p : Prototype) : s.Gains p (s.announce p).1 where
  prototype hnamed := by
    rw [announce_registry, hnamed, if_neg Bool.false_ne_true, Registry.get?_insert, if_pos rfl]
  otherPrototypes callee hother := by
    rw [announce_registry]
    split
    · rfl
    · next hnamed =>
        have hne := hother (Bool.eq_false_iff.mpr hnamed)
        rw [Registry.get?_insert, if_neg hne.symm]
  operator op precedence hop := by
    rw [announce_operators, hop]
    exact (Table.find?_insert ..).trans (if_pos rfl)
  otherOperators op hother := by
    rw [announce_operators]
    cases hfound : p.infixOperator? with
    | none => rfl
    | some found =>
        have hne : found.1 ≠ op := fun heq => hother found.2 (heq ▸ hfound)
        exact (Table.find?_insert ..).trans (if_neg hne)
  linker := s.announce_linker p
  options := s.announce_options p

/-- **The code of a function depends on the callees of its body only.**  Two sessions, whatever
their histories, agree on each callee of the body: on the number of its parameters if it is
known, on whether its symbol can be imported and on whether it has a cell.  Then the function
compiles in both or in neither.  If it compiles, it has the same listing, which shows no address
of a cell, and the same references, in units that are the same but for the addresses of what they
import, and each session gains the entries of the function and nothing else.  Otherwise the error
is the same, and nothing changes.

Registries are keyed, since forms only insert prototypes into them (`Reachable.sound`). -/
theorem compile_agreeOn (hkeyed : s.registry.Keyed) (hkeyed' : s'.registry.Keyed)
    (h : ∀ callee ∈ f.body.callees, s.surroundings.AgreeOn s'.surroundings callee) :
    (∃ c c' t t', s.compile f = (t, .ok c) ∧ s'.compile f = (t', .ok c') ∧
      c'.procedure.listing = c.procedure.listing ∧ c'.unit.references = c.unit.references ∧
      c'.unlinked = c.unlinked ∧ s.Gains f.prototype t ∧ s'.Gains f.prototype t') ∨
    ∃ e, s.compile f = (s, .error e) ∧ s'.compile f = (s', .error e) := by
  have hsame := Surroundings.compile_background (s.announce_keyed hkeyed f.prototype)
    (s'.announce_keyed hkeyed' f.prototype) fun callee hmem => (h callee hmem).announce f.prototype
  rw [compile_eq, compile_eq]
  rcases hcompile : (s.announce f.prototype).1.surroundings.compile f with e | c <;>
    rcases hcompile' : (s'.announce f.prototype).1.surroundings.compile f with e' | c' <;>
    rw [hcompile, hcompile'] at hsame
  · cases hsame
    exact Or.inr ⟨e, rfl, rfl⟩
  · cases hsame
  · cases hsame
  · have hunlinked : c'.unlinked = c.unlinked := Except.ok.inj hsame
    obtain ⟨hprocedure, hreferences⟩ := Compilation.of_unlinked_eq hunlinked
    exact Or.inl ⟨c, c', _, _, rfl, rfl, congrArg Code.Procedure.listing hprocedure,
      hreferences, hunlinked, s.announce_gains f.prototype, s'.announce_gains f.prototype⟩

/-- One session has declared `late` and defined `early`.  Another has defined `other` and `early`,
each with parameters of other names, and declared `late` at the end, so that `early` has another
address there.  An operator that calls both and itself has the same code in the two. -/
theorem compile_agreeOn_histories :
    let early (x : String) : Function := ⟨⟨"early", [x], .function⟩, .var x⟩
    let late (x : String) : Prototype := ⟨"late", [x], .function⟩
    let other : Function := ⟨⟨"other", [], .function⟩, .number 3⟩
    let f : Function := ⟨⟨"binary|", ["x", "y"], .binary '|' 5⟩,
      .binary '|' (.call "early" [.var "x"]) (.call "late" [.var "y"])⟩
    let s := (((start .standard).handle 0 (.declaration (late "x"))).1.handle 0
      (.definition (early "x"))).1
    let s' := ((((start .standard).handle 0 (.definition other)).1.handle 0
      (.definition (early "y"))).1.handle 0 (.declaration (late "z"))).1
    s.registry.Keyed ∧ s'.registry.Keyed ∧
      (∀ callee ∈ f.body.callees, s.surroundings.AgreeOn s'.surroundings callee) ∧
      s'.linker.address? "early" ≠ s.linker.address? "early" ∧
      ∃ c c' t t', s.compile f = (t, .ok c) ∧ s'.compile f = (t', .ok c') ∧
        c'.procedure.listing = c.procedure.listing ∧ c'.unit.references = c.unit.references ∧
        c'.unlinked = c.unlinked ∧ s.Gains f.prototype t ∧ s'.Gains f.prototype t' := by
  intro early late other f s s'
  have hkeyed : s.registry.Keyed :=
    ((Reachable.start .standard).handle 0 _ |>.handle 0 _).sound.keyed
  have hkeyed' : s'.registry.Keyed :=
    ((Reachable.start .standard).handle 0 _ |>.handle 0 _ |>.handle 0 _).sound.keyed
  have hagree : ∀ callee ∈ f.body.callees, s.surroundings.AgreeOn s'.surroundings callee := by
    decide +kernel
  have hcompiles : (s.compile f).2.toOption.isSome = true := by decide +kernel
  refine ⟨hkeyed, hkeyed', hagree, by decide +kernel, ?_⟩
  refine (compile_agreeOn hkeyed hkeyed' hagree).resolve_right ?_
  rintro ⟨e, hrejected, -⟩
  rw [hrejected] at hcompiles
  cases hcompiles

end Session

end Reckon
