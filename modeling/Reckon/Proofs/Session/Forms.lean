import Reckon.Proofs.Lowering.References
import Reckon.Session.Basic

/-!
# What a form does to a session

Compiling a function either leaves it announced or leaves the session as it was
(`compile_eq`), so a form changes a session only if it is a definition that
compiles or a declaration (`handle_cases`).
-/

namespace Reckon

namespace Session

variable {s : Session}

theorem announceName_linker (s : Session) (p : Prototype) :
    (s.announceName p).1.linker = s.linker := by
  unfold announceName
  split <;> rfl

/-- Announcing an operator changes the operators only. -/
theorem announceOperator_only (s : Session) (p : Prototype) :
    (s.announceOperator p).1.linker = s.linker ∧
      (s.announceOperator p).1.registry = s.registry := by
  unfold announceOperator
  cases p.infixOperator? with
  | none => exact ⟨rfl, rfl⟩
  | some found => exact ⟨rfl, rfl⟩

@[simp] theorem announce_linker (s : Session) (p : Prototype) :
    (s.announce p).1.linker = s.linker :=
  ((s.announceName p).1.announceOperator_only p).1.trans (s.announceName_linker p)

/-- A bare expression is not announced. -/
theorem announce_anonymous (s : Session) : (s.announce .anonymous).1 = s := rfl

/-- A function that compiles stays announced, and any other leaves no trace. -/
theorem compile_eq (s : Session) (f : Function) :
    s.compile f =
      match (s.announce f.prototype).1.surroundings.compile f with
      | .error e => (s, .error e)
      | .ok c => ((s.announce f.prototype).1, .ok c) := by
  unfold compile
  cases hcompile : (s.announce f.prototype).1.surroundings.compile f with
  | error e => simp only [hcompile, retract_announce]
  | ok c => simp only [hcompile]

/-- What compiling a function comes to is settled where it has been announced. -/
theorem compile_snd (s : Session) (f : Function) :
    (s.compile f).2 = (s.announce f.prototype).1.surroundings.compile f := by
  rw [compile_eq]
  cases (s.announce f.prototype).1.surroundings.compile f <;> rfl

/-- What defining a function comes to is settled by how it compiles. -/
theorem define_eq (s : Session) (f : Function) :
    s.define f =
      match (s.announce f.prototype).1.surroundings.compile f with
      | .error e => (s, ⟨.error (.lowerError e), ""⟩)
      | .ok c => ({ (s.announce f.prototype).1 with linker := s.linker.link c },
          ⟨.ok (.defined f.prototype c.procedure.listing), ""⟩) := by
  unfold define
  rw [compile_eq]
  cases (s.announce f.prototype).1.surroundings.compile f with
  | error e => rfl
  | ok c => simp only [announce_linker]

/-- A definition that compiles is linked, and any other changes nothing. -/
theorem define_cases (s : Session) (f : Function) :
    (∃ e, s.define f = (s, ⟨.error (.lowerError e), ""⟩)) ∨
      ∃ c, (s.announce f.prototype).1.surroundings.compile f = .ok c ∧
        s.define f =
          ({ (s.announce f.prototype).1 with linker := s.linker.link c },
            ⟨.ok (.defined f.prototype c.procedure.listing), ""⟩) := by
  rw [define_eq]
  cases (s.announce f.prototype).1.surroundings.compile f with
  | error e => exact Or.inl ⟨e, rfl⟩
  | ok c => exact Or.inr ⟨c, rfl, rfl⟩

/-- What evaluating an expression comes to is settled by how it compiles and by the
guard. -/
theorem evaluate_eq (s : Session) (limit : Nat) (body : Expr) :
    s.evaluate limit body =
      match s.surroundings.compile ⟨.anonymous, body⟩ with
      | .error e => (s, ⟨.error (.lowerError e), ""⟩)
      | .ok c =>
        match s.linker.unresolved? c.unit with
        | some symbol => (s, ⟨.error (.lowerError (.unresolvedSymbol symbol)), ""⟩)
        | none => (s, s.runOnce limit c) := by
  unfold evaluate
  rw [compile_eq]
  simp only [announce_anonymous]
  cases hcompile : s.surroundings.compile ⟨.anonymous, body⟩ with
  | error e => rfl
  | ok c => cases hguard : s.linker.unresolved? c.unit <;> simp only [hguard]

/-- An expression is rejected without a trace, or run once. -/
theorem evaluate_cases (s : Session) (limit : Nat) (body : Expr) :
    (∃ e, s.evaluate limit body = (s, ⟨.error e, ""⟩)) ∨
      ∃ c, s.surroundings.compile ⟨.anonymous, body⟩ = .ok c ∧
        s.linker.unresolved? c.unit = none ∧ s.evaluate limit body = (s, s.runOnce limit c) := by
  rw [evaluate_eq]
  cases s.surroundings.compile ⟨.anonymous, body⟩ with
  | error e => exact Or.inl ⟨_, rfl⟩
  | ok c =>
      dsimp only
      cases hguard : s.linker.unresolved? c.unit with
      | some symbol => exact Or.inl ⟨_, rfl⟩
      | none => exact Or.inr ⟨c, rfl, hguard, rfl⟩

/-- Running an expression ends with an outcome, never with an error. -/
theorem runOnce_outcome (s : Session) (limit : Nat) (c : Compilation) (e : FormError) :
    (s.runOnce limit c).outcome ≠ .error e := by
  unfold runOnce
  dsimp only
  split <;> simp

/-- A session is left by a form in one of these ways. -/
theorem handle_cases (s : Session) (limit : Nat) (item : Item) :
    (s.handle limit item).1 = s ∨
      (∃ f c, item = .definition f ∧ (s.announce f.prototype).1.surroundings.compile f = .ok c ∧
        (s.handle limit item).1 =
          { (s.announce f.prototype).1 with linker := s.linker.link c }) ∨
      ∃ p, item = .declaration p ∧ (s.handle limit item).1 = (s.declare p).1 := by
  cases item with
  | definition f =>
      rcases s.define_cases f with ⟨e, hdefine⟩ | ⟨c, hok, hdefine⟩
      · exact Or.inl (congrArg Prod.fst hdefine)
      · exact Or.inr (Or.inl ⟨f, c, rfl, hok, congrArg Prod.fst hdefine⟩)
  | declaration p => exact Or.inr (Or.inr ⟨p, rfl, rfl⟩)
  | expression body =>
      rcases s.evaluate_cases limit body with ⟨e, hevaluate⟩ | ⟨c, -, -, hevaluate⟩
      · exact Or.inl (congrArg Prod.fst hevaluate)
      · exact Or.inl (congrArg Prod.fst hevaluate)

theorem announce_keyed (h : s.registry.Keyed) (p : Prototype) :
    (s.announce p).1.registry.Keyed := by
  have hname : (s.announce p).1.registry = (s.announceName p).1.registry :=
    ((s.announceName p).1.announceOperator_only p).2
  rw [hname]
  unfold announceName
  split
  · exact h
  · exact h.insert p

end Session

end Reckon
