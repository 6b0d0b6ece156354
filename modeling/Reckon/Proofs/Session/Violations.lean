import Reckon.Proofs.Lowering.Answers
import Reckon.Proofs.Session.Operators

/-!
# What a session rejects

Where the registry is lawful once a function has been announced, the function compiles
exactly if its body makes sense, and otherwise the error is the first thing that is wrong
with the body (`Session.compile_firstViolation`).  What is wrong is listed from the text
of the body and from what is known of its callees, without compiling anything.

The registry of a session that deals with forms read from texts is always lawful
(`Session.Written.legible`): the grammar gives operators as many parameters as operands,
and no text can name two callees with one symbol.  So such a session rejects a definition
for the first thing that is wrong with it, and for no other reason
(`Session.Written.define`).
-/

namespace Reckon

namespace Session

variable {s : Session} {f : Function}

/-- What is known of callees where a function has been announced. -/
def acquaintance (s : Session) (p : Prototype) : Acquaintance :=
  (s.announce p).1.surroundings.acquaintance p

theorem announces (s : Session) (p : Prototype) : (s.announce p).1.surroundings.Announces p := by
  by_cases hanonymous : p.isAnonymous = true
  · exact Or.inl hanonymous
  · refine Or.inr ?_
    change (s.announce p).1.registry.get? p.callee = some p
    rw [announce_registry, if_neg hanonymous, Registry.get?_insert, if_pos rfl]

/-- **A function compiles exactly if its body makes sense**, and otherwise the error is the
first thing that is wrong with the body. -/
theorem compile_firstViolation (h : (s.announce f.prototype).1.registry.Lawful) :
    ((∃ c, (s.compile f).2 = .ok c) ↔
      f.body.WellScoped (s.acquaintance f.prototype) f.prototype.params) ∧
    ∀ e, (s.compile f).2 = .error e ↔
      (f.body.violations (s.acquaintance f.prototype) f.prototype.params).head? = some e := by
  rw [compile_snd, ← Expr.violations_eq_nil_iff]
  exact Surroundings.compile_answers (Registry.Lawful.sensible h (s.announces f.prototype))

/-- An assignment to an unknown name, of a call with one argument too many, which has an
unknown name among its arguments.  The call is what lowering comes to first. -/
theorem compile_firstViolation_assignment :
    let p : Prototype := ⟨"f", ["x"], .function⟩
    let body : Expr := .binary '=' (.var "y") (.call "f" [.var "x", .var "z"])
    let s : Session := start .standard
    (s.announce p).1.registry.Lawful ∧
      body.violations (s.acquaintance p) ["x"] =
        [.arityMismatch "f" 1 2, .unknownVariable "z", .unknownVariable "y"] ∧
      (s.compile ⟨p, body⟩).2 = .error (.arityMismatch "f" 1 2) := by
  intro p body s
  have hlawful : (s.announce p).1.registry.Lawful :=
    Registry.lawful_insert_empty fun n hn => by cases hn
  have hviolations : body.violations (s.acquaintance p) ["x"] =
      [.arityMismatch "f" 1 2, .unknownVariable "z", .unknownVariable "y"] := by decide
  refine ⟨hlawful, hviolations, ?_⟩
  exact ((compile_firstViolation (f := ⟨p, body⟩) hlawful).2 _).mpr (by rw [hviolations]; rfl)

/-- A definition is accepted if it compiles, and else rejected with the error of that. -/
theorem define_accepts (s : Session) (f : Function) :
    ((∃ outcome, (s.define f).2.outcome = .ok outcome) ↔
      ∃ c, (s.announce f.prototype).1.surroundings.compile f = .ok c) ∧
    ∀ e, (s.define f).2.outcome = .error (.lowerError e) ↔
      (s.announce f.prototype).1.surroundings.compile f = .error e := by
  rw [define_eq]
  cases (s.announce f.prototype).1.surroundings.compile f <;> simp

/-- The sessions that deal with forms which they read from texts. -/
inductive Written : Session → Prop where
  | start (options : Options) : Written (start options)
  | handle {s : Session} {ts rest : Tokens} {item : Item} (limit : Nat) (written : s.Written)
      (text : ts.FromText) (reads : (s.readItem ts).Yields item rest) :
      Written (s.handle limit item).1

/-- The prototypes that are known are such as texts can have. -/
structure Legible (s : Session) : Prop where
  lawful : s.registry.Lawful
  occurs : ∀ callee, (s.registry.get? callee).isSome → callee.Occurs

/-- A prototype as texts can have it may be recorded. -/
theorem Legible.insert (h : s.Legible) {p : Prototype} (hp : p.callee.Occurs)
    (hoperands : ∀ n ∈ p.kind.operands?, p.arity = n) :
    (s.registry.insert p).1.Lawful ∧
      ∀ callee, ((s.registry.insert p).1.get? callee).isSome → callee.Occurs := by
  refine ⟨h.lawful.insert hoperands fun callee hcallee hsymbol => ?_, fun callee hcallee => ?_⟩
  · exact (h.occurs callee hcallee).symbol_inj hp hsymbol
  · rw [Registry.get?_insert] at hcallee
    split at hcallee
    · next heq => exact heq ▸ hp
    · exact h.occurs callee hcallee

theorem Legible.announce (h : s.Legible) {p : Prototype} (hp : p.callee.Occurs)
    (hoperands : ∀ n ∈ p.kind.operands?, p.arity = n) : (s.announce p).1.Legible := by
  have hregistry : (s.announce p).1.registry = (s.registry.insert p).1 := by
    rw [announce_registry, Prototype.isAnonymous_of_occurs hp]
    rfl
  obtain ⟨hlawful, hoccurs⟩ := h.insert hp hoperands
  exact ⟨hregistry ▸ hlawful, hregistry ▸ hoccurs⟩

/-- What is read from a text has a prototype as texts can have it. -/
theorem reads_prototype {ts rest : Tokens} {item : Item} (text : ts.FromText)
    (reads : (s.readItem ts).Yields item rest) :
    ∀ p ∈ item.prototype?, p.callee.Occurs ∧ ∀ n ∈ p.kind.operands?, p.arity = n := by
  intro p hp
  refine ⟨text.prototype_occurs reads p hp, ?_⟩
  obtain ⟨words, hspells⟩ := reads_item reads
  cases hspells with
  | definition heads follows =>
      obtain rfl := Option.some.inj hp
      exact heads.length_params
  | declaration heads =>
      obtain rfl := Option.some.inj hp
      exact heads.length_params
  | expression body => cases hp

theorem Written.legible (h : s.Written) : s.Legible := by
  induction h with
  | start options =>
      refine ⟨Registry.lawful_empty, fun callee hcallee => ?_⟩
      cases hcallee
  | @handle s ts rest item limit written text reads ih =>
      have hprototype := reads_prototype text reads
      rcases s.handle_cases limit item with hsame | ⟨f, c, rfl, -, hlinked⟩ | ⟨p, rfl, hdeclared⟩
      · rwa [hsame]
      · rw [hlinked]
        obtain ⟨hp, hoperands⟩ := hprototype f.prototype rfl
        have hannounced := ih.announce hp hoperands
        exact ⟨hannounced.lawful, hannounced.occurs⟩
      · rw [hdeclared]
        obtain ⟨hp, hoperands⟩ := hprototype p rfl
        obtain ⟨hlawful, hoccurs⟩ := ih.insert hp hoperands
        exact ⟨hlawful, hoccurs⟩

/-- **What is read from a text is rejected for the first thing that is wrong with it.** -/
theorem Written.define (h : s.Written) {ts rest : Tokens} (text : ts.FromText)
    (reads : (s.readItem ts).Yields (.definition f) rest) :
    ((∃ outcome, (s.define f).2.outcome = .ok outcome) ↔
      f.body.WellScoped (s.acquaintance f.prototype) f.prototype.params) ∧
    ∀ e, (s.define f).2.outcome = .error (.lowerError e) ↔
      (f.body.violations (s.acquaintance f.prototype) f.prototype.params).head? = some e := by
  obtain ⟨hp, hoperands⟩ := reads_prototype text reads f.prototype rfl
  have hlawful : (s.announce f.prototype).1.surroundings.registry.Lawful :=
    (h.legible.announce hp hoperands).lawful
  obtain ⟨hcompiles, hfails⟩ :=
    Surroundings.compile_answers (hlawful.sensible (s.announces f.prototype))
  obtain ⟨haccepts, hrejects⟩ := s.define_accepts f
  rw [haccepts, hcompiles, Expr.violations_eq_nil_iff]
  exact ⟨Iff.rfl, fun e => (hrejects e).trans (hfails e)⟩

end Session

end Reckon
