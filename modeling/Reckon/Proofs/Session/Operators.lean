import Reckon.Console
import Reckon.Proofs.Link.Arities
import Reckon.Proofs.Lowering.Rejection
import Reckon.Proofs.Session.Forms

/-!
# The grammar and the definitions of operators agree

A session that reads the forms it deals with has a function for every infix
operator of its table (`Session.Told.operatorsDefined`): forms install an operator
together with its function, and what another form puts in place of the function
has as many operands.  So nothing that such a session reads comes to a fatal
error, and no dialogue ends early (`Session.told_survives`).
-/

namespace Reckon

/-- A prototype of an infix operator is that of its callee, and of no bare
expression. -/
theorem Prototype.callee_of_infixOperator? {p : Prototype} {op : Char}
    {precedence : Nat} (h : p.infixOperator? = some (op, precedence)) :
    p.callee = .binary op ∧ p.isAnonymous = false ∧ p.kind.operands? = some 2 := by
  unfold Prototype.infixOperator? at h
  split at h
  · next heq =>
      cases h
      simp [Prototype.callee, Prototype.isAnonymous, PrototypeKind.operands?, heq]
  · cases h

theorem OperatorTable.precedence?_install {ops : OperatorTable} {op other : Char}
    {precedence : Nat} (hne : op ≠ other) :
    (ops.install op precedence).1.precedence? other = ops.precedence? other := by
  simp [install, precedence?, Table.find?_insert, hne]

namespace Session

variable {s : Session}

/-- The sessions that forms lead to which are read by the session that deals with
them. -/
inductive Told : Session → Prop where
  | start (options : Options) : Told (start options)
  | handle {s : Session} {ts rest : Tokens} {item : Item} (limit : Nat) (told : s.Told)
      (reads : (s.readItem ts).Yields item rest) : Told (s.handle limit item).1

/-- An infix operator has a function of two parameters with an address. -/
def Implements (s : Session) (op : Char) : Prop :=
  ∃ p, s.registry.get? (.binary op) = some p ∧ p.params.length = 2 ∧
    s.linker.isLinked (Callee.binary op).symbol = true

/-- Every infix operator is built in or has a function. -/
def OperatorsDefined (s : Session) : Prop :=
  ∀ op precedence, s.operators.precedence? op = some precedence →
    op ∈ ['=', '<', '+', '-', '*'] ∨ s.Implements op

/-- The forms that are read define operators with as many parameters as they
have operands, and use declared operators only. -/
theorem reads_item {ts rest : Tokens} {item : Item} (h : (s.readItem ts).Yields item rest) :
    ∃ words, Grammar.SpellsItem s.operators words item rest.lexeme? := by
  obtain ⟨words, -, hspells⟩ := (Grammar.follows_item ts item rest).mp h
  exact ⟨words, hspells⟩

theorem announce_registry (s : Session) (p : Prototype) :
    (s.announce p).1.registry =
      if p.isAnonymous then s.registry else (s.registry.insert p).1 := by
  have hname : (s.announce p).1.registry = (s.announceName p).1.registry :=
    ((s.announceName p).1.announceOperator_only p).2
  rw [hname]
  unfold announceName
  split <;> rfl

theorem announce_operators (s : Session) (p : Prototype) :
    (s.announce p).1.operators = match p.infixOperator? with
      | some (op, precedence) => (s.operators.install op precedence).1
      | none => s.operators := by
  have hname : (s.announceName p).1.operators = s.operators := by
    unfold announceName
    split <;> rfl
  change ((s.announceName p).1.announceOperator p).1.operators = _
  unfold announceOperator
  cases p.infixOperator? with
  | none => exact hname
  | some found => simp only [hname]

/-- An operator keeps its function if its entry in the registry is not replaced,
or replaced by a function of two parameters. -/
theorem Implements.of_insert {s' : Session} {op : Char} {p : Prototype} (h : s.Implements op)
    (hregistry : s'.registry = s.registry ∨ s'.registry = (s.registry.insert p).1)
    (hlinked : ∀ symbol, s.linker.isLinked symbol = true → s'.linker.isLinked symbol = true)
    (hparams : ∀ n ∈ p.kind.operands?, p.params.length = n) : s'.Implements op := by
  obtain ⟨q, hq, hlength, haddress⟩ := h
  have haddress' := hlinked _ haddress
  rcases hregistry with hsame | hinserted
  · exact ⟨q, hsame ▸ hq, hlength, haddress'⟩
  · by_cases hcallee : p.callee = .binary op
    · refine ⟨p, ?_, ?_, haddress'⟩
      · rw [hinserted, Registry.get?_insert, if_pos hcallee]
      · apply hparams
        unfold Prototype.callee at hcallee
        split at hcallee
        · cases hcallee
        · cases hcallee
        · next heq =>
            rw [heq]
            rfl
    · refine ⟨q, ?_, hlength, haddress'⟩
      rw [hinserted, Registry.get?_insert, if_neg hcallee]
      exact hq

/-- Every operator still has a function after a form that has been read. -/
theorem OperatorsDefined.handle (h : s.OperatorsDefined) {ts rest : Tokens} {item : Item}
    (limit : Nat) (hread : (s.readItem ts).Yields item rest) :
    (s.handle limit item).1.OperatorsDefined := by
  obtain ⟨words, hspells⟩ := reads_item hread
  rcases s.handle_cases limit item with hsame | ⟨f, c, rfl, hok, hlinked⟩ | ⟨p, rfl, hdeclared⟩
  · rwa [hsame]
  · have hparams : ∀ n ∈ f.prototype.kind.operands?, f.prototype.params.length = n := by
      cases hspells with
      | definition heads follows => exact heads.length_params
    obtain ⟨hprototype, -⟩ := Surroundings.compile_head hok
    rw [hlinked]
    intro op precedence hop
    dsimp only at hop
    rw [announce_operators] at hop
    have hkept (hold : s.operators.precedence? op = some precedence) :
        op ∈ ['=', '<', '+', '-', '*'] ∨
          Implements { (s.announce f.prototype).1 with linker := s.linker.link c } op := by
      refine (h op precedence hold).imp_right fun himplements => ?_
      refine himplements.of_insert (p := f.prototype) ?_ (fun _ => Linker.isLinked_link) hparams
      rw [announce_registry]
      split
      · exact Or.inl rfl
      · exact Or.inr rfl
    split at hop
    · next other entry hinfix =>
        by_cases hother : other = op
        · subst hother
          obtain ⟨hcallee, hanonymous, hoperands⟩ := Prototype.callee_of_infixOperator? hinfix
          refine Or.inr ⟨f.prototype, ?_, hparams 2 hoperands, ?_⟩
          · rw [announce_registry, hanonymous, ← hcallee]
            simp [Registry.get?_insert]
          · rw [← hcallee, ← hprototype]
            exact Linker.isLinked_link_self (hprototype ▸ hanonymous)
        · rw [OperatorTable.precedence?_install hother] at hop
          exact hkept hop
    · exact hkept hop
  · have hparams : ∀ n ∈ p.kind.operands?, p.params.length = n := by
      cases hspells with
      | declaration heads => exact heads.length_params
    rw [hdeclared]
    intro op precedence hop
    refine (h op precedence hop).imp_right fun himplements => ?_
    refine himplements.of_insert (p := p) (Or.inr rfl) (fun symbol hsymbol => ?_) hparams
    exact (Linker.isLinked_reserve _ _).trans hsymbol

theorem Told.operatorsDefined (h : s.Told) : s.OperatorsDefined := by
  induction h with
  | start options =>
      intro op precedence hop
      obtain ⟨hfind, -⟩ := Option.filter_eq_some_iff.mp hop
      have hmem := Table.mem_entries_of_find? hfind
      have hentries : ∀ entry ∈ OperatorTable.builtins.table.entries,
          entry.1 ∈ ['=', '<', '+', '-', '*'] := by decide
      exact Or.inl (hentries _ hmem)
  | handle limit told reads ih => exact ih.handle limit reads

/-- What is announced before a function is compiled keeps every operator known. -/
theorem OperatorsDefined.knows (h : s.OperatorsDefined) (p : Prototype) {op : Char}
    (hop : s.operators.Declares op) : (s.announce p).1.surroundings.Knows op := by
  obtain ⟨precedence, hprecedence⟩ := hop
  refine (h op precedence hprecedence).imp_right fun himplements => ?_
  obtain ⟨q, hq, -⟩ := himplements
  change ((s.announce p).1.registry.get? (.binary op)).isSome
  rw [announce_registry]
  split
  · simp [hq]
  · rw [Registry.get?_insert]
    split
    · rfl
    · simp [hq]

theorem compile_error {f : Function} {s' : Session} {e : LowerError}
    (h : s.compile f = (s', .error e)) :
    (s.announce f.prototype).1.surroundings.compile f = .error e := by
  rw [← compile_snd, h]

/-- What a session reads and compiles is rejected, if it is, with an error that
the session survives. -/
theorem OperatorsDefined.compile_survives (h : s.OperatorsDefined) {f : Function} {s' : Session}
    {e : LowerError} (hbody : f.body.Everywhere (Expr.Infix s.operators.Declares))
    (herror : s.compile f = (s', .error e)) : e.isFatal = false := by
  refine Surroundings.compile_survives (hbody.mono fun e hinfix => ?_) (compile_error herror)
  cases e with
  | binary op left right => exact h.knows f.prototype hinfix
  | _ => trivial

/-- No form that is read comes to a fatal error. -/
theorem OperatorsDefined.survives (h : s.OperatorsDefined) {ts rest : Tokens} {item : Item}
    {limit : Nat} {e : FormError} (hread : (s.readItem ts).Yields item rest)
    (herror : (s.handle limit item).2.outcome = .error e) : e.isFatal = false := by
  obtain ⟨words, hspells⟩ := reads_item hread
  cases hspells with
  | definition heads follows =>
      simp only [Session.handle, define] at herror
      split at herror
      · next e' hcompile =>
          cases herror
          exact h.compile_survives follows.declared hcompile
      · cases herror
  | declaration heads => cases herror
  | expression body =>
      simp only [Session.handle, evaluate] at herror
      split at herror
      · next e' hcompile =>
          cases herror
          exact h.compile_survives body.declared hcompile
      · split at herror
        · cases herror
          rfl
        · exact absurd herror (runOnce_outcome _ _ _ _)

end Session

namespace Console

variable {s : Session} {ts : Tokens}

/-- A turn of a session that reads its forms goes on, with a session that reads
its forms. -/
theorem turn_survives (h : s.Told) (limit : Nat) (interactive : Bool) (hne : ts.pending ≠ []) :
    (turn s limit interactive ts hne).session.Told ∧
      (turn s limit interactive ts hne).fatal? = none := by
  have hrespond : (respond s limit ts hne).session.Told ∧
      (respond s limit ts hne).fatal? = none := by
    unfold respond
    split
    · exact ⟨h, rfl⟩
    · next item rest bound hread =>
        have hyields : (s.readItem ts).Yields item rest := ⟨bound, hread⟩
        have htold := Session.Told.handle limit h hyields
        dsimp only
        split
        · exact ⟨htold, rfl⟩
        · next e herror =>
            have hfatal := h.operatorsDefined.survives hyields herror
            simp only [hfatal]
            exact ⟨htold, rfl⟩
  unfold turn
  split
  · exact ⟨h, rfl⟩
  · dsimp only
    split
    · exact hrespond
    · exact hrespond

theorem converse_survives {s : Session} {ts : Tokens} (h : s.Told) (limit : Nat)
    (interactive : Bool) : (converse s limit interactive ts).fatal? = none := by
  unfold converse
  split
  · rfl
  · next hne =>
      obtain ⟨htold, hfatal⟩ := turn_survives h limit interactive hne
      have hshorter := (turn s limit interactive ts hne).shorter
      simp only [hfatal]
      exact converse_survives htold limit interactive
termination_by ts.size

end Console

namespace Session

variable {s : Session}

/-- The grammar and the definitions of operators agree: every operator of the
table is built in or has a function of two parameters with an address, no form
that is read comes to a fatal error, and no dialogue ends early. -/
structure Survives (s : Session) : Prop where
  operators : ∀ op precedence, s.operators.precedence? op = some precedence →
    op ∈ ['=', '<', '+', '-', '*'] ∨ ∃ p, s.registry.get? (.binary op) = some p ∧
      p.params.length = 2 ∧ s.linker.isLinked (Callee.binary op).symbol = true
  items : ∀ (ts rest : Tokens) (item : Item) (limit : Nat) (e : FormError),
    (s.readItem ts).Yields item rest → (s.handle limit item).2.outcome = .error e →
      e.isFatal = false
  dialogues : ∀ (limit : Nat) (interactive : Bool) (text : List Char),
    (Console.run s limit interactive text).fatal? = none

end Session

end Reckon
