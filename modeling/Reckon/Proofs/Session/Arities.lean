import Reckon.Proofs.Grammar.Symbols
import Reckon.Proofs.Machine.Calls
import Reckon.Proofs.Session.Guard
import Reckon.Proofs.Session.Operators

/-!
# Calls and the number of parameters of what they reach

A call is checked against the last prototype that was seen of its callee.  Nothing
makes a declaration agree with the code that its symbol has already, or a
definition with what was declared of its symbol before, so a session can be told to
pass one argument to a function of two parameters (`evaluate_redeclared`).

This is the only way.  In a session whose forms contradict nothing that is known of
their symbols (`Session.Consistent`), every call reaches code with as many
parameters as it passes arguments, in whatever order functions are declared,
defined and defined again (`Session.consistent_callsAgree`).
-/

namespace Reckon

namespace Session

variable {s : Session} {promised : String → Nat}

/-- A form contradicts nothing that is known of its symbol: a definition of a symbol
with a cell has the number of parameters that was promised, and a declaration has
that of the code that the symbol has, or else the one that was promised. -/
def Keeps (promised : String → Nat) (s : Session) : Item → Prop
  | .definition f => s.linker.hasCell f.prototype.callee.symbol = true →
      f.prototype.arity = promised f.prototype.callee.symbol
  | .declaration p => match s.linker.address? p.callee.symbol with
      | some address => s.linker.parameters? address = some p.arity
      | none => p.arity = promised p.callee.symbol
  | .expression _ => True

/-- The sessions that deal with forms which they read from texts, where no form that
is accepted contradicts what is known of its symbol. -/
inductive Consistent (promised : String → Nat) : Session → Prop where
  | start (options : Options) : Consistent promised (start options)
  | handle {s : Session} {ts rest : Tokens} {item : Item} (limit : Nat)
      (consistent : s.Consistent promised) (text : ts.FromText)
      (reads : (s.readItem ts).Yields item rest)
      (keeps : ∀ outcome, (s.handle limit item).2.outcome = .ok outcome →
        s.Keeps promised item) : Consistent promised (s.handle limit item).1

/-- What a session knows about functions can be trusted. -/
structure Trustworthy (promised : String → Nat) (s : Session) : Prop where
  sound : s.Sound
  occurs : ∀ callee p, s.registry.get? callee = some p → callee.Occurs
  agrees : s.linker.Agrees promised
  trusts : ∀ callee, s.surroundings.Trusts promised callee

/-- A prototype that is recorded can be trusted if it is right about its own symbol,
and the others as before if the linker treats their symbols as before. -/
theorem Trustworthy.trusts_insert (h : s.Trustworthy promised) {s' : Session} {p : Prototype}
    (hregistry : s'.registry = (s.registry.insert p).1) (hp : p.callee.Occurs)
    (hunits : ∀ (j : Nat) (v : LinkedUnit), s.linker.units[j]? = some v →
      s'.linker.units[j]? = some v)
    (haddress : ∀ symbol, p.callee.symbol ≠ symbol →
      s'.linker.address? symbol = s.linker.address? symbol)
    (hcell : ∀ symbol, p.callee.symbol ≠ symbol →
      s'.linker.hasCell symbol = s.linker.hasCell symbol)
    (hcode : ∀ address, s'.linker.address? p.callee.symbol = some address →
      s'.linker.parameters? address = some p.arity)
    (hpromised : s'.linker.address? p.callee.symbol = none →
      p.arity = promised p.callee.symbol) (callee : Callee) :
    s'.surroundings.Trusts promised callee := by
  intro q hq
  change s'.registry.get? callee = some q at hq
  rw [hregistry, Registry.get?_insert] at hq
  by_cases hcallee : p.callee = callee
  · subst hcallee
    rw [if_pos rfl] at hq
    obtain rfl := Option.some.inj hq
    exact ⟨hcode, fun hnone _ => hpromised hnone⟩
  · rw [if_neg hcallee] at hq
    -- the linker knows symbols only, so two callees must not share one
    have hsymbol : p.callee.symbol ≠ callee.symbol := by
      intro heq
      exact hcallee (hp.symbol_inj (h.occurs callee q hq) heq)
    obtain ⟨hothers, hreserved⟩ := h.trusts callee q hq
    constructor
    · intro address hfound
      have hold := (haddress _ hsymbol).symm.trans hfound
      exact Linker.parameters?_of_units hunits (hothers address hold)
    · intro hnone hfound
      exact hreserved ((haddress _ hsymbol).symm.trans hnone) ((hcell _ hsymbol).symm.trans hfound)

theorem Trustworthy.occurs_insert (h : s.Trustworthy promised) {p : Prototype}
    (hp : p.callee.Occurs) {callee : Callee} {q : Prototype}
    (hq : (s.registry.insert p).1.get? callee = some q) : callee.Occurs := by
  rw [Registry.get?_insert] at hq
  split at hq
  · next heq => exact heq ▸ hp
  · exact h.occurs callee q hq

theorem announce_registry_of_occurs {p : Prototype} (hp : p.callee.Occurs) :
    (s.announce p).1.registry = (s.registry.insert p).1 := by
  rw [announce_registry, Prototype.isAnonymous_of_occurs hp]
  rfl

/-- Compiled code passes the arguments that were agreed on, and starts. -/
theorem Trustworthy.compile (h : s.Trustworthy promised) {registry : Registry} {f : Function}
    {c : Compilation} (hkeyed : registry.Keyed)
    (hknown : ∀ callee, f.prototype.callee ≠ callee →
      registry.get? callee = s.registry.get? callee)
    (hok : Surroundings.compile ⟨registry, s.linker⟩ f = .ok c) :
    (s.linker.unitOf c).Agrees (s.linker.load c).1 promised := by
  have hagrees : c.Agrees s.linker promised := by
    refine compile_agrees (fun callee hne p hp => ?_) hok
    exact h.trusts callee p ((hknown callee (Ne.symm hne)).symm.trans hp)
  exact Linker.agrees_unitOf hagrees fun xs hlength => compile_starts hkeyed hok hlength

/-- A definition that contradicts nothing can be trusted. -/
theorem Trustworthy.define (h : s.Trustworthy promised) {f : Function} {c : Compilation}
    (hp : f.prototype.callee.Occurs)
    (hok : (s.announce f.prototype).1.surroundings.compile f = .ok c)
    (hkeeps : s.Keeps promised (.definition f))
    (hsound : Sound { (s.announce f.prototype).1 with linker := s.linker.link c }) :
    Trustworthy promised { (s.announce f.prototype).1 with linker := s.linker.link c } := by
  have hregistry := announce_registry_of_occurs (s := s) hp
  obtain ⟨hprototype, -, harity⟩ := Surroundings.compile_head hok
  have hnamed : c.prototype.isAnonymous = false := by
    rw [hprototype]
    exact Prototype.isAnonymous_of_occurs hp
  have hunit : (s.linker.unitOf c).Agrees (s.linker.load c).1 promised := by
    rw [surroundings, hregistry, announce_linker] at hok
    exact h.compile (h.sound.keyed.insert f.prototype)
      (fun callee hne => (Registry.get?_insert _ _ _).trans (if_neg hne)) hok
  have haddress (symbol : String) : (s.linker.link c).address? symbol =
      if f.prototype.callee.symbol = symbol then some (.unit s.linker.units.size)
      else s.linker.address? symbol := by
    rw [Linker.address?_link hnamed, hprototype]
  refine ⟨hsound, ?_, ?_, ?_⟩
  · intro callee p hq
    exact h.occurs_insert hp (hregistry ▸ hq)
  · apply h.agrees.link hunit
    rw [hprototype, harity]
    exact hkeeps
  · refine h.trusts_insert ?_ hp ?_ ?_ ?_ ?_ ?_
    · exact hregistry
    · exact fun _ _ => Linker.link_units_lt
    · exact fun symbol hne => (haddress symbol).trans (if_neg hne)
    · exact fun symbol _ => Linker.hasCell_link symbol
    · intro address hfound
      rw [haddress, if_pos rfl] at hfound
      obtain rfl := Option.some.inj hfound
      exact (Linker.parameters?_link hnamed).trans (congrArg some harity)
    · intro hnone
      rw [haddress, if_pos rfl] at hnone
      cases hnone

/-- A declaration that contradicts nothing can be trusted. -/
theorem Trustworthy.declare (h : s.Trustworthy promised) {p : Prototype} (hp : p.callee.Occurs)
    (hkeeps : s.Keeps promised (.declaration p)) (hsound : (s.declare p).1.Sound) :
    Trustworthy promised (s.declare p).1 := by
  have hunits : ∀ (j : Nat) (v : LinkedUnit), s.linker.units[j]? = some v →
      (s.linker.reserve p.callee.symbol).units[j]? = some v := by
    intro j v hv
    rwa [Linker.reserve_units]
  refine ⟨hsound, fun callee q hq => h.occurs_insert hp hq, h.agrees.reserve _, ?_⟩
  simp only [Keeps] at hkeeps
  apply h.trusts_insert rfl hp hunits
  · exact fun _ _ => Linker.address?_reserve _ _
  · exact fun _ hne => Linker.hasCell_reserve hne
  · intro address hfound
    have hold := (Linker.address?_reserve _ _).symm.trans hfound
    rw [hold] at hkeeps
    exact Linker.parameters?_of_units hunits hkeeps
  · intro hnone
    have hold := (Linker.address?_reserve _ _).symm.trans hnone
    rwa [hold] at hkeeps

/-- A form that contradicts nothing leaves the session trustworthy. -/
theorem Trustworthy.handle (h : s.Trustworthy promised) {ts rest : Tokens} {item : Item}
    {limit : Nat} (text : ts.FromText) (reads : (s.readItem ts).Yields item rest)
    (keeps : ∀ outcome, (s.handle limit item).2.outcome = .ok outcome → s.Keeps promised item) :
    Trustworthy promised (s.handle limit item).1 := by
  have hoccurs := text.prototype_occurs reads
  have hsound := h.sound.handle limit item
  cases item with
  | definition f =>
      rcases s.define_cases f with ⟨e, hrejected⟩ | ⟨c, hok, hdefined⟩
      · have hsame : (s.handle limit (.definition f)).1 = s := congrArg Prod.fst hrejected
        rwa [hsame]
      · have hafter : (s.handle limit (.definition f)).1 =
            { (s.announce f.prototype).1 with linker := s.linker.link c } :=
          congrArg Prod.fst hdefined
        have houtcome := congrArg (fun r => r.2.outcome) hdefined
        rw [hafter] at hsound ⊢
        exact h.define (hoccurs _ rfl) hok (keeps _ houtcome) hsound
  | declaration p => exact h.declare (hoccurs p rfl) (keeps _ rfl) hsound
  | expression body =>
      have hsame : (s.handle limit (.expression body)).1 = s := by
        rcases s.evaluate_cases limit body with ⟨e, hrejected⟩ | ⟨c, -, -, hran⟩
        · exact congrArg Prod.fst hrejected
        · exact congrArg Prod.fst hran
      rwa [hsame]

theorem Consistent.trustworthy (h : s.Consistent promised) : s.Trustworthy promised := by
  induction h with
  | start options =>
      refine ⟨⟨Registry.keyed_empty, Linker.coherent_empty⟩, ?_, Linker.agrees_empty promised, ?_⟩
      · intro callee p hp
        cases hp
      · intro callee p hp
        cases hp
  | handle limit consistent text reads keeps ih => exact ih.handle text reads keeps

/-- Wherever an evaluation gets to, its calls reach code with as many parameters as
they pass arguments, and no evaluation ends because of their number. -/
structure CallsAgree (s : Session) : Prop where
  calls : ∀ body c active m address args,
    s.surroundings.compile ⟨.anonymous, body⟩ = .ok c →
    Activation.start? (s.linker.unitOf c) [] = some active →
    Machine.Reaches (s.linker.load c).1 ⟨active, [], ""⟩ m →
    m.Calls (s.linker.load c).1 address args →
      (s.linker.load c).1.parameters? address = some args.length
  ends : ∀ limit body address found,
    (s.evaluate limit body).2.outcome ≠ .ok (.stopped (.wrongArity address found))

/-- A run of an expression stays in linked code that agrees. -/
theorem Trustworthy.running (h : s.Trustworthy promised) {body : Expr} {c : Compilation}
    (hok : s.surroundings.compile ⟨.anonymous, body⟩ = .ok c) :
    (s.linker.load c).1.Agrees promised ∧ (∃ active,
      Activation.start? (s.linker.unitOf c) [] = some active) ∧
        ∀ active m, Activation.start? (s.linker.unitOf c) [] = some active →
          Machine.Reaches (s.linker.load c).1 ⟨active, [], ""⟩ m →
            m.Linked (s.linker.load c).1 := by
  have hunit : (s.linker.unitOf c).Agrees (s.linker.load c).1 promised :=
    h.compile h.sound.keyed (fun _ _ => rfl) hok
  have harity : (s.linker.unitOf c).procedure.arity = ([] : List Float).length :=
    (Surroundings.compile_head hok).2.2
  refine ⟨h.agrees.load hunit, ?_, ?_⟩
  · obtain ⟨frame, hframe⟩ := hunit.starts [] harity
    exact ⟨_, by rw [Activation.start?, hframe, Option.map_some]⟩
  · intro active m hactive hreaches
    refine hreaches.invariant (fun _ _ hstep hlinked => hlinked.step hstep) ?_
    refine List.forall_mem_singleton.mpr ⟨_, _, s.linker.load_unit c, ?_⟩
    exact Activation.runs_start hactive

/-- **Calls agree with the code they reach** in every session whose forms contradict
nothing that is known of their symbols. -/
theorem consistent_callsAgree (h : s.Consistent promised) : s.CallsAgree where
  calls := by
    intro body c active m address args hok hactive hreaches hcalls
    obtain ⟨hagrees, -, hlinked⟩ := h.trustworthy.running hok
    exact (hlinked active m hactive hreaches).calls hagrees hcalls
  ends := by
    intro limit body address found houtcome
    rcases s.evaluate_cases limit body with ⟨e, hrejected⟩ | ⟨c, hok, -, hran⟩
    · rw [hrejected] at houtcome
      cases houtcome
    · obtain ⟨hagrees, ⟨active, hactive⟩, hlinked⟩ := h.trustworthy.running hok
      rw [hran, runOnce_stopped (fun value heq => by cases heq), execute_load, hactive]
        at houtcome
      obtain ⟨m, hreaches, hended⟩ := Machine.run_ended houtcome (fun heq => by cases heq)
      exact (hlinked active m hactive hreaches).step_ne_wrongArity hagrees found hended

/-- A session that is told to call a function through a cell, and only then what the
function is. -/
theorem consistent_callsAgree_forward :
    ∃ s : Session, s.Consistent (fun _ => 1) ∧
      s.linker.cells.find? "g" = some (some (.unit 1)) ∧
      (s.evaluate 30 (.call "f" [.number 1])).2.outcome.toOption = some (.evaluated 1) ∧
      s.CallsAgree := by
  have hreadDeclaration : (Grammar.item .builtins (.ofString "extern g(x)")).Yields
      (.declaration ⟨"g", ["x"], .function⟩) ⟨[], ⟨11, 11, 1, 11⟩⟩ :=
    ⟨by decide +kernel, by with_unfolding_all rfl⟩
  have hreadCaller : (Grammar.item .builtins (.ofString "def f(x) g(x)")).Yields
      (.definition ⟨⟨"f", ["x"], .function⟩, .call "g" [.var "x"]⟩) ⟨[], ⟨13, 13, 1, 13⟩⟩ :=
    ⟨by decide +kernel, by with_unfolding_all rfl⟩
  have hreadCallee : (Grammar.item .builtins (.ofString "def g(a) a")).Yields
      (.definition ⟨⟨"g", ["a"], .function⟩, .var "a"⟩) ⟨[], ⟨10, 10, 1, 10⟩⟩ :=
    ⟨by decide +kernel, by with_unfolding_all rfl⟩
  have hstart : (start .standard).Consistent fun _ => 1 := .start .standard
  have hdeclared := hstart.handle 0 ⟨_, List.suffix_rfl⟩ hreadDeclaration fun _ _ => rfl
  have hcaller := hdeclared.handle 0 ⟨_, List.suffix_rfl⟩ hreadCaller fun _ _ _ => rfl
  have hcallee := hcaller.handle 0 ⟨_, List.suffix_rfl⟩ hreadCallee fun _ _ _ => rfl
  exact ⟨_, hcallee, by decide, by decide +kernel, consistent_callsAgree hcallee⟩

/-- A session that is told that `f` has one parameter after it has defined `f` with
two. -/
def redeclared : Session :=
  ((start .standard).define ⟨⟨"f", ["a", "b"], .function⟩, .var "a"⟩).1.declare
    ⟨"f", ["x"], .function⟩ |>.1

/-- The call that the declaration asks for passes too few arguments. -/
theorem evaluate_redeclared :
    redeclared.Told ∧ (redeclared.evaluate 30 (.call "f" [.number 1])).2.outcome.toOption =
      some (.stopped (.wrongArity (.unit 0) 1)) := by
  have hreadDefinition : (Grammar.item .builtins (.ofString "def f(a b) a")).Yields
      (.definition ⟨⟨"f", ["a", "b"], .function⟩, .var "a"⟩) ⟨[], ⟨12, 12, 1, 12⟩⟩ :=
    ⟨by decide +kernel, by with_unfolding_all rfl⟩
  have hreadDeclaration : (Grammar.item .builtins (.ofString "extern f(x)")).Yields
      (.declaration ⟨"f", ["x"], .function⟩) ⟨[], ⟨11, 11, 1, 11⟩⟩ :=
    ⟨by decide +kernel, by with_unfolding_all rfl⟩
  have hdefined := Told.handle 0 (.start .standard) hreadDefinition
  exact ⟨Told.handle 0 hdefined hreadDeclaration, by decide +kernel⟩

end Session

end Reckon
