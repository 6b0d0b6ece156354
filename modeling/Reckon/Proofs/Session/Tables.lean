import Reckon.Proofs.Link.Tables
import Reckon.Proofs.Lowering.Needs
import Reckon.Proofs.Session.Guard
import Reckon.Proofs.Session.Operators

/-!
# The tables of a session

A session recalls the definitions that it has accepted (`Session.Recalls`), and its
tables are what they make them (`Session.recalls_inOrder`), whatever else has been
declared, rejected or evaluated in between.  In particular everything that is known has
an address or a cell, so only the guard of an evaluation can find a symbol unresolved.
-/

namespace Reckon

namespace Session

variable {s : Session} {defined : List Function}

/-- The definition that a form is, if it is one that is accepted. -/
def accepted (s : Session) : Item → List Function
  | .definition f =>
    match (s.define f).2.outcome with
    | .ok _ => [f]
    | .error _ => []
  | _ => []

/-- The sessions that forms lead to, with the definitions that have been accepted, the
last one first. -/
inductive Recalls : Session → List Function → Prop where
  | start (options : Options) : Recalls (start options) []
  | handle {s : Session} {defined : List Function} (limit : Nat) (item : Item)
      (recalls : s.Recalls defined) :
      Recalls (s.handle limit item).1 (s.accepted item ++ defined)

theorem Recalls.reachable (h : s.Recalls defined) : s.Reachable := by
  induction h with
  | start options => exact .start options
  | handle limit item recalls ih => exact .handle limit item ih

theorem Reachable.recalls (h : s.Reachable) : ∃ defined, s.Recalls defined := by
  induction h with
  | start options => exact ⟨[], .start options⟩
  | handle limit item reachable ih =>
      obtain ⟨defined, hrecalls⟩ := ih
      exact ⟨_, hrecalls.handle limit item⟩

/-- A definition that is accepted is recalled. -/
theorem Recalls.define (h : s.Recalls defined) {f : Function}
    (hok : (s.define f).2.outcome.toOption ≠ none) : Recalls (s.define f).1 (f :: defined) := by
  have haccepted : s.accepted (.definition f) = [f] := by
    rw [accepted]
    cases houtcome : (s.define f).2.outcome with
    | ok outcome => rfl
    | error e => simp [houtcome, Except.toOption] at hok
  have hnext := h.handle 0 (.definition f)
  rwa [haccepted] at hnext

/-- A form changes a session as a definition that is accepted, as a declaration, or not
at all. -/
theorem handle_accepted_cases (s : Session) (limit : Nat) (item : Item) :
    (s.handle limit item).1 = s ∧ s.accepted item = [] ∨
      (∃ f c, (s.announce f.prototype).1.surroundings.compile f = .ok c ∧
        (s.handle limit item).1 =
          { (s.announce f.prototype).1 with linker := s.linker.link c } ∧
        s.accepted item = [f]) ∨
      ∃ p, (s.handle limit item).1 = (s.declare p).1 ∧ s.accepted item = [] := by
  cases item with
  | definition f =>
      simp only [accepted, Session.handle]
      rcases s.define_cases f with ⟨e, hdefine⟩ | ⟨c, hok, hdefine⟩
      · rw [hdefine]
        exact Or.inl ⟨rfl, rfl⟩
      · rw [hdefine]
        exact Or.inr (Or.inl ⟨f, c, hok, rfl, rfl⟩)
  | declaration p => exact Or.inr (Or.inr ⟨p, rfl, rfl⟩)
  | expression body =>
      refine Or.inl ⟨?_, rfl⟩
      rcases s.evaluate_cases limit body with ⟨e, hevaluate⟩ | ⟨c, -, -, hevaluate⟩
      · exact congrArg Prod.fst hevaluate
      · exact congrArg Prod.fst hevaluate

/-- The tables are what the definitions that were accepted make them, and every
prototype that is known has an address or a cell for its symbol. -/
structure Kept (s : Session) (defined : List Function) : Prop where
  tables : s.linker.Tabled defined
  keyed : s.registry.Keyed
  registered : ∀ callee, (s.registry.get? callee).isSome = true → s.linker.Knows callee.symbol

/-- Whatever is known where a function is compiled can be called there. -/
theorem Kept.offers (h : s.Kept defined) (p : Prototype) {callee : Callee}
    (hknown : ((s.announce p).1.registry.get? callee).isSome = true) :
    (s.announce p).1.surroundings.Offers p callee := by
  have hold (hbefore : (s.registry.get? callee).isSome = true) :
      (s.announce p).1.surroundings.Offers p callee := by
    have hthere := Linker.knows_iff.mp (h.registered callee hbefore)
    rw [← s.announce_linker p] at hthere
    exact Or.inr hthere
  rw [announce_registry] at hknown
  split at hknown
  · exact hold hknown
  · rw [Registry.get?_insert] at hknown
    split at hknown
    · next heq => exact Or.inl heq
    · exact hold hknown

/-- What a function needs where it is compiled is known. -/
theorem Kept.needs (h : s.Kept defined) {f : Function} {c : Compilation}
    (hok : (s.announce f.prototype).1.surroundings.compile f = .ok c) :
    (∀ symbol, symbol ∈ c.unit.references ↔ symbol ∈ f.needs) ∧
      ∀ symbol ∈ f.needs, s.linker.Knows symbol := by
  obtain ⟨hneeds, hoffers⟩ :=
    Surroundings.compile_needs (s.announce_keyed h.keyed f.prototype) hok
  refine ⟨hneeds, fun symbol hsymbol => ?_⟩
  obtain ⟨callee, hcallee, hne, rfl⟩ := Function.mem_needs.mp hsymbol
  rcases hoffers callee hcallee with heq | hthere
  · exact absurd heq.symm hne
  · rw [← s.announce_linker f.prototype]
    exact Linker.knows_iff.mpr hthere

/-- A definition that is accepted keeps the tables. -/
theorem Kept.define (h : s.Kept defined) {f : Function} {c : Compilation}
    (hok : (s.announce f.prototype).1.surroundings.compile f = .ok c) :
    Kept { (s.announce f.prototype).1 with linker := s.linker.link c } (f :: defined) := by
  have hprototype : c.prototype = f.prototype := (Surroundings.compile_head hok).1
  obtain ⟨hneeds, hknows⟩ := h.needs hok
  refine ⟨h.tables.link hprototype hneeds hknows, s.announce_keyed h.keyed f.prototype,
    fun callee hknown => ?_⟩
  change ((s.announce f.prototype).1.registry.get? callee).isSome = true at hknown
  rw [announce_registry] at hknown
  split at hknown
  · exact (h.registered callee hknown).link c
  · next hnamed =>
      rw [Registry.get?_insert] at hknown
      split at hknown
      · next heq =>
          subst heq
          rw [← hprototype] at hnamed ⊢
          exact Linker.knows_iff.mpr (Or.inl (Linker.isLinked_link_self (by simpa using hnamed)))
      · exact (h.registered callee hknown).link c

/-- A declaration keeps the tables. -/
theorem Kept.declare (h : s.Kept defined) (p : Prototype) : (s.declare p).1.Kept defined := by
  refine ⟨h.tables.reserve p.callee.symbol, h.keyed.insert p, fun callee hknown => ?_⟩
  change ((s.registry.insert p).1.get? callee).isSome = true at hknown
  rw [Registry.get?_insert] at hknown
  split at hknown
  · next heq =>
      subst heq
      exact s.linker.knows_reserve p.callee.symbol
  · exact (h.registered callee hknown).reserve p.callee.symbol

theorem Recalls.kept (h : s.Recalls defined) : s.Kept defined := by
  induction h with
  | start options =>
      exact ⟨Linker.tabled_empty, Registry.keyed_empty, fun callee hknown => by cases hknown⟩
  | @handle s defined limit item recalls ih =>
      rcases s.handle_accepted_cases limit item with
        ⟨hsame, hnone⟩ | ⟨f, c, hok, hdefined, hone⟩ | ⟨p, hdeclared, hnone⟩
      · rw [hsame, hnone]
        exact ih
      · rw [hdefined, hone]
        exact ih.define hok
      · rw [hdeclared, hnone]
        exact ih.declare p

/-- Everything that a session knows has an address or a cell. -/
theorem Reachable.available (h : s.Reachable) {callee : Callee}
    (hknown : (s.registry.get? callee).isSome) :
    s.linker.isLinked callee.symbol = true ∨ s.linker.hasCell callee.symbol = true := by
  obtain ⟨defined, hrecalls⟩ := h.recalls
  exact Linker.knows_iff.mp (hrecalls.kept.registered callee hknown)

/-- Compiling a function never finds a symbol unresolved. -/
theorem Kept.compile_ne_unresolved (h : s.Kept defined) (f : Function) (symbol : String) :
    (s.compile f).2 ≠ .error (.unresolvedSymbol symbol) := by
  rw [compile_snd]
  exact Surroundings.compile_ne_unresolved (s.announce_keyed h.keyed f.prototype)
    (fun callee hknown => h.offers f.prototype hknown) symbol

/-- A symbol that is reported as unresolved was found by the guard of an evaluation. -/
theorem Kept.unresolved_iff (h : s.Kept defined) (limit : Nat) (item : Item) (symbol : String) :
    (s.handle limit item).2.outcome = .error (.lowerError (.unresolvedSymbol symbol)) ↔
      ∃ body c, item = .expression body ∧ s.surroundings.compile ⟨.anonymous, body⟩ = .ok c ∧
        s.linker.unresolved? c.unit = some symbol := by
  constructor
  · intro houtcome
    cases item with
    | definition f =>
        have hcompiles := h.compile_ne_unresolved f symbol
        rw [compile_snd] at hcompiles
        rw [Session.handle, define_eq] at houtcome
        cases hcompile : (s.announce f.prototype).1.surroundings.compile f with
        | error e =>
            rw [hcompile] at houtcome hcompiles
            cases houtcome
            exact absurd rfl hcompiles
        | ok c =>
            rw [hcompile] at houtcome
            cases houtcome
    | declaration p => cases houtcome
    | expression body =>
        have hcompiles := h.compile_ne_unresolved ⟨.anonymous, body⟩ symbol
        rw [compile_snd, announce_anonymous] at hcompiles
        rw [Session.handle, evaluate_eq] at houtcome
        cases hcompile : s.surroundings.compile ⟨.anonymous, body⟩ with
        | error e =>
            rw [hcompile] at houtcome hcompiles
            cases houtcome
            exact absurd rfl hcompiles
        | ok c =>
            simp only [hcompile] at houtcome
            refine ⟨body, c, rfl, hcompile, ?_⟩
            cases hguard : s.linker.unresolved? c.unit with
            | some found =>
                rw [hguard] at houtcome
                cases houtcome
                rfl
            | none =>
                rw [hguard] at houtcome
                exact absurd houtcome (runOnce_outcome _ _ _ _)
  · rintro ⟨body, c, rfl, hok, hfound⟩
    rw [Session.handle, evaluate_eq, hok]
    simp only [hfound]

/-- The tables of a session agree with each other and with the definitions that have
been accepted, the last of which comes first.  Compiling never finds a symbol without an
address or a cell; what reports one is the guard of an evaluation. -/
structure InOrder (s : Session) (defined : List Function) : Prop where
  published : ∀ symbol, (s.linker.published? symbol).isSome = true ↔
    ∃ f ∈ defined, f.prototype.isAnonymous = false ∧ f.symbol = symbol
  cells : ∀ symbol content, s.linker.cells.find? symbol = some content →
    content = s.linker.published? symbol
  primitives : ∀ primitive : Primitive, s.linker.hasCell primitive.symbol = false
  registered : ∀ callee p, s.registry.get? callee = some p →
    p.callee = callee ∧ s.linker.Knows callee.symbol
  depended : ∀ symbol references, s.linker.dependencies.find? symbol = some references →
    ∀ other ∈ references, s.linker.Knows other
  recorded : ∀ symbol,
    s.linker.dependencies.contains symbol = (s.linker.published? symbol).isSome
  units : s.linker.unitCount = defined.length
  compiles : ∀ f symbol, (s.compile f).2 ≠ .error (.unresolvedSymbol symbol)
  guards : ∀ limit item symbol,
    (s.handle limit item).2.outcome = .error (.lowerError (.unresolvedSymbol symbol)) ↔
      ∃ body c, item = .expression body ∧ s.surroundings.compile ⟨.anonymous, body⟩ = .ok c ∧
        s.linker.unresolved? c.unit = some symbol

/-- **The tables of a session stay in order**, whatever forms it deals with. -/
theorem recalls_inOrder (h : s.Recalls defined) : s.InOrder defined where
  published := h.kept.tables.published
  cells := h.kept.tables.cells
  primitives := h.kept.tables.primitives
  registered callee p hp :=
    ⟨h.kept.keyed callee p hp, h.kept.registered callee (by rw [hp]; rfl)⟩
  depended symbol references hreferences other hother := by
    refine h.kept.tables.depended symbol other ?_
    rwa [Linker.dependenciesOf, hreferences]
  recorded := h.kept.tables.recorded
  units := h.kept.tables.units
  compiles := h.kept.compile_ne_unresolved
  guards := h.kept.unresolved_iff

/-- A session in which `g` calls `h`, which is declared before and defined after it, and
the guard reports a function that is only declared. -/
theorem recalls_inOrder_forward :
    let prototype (name : String) : Prototype := ⟨name, ["x"], .function⟩
    let g : Function := ⟨prototype "g", .call "h" [.var "x"]⟩
    let h : Function := ⟨prototype "h", .var "x"⟩
    ∃ s : Session, s.Recalls [h, g] ∧ s.linker.cells.find? "h" = some (some (.unit 1)) ∧
      s.linker.cells.find? "k" = some none ∧
      s.linker.dependencies.find? "g" = some ["h"] ∧ s.InOrder [h, g] := by
  intro prototype g h
  have hstart : (start .standard).Recalls [] := .start .standard
  have hdeclared : Recalls _ [] := hstart.handle 0 (.declaration (prototype "h"))
  have hcaller : Recalls _ [g] := hdeclared.define (by decide)
  have hcallee : Recalls _ [h, g] := hcaller.define (by decide)
  have hother : Recalls _ [h, g] := hcallee.handle 0 (.declaration (prototype "k"))
  exact ⟨_, hother, by decide, by decide, by decide,
    recalls_inOrder hother⟩

end Session

end Reckon
