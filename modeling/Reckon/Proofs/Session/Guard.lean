import Reckon.Proofs.Machine.Guard
import Reckon.Proofs.Session.Forms

/-!
# What the guard of a session is worth

A session evaluates an expression only if the guard finds no symbol without an
address among those that the expression leads to.  In every session that forms
can lead to, the records that the guard goes by agree with the linked units
(`Session.Reachable.coherent`).  Even so an evaluation can call through an empty
cell: the guard does not see definitions that have been replaced, and older
callers still call them.  `Session.evaluate_emptyCell_iff` says that it happens in
this way only.
-/

namespace Reckon

namespace Session

variable {s : Session}

/-- The sessions that forms lead to. -/
inductive Reachable : Session → Prop where
  | start (options : Options) : Reachable (start options)
  | handle {s : Session} (limit : Nat) (item : Item) (reachable : s.Reachable) :
      Reachable (s.handle limit item).1

/-- A function is compiled under its own symbol. -/
theorem compile_symbol {around : Surroundings} {f : Function} {c : Compilation}
    (h : around.compile f = .ok c) : c.procedure.symbol = c.prototype.callee.symbol := by
  obtain ⟨hprototype, hsymbol, -⟩ := Surroundings.compile_head h
  rw [hsymbol, hprototype]

/-- The records of a session can be relied upon. -/
structure Sound (s : Session) : Prop where
  keyed : s.registry.Keyed
  coherent : s.linker.Coherent

/-- Whatever a form does, the records can still be relied upon. -/
theorem Sound.handle (h : s.Sound) (limit : Nat) (item : Item) : (s.handle limit item).1.Sound := by
  rcases s.handle_cases limit item with hsame | ⟨f, c, -, hok, hlinked⟩ | ⟨p, -, hdeclared⟩
  · rw [hsame]
    exact h
  · rw [hlinked]
    have hkeyed := s.announce_keyed h.keyed f.prototype
    have hresolved := compile_resolved hkeyed hok
    simp only [surroundings, announce_linker] at hresolved
    exact ⟨hkeyed, h.coherent.link hresolved (compile_symbol hok)⟩
  · rw [hdeclared]
    exact ⟨h.keyed.insert p, h.coherent.reserve p.callee.symbol⟩

theorem Reachable.sound (h : s.Reachable) : s.Sound := by
  induction h with
  | start options => exact ⟨Registry.keyed_empty, Linker.coherent_empty⟩
  | handle limit item reachable ih => exact ih.handle limit item

/-- Evaluating an expression gets to a state of the machine. -/
def Enters (s : Session) (body : Expr) (m : Machine) : Prop :=
  ∃ c active, s.surroundings.compile ⟨.anonymous, body⟩ = .ok c ∧
    s.linker.unresolved? c.unit = none ∧
    Activation.start? (s.linker.unitOf c) [] = some active ∧
    Machine.Reaches (s.linker.load c).1 ⟨active, [], ""⟩ m

/-- A unit that has just been loaded is run from its start. -/
theorem execute_load (s : Session) (limit : Nat) (c : Compilation) :
    (s.linker.load c).1.execute limit (s.linker.load c).2 [] =
      match Activation.start? (s.linker.unitOf c) [] with
      | some active => Machine.run (s.linker.load c).1 limit ⟨active, [], ""⟩
      | none => (.wrongArity (s.linker.load c).2 0, "") := by
  have hunit := s.linker.load_unit c
  simp only [Linker.execute, Linker.load_eq] at hunit ⊢
  rw [hunit]
  rfl

/-- Running an expression is stopped as the execution of its unit ends. -/
theorem runOnce_stopped {limit : Nat} {c : Compilation} {ending : Ending}
    (hended : ∀ value, ending ≠ .value value) :
    (s.runOnce limit c).outcome = .ok (.stopped ending) ↔
      ((s.linker.load c).1.execute limit (s.linker.load c).2 []).1 = ending := by
  unfold runOnce
  dsimp only
  split
  · next value output hvalue =>
      rw [hvalue]
      simpa using (hended value).symm
  · next found output hother hfound =>
      rw [hfound]
      simp

/-- Running an expression finds a cell empty if its unit does, from the start. -/
theorem runOnce_emptyCell {limit : Nat} {c : Compilation} {symbol : String} :
    (s.runOnce limit c).outcome = .ok (.stopped (.emptyCell symbol)) ↔
      ∃ active, Activation.start? (s.linker.unitOf c) [] = some active ∧
        (Machine.run (s.linker.load c).1 limit ⟨active, [], ""⟩).1 = .emptyCell symbol := by
  rw [runOnce_stopped (fun value heq => by cases heq), execute_load]
  cases hstart : Activation.start? (s.linker.unitOf c) [] with
  | none => simp
  | some active => simp

/-- What the guard lets through is watched from the start. -/
theorem Sound.watch (h : s.Sound) {body : Expr} {c : Compilation}
    (hok : s.surroundings.compile ⟨.anonymous, body⟩ = .ok c)
    (hguard : s.linker.unresolved? c.unit = none) :
    ∃ w : Watch, w.linker = s.linker ∧ w.expression = c ∧
      ∀ active, Activation.start? (s.linker.unitOf c) [] = some active → w.Shielded [active] := by
  have hresolved : c.Resolved s.linker := compile_resolved h.keyed hok
  obtain ⟨visited, hclosed, hwithin⟩ := Linker.unresolved?_eq_none hguard
  refine ⟨⟨s.linker, c, visited, h.coherent, hresolved, hclosed, hwithin⟩, rfl, rfl, ?_⟩
  intro active hactive
  have hruns := Activation.runs_start hactive
  have hunit := s.linker.load_unit c
  have hrecorded := h.coherent.recorded_unitOf hresolved
  exact ⟨⟨_, _, hunit, hruns⟩,
    Or.inl ⟨_, _, c.unit.references, hunit, hruns, hrecorded, hwithin⟩, trivial⟩

/-- An evaluation that finds a cell empty has got to a call for a caller that has
been superseded. -/
theorem Sound.emptyCell (h : s.Sound) {limit : Nat} {body : Expr} {symbol : String}
    (houtcome : (s.evaluate limit body).2.outcome = .ok (.stopped (.emptyCell symbol))) :
    ∃ m, s.Enters body m ∧ m.CallsThrough symbol ∧ s.linker.address? symbol = none ∧
      ∃ a ∈ m.activations, a.Superseded s.linker := by
  rcases s.evaluate_cases limit body with ⟨e, herror⟩ | ⟨c, hok, hguard, hran⟩
  · rw [herror] at houtcome
    cases houtcome
  · rw [hran] at houtcome
    obtain ⟨active, hactive, hrun⟩ := runOnce_emptyCell.mp houtcome
    obtain ⟨m, hreaches, hended⟩ := Machine.run_ended hrun (fun heq => by cases heq)
    obtain ⟨w, hlinker, rfl, hstart⟩ := h.watch hok hguard
    have hrunning : w.running = (s.linker.load w.expression).1 := by
      rw [Watch.running, hlinker]
    have hshielded : w.Shielded m.activations := by
      refine hreaches.invariant (P := fun m => w.Shielded m.activations) ?_ (hstart active hactive)
      intro m m' hstep hm
      exact hm.step (hrunning ▸ hstep)
    have hfound := hshielded.emptyCell (hrunning ▸ hended)
    rw [hlinker] at hfound
    exact ⟨m, ⟨w.expression, active, hok, hguard, hactive, hreaches⟩, hfound⟩

/-- What compiles and passes the guard is run. -/
theorem evaluate_of_guard (limit : Nat) {body : Expr} {c : Compilation}
    (hok : s.surroundings.compile ⟨.anonymous, body⟩ = .ok c)
    (hguard : s.linker.unresolved? c.unit = none) :
    s.evaluate limit body = (s, s.runOnce limit c) := by
  rw [evaluate_eq]
  simp only [hok, hguard]

/-- **The guard fails for replaced definitions only.**  An evaluation that the
guard lets through calls through an empty cell exactly if it gets to a call of a
symbol without an address, made by a definition that has been replaced or on
behalf of one. -/
theorem evaluate_emptyCell_iff (hs : s.Reachable) (body : Expr) (symbol : String) :
    (∃ limit, (s.evaluate limit body).2.outcome = .ok (.stopped (.emptyCell symbol))) ↔
      ∃ m, s.Enters body m ∧ m.CallsThrough symbol ∧ s.linker.address? symbol = none ∧
        ∃ a ∈ m.activations, a.Superseded s.linker := by
  constructor
  · intro h
    obtain ⟨limit, houtcome⟩ := h
    exact hs.sound.emptyCell houtcome
  · intro h
    obtain ⟨m, ⟨c, active, hok, hguard, hactive, hreaches⟩, hcalls, haddress, -⟩ := h
    obtain ⟨w, hlinker, rfl, -⟩ := hs.sound.watch hok hguard
    have hended : m.step w.running = .ended (.emptyCell symbol) :=
      Watch.step_of_callsThrough hcalls (hlinker.symm ▸ haddress)
    rw [Watch.running, hlinker] at hended
    obtain ⟨limit, hrun⟩ := hreaches.run hended
    refine ⟨limit, ?_⟩
    rw [evaluate_of_guard limit hok hguard]
    exact runOnce_emptyCell.mpr ⟨active, hactive, hrun⟩

/-- A session in which `g` calls the first of two definitions of `f`, and that
definition calls `h`, which is only declared. -/
def replacedCallee : Session :=
  let prototype (name : String) : Prototype := ⟨name, ["x"], .function⟩
  let items : List Item :=
    [.declaration (prototype "h"), .definition ⟨prototype "f", .call "h" [.var "x"]⟩,
      .definition ⟨prototype "g", .call "f" [.var "x"]⟩, .definition ⟨prototype "f", .var "x"⟩]
  items.foldl (fun s item => (s.handle 0 item).1) (start .standard)

/-- The guard lets a call of `g` through although `h` has no code. -/
theorem evaluate_replacedCallee :
    replacedCallee.Reachable ∧
      (replacedCallee.evaluate 30 (.call "g" [.number 1])).2.outcome =
        .ok (.stopped (.emptyCell "h")) ∧
      ∃ m, replacedCallee.Enters (.call "g" [.number 1]) m ∧ m.CallsThrough "h" ∧
        replacedCallee.linker.address? "h" = none ∧
        ∃ a ∈ m.activations, a.Superseded replacedCallee.linker := by
  have hreachable : replacedCallee.Reachable :=
    .handle _ _ (.handle _ _ (.handle _ _ (.handle _ _ (.start _))))
  have hstopped : (replacedCallee.evaluate 30 (.call "g" [.number 1])).2.outcome.toOption =
      some (.stopped (.emptyCell "h")) := by
    decide +kernel
  have houtcome : (replacedCallee.evaluate 30 (.call "g" [.number 1])).2.outcome =
      .ok (.stopped (.emptyCell "h")) := by
    revert hstopped
    generalize (replacedCallee.evaluate 30 (.call "g" [.number 1])).2.outcome = outcome
    intro hstopped
    cases outcome with
    | error e => cases hstopped
    | ok found => exact congrArg Except.ok (Option.some.inj hstopped)
  exact ⟨hreachable, houtcome, (evaluate_emptyCell_iff hreachable _ "h").mp ⟨30, houtcome⟩⟩

/-- Where nothing has been replaced, every cell that an evaluation calls through
is filled. -/
theorem evaluate_ne_emptyCell (hs : s.Reachable)
    (hnewest : ∀ (i : Nat) (u : LinkedUnit), s.linker.units[i]? = some u →
      s.linker.published? u.procedure.symbol = some (.unit i))
    (limit : Nat) (body : Expr) (symbol : String) :
    (s.evaluate limit body).2.outcome ≠ .ok (.stopped (.emptyCell symbol)) := by
  intro houtcome
  obtain ⟨m, -, -, -, a, -, i, u, hu, -, -, hreplaced⟩ := hs.sound.emptyCell houtcome
  exact hreplaced (hnewest i u hu)

end Session

end Reckon
