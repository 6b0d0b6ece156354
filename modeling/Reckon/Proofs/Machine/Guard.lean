import Reckon.Proofs.Link.Coherence
import Reckon.Proofs.Link.Search
import Reckon.Proofs.Machine.Provenance

/-!
# Runs that the guard lets through

The guard follows the records of the linker, so what it says holds of newest
definitions.  A caller keeps to the definition that it was compiled against, so a
run can get to a definition that has been replaced (`Activation.Superseded`), and
about that one the records say nothing.

The invariant of a run is `Shielded`: every activation is one whose references
the guard has visited, unless it or a caller of it belongs to a definition that
has been replaced.  A step keeps it (`Shielded.step`), and it leaves only one way
to an empty cell (`Shielded.emptyCell`).
-/

namespace Reckon

namespace Machine

variable {l : Linker} {m m' : Machine}

/-- A run gets from one state to another. -/
inductive Reaches (l : Linker) : Machine → Machine → Prop where
  | refl (m : Machine) : Reaches l m m
  | step {m m' m'' : Machine} (first : m.step l = .next m') (others : Reaches l m' m'') :
      Reaches l m m''

/-- What every step keeps holds all along a run. -/
theorem Reaches.invariant {P : Machine → Prop} (h : Reaches l m m')
    (hstep : ∀ m m' : Machine, m.step l = .next m' → P m → P m') (hm : P m) : P m' := by
  induction h with
  | refl m => exact hm
  | step first others ih => exact ih (hstep _ _ first hm)

/-- A run that ends before its limit has got to a state that ends. -/
theorem run_ended {limit : Nat} {ending : Ending} (h : (run l limit m).1 = ending)
    (hended : ending ≠ .exhausted) : ∃ m', Reaches l m m' ∧ m'.step l = .ended ending := by
  induction limit generalizing m with
  | zero => exact absurd h.symm hended
  | succ limit ih =>
      unfold run at h
      split at h
      · next next hnext =>
          obtain ⟨m', hreaches, hlast⟩ := ih h
          exact ⟨m', .step hnext hreaches, hlast⟩
      · next found hfound =>
          have heq : found = ending := h
          exact ⟨m, .refl m, heq ▸ hfound⟩

/-- A run that gets to a state that ends does so within some limit. -/
theorem Reaches.run (h : Reaches l m m') {ending : Ending} (hend : m'.step l = .ended ending) :
    ∃ limit, (Machine.run l limit m).1 = ending := by
  induction h with
  | refl m =>
      refine ⟨1, ?_⟩
      simp [Machine.run, hend]
  | step first others ih =>
      obtain ⟨limit, hlimit⟩ := ih hend
      refine ⟨limit + 1, ?_⟩
      simp only [Machine.run, first]
      exact hlimit

/-- The ways in which a run goes on. -/
inductive Moves (l : Linker) (m : Machine) : Machine → Prop where
  /-- The procedure goes on. -/
  | continues {frame : Frame} (hframe : m.active.frame.step = .next frame) :
      Moves l m { m with active := { m.active with frame := frame } }
  /-- A primitive is called and returns. -/
  | primitive {site : CallSite} {arg : Float} {result : Code.ValueId} {frame : Frame}
      {primitive : Primitive} (hframe : m.active.frame.step = .call site [arg] result frame)
      (hresolve : Activation.resolve { m.active with frame := frame } l site =
        .ok (.primitive primitive)) :
      Moves l m ⟨Activation.resume { m.active with frame := frame } result (primitive.apply arg).1,
        m.waiting, m.output ++ (primitive.apply arg).2⟩
  /-- The function of a unit is called. -/
  | calls {site : CallSite} {args : List Float} {result : Code.ValueId} {frame : Frame} {j : Nat}
      {v : LinkedUnit} {active : Activation}
      (hframe : m.active.frame.step = .call site args result frame)
      (hresolve : Activation.resolve { m.active with frame := frame } l site = .ok (.unit j))
      (hv : l.units[j]? = some v) (hactive : Activation.start? v args = some active) :
      Moves l m ⟨active, ⟨result, { m.active with frame := frame }⟩ :: m.waiting, m.output⟩
  /-- The procedure returns to its caller. -/
  | returns {value : Float} {caller : Waiting} {waiting : List Waiting}
      (hframe : m.active.frame.step = .done value) (hwaiting : m.waiting = caller :: waiting) :
      Moves l m ⟨caller.caller.resume caller.result value, waiting, m.output⟩

theorem moves_of_step (h : m.step l = .next m') : Moves l m m' := by
  unfold step at h
  split at h
  · next frame hframe =>
      cases h
      exact .continues hframe
  · next site args result frame hframe =>
      dsimp only at h
      split at h
      · next address hresolve =>
          unfold call at h
          split at h
          · split at h
            · cases h
              exact .primitive hframe hresolve
            · cases h
          · split at h
            · cases h
            · next v hv =>
                split at h
                · next active hactive =>
                    cases h
                    exact .calls hframe hresolve hv hactive
                · cases h
      · cases h
  · next value hframe =>
      split at h
      · cases h
      · next caller waiting hwaiting =>
          cases h
          exact .returns hframe hwaiting
  · cases h

/-- What is being executed, and the callers from the innermost on. -/
def activations (m : Machine) : List Activation := m.active :: m.waiting.map Waiting.caller

/-- The next step is a call through the cell of a symbol. -/
def CallsThrough (m : Machine) (symbol : String) : Prop :=
  ∃ args result frame, m.active.frame.step = .call (.cell symbol) args result frame

/-- A step finds a cell empty exactly if it calls through a cell that is not
filled. -/
theorem step_eq_emptyCell {symbol : String} :
    m.step l = .ended (.emptyCell symbol) ↔
      m.CallsThrough symbol ∧ ∀ address, l.cells.find? symbol ≠ some (some address) := by
  constructor
  · intro h
    unfold step at h
    split at h
    · cases h
    · next site args result frame hframe =>
        dsimp only at h
        split at h
        · next address hresolve =>
            unfold call at h
            repeat' split at h
            all_goals cases h
        · next ending hresolve =>
            cases h
            cases site with
            | declaration number =>
                simp only [Activation.resolve] at hresolve
                split at hresolve <;> cases hresolve
            | cell other =>
                simp only [Activation.resolve] at hresolve
                split at hresolve
                · cases hresolve
                · next hunfilled =>
                    cases hresolve
                    exact ⟨⟨args, result, frame, hframe⟩, hunfilled⟩
    · split at h <;> cases h
    · cases h
  · intro h
    obtain ⟨⟨args, result, frame, hframe⟩, hunfilled⟩ := h
    have hresolve : Activation.resolve { m.active with frame := frame } l (.cell symbol) =
        .error (.emptyCell symbol) := by
      unfold Activation.resolve
      dsimp only
      split
      · next address hfilled => exact absurd hfilled (hunfilled address)
      · rfl
    unfold step
    simp only [hframe, hresolve]

end Machine

namespace Activation

variable {a a' : Activation} {u : LinkedUnit}

/-- An activation executes the code of a definition that is not the newest one
of its symbol. -/
def Superseded (l : Linker) (a : Activation) : Prop :=
  ∃ (i : Nat) (u : LinkedUnit), l.units[i]? = some u ∧ a.targets = u.targets ∧
    a.frame.procedure = u.procedure ∧ l.published? u.procedure.symbol ≠ some (.unit i)

/-- An activation executes the code of a unit. -/
structure Runs (u : LinkedUnit) (a : Activation) : Prop where
  targets : a.targets = u.targets
  frame : a.frame.Sourced u.procedure

/-- An activation that goes on is still one of the same unit. -/
structure Continues (a a' : Activation) : Prop where
  targets : a'.targets = a.targets
  procedure : a'.frame.procedure = a.frame.procedure
  sourced : ∀ p, a.frame.Sourced p → a'.frame.Sourced p

theorem Continues.runs (h : a.Continues a') (hruns : a.Runs u) : a'.Runs u :=
  ⟨h.targets.trans hruns.targets, h.sourced _ hruns.frame⟩

theorem Continues.superseded (h : a.Continues a') {l : Linker} (hold : a.Superseded l) :
    a'.Superseded l := by
  obtain ⟨i, u, hu, htargets, hprocedure, hnewest⟩ := hold
  exact ⟨i, u, hu, h.targets.trans htargets, h.procedure.trans hprocedure, hnewest⟩

theorem continues_resume (a : Activation) (result : Code.ValueId) (value : Float) :
    a.Continues (a.resume result value) := by
  refine ⟨rfl, rfl, ?_⟩
  intro p hp
  have hnumber : Frame.SourcedDatum p result (.number value) := trivial
  exact hp.define result hnumber

theorem Runs.next (h : a.Runs u) {frame : Frame} (hstep : a.frame.step = .next frame) :
    a.Continues { a with frame := frame } := by
  have hsourced : ∀ p, a.frame.Sourced p → frame.Sourced p := by
    intro p hp
    have hafter := hp.step
    rw [hstep] at hafter
    exact hafter
  exact ⟨rfl, (hsourced _ h.frame).procedure.trans h.frame.procedure.symm, hsourced⟩

theorem Runs.call (h : a.Runs u) {site : CallSite} {args : List Float} {result : Code.ValueId}
    {frame : Frame} (hstep : a.frame.step = .call site args result frame) :
    a.Continues { a with frame := frame } ∧ Frame.SourcedCall u.procedure args.length site := by
  have hsourced : ∀ p, a.frame.Sourced p →
      frame.Sourced p ∧ Frame.SourcedCall p args.length site := by
    intro p hp
    have hafter := hp.step
    rw [hstep] at hafter
    exact hafter
  obtain ⟨hframe, hsite⟩ := hsourced _ h.frame
  exact ⟨⟨rfl, hframe.procedure.trans h.frame.procedure.symm, fun p hp => (hsourced p hp).1⟩,
    hsite⟩

theorem runs_start {args : List Float} (h : start? u args = some a) : a.Runs u := by
  obtain ⟨frame, hframe, rfl⟩ := Option.map_eq_some_iff.mp h
  exact ⟨rfl, Frame.sourced_start hframe⟩

end Activation

/-- A run of an expression over a linker, with the symbols that the guard has
visited. -/
structure Watch where
  linker : Linker
  expression : Compilation
  visited : List String
  coherent : linker.Coherent
  resolved : expression.Resolved linker
  closed : linker.Closed visited
  within : ∀ symbol ∈ expression.unit.references, symbol ∈ visited

namespace Watch

variable {w : Watch} {a a' : Activation} {below : List Activation} {m m' : Machine}

/-- The linker during the run. -/
def running (w : Watch) : Linker := (w.linker.load w.expression).1

/-- An activation whose references the guard has visited. -/
def Covered (w : Watch) (a : Activation) : Prop :=
  ∃ (i : Nat) (u : LinkedUnit) (references : List String), w.running.units[i]? = some u ∧
    a.Runs u ∧ w.linker.Recorded i u references ∧ ∀ symbol ∈ references, symbol ∈ w.visited

/-- Every activation runs a unit, and is covered unless it or a caller of it has
been superseded. -/
def Shielded (w : Watch) : List Activation → Prop
  | [] => True
  | a :: below =>
    (∃ (i : Nat) (u : LinkedUnit), w.running.units[i]? = some u ∧ a.Runs u) ∧
      (w.Covered a ∨ ∃ b ∈ a :: below, b.Superseded w.linker) ∧ w.Shielded below

theorem Shielded.continues (h : w.Shielded (a :: below)) (hcontinues : a.Continues a') :
    w.Shielded (a' :: below) := by
  obtain ⟨⟨i, u, hu, hruns⟩, hcovered, hbelow⟩ := h
  refine ⟨⟨i, u, hu, hcontinues.runs hruns⟩, ?_, hbelow⟩
  rcases hcovered with ⟨j, v, references, hv, hruns, hrecorded⟩ | ⟨b, hb, hold⟩
  · exact Or.inl ⟨j, v, references, hv, hcontinues.runs hruns, hrecorded⟩
  · refine Or.inr ?_
    rcases List.mem_cons.mp hb with rfl | hmem
    · exact ⟨a', List.mem_cons_self, hcontinues.superseded hold⟩
    · exact ⟨b, List.mem_cons_of_mem _ hmem, hold⟩

/-- The newest definition of a visited symbol is covered, and any other has been
superseded. -/
theorem covered_or_superseded {j : Nat} {v : LinkedUnit} (hv : w.linker.units[j]? = some v)
    (hvisited : v.procedure.symbol ∈ w.visited) (hruns : a.Runs v) :
    w.Covered a ∨ a.Superseded w.linker := by
  by_cases hnewest : w.linker.published? v.procedure.symbol = some (.unit j)
  · refine Or.inl ⟨j, v, _, Linker.load_units_lt hv, hruns,
      w.coherent.recorded _ j v hnewest hv, ?_⟩
    exact (w.closed _ hvisited).2
  · exact Or.inr ⟨j, v, hv, hruns.targets, hruns.frame.procedure, hnewest⟩

/-- A call of a covered activation leads to a covered one, unless it leads to a
definition that has been replaced. -/
theorem Covered.call (h : w.Covered a) {site : CallSite} {arguments j : Nat} {v : LinkedUnit}
    (hsite : Frame.SourcedCall a.frame.procedure arguments site)
    (hresolve : a.resolve w.running site = .ok (.unit j))
    (hv : w.running.units[j]? = some v) (hruns : a'.Runs v) :
    w.Covered a' ∨ a'.Superseded w.linker := by
  obtain ⟨i, u, references, hu, hcaller, hrecorded, hvisited⟩ := h
  cases site with
  | declaration number =>
      simp only [Activation.resolve] at hresolve
      split at hresolve
      · next address htarget =>
          cases hresolve
          rw [hcaller.targets] at htarget
          rcases hrecorded.targets _ (List.mem_of_getElem? htarget) with heq | ⟨v', hv', hmem⟩
          · -- a unit that calls itself
            subst heq
            obtain rfl := Option.some.inj (hu.symm.trans hv)
            exact Or.inl ⟨j, u, references, hu, hruns, hrecorded, hvisited⟩
          · obtain rfl := Option.some.inj ((Linker.load_units_lt hv').symm.trans hv)
            exact covered_or_superseded hv' (hvisited _ hmem) hruns
      · cases hresolve
  | cell symbol =>
      simp only [Activation.resolve] at hresolve
      split at hresolve
      · next address hcell =>
          cases hresolve
          -- a filled cell holds the newest definition
          obtain ⟨k, v', heq, hv', hsymbol⟩ :=
            w.coherent.published symbol _ (w.coherent.filled symbol _ hcell)
          obtain rfl := Address.unit.inj heq
          obtain rfl := Option.some.inj ((Linker.load_units_lt hv').symm.trans hv)
          rw [hcaller.frame.procedure] at hsite
          obtain ⟨signature, args, hcalls, -⟩ := hsite
          exact covered_or_superseded hv'
            (hsymbol ▸ hvisited _ (hrecorded.cells symbol hcalls.namesCell)) hruns
      · cases hresolve

/-- A call keeps the stack shielded. -/
theorem Shielded.call (h : w.Shielded (a :: below)) {site : CallSite} {arguments j : Nat}
    {v : LinkedUnit} (hsite : Frame.SourcedCall a.frame.procedure arguments site)
    (hresolve : a.resolve w.running site = .ok (.unit j))
    (hv : w.running.units[j]? = some v) (hruns : a'.Runs v) : w.Shielded (a' :: a :: below) := by
  refine ⟨⟨j, v, hv, hruns⟩, ?_, h⟩
  obtain ⟨-, hcovered | ⟨b, hb, hold⟩, -⟩ := h
  · rcases hcovered.call hsite hresolve hv hruns with hnew | hold
    · exact Or.inl hnew
    · exact Or.inr ⟨a', List.mem_cons_self, hold⟩
  · exact Or.inr ⟨b, List.mem_cons_of_mem _ hb, hold⟩

/-- Every step keeps the stack shielded. -/
theorem Shielded.step (h : w.Shielded m.activations) (hstep : m.step w.running = .next m') :
    w.Shielded m'.activations := by
  obtain ⟨i, u, hu, hruns⟩ := h.1
  cases Machine.moves_of_step hstep with
  | continues hframe => exact h.continues (hruns.next hframe)
  | primitive hframe hresolve =>
      obtain ⟨hcontinues, -⟩ := hruns.call hframe
      exact (h.continues hcontinues).continues (Activation.continues_resume _ _ _)
  | calls hframe hresolve hv hactive =>
      obtain ⟨hcontinues, hsite⟩ := hruns.call hframe
      have hprocedure := (hcontinues.runs hruns).frame.procedure
      exact (h.continues hcontinues).call (hprocedure ▸ hsite) hresolve hv
        (Activation.runs_start hactive)
  | returns hframe hwaiting =>
      obtain ⟨-, -, hbelow⟩ := h
      rw [hwaiting] at hbelow
      exact hbelow.continues (Activation.continues_resume _ _ _)

/-- A call finds a cell empty only if the symbol has no address and the caller,
or a caller of it, has been superseded. -/
theorem Shielded.emptyCell (h : w.Shielded m.activations) {symbol : String}
    (hstep : m.step w.running = .ended (.emptyCell symbol)) :
    m.CallsThrough symbol ∧ w.linker.address? symbol = none ∧
      ∃ a ∈ m.activations, a.Superseded w.linker := by
  obtain ⟨hcalls, hunfilled⟩ := Machine.step_eq_emptyCell.mp hstep
  obtain ⟨⟨i, u, hu, hruns⟩, hcovered, -⟩ := h
  obtain ⟨args, result, frame, hframe⟩ := id hcalls
  obtain ⟨-, signature, _, hnames, -⟩ := hruns.call hframe
  have hcoherent : w.running.Coherent := w.coherent.load w.resolved
  have hcell : w.linker.hasCell symbol = true := hcoherent.cells i u symbol hu hnames.namesCell
  have hunlinked : ¬w.linker.isLinked symbol = true := by
    intro hlinked
    obtain ⟨address, hfilled, -⟩ := w.coherent.filled_of_linked hcell hlinked
    exact hunfilled address hfilled
  refine ⟨hcalls, Option.not_isSome_iff_eq_none.mp hunlinked, ?_⟩
  rcases hcovered with ⟨j, v, references, hv, hruns', hrecorded, hvisited⟩ | hold
  · obtain ⟨-, signature', _, hnames', -⟩ := hruns'.call hframe
    have hmem : symbol ∈ w.visited := hvisited symbol (hrecorded.cells symbol hnames'.namesCell)
    exact absurd (w.closed symbol hmem).1 hunlinked
  · exact hold

/-- The cell of a symbol without an address is not filled. -/
theorem step_of_callsThrough {symbol : String} (hcalls : m.CallsThrough symbol)
    (haddress : w.linker.address? symbol = none) :
    m.step w.running = .ended (.emptyCell symbol) := by
  refine Machine.step_eq_emptyCell.mpr ⟨hcalls, ?_⟩
  intro address hfilled
  have hpublished := w.coherent.filled symbol address hfilled
  rw [Linker.address?_of_published hpublished] at haddress
  cases haddress

end Watch

end Reckon
