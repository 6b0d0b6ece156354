import Reckon.Proofs.Machine.Bonds
import Reckon.Proofs.Machine.Calls
import Reckon.Proofs.Session.Guard

/-!
# What linked functions call in the course of a session

Every linked unit is what the definition of a function became in some earlier session
(`Session.Defines`), and how its calls are bound was settled then.  A call that was
bound to an address keeps to it in every later session, and a call that was bound to a
symbol goes to the newest definition of that symbol whenever it is executed.  So a form
changes what a unit does only if it defines a symbol that the unit leads to a late call
of.  All of this is `Session.reachable_bonds`.
-/

namespace Reckon

namespace Session

variable {s s' : Session} {i : Nat} {u : LinkedUnit}

/-- The sessions that forms lead to from a session. -/
inductive Later (s : Session) : Session → Prop where
  | refl : Later s s
  | handle {s' : Session} (limit : Nat) (item : Item) (later : Later s s') :
      Later s (s'.handle limit item).1

/-- A unit of a session is what the definition of a function became, in an earlier
session. -/
structure Defines (s₀ : Session) (f : Function) (i : Nat) (s : Session) : Prop where
  reachable : s₀.Reachable
  number : s₀.linker.unitCount = i
  accepted : ∃ listing, (s₀.define f).2.outcome = .ok (.defined f.prototype listing)
  later : (s₀.define f).1.Later s

/-- A run gets to a state of the machine, in a session: a run of a linked unit, or of
one that has been loaded for an expression. -/
structure Executes (s : Session) (running : Linker) (m : Machine) : Prop where
  linker : running = s.linker ∨ ∃ c, running = (s.linker.load c).1
  start : ∃ (j : Nat) (v : LinkedUnit) (args : List Float) (active : Activation),
    running.units[j]? = some v ∧ Activation.start? v args = some active ∧
      Machine.Reaches running ⟨active, [], ""⟩ m

/-- The records of a session are in order. -/
theorem Reachable.dated (h : s.Reachable) : s.linker.Dated := by
  induction h with
  | start options => exact Linker.dated_empty
  | @handle s limit item reachable ih =>
      rcases s.handle_cases limit item with hsame | ⟨f, c, -, hok, hlinked⟩ | ⟨p, -, hdeclared⟩
      · rw [hsame]
        exact ih
      · rw [hlinked]
        have hresolved := compile_resolved (s.announce_keyed reachable.sound.keyed _) hok
        simp only [surroundings, announce_linker] at hresolved
        exact ih.link reachable.sound.coherent hresolved (compile_symbol hok)
      · rw [hdeclared]
        exact ih.reserve p.callee.symbol

/-- No form removes a unit. -/
theorem handle_units_lt (limit : Nat) (item : Item) (hu : s.linker.units[i]? = some u) :
    (s.handle limit item).1.linker.units[i]? = some u := by
  rcases s.handle_cases limit item with hsame | ⟨f, c, -, -, hlinked⟩ | ⟨p, -, hdeclared⟩
  · rw [hsame]
    exact hu
  · rw [hlinked]
    exact Linker.link_units_lt hu
  · rw [hdeclared]
    exact (s.linker.reserve_units p.callee.symbol).symm ▸ hu

theorem Later.units_lt (h : s.Later s') (hu : s.linker.units[i]? = some u) :
    s'.linker.units[i]? = some u := by
  induction h with
  | refl => exact hu
  | handle limit item later ih => exact handle_units_lt limit item ih

theorem Later.reachable (h : s.Later s') (hs : s.Reachable) : s'.Reachable := by
  induction h with
  | refl => exact hs
  | handle limit item later ih => exact .handle limit item ih

/-- What compiles is accepted as a definition. -/
theorem define_outcome {f : Function} {c : Compilation}
    (hok : (s.announce f.prototype).1.surroundings.compile f = .ok c) :
    (s.define f).2.outcome = .ok (.defined f.prototype c.procedure.listing) := by
  rw [define_eq, hok]

/-- Every unit comes from a definition, and its calls were bound then. -/
theorem Reachable.defines (h : s.Reachable) (hu : s.linker.units[i]? = some u) :
    u.procedure.definitions.Nodup ∧ ∃ (s₀ : Session) (f : Function), s₀.Defines f i s ∧
      List.Forall₂ u.Calls u.procedure.calls
        (f.body.callees.map (s₀.linker.bond f.prototype)) := by
  induction h with
  | start options => cases hu
  | @handle s limit item reachable ih =>
      have hbefore (hold : s.linker.units[i]? = some u) : u.procedure.definitions.Nodup ∧
          ∃ (s₀ : Session) (f : Function), s₀.Defines f i (s.handle limit item).1 ∧
            List.Forall₂ u.Calls u.procedure.calls
              (f.body.callees.map (s₀.linker.bond f.prototype)) := by
        obtain ⟨hdefinitions, s₀, f, hdefines, hbonds⟩ := ih hold
        exact ⟨hdefinitions, s₀, f, ⟨hdefines.reachable, hdefines.number, hdefines.accepted,
          .handle limit item hdefines.later⟩, hbonds⟩
      rcases s.handle_cases limit item with hsame | ⟨f, c, rfl, hok, hlinked⟩ | ⟨p, -, hdeclared⟩
      · exact hbefore (hsame ▸ hu)
      · rw [hlinked] at hu
        have hpushed : (s.linker.units.push (s.linker.unitOf c))[i]? = some u :=
          s.linker.link_units c ▸ hu
        rw [Array.getElem?_push] at hpushed
        split at hpushed
        · next hlast =>
            obtain rfl := Option.some.inj hpushed
            have hkeyed := s.announce_keyed reachable.sound.keyed f.prototype
            have hbonds := compile_bonds hkeyed hok
            simp only [surroundings, announce_linker] at hbonds
            exact ⟨compile_definitions hok, s, f,
              ⟨reachable, hlast.symm, ⟨_, define_outcome hok⟩, .refl⟩, hbonds⟩
        · exact hbefore hpushed
      · rw [hdeclared] at hu
        exact hbefore ((s.linker.reserve_units p.callee.symbol) ▸ hu)

/-- What an activation of a unit calls, in a session. -/
theorem Executes.resolve (hs : s.Reachable) {running : Linker} {m : Machine}
    (h : s.Executes running m) (hu : s.linker.units[i]? = some u)
    (htargets : m.active.targets = u.targets) (hcode : m.active.frame.procedure = u.procedure)
    {instruction : Code.Instruction} {rest : List Code.Instruction} {bond : Bond}
    (hbody : m.active.frame.body = instruction :: rest) (hcalls : u.Calls instruction bond)
    {site : CallSite} {args : List Float} {result : Code.ValueId} {frame : Frame}
    (hstep : m.active.frame.step = .call site args result frame) :
    Activation.resolve { m.active with frame := frame } running site =
      bond.resolve s.linker := by
  obtain ⟨j, v, xs, active, hv, hactive, hreaches⟩ := h.start
  have hstart : Machine.Linked running ⟨active, [], ""⟩ :=
    List.forall_mem_cons.mpr ⟨⟨j, v, hv, Activation.runs_start hactive⟩, nofun⟩
  have hlinked : m.Linked running :=
    hreaches.invariant (fun _ _ hstep hm => Machine.Linked.step hm hstep) hstart
  obtain ⟨-, w, -, hruns⟩ := hlinked m.active List.mem_cons_self
  have hcells : running.cells = s.linker.cells := by
    rcases h.linker with rfl | ⟨c, rfl⟩ <;> rfl
  have hsourced : m.active.frame.Sourced u.procedure := by
    rw [← hcode, hruns.frame.procedure]
    exact hruns.frame
  have hruns' : m.active.Runs u := ⟨htargets, hsourced⟩
  exact hruns'.resolve (hs.defines hu).1 hbody hcalls hcells
    (fun symbol hnames => hs.dated.cell hs.sound.coherent
      (hs.sound.coherent.cells i u symbol hu hnames)) hstep

/-- A form keeps what a unit does, unless it defines a symbol that the unit leads to a
late call of. -/
theorem Reachable.lockstep (hs : s.Reachable) (i limit : Nat) (item : Item) :
    s.linker.Lockstep (s.handle limit item).1.linker i ∨
      ∃ f listing, item = .definition f ∧
        (s.handle limit item).2.outcome = .ok (.defined f.prototype listing) ∧
        s.linker.ReachesLate i f.prototype.callee.symbol := by
  rcases s.handle_cases limit item with hsame | ⟨f, c, rfl, hok, hlinked⟩ | ⟨p, -, hdeclared⟩
  · rw [hsame]
    exact Or.inl ⟨hs.dated, hs.sound.coherent, fun _ _ => rfl, fun _ _ => rfl⟩
  · by_cases hlate : s.linker.ReachesLate i f.prototype.callee.symbol
    · exact Or.inr ⟨f, _, rfl, define_outcome hok, hlate⟩
    · rw [hlinked]
      have hprototype : c.prototype = f.prototype := (Surroundings.compile_head hok).1
      refine Or.inl ⟨hs.dated, hs.sound.coherent, fun j hj => ?_, fun symbol hreaches => ?_⟩
      · change (s.linker.link c).units[j]? = _
        rw [s.linker.link_units c, Array.getElem?_push_lt hj, Array.getElem?_eq_getElem hj]
      · change ((s.linker.link c).cells.find? symbol).join = _
        rw [Linker.link_eq]
        split
        · rfl
        · have hne : c.prototype.callee.symbol ≠ symbol := by
            rw [hprototype]
            exact fun heq => hlate (heq ▸ hreaches)
          rw [Linker.find?_publish, if_neg fun hboth => hne hboth.1]
          rfl
  · rw [hdeclared]
    refine Or.inl ⟨hs.dated, hs.sound.coherent, fun j _ => ?_, fun symbol _ => ?_⟩
    · exact congrArg (·[j]?) (s.linker.reserve_units p.callee.symbol)
    · -- a cell that is new is empty
      change ((s.linker.reserve p.callee.symbol).cells.find? symbol).join = _
      unfold Linker.reserve
      split
      · rfl
      · next hnew =>
          rw [Bool.not_eq_true, Bool.or_eq_false_iff] at hnew
          rw [Table.find?_insert]
          split
          · next heq =>
              have hnone : s.linker.cells.find? symbol = none :=
                heq ▸ Option.not_isSome_iff_eq_none.mp (Bool.eq_false_iff.mp hnew.2)
              rw [hnone]
              rfl
          · rfl

/-- **What a linked function calls is settled when it is compiled**, up to the newest
definitions of the symbols that it calls late.

Every unit is what the definition of a function became, and its calls are those of the
callees of the body, each of them bound as the linker of that time says.  In every
later session the unit is still there, and whenever one of its calls is executed, by a
run of any unit or expression, it goes where it was bound to: to the same address, or
to the newest definition of the symbol.  Dealing with one more form changes what
executing the unit comes to only if the form is a definition that is accepted, of a
symbol that the unit leads to a late call of. -/
theorem reachable_bonds (hs : s.Reachable) (hu : s.linker.units[i]? = some u) :
    (∃ (s₀ : Session) (f : Function), s₀.Defines f i s ∧
      List.Forall₂ u.Calls u.procedure.calls
        (f.body.callees.map (s₀.linker.bond f.prototype))) ∧
    (∀ s' : Session, s.Later s' → s'.linker.units[i]? = some u ∧
      ∀ (running : Linker) (m : Machine), s'.Executes running m →
        m.active.targets = u.targets → m.active.frame.procedure = u.procedure →
        ∀ instruction rest bond, m.active.frame.body = instruction :: rest →
          u.Calls instruction bond →
          ∀ site args result frame, m.active.frame.step = .call site args result frame →
            Activation.resolve { m.active with frame := frame } running site =
              bond.resolve s'.linker) ∧
    ∀ limit item steps args,
      (s.handle limit item).1.linker.execute steps (.unit i) args ≠
        s.linker.execute steps (.unit i) args →
      ∃ f listing, item = .definition f ∧
        (s.handle limit item).2.outcome = .ok (.defined f.prototype listing) ∧
        s.linker.ReachesLate i f.prototype.callee.symbol := by
  refine ⟨(hs.defines hu).2, fun s' hlater => ⟨hlater.units_lt hu, ?_⟩, ?_⟩
  · intro running m hexecutes htargets hcode instruction rest bond hbody hcalls
      site args result frame hstep
    exact hexecutes.resolve (hlater.reachable hs) (hlater.units_lt hu) htargets hcode hbody hcalls
      hstep
  · intro limit item steps args hchanged
    rcases hs.lockstep i limit item with hlockstep | hdefinition
    · have hthere := (Array.getElem?_eq_some_iff.mp hu).1
      exact absurd (hlockstep.execute hthere steps args) hchanged
    · exact hdefinition

/-- A session in which `g` calls `h`, which is only declared. -/
def forwardCall : Session :=
  let items : List Item := [.declaration ⟨"h", ["x"], .function⟩,
    .definition ⟨⟨"g", ["x"], .function⟩, .call "h" [.var "x"]⟩]
  items.foldl (fun s item => (s.handle 0 item).1) (start .standard)

/-- Defining `h` changes what `g` does, because `g` leads to a late call of it. -/
theorem reachable_bonds_forwardCall :
    forwardCall.Reachable ∧
      (∃ u, forwardCall.linker.units[0]? = some u ∧
        ∀ s' : Session, forwardCall.Later s' → s'.linker.units[0]? = some u) ∧
      (forwardCall.handle 0 (.definition ⟨⟨"h", ["x"], .function⟩, .var "x"⟩)).1.linker.execute 30
          (.unit 0) [1] ≠ forwardCall.linker.execute 30 (.unit 0) [1] ∧
      forwardCall.linker.ReachesLate 0 "h" := by
  have hreachable : forwardCall.Reachable := .handle _ _ (.handle _ _ (.start _))
  have hthere : forwardCall.linker.units[0]?.isSome := by decide +kernel
  have hchanged :
      (forwardCall.handle 0 (.definition ⟨⟨"h", ["x"], .function⟩, .var "x"⟩)).1.linker.execute 30
        (.unit 0) [1] ≠ forwardCall.linker.execute 30 (.unit 0) [1] := by decide +kernel
  obtain ⟨u, hu⟩ := Option.isSome_iff_exists.mp hthere
  obtain ⟨-, hstays, hchanges⟩ := reachable_bonds hreachable hu
  obtain ⟨f, listing, hitem, -, hlate⟩ := hchanges _ _ _ _ hchanged
  obtain rfl := Item.definition.inj hitem
  exact ⟨hreachable, ⟨u, hu, fun s' hlater => (hstays s' hlater).1⟩, hchanged, hlate⟩

end Session

end Reckon
