import Reckon.Proofs.Machine.Bonds
import Reckon.Proofs.Machine.Returns
import Reckon.Proofs.Meaning.Functions

/-!
# Code with the same meaning in two linkers

A unit embodies a function if its code was compiled from it and each of its calls goes
to what the linker knows by the symbol of the callee (`Linker.Embodies`).  It does not
matter how the calls are bound.  Two units that embody the same function, possibly in
two linkers, return the same numbers and write the same text if what the symbols refer
to does so in turn (`Counterparts.returns`).  The functions may call each other, so the
induction is on what one of the runs comes to, and the meaning of each function carries
it over to the other code of that function.
-/

namespace Reckon

namespace Linker

/-- What a call by a function that is in a unit goes to: the unit itself if it has the
symbol of the function, and else what the symbol refers to. -/
def target? (l : Linker) (own : String) (i : Nat) (symbol : String) : Option Address :=
  if own = symbol then some (.unit i) else l.address? symbol

/-- A unit has code of a function whose calls go where the linker says. -/
structure Embodies (l : Linker) (f : Function) (i : Nat) (c : Compilation) (u : LinkedUnit) :
    Prop where
  compiled : ∃ around : Surroundings, around.registry.Keyed ∧ around.compile f = .ok c
  unit : l.units[i]? = some u
  procedure : u.procedure = c.procedure
  targets : List.Forall₂
    (fun d target => l.target? f.prototype.callee.symbol i d.symbol = some target)
    c.unit.declarations u.targets
  cells : ∀ symbol signature args,
    Code.CallsCell u.procedure.instructions symbol signature args → l.hasCell symbol = true ∧
      (l.cells.find? symbol).join = l.target? f.prototype.callee.symbol i symbol

/-- The replies of linked code to calls by a function that is in a unit. -/
noncomputable def replies (l : Linker) (own : String) (i : Nat) : Callees := fun _ call =>
  open Classical in
  if h : ∃ reply : Reply, ∃ address, l.target? own i call.symbol = some address ∧
      l.Returns address call.args reply.value reply.text
  then some h.choose else none

theorem replies_eq_some {l : Linker} {own symbol : String} {i : Nat} {events : List Event}
    {args : List Float} {reply : Reply} :
    l.replies own i events ⟨symbol, args⟩ = some reply ↔
      ∃ address, l.target? own i symbol = some address ∧
        l.Returns address args reply.value reply.text := by
  unfold replies
  constructor
  · intro h
    split at h
    · next hreplies =>
        obtain rfl := Option.some.inj h
        exact hreplies.choose_spec
    · cases h
  · intro h
    have hreplies : ∃ reply : Reply, ∃ address, l.target? own i symbol = some address ∧
        l.Returns address args reply.value reply.text := ⟨reply, h⟩
    rw [dif_pos hreplies]
    obtain ⟨address, htarget, hreturns⟩ := h
    obtain ⟨address', htarget', hreturns'⟩ := hreplies.choose_spec
    obtain rfl := Option.some.inj (htarget.symm.trans htarget')
    obtain ⟨hvalue, htext⟩ := hreturns'.unique hreturns
    generalize hreplies.choose = found at hvalue htext
    obtain ⟨value, text⟩ := found
    obtain ⟨value', text'⟩ := reply
    simp only at hvalue htext
    rw [hvalue, htext]

end Linker

/-- The text that some calls have written. -/
def Event.written (events : List Event) : String := String.join (events.map Event.text)

theorem Event.written_cons (event : Event) (events : List Event) :
    Event.written (event :: events) = event.text ++ Event.written events := by
  simp [Event.written]

namespace Linker.Embodies

variable {l : Linker} {f : Function} {i : Nat} {c : Compilation} {u : LinkedUnit}
  {a : Activation} {site : CallSite} {args : List Float} {result : Code.ValueId} {frame : Frame}

/-- A call goes where the linker says for its symbol. -/
theorem resolve (h : l.Embodies f i c u) (hruns : a.Runs u)
    (hstep : a.frame.step = .call site args result frame) (address : Address) :
    Activation.resolve { a with frame := frame } l site = .ok address ↔
      ∃ symbol, c.unit.symbolAt? site = some symbol ∧
        l.target? f.prototype.callee.symbol i symbol = some address := by
  obtain ⟨-, hsite⟩ := hruns.call hstep
  cases site with
  | declaration number =>
      have hsame := h.targets
      simp only [Activation.resolve, hruns.targets, CompilationUnit.symbolAt?]
      cases hd : c.unit.declarations[number]? with
      | none =>
          have hnone : u.targets[number]? = none := by
            rw [List.getElem?_eq_none_iff] at hd ⊢
            exact hsame.length_eq ▸ hd
          simp [hnone]
      | some d =>
          obtain ⟨hlt, hget⟩ := List.getElem?_eq_some_iff.mp hd
          have hlt' : number < u.targets.length := hsame.length_eq ▸ hlt
          have htarget := hsame.get hlt hlt'
          simp only [List.get_eq_getElem, hget] at htarget
          simp [List.getElem?_eq_getElem hlt', htarget]
  | cell symbol =>
      obtain ⟨signature, vs, hcalls, -⟩ := hsite
      rw [Activation.resolve_cell, (h.cells symbol signature vs hcalls).2]
      simp only [CompilationUnit.symbolAt?, Option.some.injEq, exists_eq_left']
      cases l.target? f.prototype.callee.symbol i symbol with
      | none => simp
      | some found => simp

/-- What the code comes to with the replies of linked code, the activation comes to. -/
theorem finishes (h : l.Embodies f i c u) {limit : Nat} {events all : List Event} {value : Float}
    (hruns : a.Runs u)
    (hrun : a.frame.run c.unit (l.replies f.prototype.callee.symbol i) limit events =
      some (value, all)) :
    ∃ new, all = events ++ new ∧ a.Finishes l value (Event.written new) := by
  induction limit generalizing a events with
  | zero => cases hrun
  | succ limit ih =>
      rw [Frame.run] at hrun
      split at hrun
      · next frame hframe =>
          have hnext := (hruns.next hframe).runs hruns
          obtain ⟨new, hall, hfinishes⟩ := ih (a := { a with frame := frame }) hnext hrun
          exact ⟨new, hall, .next hframe hfinishes⟩
      · next site args result frame hframe =>
          split at hrun
          · cases hrun
          · next symbol hsymbol =>
              split at hrun
              · cases hrun
              · next reply hreply =>
                  obtain ⟨address, htarget, hreturns⟩ := replies_eq_some.mp hreply
                  have hresolve := (h.resolve hruns hframe address).mpr ⟨symbol, hsymbol, htarget⟩
                  have hback := (Activation.continues_resume { a with frame := frame } result
                    reply.value).runs ((hruns.call hframe).1.runs hruns)
                  obtain ⟨new, hall, hfinishes⟩ := ih hback hrun
                  refine ⟨⟨⟨symbol, args⟩, reply.text⟩ :: new, by simp [hall], ?_⟩
                  rw [Event.written_cons]
                  cases address with
                  | primitive primitive =>
                      obtain ⟨arg, rfl, happly⟩ := returns_primitive.mp hreturns
                      have hvalue : (primitive.apply arg).1 = reply.value := by rw [happly]
                      have htext : (primitive.apply arg).2 = reply.text := by rw [happly]
                      rw [← htext]
                      exact .primitive hframe hresolve (hvalue ▸ hfinishes)
                  | unit j =>
                      obtain ⟨v, active, hv, hactive, hcallee⟩ := returns_unit.mp hreturns
                      exact .calls hframe hresolve hv hactive hcallee hfinishes
      · next found hframe =>
          obtain ⟨rfl, rfl⟩ := Prod.mk.inj (Option.some.inj hrun)
          exact ⟨[], (List.append_nil _).symm, .done hframe⟩
      · cases hrun

end Linker.Embodies

/-- A function has the same meaning wherever it was compiled. -/
theorem compile_execute_congr {around around' : Surroundings} {f : Function}
    {c c' : Compilation} (hkeyed : around.registry.Keyed) (hcompile : around.compile f = .ok c)
    (hkeyed' : around'.registry.Keyed) (hcompile' : around'.compile f = .ok c')
    (callees : Callees) (xs : List Float) (r : Float × List Event) :
    (∃ limit, c.execute callees limit xs = some r) ↔
      ∃ limit, c'.execute callees limit xs = some r := by
  unfold Compilation.execute
  by_cases hlength : f.prototype.params.length = xs.length
  · obtain ⟨frame, hframe, hmeets⟩ := compile_meets hkeyed hcompile callees hlength
    obtain ⟨frame', hframe', hmeets'⟩ := compile_meets hkeyed' hcompile' callees hlength
    rw [hframe, hframe']
    exact (hmeets.returns (fun _ _ _ hdone => hdone) r).trans
      (hmeets'.returns (fun _ _ _ hdone => hdone) r).symm
  · rw [compile_start?_eq_none hkeyed hcompile hlength,
      compile_start?_eq_none hkeyed' hcompile' hlength]
    simp

/-- If code of a function comes to something with the replies of a linker, so does the
code that the linker has of the same function. -/
theorem Linker.Embodies.returns {l l' : Linker} {f : Function} {i i' : Nat}
    {c c' : Compilation} {u u' : LinkedUnit} (h : l.Embodies f i c u)
    (h' : l'.Embodies f i' c' u') {args : List Float} {active : Activation}
    (hactive : Activation.start? u args = some active) {limit : Nat} {value : Float}
    {new : List Event}
    (hrun : active.frame.run c.unit (l'.replies f.prototype.callee.symbol i') limit [] =
      some (value, new)) : l'.Returns (.unit i') args value (Event.written new) := by
  obtain ⟨around, hkeyed, hcompile⟩ := h.compiled
  obtain ⟨around', hkeyed', hcompile'⟩ := h'.compiled
  obtain ⟨start, hstart, rfl⟩ := Option.map_eq_some_iff.mp hactive
  rw [h.procedure] at hstart
  have hexecute : c.execute (l'.replies f.prototype.callee.symbol i') limit args =
      some (value, new) := by
    rw [Compilation.execute, hstart]
    exact hrun
  obtain ⟨limit', hexecute'⟩ := (compile_execute_congr hkeyed hcompile hkeyed' hcompile' _
    args (value, new)).mp ⟨limit, hexecute⟩
  obtain ⟨start', hstart', hrun'⟩ := Option.bind_eq_some_iff.mp hexecute'
  have hactive' : Activation.start? u' args = some ⟨u'.targets, start'⟩ := by
    rw [Activation.start?, h'.procedure, hstart']
    rfl
  obtain ⟨new', hnew, hfinishes⟩ := h'.finishes (Activation.runs_start hactive') hrun'
  obtain rfl := hnew
  exact Linker.returns_unit.mpr ⟨u', _, h'.unit, hactive', hfinishes⟩

/-- Addresses in two linkers that correspond to each other: what is at the second
returns whatever is at the first does, or they are units that embody the same function,
and the symbols of its callees refer to addresses that correspond. -/
structure Counterparts (l l' : Linker) (R : Address → Address → Prop) : Prop where
  related : ∀ address address', R address address' →
    (∀ args value text, l.Returns address args value text →
      l'.Returns address' args value text) ∨
    ∃ f i i' c c' u u', address = .unit i ∧ address' = .unit i' ∧ l.Embodies f i c u ∧
      l'.Embodies f i' c' u' ∧ ∀ symbol target,
        l.target? f.prototype.callee.symbol i symbol = some target →
          ∃ target', l'.target? f.prototype.callee.symbol i' symbol = some target' ∧
            R target target'

namespace Counterparts

variable {l l' : Linker} {R : Address → Address → Prop}

/-- A call that the first linker's code replies to is replied to in the same way by the
second's, if what is called corresponds. -/
theorem reply_runs {f : Function} {i i' : Nat} {c : Compilation} {u : LinkedUnit}
    (hembodies : l.Embodies f i c u)
    (htargets : ∀ symbol target, l.target? f.prototype.callee.symbol i symbol = some target →
      ∃ target', l'.target? f.prototype.callee.symbol i' symbol = some target' ∧ R target target')
    {a : Activation} (hruns : a.Runs u) {site : CallSite} {args : List Float}
    {result : Code.ValueId} {frame : Frame}
    (hframe : a.frame.step = .call site args result frame) {address : Address}
    (hresolve : Activation.resolve { a with frame := frame } l site = .ok address)
    {reply value : Float} {written text : String}
    (hreply : ∀ address', R address address' → l'.Returns address' args reply written)
    {events : List Event} (hrest : ∀ events : List Event, ∃ limit new, text = Event.written new ∧
      (frame.define result (.number reply)).run c.unit
        (l'.replies f.prototype.callee.symbol i') limit events = some (value, events ++ new)) :
    ∃ limit new, written ++ text = Event.written new ∧
      a.frame.run c.unit (l'.replies f.prototype.callee.symbol i') limit events =
        some (value, events ++ new) := by
  obtain ⟨symbol, hsymbol, htarget⟩ := (hembodies.resolve hruns hframe address).mp hresolve
  obtain ⟨address', htarget', hrelated⟩ := htargets symbol address htarget
  have hreplies : l'.replies f.prototype.callee.symbol i' events ⟨symbol, args⟩ =
      some ⟨reply, written⟩ :=
    Linker.replies_eq_some.mpr ⟨address', htarget', hreply address' hrelated⟩
  obtain ⟨limit, new, rfl, hrun⟩ := hrest (events ++ [⟨⟨symbol, args⟩, written⟩])
  let event : Event := ⟨⟨symbol, args⟩, written⟩
  refine ⟨limit + 1, event :: new, (Event.written_cons event new).symm, ?_⟩
  rw [Frame.run_call hframe hsymbol hreplies]
  simpa using hrun

/-- What an embodied function comes to in the first linker, its code comes to with the
replies of the second. -/
theorem runs (h : Counterparts l l' R) {a : Activation} {value : Float} {text : String}
    (hfinishes : a.Finishes l value text) {f : Function} {i i' : Nat} {c : Compilation}
    {u : LinkedUnit} (hembodies : l.Embodies f i c u)
    (htargets : ∀ symbol target, l.target? f.prototype.callee.symbol i symbol = some target →
      ∃ target', l'.target? f.prototype.callee.symbol i' symbol = some target' ∧ R target target')
    (hruns : a.Runs u) (events : List Event) :
    ∃ limit new, text = Event.written new ∧
      a.frame.run c.unit (l'.replies f.prototype.callee.symbol i') limit events =
        some (value, events ++ new) := by
  induction hfinishes generalizing f i i' c u events with
  | done hframe => exact ⟨1, [], rfl, by simp [Frame.run, hframe]⟩
  | next hframe rest ih =>
      obtain ⟨limit, new, rfl, hrun⟩ :=
        ih hembodies htargets ((hruns.next hframe).runs hruns) events
      exact ⟨limit + 1, new, rfl, (Frame.run_next hframe).trans hrun⟩
  | @primitive a site arg result frame primitive value text hframe hresolve rest ih =>
      have hback := (Activation.continues_resume { a with frame := frame } result
        (primitive.apply arg).1).runs ((hruns.call hframe).1.runs hruns)
      refine reply_runs hembodies htargets hruns hframe hresolve (fun address' hrelated => ?_)
        fun events => ih hembodies htargets hback events
      rcases h.related _ _ hrelated with hreturns | ⟨_, _, _, _, _, _, _, hunit, -⟩
      · exact hreturns _ _ _ (Linker.returns_primitive.mpr ⟨arg, rfl, rfl⟩)
      · cases hunit
  | @calls a site args result frame j v active reply value written text hframe hresolve hv hactive
      callee rest ihCallee ihRest =>
      have hback := (Activation.continues_resume { a with frame := frame } result
        reply).runs ((hruns.call hframe).1.runs hruns)
      refine reply_runs hembodies htargets hruns hframe hresolve (fun address' hrelated => ?_)
        fun events => ihRest hembodies htargets hback events
      rcases h.related _ _ hrelated with hreturns | ⟨g, k, k', d, d', w, w', hunit, rfl, hcallee,
          hcallee', hothers⟩
      · exact hreturns _ _ _ (Linker.returns_unit.mpr ⟨v, active, hv, hactive, callee⟩)
      · -- the callee is compiled from the same function in both linkers
        obtain rfl := Address.unit.inj hunit
        obtain rfl := Option.some.inj (hcallee.unit.symm.trans hv)
        obtain ⟨limit, new, rfl, hrun⟩ :=
          ihCallee hcallee hothers (Activation.runs_start hactive) []
        exact hcallee.returns hcallee' hactive hrun

/-- **What is at an address returns what is at one that corresponds to it.** -/
theorem returns (h : Counterparts l l' R) {address address' : Address}
    (hrelated : R address address') {args : List Float} {value : Float} {text : String}
    (hreturns : l.Returns address args value text) : l'.Returns address' args value text := by
  rcases h.related _ _ hrelated with hsame | ⟨f, i, i', c, c', u, u', rfl, rfl, hembodies,
      hembodies', htargets⟩
  · exact hsame _ _ _ hreturns
  · obtain ⟨v, active, hv, hactive, hfinishes⟩ := Linker.returns_unit.mp hreturns
    obtain rfl := Option.some.inj (hembodies.unit.symm.trans hv)
    obtain ⟨limit, new, rfl, hrun⟩ :=
      h.runs hfinishes hembodies htargets (Activation.runs_start hactive) []
    exact hembodies.returns hembodies' hactive hrun

end Counterparts

end Reckon
