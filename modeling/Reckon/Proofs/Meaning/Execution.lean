import Reckon.Link.Unit
import Reckon.Machine.Frame

/-!
# Executing one procedure among unknown callees

A procedure is executed for any behaviour of what it calls.  A behaviour sees
the symbol and the arguments of a call, and all the calls made before; it gives
a number and the text written, or no reply at all if the call never returns.

`Frame.run` executes a frame for a bounded number of steps.  More steps keep a
result (`Frame.run_mono`), so it makes sense to ask whether a frame returns at
all.  Simulations are stated with `Meets`, which speaks about a computation that
need not come to a result: if it does, the frame gets to a frame with a given
property, and if it does not, the frame never returns.
-/

namespace Reckon

/-- A call: the symbol of what is called, and the arguments. -/
structure Call where
  /-- The symbol. -/
  symbol : String
  /-- The arguments. -/
  args : List Float
deriving Repr, DecidableEq

/-- What a call that returns comes to. -/
structure Reply where
  /-- The number that the call yields. -/
  value : Float
  /-- The text that it writes. -/
  text : String
deriving Repr, DecidableEq

/-- A call that returned, with the text that it wrote. -/
structure Event where
  /-- The call. -/
  call : Call
  /-- The text. -/
  text : String
deriving Repr, DecidableEq

/-- A behaviour of the callees, given the calls so far.  A call without a reply
does not return. -/
abbrev Callees := List Event → Call → Option Reply

/-- The symbol of what a call in the code of a unit refers to. -/
def CompilationUnit.symbolAt? (u : CompilationUnit) : CallSite → Option String
  | .declaration number => (u.declarations[number]?).map Declaration.symbol
  | .cell symbol => some symbol

namespace Frame

variable (u : CompilationUnit) (callees : Callees)

/-- The number that a frame returns within a number of steps, and the calls made
by then. -/
def run : Nat → Frame → List Event → Option (Float × List Event)
  | 0, _, _ => none
  | limit + 1, f, events =>
    match f.step with
    | .next f => run limit f events
    | .call site args result f =>
      match u.symbolAt? site with
      | none => none
      | some symbol =>
        match callees events ⟨symbol, args⟩ with
        | none => none
        | some reply =>
          run limit (f.define result (.number reply.value))
            (events ++ [⟨⟨symbol, args⟩, reply.text⟩])
    | .done value => some (value, events)
    | .stuck => none

variable {u callees} {f f' : Frame} {events events' : List Event}

theorem run_next {limit : Nat} (h : f.step = .next f') :
    f.run u callees (limit + 1) events = f'.run u callees limit events := by
  simp [run, h]

theorem run_call {limit : Nat} {site : CallSite} {args : List Float} {v : Code.ValueId}
    {symbol : String} {reply : Reply} (h : f.step = .call site args v f')
    (hsite : u.symbolAt? site = some symbol)
    (hreply : callees events ⟨symbol, args⟩ = some reply) :
    f.run u callees (limit + 1) events =
      (f'.define v (.number reply.value)).run u callees limit
        (events ++ [⟨⟨symbol, args⟩, reply.text⟩]) := by
  simp [run, h, hsite, hreply]

/-- A call without a reply is never returned from. -/
theorem run_call_none {limit : Nat} {site : CallSite} {args : List Float} {v : Code.ValueId}
    {symbol : String} (h : f.step = .call site args v f')
    (hsite : u.symbolAt? site = some symbol)
    (hreply : callees events ⟨symbol, args⟩ = none) :
    f.run u callees limit events = none := by
  cases limit with
  | zero => rfl
  | succ limit => simp [run, h, hsite, hreply]

theorem run_succ {limit : Nat} {r : Float × List Event}
    (h : f.run u callees limit events = some r) :
    f.run u callees (limit + 1) events = some r := by
  induction limit generalizing f events with
  | zero => cases h
  | succ limit ih =>
      rw [run] at h ⊢
      split at h
      · exact ih h
      · split at h
        · cases h
        · split at h
          · cases h
          · exact ih h
      · exact h
      · cases h

/-- More steps keep a result. -/
theorem run_mono {limit more : Nat} {r : Float × List Event}
    (h : f.run u callees limit events = some r) (hle : limit ≤ more) :
    f.run u callees more events = some r := by
  induction hle with
  | refl => exact h
  | step _ ih => exact run_succ ih

variable (u callees) in
/-- A frame gets to another one, and makes calls on the way. -/
def Reaches (f : Frame) (events : List Event) (f' : Frame) (events' : List Event) : Prop :=
  ∃ steps, ∀ limit, f.run u callees (steps + limit) events = f'.run u callees limit events'

namespace Reaches

theorem refl (f : Frame) (events : List Event) : Reaches u callees f events f events :=
  ⟨0, fun limit => by rw [Nat.zero_add]⟩

theorem trans {f₁ f₂ f₃ : Frame} {events₁ events₂ events₃ : List Event}
    (h₁ : Reaches u callees f₁ events₁ f₂ events₂)
    (h₂ : Reaches u callees f₂ events₂ f₃ events₃) :
    Reaches u callees f₁ events₁ f₃ events₃ := by
  obtain ⟨m, hm⟩ := h₁
  obtain ⟨n, hn⟩ := h₂
  refine ⟨m + n, fun limit => ?_⟩
  rw [Nat.add_assoc, hm, hn]

theorem next (h : f.step = .next f') : Reaches u callees f events f' events := by
  refine ⟨1, fun limit => ?_⟩
  rw [Nat.add_comm]
  exact run_next h

/-- What a frame returns is returned by every frame it gets to, and as soon. -/
theorem run (h : Reaches u callees f events f' events') {limit : Nat} {r : Float × List Event}
    (hr : f.run u callees limit events = some r) :
    f'.run u callees limit events' = some r := by
  obtain ⟨steps, hsteps⟩ := h
  rw [← hsteps]
  exact run_mono hr (Nat.le_add_left limit steps)

/-- A frame never returns if one that it gets to never does. -/
theorem never (h : Reaches u callees f events f' events')
    (hnever : ∀ limit, f'.run u callees limit events' = none) (limit : Nat) :
    f.run u callees limit events = none := by
  cases hr : f.run u callees limit events with
  | none => rfl
  | some r =>
      rw [← hnever limit]
      exact (h.run hr).symm

end Reaches

end Frame

end Reckon
