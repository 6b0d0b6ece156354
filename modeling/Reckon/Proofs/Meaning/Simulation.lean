import Reckon.Proofs.Meaning.Evaluation

/-!
# Executions that meet evaluations

`Frame.Meets` relates a frame with an evaluation that need not come to a result.
If there is a result, the frame gets to a frame with a given property and has
made the same calls; if there is none, the frame never returns.  The two halves
together make a simulation an equivalence.

An execution of a sequence is put together from executions of its parts
(`Meets.bind`), and that of a repetition from those of its rounds
(`Meets.repeatWhile`), whether or not the repetition ends.
-/

namespace Reckon

namespace Frame

open Evaluation

variable (u : CompilationUnit) (callees : Callees)

/-- An execution that starts with a frame comes to what an evaluation comes to. -/
def Meets {α : Type} (f : Frame) (events : List Event) (result : Option (α × Memory))
    (Post : α → Memory → Frame → Prop) : Prop :=
  match result with
  | none => ∀ limit, f.run u callees limit events = none
  | some (a, m) => ∃ f', f.Reaches u callees events f' m.events ∧ Post a m f'

namespace Meets

variable {u callees} {α β : Type} {f f' : Frame} {events events' : List Event} {m : Memory}
  {Post : α → Memory → Frame → Prop}

theorem of_reaches {result : Option (α × Memory)} (h : f.Reaches u callees events f' events')
    (hmeets : f'.Meets u callees events' result Post) : f.Meets u callees events result Post := by
  cases result with
  | none => exact h.never hmeets
  | some r =>
      obtain ⟨f'', hreaches, hpost⟩ := hmeets
      exact ⟨f'', h.trans hreaches, hpost⟩

theorem of_next {result : Option (α × Memory)} (h : f.step = .next f')
    (hmeets : f'.Meets u callees events result Post) : f.Meets u callees events result Post :=
  of_reaches (.next h) hmeets

theorem imp {Post' : α → Memory → Frame → Prop} {result : Option (α × Memory)}
    (h : f.Meets u callees events result Post) (himp : ∀ a m f', Post a m f' → Post' a m f') :
    f.Meets u callees events result Post' := by
  cases result with
  | none => exact h
  | some r =>
      obtain ⟨f', hreaches, hpost⟩ := h
      exact ⟨f', hreaches, himp _ _ _ hpost⟩

theorem pure {a : α} (h : Post a m f) :
    f.Meets u callees m.events ((Pure.pure a : Evaluation α) m) Post :=
  ⟨f, .refl f m.events, h⟩

/-- Parts that follow each other are executed one after the other. -/
theorem bind {x : Evaluation α} {k : α → Evaluation β} {Post' : β → Memory → Frame → Prop}
    (hx : f.Meets u callees events (x m) Post)
    (hk : ∀ a m' f', Post a m' f' → f'.Meets u callees m'.events (k a m') Post') :
    f.Meets u callees events ((x >>= k) m) Post' := by
  show f.Meets u callees events ((x m).bind fun r => k r.1 r.2) Post'
  cases hresult : x m with
  | none =>
      rw [hresult] at hx
      exact hx
  | some r =>
      rw [hresult] at hx
      obtain ⟨f', hreaches, hpost⟩ := hx
      exact of_reaches hreaches (hk r.1 r.2 f' hpost)

/-- What a frame does on its own can follow. -/
theorem continues {Post' : α → Memory → Frame → Prop} {result : Option (α × Memory)}
    (h : f.Meets u callees events result Post)
    (hmore : ∀ a m f', Post a m f' →
      ∃ f'', f'.Reaches u callees m.events f'' m.events ∧ Post' a m f'') :
    f.Meets u callees events result Post' := by
  cases result with
  | none => exact h
  | some r =>
      obtain ⟨f', hreaches, hpost⟩ := h
      obtain ⟨f'', hmore, hpost'⟩ := hmore r.1 r.2 f' hpost
      exact ⟨f'', hreaches.trans hmore, hpost'⟩

/-- A new cell is there only while something is evaluated with it. -/
theorem within {name : String} {value : Float} {inner : Evaluation α}
    (h : f.Meets u callees events (inner { m with cells := (name, value) :: m.cells })
      fun a m' f' => Post a { m' with cells := m'.cells.tail } f') :
    f.Meets u callees events (Evaluation.within name value inner m) Post := by
  unfold Evaluation.within
  cases hresult : inner { m with cells := (name, value) :: m.cells } with
  | none =>
      rw [hresult] at h
      exact h
  | some r =>
      rw [hresult] at h
      exact h

/-- A call waits for its reply, if there is one. -/
theorem call {site : CallSite} {args : List Float} {v : Code.ValueId} {symbol : String}
    {Post : Float → Memory → Frame → Prop} (hstep : f.step = .call site args v f')
    (hsite : u.symbolAt? site = some symbol)
    (hpost : ∀ value m', m'.cells = m.cells → Post value m' (f'.define v (.number value))) :
    f.Meets u callees m.events (Evaluation.call callees symbol args m) Post := by
  unfold Evaluation.call
  cases hreply : callees m.events ⟨symbol, args⟩ with
  | none => exact fun limit => run_call_none hstep hsite hreply
  | some reply =>
      refine ⟨f'.define v (.number reply.value), ⟨1, fun limit => ?_⟩, hpost _ _ rfl⟩
      rw [Nat.add_comm]
      exact run_call hstep hsite hreply

/-- If what an execution comes to is a number that is returned next, the frame
returns exactly what the evaluation comes to. -/
theorem returns {result : Option (Float × Memory)} {Post : Float → Memory → Frame → Prop}
    (h : f.Meets u callees events result Post)
    (hdone : ∀ value m f', Post value m f' → f'.step = .done value) (r : Float × List Event) :
    (∃ limit, f.run u callees limit events = some r) ↔
      result.map (fun (value, m) => (value, m.events)) = some r := by
  cases result with
  | none =>
      constructor
      · intro hrun
        obtain ⟨limit, hlimit⟩ := hrun
        rw [h limit] at hlimit
        cases hlimit
      · intro hnone
        cases hnone
  | some result =>
      obtain ⟨f', hreaches, hpost⟩ := h
      have hlast : f'.run u callees 1 result.2.events = some (result.1, result.2.events) := by
        simp [run, hdone _ _ _ hpost]
      constructor
      · intro hrun
        obtain ⟨limit, hlimit⟩ := hrun
        have hagain := run_mono (hreaches.run hlimit) (Nat.le_add_left limit 1)
        rw [run_mono hlast (Nat.le_add_right 1 limit)] at hagain
        exact hagain
      · intro hsome
        obtain ⟨steps, hsteps⟩ := hreaches
        refine ⟨steps + 1, ?_⟩
        rw [hsteps, hlast]
        exact hsome

section Repetition

variable {iteration : Evaluation Bool} {Again : Memory → Frame → Prop}
  {Post : Unit → Memory → Frame → Prop}

/-- A repetition without a result never returns.  Every round takes a step, so
the induction is on the number of steps. -/
theorem repeatWhile_never
    (hround : ∀ m f, Again m f → ∃ f₁, f.step = .next f₁ ∧
      f₁.Meets u callees m.events (iteration m)
        fun goOn m' f' => if goOn then Again m' f' else Post () m' f')
    (h : Again m f) (hnone : repeatWhile iteration m = none) (limit : Nat) :
    f.run u callees limit m.events = none := by
  induction limit generalizing m f with
  | zero => rfl
  | succ limit ih =>
      obtain ⟨f₁, hstep, hmeets⟩ := hround m f h
      rw [run_next hstep]
      cases hresult : iteration m with
      | none =>
          rw [hresult] at hmeets
          exact hmeets limit
      | some r =>
          obtain ⟨goOn, m'⟩ := r
          rw [hresult] at hmeets
          obtain ⟨f', hreaches, hpost⟩ := hmeets
          cases goOn with
          | false => cases (repeatWhile_done hresult).symm.trans hnone
          | true =>
              rw [repeatWhile_again hresult] at hnone
              have hrest := ih hpost hnone
              cases hr : f₁.run u callees limit m.events with
              | none => rfl
              | some r => exact absurd (hreaches.run hr) (by simp [hrest])

/-- A repetition with a result gets to where that holds.  The induction is on a number
of rounds that is enough. -/
theorem repeatWhile_some
    (hround : ∀ m f, Again m f → ∃ f₁, f.step = .next f₁ ∧
      f₁.Meets u callees m.events (iteration m)
        fun goOn m' f' => if goOn then Again m' f' else Post () m' f')
    (h : Again m f) {r : Unit × Memory} (hsome : repeatWhile iteration m = some r) :
    ∃ f', f.Reaches u callees m.events f' r.2.events ∧ Post r.1 r.2 f' := by
  obtain ⟨rounds, hrounds⟩ := repeatWhile_eq_some.mp hsome
  clear hsome
  induction rounds generalizing m f with
  | zero => cases hrounds
  | succ rounds ih =>
      obtain ⟨f₁, hstep, hmeets⟩ := hround m f h
      rw [repeatUpTo] at hrounds
      cases hresult : iteration m with
      | none => simp [hresult] at hrounds
      | some result =>
          obtain ⟨goOn, m'⟩ := result
          rw [hresult] at hmeets hrounds
          obtain ⟨f', hreaches, hpost⟩ := hmeets
          have hfirst := (Reaches.next hstep).trans hreaches
          cases goOn with
          | false =>
              obtain rfl := Option.some.inj hrounds
              exact ⟨f', hfirst, hpost⟩
          | true =>
              obtain ⟨f'', hreaches', hpost'⟩ := ih hpost hrounds
              exact ⟨f'', hfirst.trans hreaches', hpost'⟩

/-- A repetition is executed round by round. -/
theorem repeatWhile
    (hround : ∀ m f, Again m f → ∃ f₁, f.step = .next f₁ ∧
      f₁.Meets u callees m.events (iteration m)
        fun goOn m' f' => if goOn then Again m' f' else Post () m' f')
    (h : Again m f) :
    f.Meets u callees m.events (Evaluation.repeatWhile iteration m) Post := by
  cases hresult : Evaluation.repeatWhile iteration m with
  | none => exact fun limit => repeatWhile_never hround h hresult limit
  | some r => exact repeatWhile_some hround h hresult

end Repetition

end Meets

end Frame

end Reckon
