import Reckon.Proofs.Machine.Guard

/-!
# What a call comes to

The machine keeps its callers on a stack.  What an activation comes to does not depend
on them, so it can be said of the activation alone (`Activation.Finishes`): it takes
steps of its own, and each of its calls comes to a number and some text.  Executing the
function of a unit comes to a number exactly if the activation at its start does
(`Linker.returns_unit`).
-/

namespace Reckon

namespace Machine

variable {l : Linker}

theorem run_value_mono {limit : Nat} {m : Machine} {ending : Ending} {output : String}
    (h : run l limit m = (ending, output)) (hended : ending ≠ .exhausted) {more : Nat}
    (hle : limit ≤ more) : run l more m = (ending, output) := by
  induction limit generalizing m more with
  | zero => exact absurd (Prod.mk.inj h).1.symm hended
  | succ limit ih =>
      obtain ⟨more, rfl⟩ : ∃ n, more = n + 1 := ⟨more - 1, by omega⟩
      rw [run] at h ⊢
      split at h
      · exact ih h (Nat.le_of_succ_le_succ hle)
      · exact h

/-- A run ends with a number where its only activation returns it. -/
theorem done_of_step {a : Activation} {waiting : List Waiting} {output : String} {value : Float}
    (h : step l ⟨a, waiting, output⟩ = .ended (.value value)) :
    a.frame.step = .done value ∧ waiting = [] := by
  unfold step at h
  split at h
  · cases h
  · next site args result frame hframe =>
      dsimp only at h
      split at h
      · next address hresolve =>
          unfold call at h
          repeat' split at h
          all_goals cases h
      · next ending hresolve =>
          cases h
          cases site with
          | declaration number =>
              simp only [Activation.resolve] at hresolve
              split at hresolve <;> cases hresolve
          | cell symbol =>
              simp only [Activation.resolve] at hresolve
              split at hresolve <;> cases hresolve
  · next found hframe =>
      dsimp only at h
      split at h
      · cases h
        exact ⟨hframe, rfl⟩
      · cases h
  · cases h

/-- What is left of a run that ends with a number when its innermost activation has
returned one: nothing, or fewer steps of its caller. -/
def GoesOn (l : Linker) (limit : Nat) (reply : Float) (waiting : List Waiting) (output : String)
    (value : Float) (total : String) : Prop :=
  match waiting with
  | [] => reply = value ∧ total = output
  | caller :: waiting => ∃ less < limit,
      run l less ⟨caller.caller.resume caller.result reply, waiting, output⟩ =
        (.value value, total)

theorem GoesOn.mono {limit more : Nat} {reply value : Float} {waiting : List Waiting}
    {output total : String} (h : GoesOn l limit reply waiting output value total)
    (hle : limit ≤ more) : GoesOn l more reply waiting output value total := by
  cases waiting with
  | nil => exact h
  | cons caller waiting =>
      obtain ⟨less, hless, hrun⟩ := h
      exact ⟨less, Nat.lt_of_lt_of_le hless hle, hrun⟩

end Machine

/-- An activation comes to a number, and a text has been written by then. -/
inductive Activation.Finishes (l : Linker) : Activation → Float → String → Prop where
  /-- It returns at once. -/
  | done {a : Activation} {value : Float} (hframe : a.frame.step = .done value) :
      Finishes l a value ""
  /-- It takes a step of its own. -/
  | next {a : Activation} {frame : Frame} {value : Float} {text : String}
      (hframe : a.frame.step = .next frame)
      (rest : Finishes l { a with frame := frame } value text) : Finishes l a value text
  /-- It calls a primitive. -/
  | primitive {a : Activation} {site : CallSite} {arg : Float} {result : Code.ValueId}
      {frame : Frame} {primitive : Primitive} {value : Float} {text : String}
      (hframe : a.frame.step = .call site [arg] result frame)
      (hresolve : Activation.resolve { a with frame := frame } l site =
        .ok (.primitive primitive))
      (rest : Finishes l (Activation.resume { a with frame := frame } result
        (primitive.apply arg).1) value text) :
      Finishes l a value ((primitive.apply arg).2 ++ text)
  /-- It calls the function of a unit. -/
  | calls {a : Activation} {site : CallSite} {args : List Float} {result : Code.ValueId}
      {frame : Frame} {j : Nat} {v : LinkedUnit} {active : Activation} {reply value : Float}
      {written text : String} (hframe : a.frame.step = .call site args result frame)
      (hresolve : Activation.resolve { a with frame := frame } l site = .ok (.unit j))
      (hv : l.units[j]? = some v) (hactive : Activation.start? v args = some active)
      (callee : Finishes l active reply written)
      (rest : Finishes l (Activation.resume { a with frame := frame } result reply) value text) :
      Finishes l a value (written ++ text)

namespace Activation

variable {l : Linker} {a : Activation} {value : Float} {text : String}

/-- An activation that finishes gets to its end above any callers. -/
theorem Finishes.runs (h : a.Finishes l value text) (waiting : List Waiting) (output : String) :
    ∃ (steps : Nat) (last : Activation), last.frame.step = .done value ∧
      ∀ limit, Machine.run l (steps + limit) ⟨a, waiting, output⟩ =
        Machine.run l limit ⟨last, waiting, output ++ text⟩ := by
  induction h generalizing waiting output with
  | @done a value hframe =>
      refine ⟨0, a, hframe, fun limit => ?_⟩
      rw [Nat.zero_add, String.append_empty]
  | next hframe rest ih =>
      obtain ⟨steps, last, hlast, hrun⟩ := ih waiting output
      refine ⟨steps + 1, last, hlast, fun limit => ?_⟩
      rw [← hrun limit, Nat.add_right_comm]
      simp only [Machine.run, Machine.step, hframe]
  | @primitive a site arg result frame primitive value text hframe hresolve rest ih =>
      obtain ⟨steps, last, hlast, hrun⟩ := ih waiting (output ++ (primitive.apply arg).2)
      refine ⟨steps + 1, last, hlast, fun limit => ?_⟩
      rw [← String.append_assoc, ← hrun limit, Nat.add_right_comm]
      simp only [Machine.run, Machine.step, hframe, hresolve, Machine.call]
  | @calls a site args result frame j v active reply value written text hframe hresolve hv hactive
      callee rest ihCallee ihRest =>
      let caller : Waiting := ⟨result, { a with frame := frame }⟩
      obtain ⟨steps, back, hback, hrun⟩ := ihCallee (caller :: waiting) output
      obtain ⟨steps', last, hlast, hrun'⟩ := ihRest waiting (output ++ written)
      refine ⟨1 + steps + 1 + steps', last, hlast, fun limit => ?_⟩
      have hcall : Machine.run l (1 + steps + 1 + steps' + limit) ⟨a, waiting, output⟩ =
          Machine.run l (steps + (1 + steps' + limit)) ⟨active, caller :: waiting, output⟩ := by
        rw [show 1 + steps + 1 + steps' + limit = steps + (1 + steps' + limit) + 1 by omega]
        simp only [Machine.run, Machine.step, hframe, hresolve, Machine.call, hv, hactive]
        rfl
      have hreturn : Machine.run l (1 + steps' + limit)
            ⟨back, caller :: waiting, output ++ written⟩ =
          Machine.run l (steps' + limit)
            ⟨Activation.resume { a with frame := frame } result reply, waiting,
              output ++ written⟩ := by
        rw [show 1 + steps' + limit = steps' + limit + 1 by omega]
        simp only [Machine.run, Machine.step, hback]
        rfl
      rw [hcall, hrun, hreturn, hrun', String.append_assoc]

/-- What a run comes to begins with what its innermost activation comes to: a number
that is the result, or that its caller goes on with. -/
theorem finishes_of_run {limit : Nat} {waiting : List Waiting} {output total : String}
    (h : Machine.run l limit ⟨a, waiting, output⟩ = (.value value, total)) :
    ∃ reply text, a.Finishes l reply text ∧
      Machine.GoesOn l limit reply waiting (output ++ text) value total := by
  induction limit using Nat.strongRecOn generalizing a waiting output with
  | ind limit ih =>
      cases limit with
      | zero => cases h
      | succ limit =>
          rw [Machine.run] at h
          split at h
          · next m' hstep =>
              cases Machine.moves_of_step hstep with
              | continues hframe =>
                  obtain ⟨reply, text, hfinishes, hrest⟩ := ih limit (Nat.lt_succ_self _) h
                  exact ⟨reply, text, .next hframe hfinishes, hrest.mono (Nat.le_succ _)⟩
              | @primitive site arg result frame primitive hframe hresolve =>
                  obtain ⟨reply, text, hfinishes, hrest⟩ := ih limit (Nat.lt_succ_self _) h
                  refine ⟨reply, _, .primitive hframe hresolve hfinishes, ?_⟩
                  rw [← String.append_assoc]
                  exact hrest.mono (Nat.le_succ _)
              | @calls site args result frame j v active hframe hresolve hv hactive =>
                  obtain ⟨written, text, hcallee, less, hless, hback⟩ :=
                    ih limit (Nat.lt_succ_self _) h
                  obtain ⟨reply, text', hfinishes, hrest⟩ :=
                    ih less (Nat.lt_succ_of_lt hless) hback
                  refine ⟨reply, _, .calls hframe hresolve hv hactive hcallee hfinishes, ?_⟩
                  rw [← String.append_assoc]
                  exact hrest.mono (Nat.le_succ_of_le (Nat.le_of_lt hless))
              | @returns reply caller waiting hframe hcallers =>
                  obtain rfl := hcallers
                  refine ⟨reply, "", .done hframe, limit, Nat.lt_succ_self _, ?_⟩
                  rw [String.append_empty]
                  exact h
          · next ending hstep =>
              obtain ⟨rfl, rfl⟩ := Prod.mk.inj h
              obtain ⟨hframe, rfl⟩ := Machine.done_of_step hstep
              exact ⟨value, "", .done hframe, rfl, String.append_empty.symm⟩

end Activation

namespace Linker

variable {l l' : Linker} {value : Float} {text : String} {args : List Float}

/-- The code at an address returns a number for some arguments, and a text has been
written by then. -/
def Returns (l : Linker) (address : Address) (args : List Float) (value : Float)
    (text : String) : Prop :=
  ∃ limit, l.execute limit address args = (.value value, text)

/-- The function of a unit returns what the activation at its start comes to. -/
theorem returns_unit {i : Nat} : l.Returns (.unit i) args value text ↔
    ∃ u active, l.units[i]? = some u ∧ Activation.start? u args = some active ∧
      active.Finishes l value text := by
  constructor
  · intro h
    obtain ⟨limit, hlimit⟩ := h
    unfold execute at hlimit
    cases hu : l.units[i]? with
    | none => simp [hu] at hlimit
    | some u =>
        simp only [hu] at hlimit
        cases hactive : Activation.start? u args with
        | none => simp [hactive] at hlimit
        | some active =>
            simp only [hactive] at hlimit
            obtain ⟨reply, written, hfinishes, rfl, htext⟩ := Activation.finishes_of_run hlimit
            rw [String.empty_append] at htext
            exact ⟨u, active, rfl, hactive, htext ▸ hfinishes⟩
  · intro h
    obtain ⟨u, active, hu, hactive, hfinishes⟩ := h
    obtain ⟨steps, last, hlast, hrun⟩ := hfinishes.runs [] ""
    refine ⟨steps + 1, ?_⟩
    simp only [execute, hu, hactive]
    rw [hrun, String.empty_append]
    simp only [Machine.run, Machine.step, hlast]

theorem returns_primitive {primitive : Primitive} :
    l.Returns (.primitive primitive) args value text ↔
      ∃ arg, args = [arg] ∧ primitive.apply arg = (value, text) := by
  constructor
  · intro h
    obtain ⟨limit, hlimit⟩ := h
    simp only [execute] at hlimit
    split at hlimit
    · next arg =>
        obtain ⟨hvalue, htext⟩ := Prod.mk.inj hlimit
        exact ⟨arg, rfl, Prod.ext (Ending.value.inj hvalue) htext⟩
    · cases (Prod.mk.inj hlimit).1
  · intro h
    obtain ⟨arg, rfl, happly⟩ := h
    exact ⟨0, by simp only [execute, happly]⟩

/-- Executing more than once comes to the same. -/
theorem Returns.unique {address : Address} {value' : Float} {text' : String}
    (h : l.Returns address args value text) (h' : l.Returns address args value' text') :
    value = value' ∧ text = text' := by
  cases address with
  | primitive primitive =>
      obtain ⟨arg, rfl, happly⟩ := returns_primitive.mp h
      obtain ⟨arg', harg, happly'⟩ := returns_primitive.mp h'
      obtain rfl := (List.cons.inj harg).1
      exact Prod.mk.inj (happly.symm.trans happly')
  | unit i =>
      obtain ⟨limit, hlimit⟩ := h
      obtain ⟨limit', hlimit'⟩ := h'
      unfold execute at hlimit hlimit'
      cases hu : l.units[i]? with
      | none => simp [hu] at hlimit
      | some u =>
          simp only [hu] at hlimit hlimit'
          cases hactive : Activation.start? u args with
          | none => simp [hactive] at hlimit
          | some active =>
              simp only [hactive] at hlimit hlimit'
              have hmore := Machine.run_value_mono hlimit (by simp) (Nat.le_max_left limit limit')
              have hmore' :=
                Machine.run_value_mono hlimit' (by simp) (Nat.le_max_right limit limit')
              obtain ⟨hvalue, htext⟩ := Prod.mk.inj (hmore.symm.trans hmore')
              exact ⟨Ending.value.inj hvalue, htext⟩

end Linker

end Reckon
