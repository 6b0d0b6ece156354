import Reckon.Proofs.Link.Arities
import Reckon.Proofs.Machine.Guard

/-!
# Calls and the code that they reach

A run stays in linked code (`Machine.Linked`), whose calls are those that the code
of some unit makes.  So where all units agree with what they lead to, every call
that a run gets to passes as many arguments as the code it reaches has parameters
(`Machine.Linked.calls`), and no run ends because of their number.
-/

namespace Reckon

namespace Machine

variable {l : Linker} {m m' : Machine} {promised : String → Nat} {address : Address}
  {args : List Float}

/-- Every activation executes the code of a linked unit. -/
def Linked (l : Linker) (m : Machine) : Prop :=
  ∀ a ∈ m.activations, ∃ (i : Nat) (u : LinkedUnit), l.units[i]? = some u ∧ a.Runs u

/-- The next step calls the code at an address with some arguments. -/
def Calls (l : Linker) (m : Machine) (address : Address) (args : List Float) : Prop :=
  ∃ site result frame, m.active.frame.step = .call site args result frame ∧
    Activation.resolve { m.active with frame := frame } l site = .ok address

/-- Every step stays in linked code. -/
theorem Linked.step (h : m.Linked l) (hstep : m.step l = .next m') : m'.Linked l := by
  obtain ⟨⟨i, u, hu, hruns⟩, hwaiting⟩ := List.forall_mem_cons.mp h
  cases moves_of_step hstep with
  | continues hframe =>
      exact List.forall_mem_cons.mpr ⟨⟨i, u, hu, (hruns.next hframe).runs hruns⟩, hwaiting⟩
  | primitive hframe hresolve =>
      have hcaller := (hruns.call hframe).1.runs hruns
      refine List.forall_mem_cons.mpr ⟨⟨i, u, hu, ?_⟩, hwaiting⟩
      exact (Activation.continues_resume _ _ _).runs hcaller
  | @calls site args result frame j v active hframe hresolve hv hactive =>
      have hcaller := (hruns.call hframe).1.runs hruns
      refine List.forall_mem_cons.mpr ⟨⟨j, v, hv, Activation.runs_start hactive⟩, ?_⟩
      exact List.forall_mem_cons.mpr ⟨⟨i, u, hu, hcaller⟩, hwaiting⟩
  | returns hframe hcallers =>
      rw [hcallers] at hwaiting
      obtain ⟨⟨j, v, hv, hcaller⟩, hothers⟩ := List.forall_mem_cons.mp hwaiting
      refine List.forall_mem_cons.mpr ⟨⟨j, v, hv, ?_⟩, hothers⟩
      exact (Activation.continues_resume _ _ _).runs hcaller

/-- **A call reaches code with as many parameters as it passes arguments.** -/
theorem Linked.calls (h : m.Linked l) (hagrees : l.Agrees promised)
    (hcalls : m.Calls l address args) : l.parameters? address = some args.length := by
  obtain ⟨site, result, frame, hframe, hresolve⟩ := hcalls
  obtain ⟨i, u, hu, hruns⟩ := h m.active List.mem_cons_self
  obtain ⟨-, hsite⟩ := hruns.call hframe
  have hunit := hagrees.units i u hu
  cases site with
  | declaration number =>
      -- the target was settled when the unit was linked
      obtain ⟨v, external, vs, e, hcall, he, rfl, hlength⟩ := hsite
      obtain ⟨target, htarget, hparameters⟩ := hunit.direct v external vs e hcall he
      simp only [Activation.resolve, hruns.targets, htarget] at hresolve
      obtain rfl := Except.ok.inj hresolve
      rw [hparameters, hlength]
  | cell symbol =>
      -- the cell is read now, so only the promise links the caller to what it finds
      obtain ⟨signature, vs, hcell, hlength⟩ := hsite
      simp only [Activation.resolve] at hresolve
      split at hresolve
      · next found hfilled =>
          obtain rfl := Except.ok.inj hresolve
          rw [hagrees.cells symbol found hfilled, ← hunit.through symbol signature vs hcell,
            hlength]
      · cases hresolve

/-- A run ends because of a number of arguments only at a call, and only if the
function called does not start with these arguments. -/
theorem calls_of_wrongArity {found : Nat} (h : m.step l = .ended (.wrongArity address found)) :
    ∃ args, m.Calls l address args ∧ args.length = found ∧
      match address with
      | .primitive _ => args.length ≠ Primitive.arity
      | .unit j => ∃ v, l.units[j]? = some v ∧ Activation.start? v args = none := by
  unfold step at h
  split at h
  · cases h
  · next site args result frame hframe =>
      dsimp only at h
      split at h
      · next target hresolve =>
          unfold call at h
          split at h
          · split at h
            · cases h
            · next hother =>
                cases h
                refine ⟨args, ⟨site, result, frame, hframe, hresolve⟩, rfl, fun hone => ?_⟩
                obtain ⟨arg, rfl⟩ := List.length_eq_one_iff.mp hone
                exact hother arg rfl
          · split at h
            · cases h
            · next v hv =>
                split at h
                · cases h
                · next hstart =>
                    cases h
                    exact ⟨args, ⟨site, result, frame, hframe, hresolve⟩, rfl, v, hv, hstart⟩
      · next ending hresolve =>
          cases h
          cases site with
          | declaration number =>
              simp only [Activation.resolve] at hresolve
              split at hresolve <;> cases hresolve
          | cell symbol =>
              simp only [Activation.resolve] at hresolve
              split at hresolve <;> cases hresolve
  · split at h <;> cases h
  · cases h

/-- No run ends because of a number of arguments. -/
theorem Linked.step_ne_wrongArity (h : m.Linked l) (hagrees : l.Agrees promised) (found : Nat) :
    m.step l ≠ .ended (.wrongArity address found) := by
  intro hended
  obtain ⟨args, hcalls, -, hrefused⟩ := calls_of_wrongArity hended
  have hparameters := h.calls hagrees hcalls
  cases address with
  | primitive primitive => exact hrefused (Option.some.inj hparameters).symm
  | unit j =>
      obtain ⟨v, hv, hnone⟩ := hrefused
      obtain ⟨v', hv', harity⟩ := Option.map_eq_some_iff.mp hparameters
      obtain rfl := Option.some.inj (hv.symm.trans hv')
      obtain ⟨frame, hframe⟩ := (hagrees.units j v hv).starts args harity
      simp [Activation.start?, hframe] at hnone

end Machine

end Reckon
