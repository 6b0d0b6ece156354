import Reckon.Proofs.Link.Newest
import Reckon.Proofs.Lowering.Bonds
import Reckon.Proofs.Machine.Guard

/-!
# Calls lead where they are bound to

A call that is executed goes where the instruction is bound to (`Activation.Runs.resolve`):
to a fixed address, or to the newest definition of a symbol.  The units that a unit
leads to (`Linker.Leads`) are all that a run of it gets to, so two linkers that differ
only beyond them, and in cells that none of them calls through, run the unit in the
same way (`Linker.Lockstep.execute`).
-/

namespace Reckon

namespace Code

/-- Code that defines every value once has one operation for each. -/
theorem Procedure.operation_unique {p : Procedure} (h : p.definitions.Nodup) {v : ValueId}
    {operation operation' : Operation} (hmem : .define v operation ∈ p.instructions)
    (hmem' : .define v operation' ∈ p.instructions) : operation = operation' := by
  have hsublist (blocks : List Block) :
      List.Sublist ((blocks.flatMap Block.body).filterMap Instruction.result?)
        (blocks.flatMap Block.definitions) := by
    induction blocks with
    | nil => exact List.Sublist.refl _
    | cons block blocks ih =>
        rw [List.flatMap_cons, List.flatMap_cons, List.filterMap_append]
        exact (List.sublist_append_right _ _).append ih
  have hpairwise := List.pairwise_filterMap.mp (h.sublist (hsublist p.blocks))
  have : Std.Symm fun a a' : Instruction =>
      ∀ v, a.result? = some v → ∀ w, a'.result? = some w → v ≠ w :=
    ⟨fun _ _ hother v hv w hw heq => hother w hw v hv heq.symm⟩
  by_contra hne
  have hother := hpairwise.forall hmem hmem' fun heq => hne (Instruction.define.inj heq).2
  exact hother v rfl v rfl rfl

end Code

/-- What is called by a call that is bound in some way. -/
def Bond.resolve (l : Linker) : Bond → Except Ending Address
  | .fixed address => .ok address
  | .late symbol =>
    match l.newest? symbol with
    | some i => .ok (.unit i)
    | none => .error (.emptyCell symbol)

/-- A unit makes a call that is bound in some way. -/
def LinkedUnit.Makes (u : LinkedUnit) (bond : Bond) : Prop :=
  ∃ instruction ∈ u.procedure.instructions, u.Calls instruction bond

namespace Activation

variable {a : Activation} {u : LinkedUnit} {l running : Linker} {bond : Bond}
  {site : CallSite} {args : List Float} {result : Code.ValueId} {frame : Frame}

/-- A filled cell holds an address, and an empty one is as good as none. -/
theorem resolve_cell (a : Activation) (l : Linker) (symbol : String) :
    a.resolve l (.cell symbol) =
      match (l.cells.find? symbol).join with
      | some address => .ok address
      | none => .error (.emptyCell symbol) := by
  unfold resolve
  dsimp only
  cases l.cells.find? symbol with
  | none => rfl
  | some content => cases content <;> rfl

/-- **A call goes where its instruction is bound to.** -/
theorem Runs.resolve (h : a.Runs u) (hdefinitions : u.procedure.definitions.Nodup)
    {instruction : Code.Instruction} {rest : List Code.Instruction}
    (hbody : a.frame.body = instruction :: rest) (hcalls : u.Calls instruction bond)
    (hcells : running.cells = l.cells)
    (hcell : ∀ symbol, Code.NamesCell u.procedure.instructions symbol →
      l.cells.find? symbol = some ((l.newest? symbol).map .unit))
    (hstep : a.frame.step = .call site args result frame) :
    Activation.resolve { a with frame := frame } running site = bond.resolve l := by
  unfold Frame.step at hstep
  rw [hbody] at hstep
  cases hcalls with
  | @direct v external vs e address hexternal htarget =>
      simp only [Frame.operate, h.frame.procedure, hexternal] at hstep
      split at hstep
      · next entry values hentry _ =>
          obtain rfl := Option.some.inj hentry
          obtain ⟨rfl, -, -, rfl⟩ := FrameStep.call.inj hstep
          simp only [Activation.resolve, h.targets, htarget]
          rfl
      · cases hstep
  | @through v code cell signature vs symbol hload hnames =>
      simp only [Frame.operate] at hstep
      split at hstep
      · next other values hcode _ =>
          obtain ⟨rfl, -, -, rfl⟩ := FrameStep.call.inj hstep
          -- the register of the code was filled by the instruction that loads the cell
          obtain ⟨cell', hload', hnames'⟩ := h.frame.registers code _ hcode
          have hsame := Code.Procedure.operation_unique hdefinitions hload hload'
          obtain rfl := Code.Operation.loadCell.inj hsame
          have hsymbol := Code.Procedure.operation_unique hdefinitions hnames hnames'
          obtain rfl := Code.Operation.cell.inj hsymbol
          rw [resolve_cell, hcells, hcell symbol ⟨cell, hnames⟩, Bond.resolve]
          cases l.newest? symbol <;> rfl
      · cases hstep

/-- A call that goes somewhere is one that the unit makes. -/
theorem Runs.makes (h : a.Runs u) (hstep : a.frame.step = .call site args result frame) :
    match site with
    | .declaration number => ∀ address, u.targets[number]? = some address →
        u.Makes (.fixed address)
    | .cell symbol => u.Makes (.late symbol) := by
  obtain ⟨-, hsite⟩ := h.call hstep
  cases site with
  | declaration number =>
      obtain ⟨v, external, vs, e, hmem, he, rfl, -⟩ := hsite
      exact fun address htarget => ⟨_, hmem, .direct he htarget⟩
  | cell symbol =>
      obtain ⟨signature, vs, ⟨v, code, cell, hmem, hload, hcell⟩, -⟩ := hsite
      exact ⟨_, hmem, .through hload hcell⟩

end Activation

namespace Linker

/-- A linked unit makes a call that is bound in some way. -/
def Makes (l : Linker) (i : Nat) (bond : Bond) : Prop :=
  ∃ u, l.units[i]? = some u ∧ u.Makes bond

/-- The units that the calls of a unit lead to, from call to call. -/
inductive Leads (l : Linker) (i : Nat) : Nat → Prop where
  | refl : Leads l i i
  | calls {j k : Nat} {bond : Bond} (before : Leads l i j) (makes : l.Makes j bond)
      (resolves : bond.resolve l = .ok (.unit k)) : Leads l i k

/-- A unit leads to a call through the cell of a symbol. -/
def ReachesLate (l : Linker) (i : Nat) (symbol : String) : Prop :=
  ∃ j, l.Leads i j ∧ l.Makes j (.late symbol)

/-- What the run of a unit depends on is the same in two linkers: the second has the
units of the first, and among the cells that the unit leads to calls through they hold
the same. -/
structure Lockstep (l l' : Linker) (i : Nat) : Prop where
  dated : l.Dated
  coherent : l.Coherent
  units : ∀ j, j < l.units.size → l'.units[j]? = l.units[j]?
  cells : ∀ symbol, l.ReachesLate i symbol →
    (l'.cells.find? symbol).join = (l.cells.find? symbol).join

variable {l l' : Linker} {i : Nat} {m m' : Machine}

/-- Every activation of a run executes a unit that the first one leads to. -/
def Within (l : Linker) (i : Nat) (m : Machine) : Prop :=
  ∀ a ∈ m.activations, ∃ (j : Nat) (u : LinkedUnit), l.Leads i j ∧ l.units[j]? = some u ∧ a.Runs u

namespace Lockstep

/-- A call goes to the same place in both linkers, and if that is a unit, then one that
is there and that the first one leads to. -/
theorem resolve (h : l.Lockstep l' i) {j : Nat} {u : LinkedUnit} (hleads : l.Leads i j)
    (hu : l.units[j]? = some u) {a : Activation} (hruns : a.Runs u) {site : CallSite}
    {args : List Float} {result : Code.ValueId} {frame : Frame}
    (hstep : a.frame.step = .call site args result frame) :
    Activation.resolve { a with frame := frame } l' site =
        Activation.resolve { a with frame := frame } l site ∧
      ∀ k, Activation.resolve { a with frame := frame } l site = .ok (.unit k) →
        l.Leads i k ∧ k < l.units.size := by
  have hmakes := hruns.makes hstep
  cases site with
  | declaration number =>
      refine ⟨rfl, fun k hk => ?_⟩
      simp only [Activation.resolve] at hk
      split at hk
      · next address htarget =>
          obtain rfl := Except.ok.inj hk
          rw [hruns.targets] at htarget
          have hle := h.dated.targets j u hu k (List.mem_of_getElem? htarget)
          have hlt := (Array.getElem?_eq_some_iff.mp hu).1
          exact ⟨.calls hleads ⟨u, hu, hmakes _ htarget⟩ rfl, Nat.lt_of_le_of_lt hle hlt⟩
      · cases hk
  | cell symbol =>
      have hreaches : l.ReachesLate i symbol := ⟨j, hleads, u, hu, hmakes⟩
      rw [Activation.resolve_cell, Activation.resolve_cell, h.cells symbol hreaches]
      refine ⟨rfl, fun k hk => ?_⟩
      have hnames : Code.NamesCell u.procedure.instructions symbol := by
        obtain ⟨instruction, -, hcalls⟩ := hmakes
        cases hcalls with
        | through hload hcell => exact ⟨_, hcell⟩
      rw [h.dated.cell h.coherent (h.coherent.cells j u symbol hu hnames)] at hk
      cases hnewest : l.newest? symbol with
      | none => simp [hnewest] at hk
      | some newest =>
          simp only [hnewest, Option.map_some, Option.join_some] at hk
          obtain rfl := Address.unit.inj (Except.ok.inj hk)
          refine ⟨.calls hleads ⟨u, hu, hmakes⟩ ?_, h.dated.newest?_lt h.coherent hnewest⟩
          rw [Bond.resolve, hnewest]

/-- Both linkers take the same step, which stays within what the unit leads to. -/
theorem step (h : l.Lockstep l' i) (hm : l.Within i m) :
    m.step l' = m.step l ∧ ∀ m', m.step l = .next m' → l.Within i m' := by
  obtain ⟨⟨j, u, hleads, hu, hruns⟩, hwaiting⟩ := List.forall_mem_cons.mp hm
  refine ⟨?_, fun m' hstep => ?_⟩
  · unfold Machine.step
    split
    · rfl
    · next site args result frame hframe =>
        obtain ⟨hsame, hthere⟩ := h.resolve hleads hu hruns hframe
        dsimp only
        rw [hsame]
        split
        · next address hresolve =>
            cases address with
            | primitive primitive => rfl
            | unit k =>
                rw [Machine.call, Machine.call, h.units k (hthere k hresolve).2]
        · rfl
    · rfl
    · rfl
  · cases Machine.moves_of_step hstep with
    | continues hframe =>
        exact List.forall_mem_cons.mpr
          ⟨⟨j, u, hleads, hu, (hruns.next hframe).runs hruns⟩, hwaiting⟩
    | primitive hframe hresolve =>
        have hcaller := (hruns.call hframe).1.runs hruns
        refine List.forall_mem_cons.mpr ⟨⟨j, u, hleads, hu, ?_⟩, hwaiting⟩
        exact (Activation.continues_resume _ _ _).runs hcaller
    | @calls site args result frame k v active hframe hresolve hv hactive =>
        have hcaller := (hruns.call hframe).1.runs hruns
        have hled := ((h.resolve hleads hu hruns hframe).2 k hresolve).1
        refine List.forall_mem_cons.mpr ⟨⟨k, v, hled, hv, Activation.runs_start hactive⟩, ?_⟩
        exact List.forall_mem_cons.mpr ⟨⟨j, u, hleads, hu, hcaller⟩, hwaiting⟩
    | returns hframe hcallers =>
        rw [hcallers] at hwaiting
        obtain ⟨⟨k, v, hled, hv, hcaller⟩, hothers⟩ := List.forall_mem_cons.mp hwaiting
        refine List.forall_mem_cons.mpr ⟨⟨k, v, hled, hv, ?_⟩, hothers⟩
        exact (Activation.continues_resume _ _ _).runs hcaller

/-- Both linkers run the same way. -/
theorem run (h : l.Lockstep l' i) (limit : Nat) (hm : l.Within i m) :
    Machine.run l' limit m = Machine.run l limit m := by
  induction limit generalizing m with
  | zero => rfl
  | succ limit ih =>
      obtain ⟨hsame, hwithin⟩ := h.step hm
      rw [Machine.run, Machine.run, hsame]
      split
      · next m' hstep => exact ih (hwithin m' hstep)
      · rfl

/-- **Both linkers execute the unit in the same way.** -/
theorem execute (h : l.Lockstep l' i) (hi : i < l.units.size) (limit : Nat)
    (args : List Float) : l'.execute limit (.unit i) args = l.execute limit (.unit i) args := by
  rw [Linker.execute, Linker.execute, h.units i hi]
  cases hu : l.units[i]? with
  | none => rfl
  | some u =>
      dsimp only
      cases hactive : Activation.start? u args with
      | none => rfl
      | some active =>
          refine h.run limit (List.forall_mem_cons.mpr ⟨⟨i, u, .refl, hu, ?_⟩, nofun⟩)
          exact Activation.runs_start hactive

end Lockstep

end Linker

end Reckon
