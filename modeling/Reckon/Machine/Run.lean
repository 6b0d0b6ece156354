import Reckon.Link.Linker
import Reckon.Machine.Frame

/-!
# Running linked code

The machine runs the procedure of one linked unit.  It resolves each call where
the caller says: a declaration has a fixed address, and a cell is read at the
time of the call.  Calls are kept on a stack of waiting frames, so the depth of
recursion is bounded by memory only.

Programs need not end.  `run` takes a number of steps that it must not exceed,
and says so if they did not suffice.
-/

namespace Reckon

/-- A frame and the unit its procedure belongs to. -/
structure Activation where
  /-- The address of each declaration of the unit. -/
  targets : List Address
  /-- The frame. -/
  frame : Frame
deriving Repr, DecidableEq

/-- A caller, and the register in which it expects the result. -/
structure Waiting where
  /-- The register. -/
  result : Code.ValueId
  /-- The caller. -/
  caller : Activation
deriving Repr, DecidableEq

/-- The state of a run. -/
structure Machine where
  /-- What is being executed. -/
  active : Activation
  /-- The callers, innermost first. -/
  waiting : List Waiting
  /-- The text written so far. -/
  output : String
deriving Repr, DecidableEq

/-- How a run ends. -/
inductive Ending where
  /-- With a number. -/
  | value (value : Float)
  /-- With a call through an empty cell. -/
  | emptyCell (symbol : String)
  /-- With a call of something that takes another number of arguments. -/
  | wrongArity (address : Address) (found : Nat)
  /-- With an instruction that cannot be executed. -/
  | stuck
  /-- With no steps left. -/
  | exhausted
deriving Repr, DecidableEq

/-- What comes of one step of a machine. -/
inductive MachineStep where
  /-- The run goes on. -/
  | next (machine : Machine)
  /-- The run ends. -/
  | ended (ending : Ending)
deriving Repr, DecidableEq

namespace Activation

/-- The activation with a number in a register. -/
def resume (a : Activation) (result : Code.ValueId) (value : Float) : Activation :=
  { a with frame := a.frame.define result (.number value) }

/-- The address that a call refers to. -/
def resolve (a : Activation) (l : Linker) : CallSite → Except Ending Address
  | .declaration number =>
    match a.targets[number]? with
    | some address => .ok address
    | none => .error .stuck
  | .cell symbol =>
    match l.cells.find? symbol with
    | some (some address) => .ok address
    | _ => .error (.emptyCell symbol)

/-- The activation at the start of a linked unit. -/
def start? (u : LinkedUnit) (args : List Float) : Option Activation :=
  (Frame.start? u.procedure args).map fun frame => ⟨u.targets, frame⟩

end Activation

namespace Machine

/-- Call an address for a caller. -/
def call (l : Linker) (address : Address) (args : List Float) (caller : Waiting)
    (waiting : List Waiting) (output : String) : MachineStep :=
  match address with
  | .primitive primitive =>
    match args with
    | [arg] =>
      let (value, text) := primitive.apply arg
      .next ⟨caller.caller.resume caller.result value, waiting, output ++ text⟩
    | _ => .ended (.wrongArity address args.length)
  | .unit index =>
    match l.units[index]? with
    | none => .ended .stuck
    | some u =>
      match Activation.start? u args with
      | some active => .next ⟨active, caller :: waiting, output⟩
      | none => .ended (.wrongArity address args.length)

/-- One step. -/
def step (l : Linker) (m : Machine) : MachineStep :=
  match m.active.frame.step with
  | .next frame => .next { m with active := { m.active with frame := frame } }
  | .call site args result frame =>
    let active := { m.active with frame := frame }
    match active.resolve l site with
    | .ok address => call l address args ⟨result, active⟩ m.waiting m.output
    | .error ending => .ended ending
  | .done value =>
    match m.waiting with
    | [] => .ended (.value value)
    | caller :: waiting =>
      .next ⟨caller.caller.resume caller.result value, waiting, m.output⟩
  | .stuck => .ended .stuck

/-- Run for at most the given number of steps.  The second part is the text
written. -/
def run (l : Linker) : Nat → Machine → Ending × String
  | 0, m => (.exhausted, m.output)
  | limit + 1, m =>
    match m.step l with
    | .next m => run l limit m
    | .ended ending => (ending, m.output)

end Machine

/-- Run the function at an address with some arguments. -/
def Linker.execute (l : Linker) (limit : Nat) (address : Address) (args : List Float) :
    Ending × String :=
  match address with
  | .primitive primitive =>
    match args with
    | [arg] =>
      let (value, text) := primitive.apply arg
      (.value value, text)
    | _ => (.wrongArity address args.length, "")
  | .unit index =>
    match l.units[index]? with
    | none => (.stuck, "")
    | some u =>
      match Activation.start? u args with
      | some active => Machine.run l limit ⟨active, [], ""⟩
      | none => (.wrongArity address args.length, "")

end Reckon
