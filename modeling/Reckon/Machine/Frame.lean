import Reckon.Code.Basic
import Reckon.Numbered

/-!
# One activation of a procedure

A frame executes one procedure.  It knows nothing of other procedures: when it
comes to a call it says what is called, with which arguments, and waits for a
number.  So the meaning of a procedure can be stated for any behaviour of what
it calls.
-/

namespace Reckon

/-- What a register can hold. -/
inductive Datum where
  /-- A number. -/
  | number (value : Float)
  /-- A truth value. -/
  | flag (value : Bool)
  /-- A whole number. -/
  | word (value : UInt64)
  /-- The cell of a symbol. -/
  | cell (symbol : String)
  /-- The code that the cell of a symbol refers to. -/
  | code (symbol : String)
deriving Repr, DecidableEq

/-- What a call refers to. -/
inductive CallSite where
  /-- A declaration of the unit. -/
  | declaration (number : Nat)
  /-- The cell of a symbol. -/
  | cell (symbol : String)
deriving Repr, DecidableEq

/-- An activation of a procedure. -/
structure Frame where
  /-- The procedure. -/
  procedure : Code.Procedure
  /-- The values computed so far. -/
  registers : Numbered Datum
  /-- The contents of the slots. -/
  slots : Numbered Float
  /-- The instructions of the block that have not been executed. -/
  body : List Code.Instruction
  /-- What ends the block. -/
  transfer : Code.Transfer
deriving Repr, DecidableEq

/-- What comes of one step of a frame. -/
inductive FrameStep where
  /-- The frame goes on. -/
  | next (frame : Frame)
  /-- The frame waits for the number that a call yields. -/
  | call (site : CallSite) (args : List Float) (result : Code.ValueId) (frame : Frame)
  /-- The procedure returns a number. -/
  | done (value : Float)
  /-- An operand is missing or is not what the instruction needs. -/
  | stuck
deriving Repr, DecidableEq

/-- Arithmetic on numbers. -/
def Code.Arithmetic.apply : Code.Arithmetic → Float → Float → Float
  | add, a, b => a + b
  | sub, a, b => a - b
  | mul, a, b => a * b

/-- A comparison of numbers. -/
def Code.Comparison.holds : Code.Comparison → Float → Float → Bool
  | less, a, b => !decide (b ≤ a)
  | distinct, a, b => decide (a < b) || decide (b < a)

namespace Frame

/-- The number in a register. -/
def number? (f : Frame) (v : Code.ValueId) : Option Float :=
  match f.registers.get? v with
  | some (.number value) => some value
  | _ => none

/-- The numbers in some registers. -/
def numbers? (f : Frame) : List Code.ValueId → Option (List Float)
  | [] => some []
  | v :: vs =>
    match f.number? v, f.numbers? vs with
    | some value, some values => some (value :: values)
    | _, _ => none

/-- The frame with a value in a register. -/
def define (f : Frame) (v : Code.ValueId) (datum : Datum) : Frame :=
  { f with registers := f.registers.set v datum }

/-- The frame with numbers in some registers. -/
def defineAll (f : Frame) : List Code.ValueId → List Float → Frame
  | v :: vs, value :: values => (f.define v (.number value)).defineAll vs values
  | _, _ => f

/-- The frame at the start of a block. -/
def enter? (f : Frame) (target : Code.BlockId) (args : List Float) : Option Frame :=
  match f.procedure.block? target with
  | none => none
  | some block =>
    if block.params.length = args.length then
      let frame := { f with body := block.body, transfer := block.transfer }
      some (frame.defineAll block.params args)
    else none

/-- The frame at the start of a procedure. -/
def start? (p : Code.Procedure) (args : List Float) : Option Frame :=
  match p.blocks with
  | [] => none
  | block :: _ =>
    if p.arity = args.length && block.params.length = args.length then
      some (defineAll ⟨p, .empty, .empty, block.body, block.transfer⟩ block.params args)
    else none

/-- The step that puts a value in a register, if there is one. -/
def result (f : Frame) (v : Code.ValueId) : Option Datum → FrameStep
  | some datum => .next (f.define v datum)
  | none => .stuck

/-- The value of an operation that is not a call. -/
def compute? (f : Frame) : Code.Operation → Option Datum
  | .number value => some (.number value)
  | .arithmetic op left right =>
    match f.number? left, f.number? right with
    | some a, some b => some (.number (op.apply a b))
    | _, _ => none
  | .compare op left right =>
    match f.number? left, f.number? right with
    | some a, some b => some (.flag (op.holds a b))
    | _, _ => none
  | .extend flag =>
    match f.registers.get? flag with
    | some (.flag value) => some (.word value.toUInt64)
    | _ => none
  | .convert word =>
    match f.registers.get? word with
    | some (.word value) => some (.number value.toFloat)
    | _ => none
  | .loadSlot slot => (f.slots.get? slot).map .number
  | .cell symbol => some (.cell symbol)
  | .loadCell address =>
    match f.registers.get? address with
    | some (.cell symbol) => some (.code symbol)
    | _ => none
  | .call _ _ => none
  | .callThrough _ _ _ => none

/-- The step of an operation. -/
def operate (f : Frame) (v : Code.ValueId) : Code.Operation → FrameStep
  | .call external args =>
    match f.procedure.externals[external]?, f.numbers? args with
    | some entry, some values => .call (.declaration entry.declaration) values v f
    | _, _ => .stuck
  | .callThrough _ code args =>
    match f.registers.get? code, f.numbers? args with
    | some (.code symbol), some values => .call (.cell symbol) values v f
    | _, _ => .stuck
  | operation => f.result v (f.compute? operation)

/-- The step of a transfer. -/
def leave (f : Frame) : Code.Transfer → FrameStep
  | .jump target args =>
    match f.numbers? args with
    | none => .stuck
    | some values =>
      match f.enter? target values with
      | some frame => .next frame
      | none => .stuck
  | .branch condition whenTrue whenFalse =>
    match f.registers.get? condition with
    | some (.flag holds) =>
      match f.enter? (if holds then whenTrue else whenFalse) [] with
      | some frame => .next frame
      | none => .stuck
    | _ => .stuck
  | .leave value =>
    match f.number? value with
    | some value => .done value
    | none => .stuck

/-- One step. -/
def step (f : Frame) : FrameStep :=
  match f.body with
  | [] => f.leave f.transfer
  | .storeSlot value slot :: rest =>
    match f.number? value with
    | some content => .next { f with body := rest, slots := f.slots.set slot content }
    | none => .stuck
  | .define v operation :: rest => { f with body := rest }.operate v operation

end Frame

end Reckon
