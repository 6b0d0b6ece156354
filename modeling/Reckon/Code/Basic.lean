import Reckon.Binary64.Hexadecimal

/-!
# Code

A function is compiled to a procedure: blocks of instructions, each ended by a
transfer of control.  Values are computed once and never change; what does
change lives in slots.  A block may have parameters, which a jump to it
supplies.

Values, blocks and slots are numbered in the order in which they come into
being.  The blocks of a procedure stand in the order in which they were
entered, so the first one is where the procedure begins.
-/

namespace Reckon.Code

/-- The number of a value. -/
abbrev ValueId := Nat

/-- The number of a block. -/
abbrev BlockId := Nat

/-- The number of a slot. -/
abbrev SlotId := Nat

/-- Arithmetic on numbers. -/
inductive Arithmetic where
  | add
  | sub
  | mul
deriving Repr, DecidableEq

/-- Comparisons of numbers. -/
inductive Comparison where
  /-- Less, or not comparable. -/
  | less
  /-- Comparable and different. -/
  | distinct
deriving Repr, DecidableEq

/-- What computes a value. -/
inductive Operation where
  /-- A number. -/
  | number (value : Float)
  /-- Arithmetic on two numbers. -/
  | arithmetic (op : Arithmetic) (left right : ValueId)
  /-- A comparison of two numbers. -/
  | compare (op : Comparison) (left right : ValueId)
  /-- A truth value as a whole number. -/
  | extend (flag : ValueId)
  /-- A whole number as a number. -/
  | convert (word : ValueId)
  /-- The content of a slot. -/
  | loadSlot (slot : SlotId)
  /-- The cell of a symbol. -/
  | cell (symbol : String)
  /-- The code that a cell refers to. -/
  | loadCell (address : ValueId)
  /-- A call of a function that the procedure lists. -/
  | call (external : Nat) (args : List ValueId)
  /-- A call of code with a signature that the procedure lists. -/
  | callThrough (signature : Nat) (code : ValueId) (args : List ValueId)
deriving Repr, DecidableEq

/-- An instruction. -/
inductive Instruction where
  /-- Compute a value. -/
  | define (result : ValueId) (operation : Operation)
  /-- Change the content of a slot. -/
  | storeSlot (value : ValueId) (slot : SlotId)
deriving Repr, DecidableEq

/-- What ends a block. -/
inductive Transfer where
  /-- Go on in another block, with values for its parameters. -/
  | jump (target : BlockId) (args : List ValueId)
  /-- Go on in one of two blocks. -/
  | branch (condition : ValueId) (whenTrue whenFalse : BlockId)
  /-- Return a value. -/
  | leave (value : ValueId)
deriving Repr, DecidableEq

/-- Instructions that are executed one after the other. -/
structure Block where
  /-- The number of the block. -/
  id : BlockId
  /-- The parameters. -/
  params : List ValueId
  /-- The instructions. -/
  body : List Instruction
  /-- What ends the block. -/
  transfer : Transfer
deriving Repr, DecidableEq

/-- A function that a procedure calls without going through a cell. -/
structure External where
  /-- The number of its declaration in the unit. -/
  declaration : Nat
  /-- The number of its signature in the procedure. -/
  signature : Nat
  /-- Whether the unit itself defines it. -/
  colocated : Bool
deriving Repr, DecidableEq

/-- A compiled function. -/
structure Procedure where
  /-- Its symbol. -/
  symbol : String
  /-- The number of its parameters. -/
  arity : Nat
  /-- The number of its slots. -/
  slots : Nat
  /-- The number of parameters of each signature. -/
  signatures : List Nat
  /-- The functions it calls without going through a cell. -/
  externals : List External
  /-- Its blocks in the order in which they were entered. -/
  blocks : List Block
deriving Repr, DecidableEq

/-- The values that an operation uses. -/
def Operation.operands : Operation → List ValueId
  | number _ => []
  | arithmetic _ left right => [left, right]
  | compare _ left right => [left, right]
  | extend flag => [flag]
  | convert word => [word]
  | loadSlot _ => []
  | cell _ => []
  | loadCell address => [address]
  | call _ args => args
  | callThrough _ code args => code :: args

/-- The values that an instruction uses. -/
def Instruction.operands : Instruction → List ValueId
  | define _ operation => operation.operands
  | storeSlot value _ => [value]

/-- The values that a transfer uses. -/
def Transfer.operands : Transfer → List ValueId
  | jump _ args => args
  | branch condition _ _ => [condition]
  | leave value => [value]

/-- The block with a given number. -/
def Procedure.block? (p : Procedure) (id : BlockId) : Option Block :=
  p.blocks.find? fun block => block.id == id

end Reckon.Code
