import Reckon.Code.Basic

/-!
# Building code

A builder holds the blocks that are complete and the one being filled.  There
always is one: ending a block and entering the next are a single step, so code
cannot be lost between two blocks and no block is left open.
-/

namespace Reckon.Code

/-- A procedure under construction. -/
structure Builder where
  /-- The number of values so far. -/
  values : Nat
  /-- The number of blocks so far. -/
  blocks : Nat
  /-- The number of slots so far. -/
  slots : Nat
  /-- The number of parameters of each signature so far. -/
  signatures : Array Nat
  /-- The functions called so far without going through a cell. -/
  externals : Array External
  /-- The complete blocks in the order in which they were entered. -/
  complete : Array Block
  /-- The number of the block being filled. -/
  current : BlockId
  /-- The parameters of the block being filled. -/
  params : List ValueId
  /-- The instructions of the block being filled. -/
  body : Array Instruction
deriving Repr

namespace Builder

/-- The start of a procedure: its first block has its parameters. -/
def start (arity : Nat) : Builder :=
  ⟨arity, 1, 0, #[], #[], #[], 0, List.range arity, #[]⟩

/-- Compute a value. -/
def define (b : Builder) (operation : Operation) : ValueId × Builder :=
  (b.values, { b with
    values := b.values + 1
    body := b.body.push (.define b.values operation) })

/-- Change the content of a slot. -/
def storeSlot (b : Builder) (value : ValueId) (slot : SlotId) : Builder :=
  { b with body := b.body.push (.storeSlot value slot) }

/-- A new slot. -/
def newSlot (b : Builder) : SlotId × Builder :=
  (b.slots, { b with slots := b.slots + 1 })

/-- The number of a new block. -/
def newBlock (b : Builder) : BlockId × Builder :=
  (b.blocks, { b with blocks := b.blocks + 1 })

/-- A new value that a block will have for a parameter. -/
def newParam (b : Builder) : ValueId × Builder :=
  (b.values, { b with values := b.values + 1 })

/-- A new signature. -/
def newSignature (b : Builder) (arity : Nat) : Nat × Builder :=
  (b.signatures.size, { b with signatures := b.signatures.push arity })

/-- A new function to call, with a signature of its own. -/
def newExternal (b : Builder) (declaration arity : Nat) (colocated : Bool) : Nat × Builder :=
  let (signature, b) := b.newSignature arity
  (b.externals.size,
    { b with externals := b.externals.push ⟨declaration, signature, colocated⟩ })

/-- The block being filled, ended by a transfer. -/
def currentBlock (b : Builder) (transfer : Transfer) : Block :=
  ⟨b.current, b.params, b.body.toList, transfer⟩

/-- End the block being filled and enter another. -/
def enter (b : Builder) (transfer : Transfer) (next : BlockId) (params : List ValueId) :
    Builder :=
  { b with
    complete := b.complete.push (b.currentBlock transfer)
    current := next
    params := params
    body := #[] }

/-- End the last block. -/
def finish (b : Builder) (symbol : String) (arity : Nat) (transfer : Transfer) : Procedure :=
  ⟨symbol, arity, b.slots, b.signatures.toList, b.externals.toList,
    (b.complete.push (b.currentBlock transfer)).toList⟩

end Builder

end Reckon.Code
