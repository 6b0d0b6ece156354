import Reckon.Code.Basic

/-!
# Checking code

Code is checked before it is linked: calls pass as many arguments as the
signature they use has parameters, and transfers of control go to blocks that
exist and supply their parameters.
-/

namespace Reckon.Code

/-- What can be wrong with code. -/
inductive Fault where
  /-- A call of a function that is not listed. -/
  | noExternal (external : Nat)
  /-- A use of a signature that is not listed. -/
  | noSignature (signature : Nat)
  /-- A call with the wrong number of arguments. -/
  | argumentCount (expected found : Nat)
  /-- A transfer to a block that does not exist. -/
  | noBlock (block : BlockId)
  /-- A transfer that does not supply the parameters of its target. -/
  | parameterCount (block : BlockId) (expected found : Nat)
deriving Repr, DecidableEq

/-- The wording of a fault. -/
def Fault.text : Fault → String
  | noExternal external => s!"no function fn{external}"
  | noSignature signature => s!"no signature sig{signature}"
  | argumentCount expected found => s!"expected {expected} arguments, got {found}"
  | noBlock block => s!"no block{block}"
  | parameterCount block expected found =>
    s!"block{block} has {expected} parameters, got {found} values"

namespace Procedure

/-- Check the number of arguments of a call. -/
def checkSignature (p : Procedure) (signature found : Nat) : Except Fault Unit :=
  match p.signatures[signature]? with
  | none => .error (.noSignature signature)
  | some arity => if arity = found then .ok () else .error (.argumentCount arity found)

/-- Check an operation. -/
def checkOperation (p : Procedure) : Operation → Except Fault Unit
  | .call external args =>
    match p.externals[external]? with
    | none => .error (.noExternal external)
    | some entry => p.checkSignature entry.signature args.length
  | .callThrough signature _ args => p.checkSignature signature args.length
  | _ => .ok ()

/-- Check an instruction. -/
def checkInstruction (p : Procedure) : Instruction → Except Fault Unit
  | .define _ operation => p.checkOperation operation
  | .storeSlot _ _ => .ok ()

/-- Check the target of a transfer. -/
def checkTarget (p : Procedure) (target : BlockId) (found : Nat) : Except Fault Unit :=
  match p.block? target with
  | none => .error (.noBlock target)
  | some block =>
    if block.params.length = found then .ok ()
    else .error (.parameterCount target block.params.length found)

/-- Check a transfer. -/
def checkTransfer (p : Procedure) : Transfer → Except Fault Unit
  | .jump target args => p.checkTarget target args.length
  | .branch _ whenTrue whenFalse => do
    p.checkTarget whenTrue 0
    p.checkTarget whenFalse 0
  | .leave _ => .ok ()

/-- Check a block. -/
def checkBlock (p : Procedure) (block : Block) : Except Fault Unit := do
  block.body.forM p.checkInstruction
  p.checkTransfer block.transfer

/-- Check a procedure. -/
def check (p : Procedure) : Except Fault Unit := p.blocks.forM p.checkBlock

end Procedure

end Reckon.Code
