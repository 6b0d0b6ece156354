import Reckon.Code.Builder
import Reckon.Code.Check
import Reckon.Link.Linker
import Reckon.Lowering.Scope
import Reckon.Registry

/-!
# The state of lowering

Lowering turns the body of a function into code.  It reads the registry and
the linker, which it never changes, and it threads a state: the code so far,
the unit, how each callee that was met is reached, and the scope.  The state
survives an error, so that what an error leaves behind can be stated.
-/

namespace Reckon

/-- Why a function cannot be compiled. -/
inductive LowerError where
  /-- A name that is not in scope. -/
  | unknownVariable (name : String)
  /-- An assignment to something that is not a name. -/
  | invalidAssignment
  /-- A prefix operator that nothing defines. -/
  | unknownUnaryOperator (op : Char)
  /-- A function that is not known. -/
  | unknownFunction (name : String)
  /-- A call with the wrong number of arguments. -/
  | arityMismatch (callee : String) (expected found : Nat)
  /-- A symbol that has neither an address nor a cell, or no code when it is
  needed. -/
  | unresolvedSymbol (symbol : String)
  /-- An infix operator that has a precedence but no function. -/
  | missingBinaryOperator (op : Char)
  /-- A value that was computed in a block other than the one being filled. -/
  | branchOutOfPlace (block : Code.BlockId)
  /-- Code that fails its check. -/
  | faultyCode (fault : Code.Fault)
  /-- A symbol that one unit would declare in two ways. -/
  | clash (clash : Clash)
deriving Repr, DecidableEq

/-- The text of an error. -/
def LowerError.message : LowerError → String
  | unknownVariable name => s!"Unknown variable name '{name}'"
  | invalidAssignment => "destination of '=' must be a variable"
  | unknownUnaryOperator op => s!"Unknown unary operator '{op}'"
  | unknownFunction name => s!"Unknown function referenced '{name}'"
  | arityMismatch callee expected found =>
    s!"Incorrect # arguments passed to '{callee}': expected {expected}, got {found}"
  | unresolvedSymbol symbol => s!"Unresolved external symbol '{symbol}'"
  | missingBinaryOperator op =>
    s!"binary operator '{op}' has a precedence but no definition"
  | branchOutOfPlace block =>
    s!"branch value from block{block} merged outside the block it was produced in"
  | faultyCode fault => s!"IR verification failed: {fault.text}"
  | clash found =>
    s!"symbol '{found.symbol}' has {found.declared} parameters and cannot have {found.requested}"

/-- Whether an error means that the grammar and the definitions of operators
disagree, after which a session cannot go on. -/
def LowerError.isFatal : LowerError → Bool
  | missingBinaryOperator _ => true
  | branchOutOfPlace _ => true
  | _ => false

/-- What lowering may consult. -/
structure Surroundings where
  /-- The known prototypes. -/
  registry : Registry
  /-- The linked units. -/
  linker : Linker
deriving Repr, DecidableEq

/-- How a call reaches its callee. -/
inductive Route where
  /-- By calling a function that the procedure lists. -/
  | direct (external : Nat)
  /-- By calling what the cell of a symbol refers to. -/
  | throughCell (symbol : String) (signature : Nat)
deriving Repr, DecidableEq

/-- The state of lowering. -/
structure LowerState where
  /-- The code so far. -/
  builder : Code.Builder
  /-- The unit so far. -/
  unit : CompilationUnit
  /-- How the callees met so far are reached. -/
  routes : Table Callee Route
  /-- Where the names in scope are kept. -/
  scope : Scope Code.SlotId
deriving Repr

/-- A computation that lowers something. -/
abbrev Lower := EStateM LowerError LowerState

/-- What an expression was lowered to: its value, and the block that was being
filled when the value was complete. -/
structure Computed where
  /-- The value. -/
  value : Code.ValueId
  /-- The block. -/
  block : Code.BlockId
deriving Repr, DecidableEq

namespace Lower

/-- Change the code with an operation that yields something. -/
def build {α : Type} (f : Code.Builder → α × Code.Builder) : Lower α :=
  modifyGet fun s =>
    let (a, builder) := f s.builder
    (a, { s with builder := builder })

/-- Compute a value. -/
def define (operation : Code.Operation) : Lower Code.ValueId :=
  build fun b => b.define operation

/-- Change the content of a slot. -/
def storeSlot (value : Code.ValueId) (slot : Code.SlotId) : Lower Unit :=
  build fun b => ((), b.storeSlot value slot)

/-- A new slot. -/
def newSlot : Lower Code.SlotId := build Code.Builder.newSlot

/-- A new block. -/
def newBlock : Lower Code.BlockId := build Code.Builder.newBlock

/-- A new value for a parameter of a block. -/
def newParam : Lower Code.ValueId := build Code.Builder.newParam

/-- End the block being filled and enter another. -/
def enter (transfer : Code.Transfer) (next : Code.BlockId) (params : List Code.ValueId) :
    Lower Unit :=
  build fun b => ((), b.enter transfer next params)

/-- A value that was computed in the block being filled. -/
def here (value : Code.ValueId) : Lower Computed :=
  return ⟨value, (← get).builder.current⟩

/-- Compute the value of an expression. -/
def emit (operation : Code.Operation) : Lower Computed := do
  here (← define operation)

/-- Where a name in scope is kept. -/
def slotOf (name : String) : Lower Code.SlotId := do
  match (← get).scope.lookup name with
  | some slot => return slot
  | none => throw (.unknownVariable name)

/-- Lower something with a name bound, and end the binding afterwards, also
after an error. -/
def withBinding {α : Type} (name : String) (slot : Code.SlotId) (inner : Lower α) : Lower α :=
  fun s =>
    let (scope, mark) := s.scope.bind name slot
    match inner { s with scope := scope } with
    | .ok a s => .ok a { s with scope := s.scope.restore mark }
    | .error e s => .error e { s with scope := s.scope.restore mark }

/-- Whether a number counts as true: it is not zero, and it is a number. -/
def isTrue (value : Code.ValueId) : Lower Code.ValueId := do
  let nothing ← define (.number 0)
  define (.compare .distinct value nothing)

/-- Jump to a block with a value.  The block in which the value was computed
must still be the one being filled. -/
def jumpWith (computed : Computed) (target next : Code.BlockId)
    (params : List Code.ValueId) : Lower Unit := do
  if (← get).builder.current = computed.block then
    enter (.jump target [computed.value]) next params
  else throw (.branchOutOfPlace computed.block)

/-- The number of parameters of a callee, if it is known. -/
def arity? (around : Surroundings) (callee : Callee) : Lower (Option Nat) := do
  match (← get).unit.declared? callee with
  | some declared => return some declared.arity
  | none => return (around.registry.get? callee).map Prototype.arity

/-- Call a declared function directly. -/
def direct (declared : Declared) : Lower Route :=
  modifyGet fun s =>
    let own := s.unit.isOwn declared.declaration
    let (external, builder) := s.builder.newExternal declared.declaration declared.arity own
    (.direct external, { s with builder := builder })

/-- How a callee that was not met before is reached: directly if the unit
declares it or it has an address, and otherwise through its cell. -/
def findRoute (around : Surroundings) (callee : Callee) : Lower (Option Route) := do
  match (← get).unit.declared? callee with
  | some declared => some <$> direct declared
  | none =>
    match around.registry.get? callee with
    | none => return none
    | some prototype =>
      let symbol := callee.symbol
      match around.linker.address? symbol with
      | some address =>
        match (← get).unit.declareImport prototype address with
        | .ok (declared, unit) =>
          modify fun s => { s with unit := unit }
          some <$> direct declared
        | .error clash => throw (.clash clash)
      | none =>
        if around.linker.hasCell symbol then
          modify fun s => { s with unit := s.unit.refer symbol }
          let signature ← build fun b => b.newSignature prototype.arity
          return some (.throughCell symbol signature)
        else throw (.unresolvedSymbol symbol)

/-- How a callee is reached.  It is found out at the first call of it. -/
def route? (around : Surroundings) (callee : Callee) : Lower (Option Route) := do
  match (← get).routes.find? callee with
  | some route => return some route
  | none =>
    let found ← findRoute around callee
    if let some route := found then
      modify fun s => { s with routes := s.routes.insert callee route }
    return found

/-- Call a callee. -/
def call (route : Route) (args : List Code.ValueId) : Lower Computed :=
  match route with
  | .direct external => emit (.call external args)
  | .throughCell symbol signature => do
    let cell ← define (.cell symbol)
    let code ← define (.loadCell cell)
    emit (.callThrough signature code args)

/-- Call a callee that has to be reachable. -/
def callOrThrow (around : Surroundings) (callee : Callee) (missing : LowerError)
    (args : List Code.ValueId) : Lower Computed := do
  match ← route? around callee with
  | some route => call route args
  | none => throw missing

end Lower

end Reckon
