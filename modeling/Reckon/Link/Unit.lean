import Reckon.Code.Basic
import Reckon.Primitive
import Reckon.Syntax.Prototype
import Reckon.Table

/-!
# Compilation units

Each top-level form is compiled into a unit of its own.  A unit declares the
function it defines and the functions it calls that already have an address;
it also notes every symbol it refers to, so that the linker can tell what
running it would need.  A call of a function that has no address yet goes
through the symbol's cell and needs no declaration.
-/

namespace Reckon

/-- Where code is: in the library, or in the unit that was linked at a given
turn. -/
inductive Address where
  /-- A primitive. -/
  | primitive (primitive : Primitive)
  /-- The function of a linked unit. -/
  | unit (index : Nat)
deriving Repr, DecidableEq

/-- What a declaration stands for. -/
inductive Binding where
  /-- The function that the unit defines. -/
  | own
  /-- A function that has an address already. -/
  | imported (address : Address)
deriving Repr, DecidableEq

/-- A function that a unit declares. -/
structure Declaration where
  /-- Its symbol. -/
  symbol : String
  /-- The number of its parameters. -/
  arity : Nat
  /-- What it stands for. -/
  binding : Binding
deriving Repr, DecidableEq

/-- A callee that has a declaration. -/
structure Declared where
  /-- The number of the declaration. -/
  declaration : Nat
  /-- The number of parameters. -/
  arity : Nat
deriving Repr, DecidableEq

/-- A symbol that is declared with two different numbers of parameters. -/
structure Clash where
  /-- The symbol. -/
  symbol : String
  /-- The number of parameters it has. -/
  declared : Nat
  /-- The number of parameters it would get. -/
  requested : Nat
deriving Repr, DecidableEq

/-- A compilation unit. -/
structure CompilationUnit where
  /-- The declarations in order. -/
  declarations : List Declaration
  /-- The callees that are declared. -/
  callees : Table Callee Declared
  /-- The symbols referred to, in order of first reference. -/
  references : List String
deriving Repr, DecidableEq

namespace CompilationUnit

/-- The unit that declares nothing. -/
def empty : CompilationUnit := ⟨[], .empty, []⟩

/-- The declaration of a callee. -/
def declared? (u : CompilationUnit) (callee : Callee) : Option Declared :=
  u.callees.find? callee

/-- The number of the declaration of a symbol.  A symbol that is declared
already keeps its declaration. -/
def declare (u : CompilationUnit) (symbol : String) (arity : Nat) (binding : Binding) :
    Except Clash (Nat × CompilationUnit) :=
  match u.declarations.findIdx? fun d => d.symbol == symbol with
  | none =>
    .ok (u.declarations.length,
      { u with declarations := u.declarations ++ [⟨symbol, arity, binding⟩] })
  | some n =>
    match u.declarations[n]? with
    | none => .ok (n, u)
    | some d => if d.arity = arity then .ok (n, u) else .error ⟨symbol, d.arity, arity⟩

/-- Declare a function under its callee. -/
def declareCallee (u : CompilationUnit) (p : Prototype) (binding : Binding) :
    Except Clash (Declared × CompilationUnit) := do
  let (n, u) ← u.declare p.callee.symbol p.arity binding
  let declared : Declared := ⟨n, p.arity⟩
  return (declared, { u with callees := u.callees.insert p.callee declared })

/-- Note a reference to a symbol. -/
def refer (u : CompilationUnit) (symbol : String) : CompilationUnit :=
  if u.references.contains symbol then u
  else { u with references := u.references ++ [symbol] }

/-- Declare the function that the unit defines. -/
def declareDefinition (u : CompilationUnit) (p : Prototype) :
    Except Clash (Declared × CompilationUnit) :=
  u.declareCallee p .own

/-- Declare a function that has an address already. -/
def declareImport (u : CompilationUnit) (p : Prototype) (address : Address) :
    Except Clash (Declared × CompilationUnit) := do
  let (declared, u) ← u.declareCallee p (.imported address)
  return (declared, u.refer p.callee.symbol)

/-- Whether a declaration stands for the function that the unit defines. -/
def isOwn (u : CompilationUnit) (declaration : Nat) : Bool :=
  (u.declarations[declaration]?).map Declaration.binding == some .own

end CompilationUnit

/-- A function and the unit it was compiled in. -/
structure Compilation where
  /-- The prototype. -/
  prototype : Prototype
  /-- The code. -/
  procedure : Code.Procedure
  /-- The unit. -/
  unit : CompilationUnit
deriving Repr, DecidableEq

end Reckon
