import Reckon.Lowering.Expr

/-!
# Compiling a function

A function is compiled in a fresh unit, which declares the function before its
body is lowered, so that the body can call it.  Parameters are copied to slots
first, which makes them names like any other.  The code is checked before it is
handed on.
-/

namespace Reckon

namespace LowerState

/-- The state before the body of a function is lowered. -/
def start (unit : CompilationUnit) (arity : Nat) : LowerState :=
  ⟨.start arity, unit, .empty, .empty⟩

end LowerState

namespace Lower

/-- Keep parameters in slots, the first of them being a given value.  They stay
bound. -/
def parameters (first : Code.ValueId) : List String → Lower Unit
  | [] => return
  | name :: names => do
    let slot ← newSlot
    storeSlot first slot
    modify fun s => { s with scope := (s.scope.bind name slot).1 }
    parameters (first + 1) names

/-- Lower the parameters and the body of a function. -/
def function (around : Surroundings) (f : Function) : Lower Computed := do
  parameters 0 f.prototype.params
  expr around f.body

end Lower

/-- Compile a function. -/
def Surroundings.compile (around : Surroundings) (f : Function) :
    Except LowerError Compilation := do
  let p := f.prototype
  let (_, unit) ← (CompilationUnit.empty.declareDefinition p).mapError .clash
  match Lower.function around f (.start unit p.arity) with
  | .error e _ => throw e
  | .ok lowered s =>
    let procedure := s.builder.finish p.callee.symbol p.arity (.leave lowered.value)
    procedure.check.mapError .faultyCode
    return ⟨p, procedure, s.unit⟩

end Reckon
