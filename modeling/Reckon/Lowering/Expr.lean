import Reckon.Lowering.Basic

/-!
# Lowering expressions

Operands and arguments are lowered from left to right.  Every name is kept in
a slot of its own, so that it can be assigned to.

A choice ends the current block and joins its two branches in a block whose
parameter is the value of the branch taken.  A loop runs its body before it
tests its end for the first time; the name grows after the test has been
evaluated, whatever its result, and the value of the loop is zero.  Initial
values are lowered before their names are bound, so they see what the names
meant before.  The value of an assignment is the value assigned.
-/

namespace Reckon.Lower

/-- Lower an infix operator whose operands have been lowered.  Four of them
are instructions; every other one is a call. -/
def infixOperator (around : Surroundings) (op : Char) (left right : Code.ValueId) :
    Lower Computed :=
  match op with
  | '+' => emit (.arithmetic .add left right)
  | '-' => emit (.arithmetic .sub left right)
  | '*' => emit (.arithmetic .mul left right)
  | '<' => do
    let less ← define (.compare .less left right)
    let word ← define (.extend less)
    emit (.convert word)
  | _ => callOrThrow around (.binary op) (.missingBinaryOperator op) [left, right]

mutual

/-- Lower an expression. -/
def expr (around : Surroundings) : Expr → Lower Computed
  | .number value => emit (.number value)
  | .var name => do emit (.loadSlot (← slotOf name))
  | .unary op operand => do
    let operand ← expr around operand
    callOrThrow around (.unary op) (.unknownUnaryOperator op) [operand.value]
  | .binary op left right =>
    if op = '=' then
      match left with
      | .var name => do
        let value ← expr around right
        storeSlot value.value (← slotOf name)
        return value
      | _ => throw .invalidAssignment
    else do
      let lhs ← expr around left
      let rhs ← expr around right
      infixOperator around op lhs.value rhs.value
  | .call name args => do
    match ← arity? around (.named name) with
    | none => throw (.unknownFunction name)
    | some arity =>
      if arity = args.length then
        let values ← arguments around args
        callOrThrow around (.named name) (.unknownFunction name) values
      else throw (.arityMismatch name arity args.length)
  | .cond condition thenBranch elseBranch => do
    let condition ← expr around condition
    let truth ← isTrue condition.value
    let thenBlock ← newBlock
    let elseBlock ← newBlock
    let joinBlock ← newBlock
    let result ← newParam
    enter (.branch truth thenBlock elseBlock) thenBlock []
    let thenValue ← expr around thenBranch
    jumpWith thenValue joinBlock elseBlock []
    let elseValue ← expr around elseBranch
    jumpWith elseValue joinBlock joinBlock [result]
    here result
  | .loop name start finish step body => do
    let slot ← newSlot
    let start ← expr around start
    storeSlot start.value slot
    let loopBlock ← newBlock
    enter (.jump loopBlock []) loopBlock []
    withBinding name slot do
      let _ ← expr around body
      let step ← valueOr around 1 step
      let finish ← expr around finish
      let current ← define (.loadSlot slot)
      let next ← define (.arithmetic .add current step)
      storeSlot next slot
      let goOn ← isTrue finish.value
      let afterBlock ← newBlock
      enter (.branch goOn loopBlock afterBlock) afterBlock []
    emit (.number 0)
  | .locals bindings body => locals around (expr around body) bindings

/-- Lower arguments. -/
def arguments (around : Surroundings) : List Expr → Lower (List Code.ValueId)
  | [] => return []
  | arg :: args => do
    let first ← expr around arg
    let others ← arguments around args
    return first.value :: others

/-- Lower an expression that may be missing, for which a number stands in. -/
def valueOr (around : Surroundings) (otherwise : Float) : Option Expr → Lower Code.ValueId
  | none => define (.number otherwise)
  | some value => do return (← expr around value).value

/-- Lower something with new names.  Each initial value sees the names before
it. -/
def locals (around : Surroundings) (body : Lower Computed) :
    List (String × Option Expr) → Lower Computed
  | [] => body
  | (name, initial) :: bindings => do
    let value ← valueOr around 0 initial
    let slot ← newSlot
    storeSlot value slot
    withBinding name slot (locals around body bindings)

end

end Reckon.Lower
