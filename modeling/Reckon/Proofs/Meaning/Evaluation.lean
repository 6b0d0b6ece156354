import Reckon.Proofs.Meaning.Execution
import Reckon.Syntax.Prototype

/-!
# What an expression means

The meaning of an expression is given by an evaluator on its tree.  It evaluates
strictly and from left to right.  Every name in scope has a cell of its own: the
cells are a stack, a name refers to its innermost cell, and a cell exists from
the moment its name is bound to the end of the construct that binds it.

A computation that does not come to a result, because a loop does not end or a
call does not return, has no value (`none`).
-/

namespace Reckon

/-- The cells of the names in scope, innermost first, and the calls so far. -/
structure Memory where
  /-- The names with the contents of their cells. -/
  cells : List (String × Float)
  /-- The calls that returned. -/
  events : List Event
deriving Repr, DecidableEq

/-- A computation on a memory, which may never come to a result. -/
abbrev Evaluation := StateT Memory Option

namespace Evaluation

theorem bind_apply {α β : Type} (x : Evaluation α) (next : α → Evaluation β) (m : Memory) :
    (x >>= next) m = (x m).bind fun r => next r.1 r.2 := rfl

theorem map_apply {α β : Type} (g : α → β) (x : Evaluation α) (m : Memory) :
    (g <$> x) m = (x m).map fun r => (g r.1, r.2) := by
  change ((x m).bind fun r => some (g r.1, r.2)) = _
  cases x m <;> rfl

/-- A computation without a result. -/
def never {α : Type} : Evaluation α := fun _ => none

/-- Call something that is known by a symbol. -/
def call (callees : Callees) (symbol : String) (args : List Float) : Evaluation Float :=
  fun m => (callees m.events ⟨symbol, args⟩).map fun reply =>
    (reply.value, { m with events := m.events ++ [⟨⟨symbol, args⟩, reply.text⟩] })

/-- The content of the innermost cell of a name. -/
def fetch (name : String) : Evaluation Float :=
  fun m => (m.cells.lookup name).map fun value => (value, m)

/-- Change the innermost cell of a name among some cells. -/
def assign (name : String) (value : Float) :
    List (String × Float) → Option (List (String × Float))
  | [] => none
  | (other, content) :: cells =>
    if name = other then some ((other, value) :: cells)
    else (assign name value cells).map ((other, content) :: ·)

/-- Change the innermost cell of a name. -/
def store (name : String) (value : Float) : Evaluation Unit :=
  fun m => (assign name value m.cells).map fun cells => ((), { m with cells := cells })

/-- Evaluate something with a new cell for a name, which is gone afterwards. -/
def within {α : Type} (name : String) (value : Float) (inner : Evaluation α) : Evaluation α :=
  fun m => (inner { m with cells := (name, value) :: m.cells }).map fun (a, m) =>
    (a, { m with cells := m.cells.tail })

/-- Evaluate something as long as it says so, if that is less often than a limit. -/
def repeatUpTo (iteration : Evaluation Bool) : Nat → Memory → Option (Unit × Memory)
  | 0, _ => none
  | limit + 1, m =>
    match iteration m with
    | none => none
    | some (true, m) => repeatUpTo iteration limit m
    | some (false, m) => some ((), m)

/-- Evaluate something again and again, as long as it says so.  What comes of that is
what comes of it up to any limit that is high enough. -/
noncomputable def repeatWhile (iteration : Evaluation Bool) (m : Memory) :
    Option (Unit × Memory) :=
  open Classical in
  if h : ∃ r limit, repeatUpTo iteration limit m = some r then some h.choose else none

section Repetition

variable {iteration : Evaluation Bool} {m m' : Memory} {r : Unit × Memory}

theorem repeatUpTo_mono {limit more : Nat} (h : repeatUpTo iteration limit m = some r)
    (hle : limit ≤ more) : repeatUpTo iteration more m = some r := by
  induction limit generalizing m more with
  | zero => cases h
  | succ limit ih =>
      obtain ⟨more, rfl⟩ : ∃ n, more = n + 1 := ⟨more - 1, by omega⟩
      rw [repeatUpTo] at h ⊢
      split at h
      · cases h
      · exact ih h (Nat.le_of_succ_le_succ hle)
      · exact h

/-- A repetition has a result if some limit is high enough for it. -/
theorem repeatWhile_eq_some :
    repeatWhile iteration m = some r ↔ ∃ limit, repeatUpTo iteration limit m = some r := by
  unfold repeatWhile
  constructor
  · intro h
    split at h
    · next hresult =>
        obtain rfl := Option.some.inj h
        exact hresult.choose_spec
    · cases h
  · rintro ⟨limit, hlimit⟩
    have hresult : ∃ r limit, repeatUpTo iteration limit m = some r := ⟨r, limit, hlimit⟩
    obtain ⟨limit', hlimit'⟩ := hresult.choose_spec
    rw [dif_pos hresult, ← repeatUpTo_mono hlimit' (Nat.le_max_left limit' limit),
      repeatUpTo_mono hlimit (Nat.le_max_right limit' limit)]

theorem repeatWhile_again (h : iteration m = some (true, m')) :
    repeatWhile iteration m = repeatWhile iteration m' := by
  apply Option.ext
  intro r
  simp only [repeatWhile_eq_some]
  constructor
  · rintro ⟨limit, hlimit⟩
    cases limit with
    | zero => cases hlimit
    | succ limit => exact ⟨limit, by simpa only [repeatUpTo, h] using hlimit⟩
  · rintro ⟨limit, hlimit⟩
    exact ⟨limit + 1, by simpa only [repeatUpTo, h] using hlimit⟩

theorem repeatWhile_done (h : iteration m = some (false, m')) :
    repeatWhile iteration m = some ((), m') :=
  repeatWhile_eq_some.mpr ⟨1, by simp only [repeatUpTo, h]⟩

end Repetition

/-- Whether a number counts as true: it is comparable with zero and not equal
to it. -/
def truth (value : Float) : Bool := !value.isNaN && value != 0

/-- Comparison yields one if the left number is less or the two cannot be
compared, and zero otherwise. -/
def less (a b : Float) : Float := if decide (a < b) || a.isNaN || b.isNaN then 1 else 0

/-- Apply an infix operator other than assignment. -/
def applyInfix (callees : Callees) (op : Char) (a b : Float) : Evaluation Float :=
  match op with
  | '+' => return a + b
  | '-' => return a - b
  | '*' => return a * b
  | '<' => return less a b
  | _ => call callees (Callee.binary op).symbol [a, b]

end Evaluation

open Evaluation

mutual

/-- Evaluate an expression. -/
noncomputable def Expr.evaluate (callees : Callees) : Expr → Evaluation Float
  | .number value => return value
  | .var name => fetch name
  | .unary op operand => do
    let value ← operand.evaluate callees
    call callees (Callee.unary op).symbol [value]
  | .binary op left right =>
    if op = '=' then
      match left with
      | .var name => do
        let value ← right.evaluate callees
        store name value
        return value
      | _ => never
    else do
      let a ← left.evaluate callees
      let b ← right.evaluate callees
      applyInfix callees op a b
  | .call name args => do
    let values ← evaluateAll callees args
    call callees (Callee.named name).symbol values
  | .cond condition thenBranch elseBranch => do
    let value ← condition.evaluate callees
    if truth value then thenBranch.evaluate callees else elseBranch.evaluate callees
  | .loop name start finish step body => do
    let first ← start.evaluate callees
    within name first <| repeatWhile do
      let _ ← body.evaluate callees
      let step ← evaluateOr callees 1 step
      let finish ← finish.evaluate callees
      let current ← fetch name
      store name (current + step)
      return truth finish
    return 0
  | .locals bindings body => evaluateLocals callees (body.evaluate callees) bindings

/-- Evaluate expressions from left to right. -/
noncomputable def evaluateAll (callees : Callees) : List Expr → Evaluation (List Float)
  | [] => return []
  | arg :: args => do
    let value ← arg.evaluate callees
    let values ← evaluateAll callees args
    return value :: values

/-- Evaluate an expression that may be missing, for which a number stands in. -/
noncomputable def evaluateOr (callees : Callees) (otherwise : Float) :
    Option Expr → Evaluation Float
  | none => return otherwise
  | some value => value.evaluate callees

/-- Evaluate something with new names.  An initial value is evaluated before
its own name is bound and after the names before it. -/
noncomputable def evaluateLocals (callees : Callees) (body : Evaluation Float) :
    List (String × Option Expr) → Evaluation Float
  | [] => body
  | (name, initial) :: bindings => do
    let value ← evaluateOr callees 0 initial
    within name value (evaluateLocals callees body bindings)

end

/-- The operands of every other operator are evaluated first. -/
theorem Expr.evaluate_binary (callees : Callees) {op : Char} (hop : op ≠ '=')
    (left right : Expr) :
    (Expr.binary op left right).evaluate callees = (do
      let a ← left.evaluate callees
      let b ← right.evaluate callees
      applyInfix callees op a b) := by
  cases left with
  | _ => simp only [Expr.evaluate, if_neg hop]

/-- The number that a function returns for some arguments, and the calls that it
makes.  The last of several parameters of one name is the one that it refers
to. -/
noncomputable def Function.evaluate (callees : Callees) (f : Function) (args : List Float) :
    Option (Float × List Event) :=
  if f.prototype.params.length = args.length then
    (f.body.evaluate callees ⟨(f.prototype.params.zip args).reverse, []⟩).map fun (value, m) =>
      (value, m.events)
  else none

/-- The number that compiled code returns for some arguments within a number of
steps, and the calls that it makes. -/
def Compilation.execute (c : Compilation) (callees : Callees) (limit : Nat) (args : List Float) :
    Option (Float × List Event) :=
  (Frame.start? c.procedure args).bind fun f => f.run c.unit callees limit []

end Reckon
