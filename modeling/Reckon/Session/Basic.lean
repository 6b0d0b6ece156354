import Reckon.Code.Listing
import Reckon.Grammar.Item
import Reckon.Lowering.Function
import Reckon.Machine.Run
import Reckon.Session.Options
import Reckon.Token.Cursor

/-!
# Sessions

A session deals with one top-level form after the other.  A definition is
compiled and linked, a declaration is recorded, and an expression is compiled,
run once and forgotten.

The prototype of a definition, and the precedence if it defines an infix
operator, are announced before its body is compiled, so that the body can refer
to them.  If the body cannot be compiled they are retracted, and the session is
what it was before (`retract_announce`).  An expression is not run at all if
anything it could reach has no code yet.

Running takes a limit on the number of steps.
-/

namespace Reckon

/-- Why a form is rejected. -/
inductive FormError where
  /-- It cannot be read. -/
  | syntaxError (problem : SyntaxError)
  /-- It cannot be compiled, or what it needs has no code. -/
  | lowerError (problem : LowerError)
deriving Repr, DecidableEq

/-- The text of an error. -/
def FormError.message : FormError → String
  | syntaxError problem => problem.message
  | lowerError problem => problem.message

/-- Whether a session cannot go on after an error. -/
def FormError.isFatal : FormError → Bool
  | syntaxError _ => false
  | lowerError problem => problem.isFatal

/-- What came of a form. -/
inductive Outcome where
  /-- A function was defined; its listing is kept. -/
  | defined (prototype : Prototype) (listing : String)
  /-- A function was declared. -/
  | declared (prototype : Prototype)
  /-- An expression was evaluated. -/
  | evaluated (value : Float)
  /-- An expression was run and did not come to a value. -/
  | stopped (ending : Ending)
deriving Repr, DecidableEq

/-- The answer to a form: what came of it, and the text that running it
wrote. -/
structure Response where
  /-- What came of the form. -/
  outcome : Except FormError Outcome
  /-- The text written. -/
  output : String

/-- The state of a session. -/
structure Session where
  /-- The infix operators. -/
  operators : OperatorTable
  /-- The known prototypes. -/
  registry : Registry
  /-- The linked units. -/
  linker : Linker
  /-- The options. -/
  options : Options
deriving Repr, DecidableEq

/-- What an announcement displaced. -/
structure Displaced where
  /-- The prototype that the callee had before. -/
  prototype : Option Prototype
  /-- The entry that the operator had before. -/
  precedence : Option Int
deriving Repr, DecidableEq

namespace Session

/-- A new session. -/
def start (options : Options) : Session := ⟨.builtins, .empty, .empty, options⟩

/-- What compilation may consult. -/
def surroundings (s : Session) : Surroundings := ⟨s.registry, s.linker⟩

/-- Record the prototype of a function that is about to be compiled, unless it
is that of a bare expression. -/
def announceName (s : Session) (p : Prototype) : Session × Option Prototype :=
  if p.isAnonymous then (s, none)
  else ({ s with registry := (s.registry.insert p).1 }, (s.registry.insert p).2)

/-- Install the operator of a function that is about to be compiled. -/
def announceOperator (s : Session) (p : Prototype) : Session × Option Int :=
  match p.infixOperator? with
  | some (op, precedence) =>
    ({ s with operators := (s.operators.install op precedence).1 },
      (s.operators.install op precedence).2)
  | none => (s, none)

/-- Announce a function that is about to be compiled. -/
def announce (s : Session) (p : Prototype) : Session × Displaced :=
  let (s, prototype) := s.announceName p
  let (s, precedence) := s.announceOperator p
  (s, ⟨prototype, precedence⟩)

/-- Put back what the announcement of a name displaced. -/
def retractName (s : Session) (p : Prototype) (previous : Option Prototype) : Session :=
  if p.isAnonymous then s
  else { s with registry := s.registry.restore p.callee previous }

/-- Put back what the announcement of an operator displaced. -/
def retractOperator (s : Session) (p : Prototype) (previous : Option Int) : Session :=
  match p.infixOperator? with
  | some (op, _) => { s with operators := s.operators.restore op previous }
  | none => s

/-- Put back what an announcement displaced. -/
def retract (s : Session) (p : Prototype) (displaced : Displaced) : Session :=
  (s.retractOperator p displaced.precedence).retractName p displaced.prototype

theorem retractName_announceName (s : Session) (p : Prototype) :
    (s.announceName p).1.retractName p (s.announceName p).2 = s := by
  unfold announceName retractName
  split <;> simp [Registry.restore_insert]

theorem retractOperator_announceOperator (s : Session) (p : Prototype) :
    (s.announceOperator p).1.retractOperator p (s.announceOperator p).2 = s := by
  unfold announceOperator retractOperator
  cases p.infixOperator? with
  | none => rfl
  | some found => simp [OperatorTable.restore_install]

/-- Retracting an announcement gives back the session as it was. -/
theorem retract_announce (s : Session) (p : Prototype) :
    (s.announce p).1.retract p (s.announce p).2 = s := by
  simp only [announce, retract, retractOperator_announceOperator, retractName_announceName]

/-- Compile a function, leaving it announced if that succeeds. -/
def compile (s : Session) (f : Function) : Session × Except LowerError Compilation :=
  let (announced, displaced) := s.announce f.prototype
  match announced.surroundings.compile f with
  | .ok compiled => (announced, .ok compiled)
  | .error e => (announced.retract f.prototype displaced, .error e)

/-- Compile and link a definition. -/
def define (s : Session) (f : Function) : Session × Response :=
  match s.compile f with
  | (s, .error e) => (s, ⟨.error (.lowerError e), ""⟩)
  | (s, .ok compiled) =>
    ({ s with linker := s.linker.link compiled },
      ⟨.ok (.defined f.prototype compiled.procedure.listing), ""⟩)

/-- Record a declaration.  It can be called from now on, even if its code only
comes later. -/
def declare (s : Session) (p : Prototype) : Session × Response :=
  ({ s with
      linker := s.linker.reserve p.callee.symbol
      registry := (s.registry.insert p).1 },
    ⟨.ok (.declared p), ""⟩)

/-- Run a compiled expression without keeping it. -/
def runOnce (s : Session) (limit : Nat) (f : Compilation) : Response :=
  let (linker, address) := s.linker.load f
  match linker.execute limit address [] with
  | (.value value, output) => ⟨.ok (.evaluated value), output⟩
  | (ending, output) => ⟨.ok (.stopped ending), output⟩

/-- Evaluate an expression, if all the code it could reach is there. -/
def evaluate (s : Session) (limit : Nat) (body : Expr) : Session × Response :=
  match s.compile ⟨.anonymous, body⟩ with
  | (s, .error e) => (s, ⟨.error (.lowerError e), ""⟩)
  | (s, .ok compiled) =>
    match s.linker.unresolved? compiled.unit with
    | some symbol => (s, ⟨.error (.lowerError (.unresolvedSymbol symbol)), ""⟩)
    | none => (s, s.runOnce limit compiled)

/-- Deal with a form. -/
def handle (s : Session) (limit : Nat) : Item → Session × Response
  | .definition f => s.define f
  | .declaration p => s.declare p
  | .expression body => s.evaluate limit body

/-- Read the form at the current token. -/
def readItem (s : Session) (ts : Tokens) : Parsed Item 1 ts := Grammar.item s.operators ts

end Session

/-- What came of a source text. -/
structure SourceRun where
  /-- The session afterwards. -/
  session : Session
  /-- What came of each form, with the text that it wrote. -/
  outcomes : List (Outcome × String)
  /-- The error that ended the run, if one did. -/
  error? : Option FormError

namespace Session

/-- Deal with every form up to the end of the tokens or the first error.
Operators that one form defines can be used in the next. -/
def runTokens (s : Session) (limit : Nat) (ts : Tokens) : SourceRun :=
  if ts.pending = [] then ⟨s, [], none⟩
  else if h : Grammar.atSeparator ts = true then
    have _ := Grammar.size_tail_of_atSeparator h
    s.runTokens limit ts.tail
  else
    match s.readItem ts with
    | .error problem _ _ => ⟨s, [], some (.syntaxError problem)⟩
    | .ok item rest _ =>
      let (s, response) := s.handle limit item
      match response.outcome with
      | .error e => ⟨s, [], some e⟩
      | .ok outcome =>
        let others := s.runTokens limit rest
        { others with outcomes := (outcome, response.output) :: others.outcomes }
termination_by ts.size

/-- Deal with the forms of a source text. -/
def runSource (s : Session) (limit : Nat) (source : String) : SourceRun :=
  s.runTokens limit (.ofString source)

end Session

end Reckon
