import Reckon.Token.Basic

/-!
# Results of reading a form

Reading consumes tokens from the front and either yields a value or stops at a
token that does not fit.  In both cases it says which tokens are left, so that
a caller can go on after a mistake.  The result carries a bound on what is
left: a value that costs `gain` tokens leaves that many fewer, and a mistake
leaves no more than there were.  Recursion over the grammar ends by that bound.
-/

namespace Reckon

/-- Why a token does not fit. -/
inductive SyntaxFault where
  | expressionExpected
  | closeExpected
  | argumentEndExpected
  | thenExpected
  | elseExpected
  | loopNameExpected
  | loopAssignExpected
  | loopEndExpected
  | loopInExpected
  | localExpected
  | nextLocalExpected
  | localsInExpected
  | prototypeExpected
  | unaryOperatorExpected
  | binaryOperatorExpected
  | precedenceOutOfRange
  | parametersExpected
  | parametersEndExpected
  | operandCountWrong
deriving Repr, DecidableEq

/-- The wording of a fault. -/
def SyntaxFault.text : SyntaxFault → String
  | expressionExpected => "unknown token when expecting an expression"
  | closeExpected => "expected ')'"
  | argumentEndExpected => "Expected ')' or ',' in argument list"
  | thenExpected => "expected then"
  | elseExpected => "expected else"
  | loopNameExpected => "expected identifier after for"
  | loopAssignExpected => "expected '=' after for"
  | loopEndExpected => "expected ',' after for start value"
  | loopInExpected => "expected 'in' after for"
  | localExpected => "expected identifier after var"
  | nextLocalExpected => "expected identifier list after var"
  | localsInExpected => "expected 'in' keyword after 'var'"
  | prototypeExpected => "Expected function name in prototype"
  | unaryOperatorExpected => "Expected unary operator"
  | binaryOperatorExpected => "Expected binary operator"
  | precedenceOutOfRange => "Invalid precedence: must be 1..100"
  | parametersExpected => "Expected '(' in prototype"
  | parametersEndExpected => "Expected ')' in prototype"
  | operandCountWrong => "Invalid number of operands for operator"

/-- A token that does not fit. -/
structure SyntaxError where
  /-- Why it does not fit. -/
  fault : SyntaxFault
  /-- Where it stands. -/
  span : Span
deriving Repr, DecidableEq

/-- The text of a syntax error. -/
def SyntaxError.message (e : SyntaxError) : String :=
  s!"{e.fault.text} at line {e.span.line}, column {e.span.column}"

/-- The result of reading from some tokens on: a value that took at least
`gain` tokens, or a mistake. -/
inductive Parsed (α : Type) (gain : Nat) (start : Tokens) where
  /-- A value and the tokens after it. -/
  | ok (value : α) (rest : Tokens) (bound : rest.size + gain ≤ start.size)
  /-- A mistake and the tokens from the offending one on. -/
  | error (problem : SyntaxError) (rest : Tokens) (bound : rest.size ≤ start.size)

namespace Parsed

variable {α β : Type} {gain cost : Nat} {start mid : Tokens}

/-- The value or the mistake. -/
def outcome : Parsed α gain start → Except SyntaxError α
  | ok value _ _ => .ok value
  | error problem _ _ => .error problem

/-- The tokens that are left. -/
def rest : Parsed α gain start → Tokens
  | ok _ rest _ => rest
  | error _ rest _ => rest

/-- Yield a value and consume nothing. -/
def here (value : α) (ts : Tokens) : Parsed α 0 ts := .ok value ts (Nat.le_refl _)

/-- Yield a value and consume the current token. -/
def taking {lexeme : Lexeme} (value : α) (ts : Tokens) (h : ts.lexeme? = some lexeme) :
    Parsed α 1 ts :=
  .ok value ts.tail (Nat.le_of_eq (Tokens.size_tail h))

/-- Stop at the current token. -/
def refuse (fault : SyntaxFault) (ts : Tokens) : Parsed α gain ts :=
  .error ⟨fault, ts.span⟩ ts (Nat.le_refl _)

/-- What was read further along is read from here as well. -/
def behind (p : Parsed α gain mid) (reached : mid.size ≤ start.size) : Parsed α gain start :=
  match p with
  | ok value rest bound => ok value rest (Nat.le_trans bound reached)
  | error problem rest bound => error problem rest (Nat.le_trans bound reached)

/-- Go on with the tokens after a value.  The bound of the first part holds
for the whole. -/
def andThen (p : Parsed α gain start)
    (next : α → (rest : Tokens) → rest.size + gain ≤ start.size → Parsed β cost rest) :
    Parsed β gain start :=
  match p with
  | ok value mid reached =>
    match next value mid reached with
    | ok value rest bound => ok value rest (by omega)
    | error problem rest bound => error problem rest (by omega)
  | error problem rest bound => error problem rest bound

/-- Forget how many tokens a value took. -/
def relax (p : Parsed α gain start) : Parsed α 0 start :=
  match p with
  | ok value rest bound => ok value rest (Nat.le_of_add_right_le bound)
  | error problem rest bound => error problem rest bound

/-- Change the value. -/
def map (f : α → β) : Parsed α gain start → Parsed β gain start
  | ok value rest bound => ok (f value) rest bound
  | error problem rest bound => error problem rest bound

/-- Reading never makes more tokens. -/
theorem rest_size_le (p : Parsed α gain start) : p.rest.size ≤ start.size := by
  cases p with
  | ok value rest bound => exact Nat.le_trans (Nat.le_add_right _ _) bound
  | error problem rest bound => exact bound

end Parsed

namespace Grammar

/-- Read a given symbol. -/
def symbol (c : Char) (fault : SyntaxFault) (ts : Tokens) : Parsed Unit 1 ts :=
  if h : ts.lexeme? = some (.symbol c) then .taking () ts h else .refuse fault ts

/-- Read a given keyword. -/
def keyword (word : Keyword) (fault : SyntaxFault) (ts : Tokens) : Parsed Unit 1 ts :=
  if h : ts.lexeme? = some (.keyword word) then .taking () ts h else .refuse fault ts

/-- Read a name. -/
def identifier (fault : SyntaxFault) (ts : Tokens) : Parsed String 1 ts :=
  match h : ts.lexeme? with
  | some (.identifier name) => .taking name ts h
  | _ => .refuse fault ts

end Grammar

end Reckon
