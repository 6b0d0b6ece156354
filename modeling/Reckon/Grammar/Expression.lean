import Reckon.Grammar.Parsed
import Reckon.Operators
import Reckon.Syntax.Expr

/-!
# Reading expressions

An expression is an operand followed by a chain of infix operators and
operands.

    expression  ::=  operand (operator operand)*
    operand     ::=  primary  |  symbol operand
    primary     ::=  number  |  name  |  name '(' arguments ')'  |  '(' expression ')'
                  |  'if' expression 'then' expression 'else' expression
                  |  'for' name '=' expression ',' expression (',' expression)?
                     'in' expression
                  |  'var' bindings 'in' expression
    arguments   ::=  (expression (',' expression)*)?
    bindings    ::=  name ('=' expression)? (',' bindings)?

Any symbol but an opening parenthesis and a comma can be a prefix operator.
Which symbols are infix operators, and how tightly they bind, is for the table
of operators to say; a chain ends before the first token that is none.

Each reader looks at the current token only and never goes back.
-/

namespace Reckon

/-- The infix operator that the current token is, with its precedence. -/
def Tokens.operator? (ts : Tokens) (ops : OperatorTable) : Option (Char × Int) :=
  match ts.lexeme? with
  | some (.symbol op) => (ops.precedence? op).map fun precedence => (op, precedence)
  | _ => none

/-- Only a token can be an operator. -/
theorem Tokens.size_tail_of_operator? {ts : Tokens} {ops : OperatorTable} {found : Char × Int}
    (h : ts.operator? ops = some found) : ts.tail.size + 1 = ts.size := by
  unfold operator? at h
  split at h
  · next op hop => exact Tokens.size_tail hop
  · cases h

/-- Whether the current token is an operator that binds tighter than the given
precedence. -/
def Tokens.yieldsTighter (ts : Tokens) (ops : OperatorTable) (precedence : Int) : Bool :=
  match ts.operator? ops with
  | some (_, next) => precedence < next
  | none => false

namespace Grammar

mutual

/-- Read an expression. -/
def expression (ops : OperatorTable) (ts : Tokens) : Parsed Expr 1 ts :=
  (operand ops ts).andThen fun left rest _ => chain ops 0 left rest
termination_by 5 * ts.size + 3

/-- Read a primary expression with any prefix operators before it. -/
def operand (ops : OperatorTable) (ts : Tokens) : Parsed Expr 1 ts :=
  match h : ts.lexeme? with
  | some (.symbol c) =>
    if c = '(' ∨ c = ',' then primary ops ts
    else (Parsed.taking () ts h).andThen fun _ rest _ => (operand ops rest).map (.unary c)
  | _ => primary ops ts
termination_by 5 * ts.size + 2

/-- Read the infix operators that bind at least as tightly as `least`, folding
them into the expression on their left.  An operator that binds tighter than
the one before it takes the operand between them first. -/
def chain (ops : OperatorTable) (least : Int) (left : Expr) (ts : Tokens) :
    Parsed Expr 0 ts :=
  match h : ts.operator? ops with
  | none => .here left ts
  | some (op, precedence) =>
    if precedence < least then .here left ts
    else
      have _ := Tokens.size_tail_of_operator? h
      ((operand ops ts.tail).andThen fun right rest _ =>
        (if rest.yieldsTighter ops precedence then chain ops (precedence + 1) right rest
          else .here right rest).andThen fun right rest _ =>
            chain ops least (.binary op left right) rest).relax.behind ts.size_tail_le
termination_by 5 * ts.size

/-- Read an expression that begins with no prefix operator. -/
def primary (ops : OperatorTable) (ts : Tokens) : Parsed Expr 1 ts :=
  match h : ts.lexeme? with
  | some (.number value) => .taking (.number value) ts h
  | some (.identifier name) => (Parsed.taking () ts h).andThen fun _ rest _ =>
      if h' : rest.lexeme? = some (.symbol '(') then
        ((Parsed.taking () rest h').andThen fun _ rest _ =>
          (arguments ops rest).map (.call name)).relax
      else .here (.var name) rest
  | some (.symbol '(') => (Parsed.taking () ts h).andThen fun _ rest _ =>
      (expression ops rest).andThen fun value rest _ =>
        (symbol ')' .closeExpected rest).map fun _ => value
  | some (.keyword .ifWord) => (Parsed.taking () ts h).andThen fun _ rest _ =>
      conditional ops rest
  | some (.keyword .forWord) => (Parsed.taking () ts h).andThen fun _ rest _ => loop ops rest
  | some (.keyword .varWord) => (Parsed.taking () ts h).andThen fun _ rest _ => locals ops rest
  | _ => .refuse .expressionExpected ts
termination_by 5 * ts.size + 1

/-- Read arguments from after the opening parenthesis through the closing one. -/
def arguments (ops : OperatorTable) (ts : Tokens) : Parsed (List Expr) 1 ts :=
  if h : ts.lexeme? = some (.symbol ')') then .taking [] ts h else moreArguments ops ts
termination_by 5 * ts.size + 5

/-- Read one argument or more through the closing parenthesis. -/
def moreArguments (ops : OperatorTable) (ts : Tokens) : Parsed (List Expr) 1 ts :=
  (expression ops ts).andThen fun arg rest _ =>
    match h : rest.lexeme? with
    | some (.symbol ')') => Parsed.taking [arg] rest h
    | some (.symbol ',') => (Parsed.taking () rest h).andThen fun _ rest _ =>
        (moreArguments ops rest).map (arg :: ·)
    | _ => .refuse .argumentEndExpected rest
termination_by 5 * ts.size + 4

/-- Read a choice from after its first keyword. -/
def conditional (ops : OperatorTable) (ts : Tokens) : Parsed Expr 1 ts :=
  (expression ops ts).andThen fun condition rest _ =>
    (keyword .thenWord .thenExpected rest).andThen fun _ rest _ =>
      (expression ops rest).andThen fun thenBranch rest _ =>
        (keyword .elseWord .elseExpected rest).andThen fun _ rest _ =>
          (expression ops rest).map fun elseBranch => .cond condition thenBranch elseBranch
termination_by 5 * ts.size + 4

/-- Read a loop from after its first keyword. -/
def loop (ops : OperatorTable) (ts : Tokens) : Parsed Expr 1 ts :=
  (identifier .loopNameExpected ts).andThen fun name rest _ =>
    (symbol '=' .loopAssignExpected rest).andThen fun _ rest _ =>
      (expression ops rest).andThen fun start rest _ =>
        (symbol ',' .loopEndExpected rest).andThen fun _ rest _ =>
          (expression ops rest).andThen fun finish rest _ =>
            (step ops rest).andThen fun step rest _ =>
              (keyword .inWord .loopInExpected rest).andThen fun _ rest _ =>
                (expression ops rest).map fun body => .loop name start finish step body
termination_by 5 * ts.size + 4

/-- Read the step of a loop, if a comma announces one. -/
def step (ops : OperatorTable) (ts : Tokens) : Parsed (Option Expr) 0 ts :=
  if h : ts.lexeme? = some (.symbol ',') then
    ((Parsed.taking () ts h).andThen fun _ rest _ => (expression ops rest).map some).relax
  else .here none ts
termination_by 5 * ts.size

/-- Read new names and their body from after the first keyword. -/
def locals (ops : OperatorTable) (ts : Tokens) : Parsed Expr 1 ts :=
  (bindings ops .localExpected ts).andThen fun bindings rest _ =>
    (keyword .inWord .localsInExpected rest).andThen fun _ rest _ =>
      (expression ops rest).map (.locals bindings)
termination_by 5 * ts.size + 4

/-- Read one binding or more.  The fault says what a missing name is. -/
def bindings (ops : OperatorTable) (missing : SyntaxFault) (ts : Tokens) :
    Parsed (List (String × Option Expr)) 1 ts :=
  (identifier missing ts).andThen fun name rest _ =>
    (initial ops rest).andThen fun value rest _ =>
      if h : rest.lexeme? = some (.symbol ',') then
        ((Parsed.taking () rest h).andThen fun _ rest _ =>
          (bindings ops .nextLocalExpected rest).map ((name, value) :: ·)).relax
      else .here [(name, value)] rest
termination_by 5 * ts.size + 3

/-- Read the initial value of a name, if an equals sign announces one. -/
def initial (ops : OperatorTable) (ts : Tokens) : Parsed (Option Expr) 0 ts :=
  if h : ts.lexeme? = some (.symbol '=') then
    ((Parsed.taking () ts h).andThen fun _ rest _ => (expression ops rest).map some).relax
  else .here none ts
termination_by 5 * ts.size

end

end Grammar

end Reckon
