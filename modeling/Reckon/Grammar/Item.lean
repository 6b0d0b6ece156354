import Reckon.Grammar.Expression
import Reckon.Syntax.Prototype

/-!
# Reading top-level forms

    item        ::=  'def' prototype expression  |  'extern' prototype  |  expression
    prototype   ::=  name '(' name* ')'
                  |  'unary' symbol '(' name ')'
                  |  'binary' symbol number? '(' name name ')'

A program is a sequence of forms; semicolons between them mean nothing.  An
operator that a form defines takes effect only once that form has been dealt
with, so a whole program can be read in one go only against a table that holds
its operators already.
-/

namespace Reckon.Grammar

/-- The names at the front of some tokens. -/
def namesOf : List Token → List String
  | ⟨.identifier name, _⟩ :: rest => name :: namesOf rest
  | _ => []

/-- The names at the front, and the tokens after them. -/
def names (ts : Tokens) : Parsed (List String) 0 ts :=
  let found := namesOf ts.pending
  .ok found { ts with pending := ts.pending.drop found.length } (by simp [Tokens.size])

/-- The precedence that a literal asks for: its whole part, if the literal is
from 1 to 100. -/
def precedenceOf? (value : Float) : Option Nat :=
  if value.isNaN || Binary64.isNegative value
      || Binary64.units value < OperatorTable.leastPrecedence * Binary64.scale
      || OperatorTable.greatestPrecedence * Binary64.scale < Binary64.units value then none
  else some (Binary64.wholePart value)

/-- Read the precedence of an operator, if one is given. -/
def precedence (ts : Tokens) : Parsed Nat 0 ts :=
  match h : ts.lexeme? with
  | some (.number value) =>
    match precedenceOf? value with
    | some precedence => (Parsed.taking precedence ts h).relax
    | none => .refuse .precedenceOutOfRange ts
  | _ => .here OperatorTable.defaultPrecedence ts

/-- Read the character of an operator. -/
def operatorSymbol (fault : SyntaxFault) (ts : Tokens) : Parsed Char 1 ts :=
  match h : ts.lexeme? with
  | some (.symbol op) => .taking op ts h
  | _ => .refuse fault ts

/-- Read the name of a prototype and what it declares. -/
def prototypeHead (ts : Tokens) : Parsed (String × PrototypeKind) 1 ts :=
  match h : ts.lexeme? with
  | some (.identifier name) => .taking (name, .function) ts h
  | some (.keyword .unary) => (Parsed.taking () ts h).andThen fun _ rest _ =>
      (operatorSymbol .unaryOperatorExpected rest).map fun op => (s!"unary{op}", .unary op)
  | some (.keyword .binary) => (Parsed.taking () ts h).andThen fun _ rest _ =>
      (operatorSymbol .binaryOperatorExpected rest).andThen fun op rest _ =>
        (precedence rest).map fun precedence => (s!"binary{op}", .binary op precedence)
  | _ => .refuse .prototypeExpected ts

/-- Read a prototype. -/
def prototype (ts : Tokens) : Parsed Prototype 1 ts :=
  (prototypeHead ts).andThen fun (name, kind) rest _ =>
    (symbol '(' .parametersExpected rest).andThen fun _ rest _ =>
      (names rest).andThen fun params rest _ =>
        (symbol ')' .parametersEndExpected rest).andThen fun _ rest _ =>
          if (kind.operands?.getD params.length) = params.length then
            .here ⟨name, params, kind⟩ rest
          else .refuse .operandCountWrong rest

/-- Read a definition; the current token is taken for its keyword. -/
def definition (ops : OperatorTable) (ts : Tokens) : Parsed Function 1 ts :=
  ((prototype ts.tail).andThen fun prototype rest _ =>
    (expression ops rest).map fun body => ⟨prototype, body⟩).behind ts.size_tail_le

/-- Read a declaration; the current token is taken for its keyword. -/
def declaration (ts : Tokens) : Parsed Prototype 1 ts :=
  (prototype ts.tail).behind ts.size_tail_le

/-- Read the form that begins at the current token. -/
def item (ops : OperatorTable) (ts : Tokens) : Parsed Item 1 ts :=
  match ts.lexeme? with
  | some (.keyword .definition) => (definition ops ts).map .definition
  | some (.keyword .declaration) => (declaration ts).map .declaration
  | _ => (expression ops ts).map .expression

/-- Whether the current token is a semicolon. -/
def atSeparator (ts : Tokens) : Bool := ts.lexeme? == some (.symbol ';')

/-- A semicolon can be consumed. -/
theorem size_tail_of_atSeparator {ts : Tokens} (h : atSeparator ts = true) :
    ts.tail.size + 1 = ts.size :=
  Tokens.size_tail (by simpa [atSeparator] using h)

/-- Read every form up to the end of the input or the first mistake, against
one table of operators. -/
def program (ops : OperatorTable) (ts : Tokens) : Except SyntaxError (List Item) :=
  if ts.pending = [] then .ok []
  else if h : atSeparator ts = true then
    have _ := size_tail_of_atSeparator h
    program ops ts.tail
  else
    match item ops ts with
    | .ok value rest _ => (program ops rest).map (value :: ·)
    | .error problem _ _ => .error problem
termination_by ts.size

end Reckon.Grammar
