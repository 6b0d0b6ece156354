import Reckon.Syntax.Expr

/-!
# Prototypes and top-level forms

A prototype says what can be called and with how many arguments.  Functions
are called by name and operators by their character; both are functions to the
linker, which knows them by the symbol of their callee.
-/

namespace Reckon

/-- What a call refers to. -/
inductive Callee where
  /-- A function with a name. -/
  | named (name : String)
  /-- The function behind a prefix operator. -/
  | unary (op : Char)
  /-- The function behind an infix operator. -/
  | binary (op : Char)
deriving Repr, DecidableEq

/-- The name that the linker knows a callee by. -/
def Callee.symbol : Callee → String
  | .named name => name
  | .unary op => s!"unary{op}"
  | .binary op => s!"binary{op}"

/-- What a prototype declares. -/
inductive PrototypeKind where
  /-- A function with a name. -/
  | function
  /-- A prefix operator. -/
  | unary (op : Char)
  /-- An infix operator and how tightly it binds. -/
  | binary (op : Char) (precedence : Nat)
deriving Repr, DecidableEq

/-- The number of operands of an operator. -/
def PrototypeKind.operands? : PrototypeKind → Option Nat
  | function => none
  | unary _ => some 1
  | binary _ _ => some 2

/-- The head of a function: what it is called and what its parameters are. -/
structure Prototype where
  /-- The name. -/
  name : String
  /-- The parameters in order. -/
  params : List String
  /-- Whether this is a function or an operator. -/
  kind : PrototypeKind
deriving Repr, DecidableEq

namespace Prototype

/-- The name of the function that stands for a bare expression.  No source
text can spell it. -/
def anonymousName : String := "__anon_expr"

/-- The prototype of a bare expression. -/
def anonymous : Prototype := ⟨anonymousName, [], .function⟩

/-- What calls to the function refer to. -/
def callee (p : Prototype) : Callee :=
  match p.kind with
  | .function => .named p.name
  | .unary op => .unary op
  | .binary op _ => .binary op

/-- The number of parameters. -/
def arity (p : Prototype) : Nat := p.params.length

/-- Whether the prototype declares an operator. -/
def isOperator (p : Prototype) : Bool := p.kind != .function

/-- Whether the prototype is that of a bare expression. -/
def isAnonymous (p : Prototype) : Bool :=
  p.kind == .function && p.name == anonymousName

/-- The character and the precedence of an infix operator. -/
def infixOperator? (p : Prototype) : Option (Char × Nat) :=
  match p.kind with
  | .binary op precedence => some (op, precedence)
  | _ => none

/-- The text of a prototype, as it is written after a keyword. -/
def display (p : Prototype) : String :=
  let params := " ".intercalate p.params
  match p.kind with
  | .function => s!"{p.name}({params})"
  | .unary op => s!"unary{op}({params})"
  | .binary op precedence => s!"binary{op} {precedence} ({params})"

end Prototype

/-- A function: its head and its body. -/
structure Function where
  /-- The head. -/
  prototype : Prototype
  /-- The body. -/
  body : Expr
deriving Repr

/-- A top-level form. -/
inductive Item where
  /-- A function that is defined. -/
  | definition (function : Function)
  /-- A function that is declared and defined elsewhere. -/
  | declaration (prototype : Prototype)
  /-- An expression to be evaluated at once. -/
  | expression (body : Expr)
deriving Repr

end Reckon
