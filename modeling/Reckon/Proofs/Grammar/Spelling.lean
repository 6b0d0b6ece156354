import Reckon.Grammar.Item
import Reckon.Proofs.Grammar.OperatorTree
import Reckon.Proofs.Grammar.Phrases

/-!
# What words spell

The grammar as a relation between words, what they spell, and the word after
them.  The word after matters because a form ends where the next word cannot
belong to it: a name is a variable only before a word that is no opening
parenthesis, a chain of operators is over only before a word that is no declared
operator, and an optional part is missing only before a word that does not
announce it.

    expression  ::=  operand (operator operand)*      grouped by precedence
    operand     ::=  primary  |  symbol operand       symbol not '(' and not ','
    primary     ::=  number  |  name  |  name '(' ')'  |  name '(' arguments ')'
                  |  '(' expression ')'
                  |  'if' expression 'then' expression 'else' expression
                  |  'for' name '=' expression ',' expression (',' expression)?
                     'in' expression
                  |  'var' bindings 'in' expression
    arguments   ::=  expression (',' expression)*
    bindings    ::=  name ('=' expression)? (',' bindings)?
-/

namespace Reckon

namespace Grammar

/-- A word that is no declared operator, or the end of the input. -/
def Ends (ops : OperatorTable) (next : Option Lexeme) : Prop :=
  ∀ op, next = some (.symbol op) → ops.precedence? op = none

mutual

/-- An expression is a chain of operands and operators grouped by precedence. -/
inductive Spells (ops : OperatorTable) : List Lexeme → Expr → Option Lexeme → Prop where
  | grouped {words : List Lexeme} {tree : OperatorTree} {next : Option Lexeme}
      (chain : SpellsChain ops words tree.operands tree.operators next)
      (grouped : tree.Grouped) : Spells ops words tree.toExpr next

/-- A chain has an operand, and then declared operators with an operand each up
to a word that is no declared operator. -/
inductive SpellsChain (ops : OperatorTable) :
    List Lexeme → List Expr → List (Char × Int) → Option Lexeme → Prop where
  | last {words : List Lexeme} {e : Expr} {next : Option Lexeme}
      (operand : SpellsOperand ops words e next) (ends : Ends ops next) :
      SpellsChain ops words [e] [] next
  | link {words words' : List Lexeme} {e : Expr} {op : Char} {precedence : Int}
      {operands : List Expr} {operators : List (Char × Int)} {next : Option Lexeme}
      (operand : SpellsOperand ops words e (some (.symbol op)))
      (declared : ops.precedence? op = some precedence)
      (others : SpellsChain ops words' operands operators next) :
      SpellsChain ops (words ++ .symbol op :: words') (e :: operands)
        ((op, precedence) :: operators) next

/-- An operand is a primary expression with any prefix operators before it. -/
inductive SpellsOperand (ops : OperatorTable) : List Lexeme → Expr → Option Lexeme → Prop where
  | primary {words : List Lexeme} {e : Expr} {next : Option Lexeme}
      (primary : SpellsPrimary ops words e next) : SpellsOperand ops words e next
  | unary {op : Char} {words : List Lexeme} {e : Expr} {next : Option Lexeme}
      (opens : op ≠ '(') (separates : op ≠ ',') (operand : SpellsOperand ops words e next) :
      SpellsOperand ops (.symbol op :: words) (.unary op e) next

/-- A primary expression begins with a number, a name, an opening parenthesis or
a keyword. -/
inductive SpellsPrimary (ops : OperatorTable) : List Lexeme → Expr → Option Lexeme → Prop where
  | number {value : Float} {next : Option Lexeme} :
      SpellsPrimary ops [.number value] (.number value) next
  | var {name : String} {next : Option Lexeme} (called : next ≠ some (.symbol '(')) :
      SpellsPrimary ops [.identifier name] (.var name) next
  | callNothing {name : String} {next : Option Lexeme} :
      SpellsPrimary ops [.identifier name, .symbol '(', .symbol ')'] (.call name []) next
  | call {name : String} {words : List Lexeme} {args : List Expr} {next : Option Lexeme}
      (begins : words.head? ≠ some (.symbol ')'))
      (arguments : SpellsArguments ops words args (some (.symbol ')'))) :
      SpellsPrimary ops (.identifier name :: .symbol '(' :: (words ++ [.symbol ')']))
        (.call name args) next
  | paren {words : List Lexeme} {e : Expr} {next : Option Lexeme}
      (inner : Spells ops words e (some (.symbol ')'))) :
      SpellsPrimary ops (.symbol '(' :: (words ++ [.symbol ')'])) e next
  | cond {ifWords thenWords elseWords : List Lexeme} {condition thenBranch elseBranch : Expr}
      {next : Option Lexeme}
      (tests : Spells ops ifWords condition (some (.keyword .thenWord)))
      (holds : Spells ops thenWords thenBranch (some (.keyword .elseWord)))
      (fails : Spells ops elseWords elseBranch next) :
      SpellsPrimary ops
        (.keyword .ifWord :: (ifWords ++ .keyword .thenWord :: (thenWords ++
          .keyword .elseWord :: elseWords)))
        (.cond condition thenBranch elseBranch) next
  | loop {name : String} {startWords finishWords stepWords bodyWords : List Lexeme}
      {start finish body : Expr} {step : Option Expr} {next : Option Lexeme}
      (starts : Spells ops startWords start (some (.symbol ',')))
      (finishes : Spells ops finishWords finish (front stepWords (some (.keyword .inWord))))
      (steps : SpellsOptional ops ',' stepWords step (some (.keyword .inWord)))
      (repeats : Spells ops bodyWords body next) :
      SpellsPrimary ops
        (.keyword .forWord :: .identifier name :: .symbol '=' :: (startWords ++
          .symbol ',' :: (finishWords ++ (stepWords ++ .keyword .inWord :: bodyWords))))
        (.loop name start finish step body) next
  | locals {words bodyWords : List Lexeme} {bindings : List (String × Option Expr)} {body : Expr}
      {next : Option Lexeme}
      (binds : SpellsBindings ops words bindings (some (.keyword .inWord)))
      (follows : Spells ops bodyWords body next) :
      SpellsPrimary ops (.keyword .varWord :: (words ++ .keyword .inWord :: bodyWords))
        (.locals bindings body) next

/-- Arguments are expressions with commas between them. -/
inductive SpellsArguments (ops : OperatorTable) :
    List Lexeme → List Expr → Option Lexeme → Prop where
  | last {words : List Lexeme} {e : Expr} {next : Option Lexeme} (arg : Spells ops words e next) :
      SpellsArguments ops words [e] next
  | more {words words' : List Lexeme} {e : Expr} {args : List Expr} {next : Option Lexeme}
      (arg : Spells ops words e (some (.symbol ',')))
      (others : SpellsArguments ops words' args next) :
      SpellsArguments ops (words ++ .symbol ',' :: words') (e :: args) next

/-- An optional expression stands after a symbol that announces it. -/
inductive SpellsOptional (ops : OperatorTable) :
    Char → List Lexeme → Option Expr → Option Lexeme → Prop where
  | missing {announce : Char} {next : Option Lexeme} (ends : next ≠ some (.symbol announce)) :
      SpellsOptional ops announce [] none next
  | present {announce : Char} {words : List Lexeme} {e : Expr} {next : Option Lexeme}
      (value : Spells ops words e next) :
      SpellsOptional ops announce (.symbol announce :: words) (some e) next

/-- Bindings are names with optional initial values and commas between them. -/
inductive SpellsBindings (ops : OperatorTable) :
    List Lexeme → List (String × Option Expr) → Option Lexeme → Prop where
  | last {name : String} {words : List Lexeme} {value : Option Expr} {next : Option Lexeme}
      (initially : SpellsOptional ops '=' words value next) (ends : next ≠ some (.symbol ',')) :
      SpellsBindings ops (.identifier name :: words) [(name, value)] next
  | more {name : String} {words words' : List Lexeme} {value : Option Expr}
      {bindings : List (String × Option Expr)} {next : Option Lexeme}
      (initially : SpellsOptional ops '=' words value (some (.symbol ',')))
      (others : SpellsBindings ops words' bindings next) :
      SpellsBindings ops (.identifier name :: (words ++ .symbol ',' :: words'))
        ((name, value) :: bindings) next

end

/-- A literal from 1 to 100 asks for its whole part. -/
structure AsksFor (value : Float) (precedence : Nat) : Prop where
  ordered : value.isNaN = false
  positive : Binary64.isNegative value = false
  least : OperatorTable.leastPrecedence * Binary64.scale ≤ Binary64.units value
  greatest : Binary64.units value ≤ OperatorTable.greatestPrecedence * Binary64.scale
  reached : precedence * Binary64.scale ≤ Binary64.units value
  exceeded : Binary64.units value < (precedence + 1) * Binary64.scale

/-- The precedence of an operator is a literal, or missing before a word that is
no number. -/
inductive SpellsPrecedence : Phrase Nat where
  | missing {next : Option Lexeme} (ends : ∀ value, next ≠ some (.number value)) :
      SpellsPrecedence [] OperatorTable.defaultPrecedence next
  | literal {value : Float} {precedence : Nat} {next : Option Lexeme}
      (asks : AsksFor value precedence) : SpellsPrecedence [.number value] precedence next

/-- A prototype of an operator has as many parameters as the operator has
operands. -/
inductive SpellsPrototype : Phrase Prototype where
  | function {name : String} {params : List String} {next : Option Lexeme} :
      SpellsPrototype
        (.identifier name :: .symbol '(' :: (params.map .identifier ++ [.symbol ')']))
        ⟨name, params, .function⟩ next
  | unary {op : Char} {param : String} {next : Option Lexeme} :
      SpellsPrototype
        [.keyword .unary, .symbol op, .symbol '(', .identifier param, .symbol ')']
        ⟨s!"unary{op}", [param], .unary op⟩ next
  | binary {op : Char} {words : List Lexeme} {precedence : Nat} {left right : String}
      {next : Option Lexeme}
      (literal : SpellsPrecedence words precedence (some (.symbol '('))) :
      SpellsPrototype
        (.keyword .binary :: .symbol op :: (words ++
          [.symbol '(', .identifier left, .identifier right, .symbol ')']))
        ⟨s!"binary{op}", [left, right], .binary op precedence⟩ next

/-- A top-level form is a definition, a declaration or a bare expression. -/
inductive SpellsItem (ops : OperatorTable) : Phrase Item where
  | definition {headWords bodyWords : List Lexeme} {head : Prototype} {body : Expr}
      {next : Option Lexeme} (heads : SpellsPrototype headWords head (front bodyWords next))
      (follows : Spells ops bodyWords body next) :
      SpellsItem ops (.keyword .definition :: (headWords ++ bodyWords))
        (.definition ⟨head, body⟩) next
  | declaration {words : List Lexeme} {head : Prototype} {next : Option Lexeme}
      (heads : SpellsPrototype words head next) :
      SpellsItem ops (.keyword .declaration :: words) (.declaration head) next
  | expression {words : List Lexeme} {e : Expr} {next : Option Lexeme}
      (body : Spells ops words e next) : SpellsItem ops words (.expression e) next

end Grammar

end Reckon
