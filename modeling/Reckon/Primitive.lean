import Reckon.Binary64.Places

/-!
# Primitives

The functions that every program can declare without defining them.  Each
takes one number and yields one; two of them also write text.
-/

namespace Reckon

/-- A function that needs no definition. -/
inductive Primitive where
  | putchard
  | printd
  | sin
  | cos
  | sqrt
  | exp
  | log
  | fabs
deriving Repr, DecidableEq

namespace Primitive

/-- The symbol of a primitive. -/
def symbol : Primitive → String
  | putchard => "putchard"
  | printd => "printd"
  | sin => "sin"
  | cos => "cos"
  | sqrt => "sqrt"
  | exp => "exp"
  | log => "log"
  | fabs => "fabs"

/-- Every primitive. -/
def all : List Primitive := [putchard, printd, sin, cos, sqrt, exp, log, fabs]

/-- The primitive with a given symbol. -/
def ofSymbol? (symbol : String) : Option Primitive :=
  all.find? fun primitive => primitive.symbol == symbol

/-- A primitive is found by its symbol. -/
theorem ofSymbol?_symbol (primitive : Primitive) :
    ofSymbol? primitive.symbol = some primitive := by
  cases primitive <;> decide

/-- The number of arguments of every primitive. -/
def arity : Nat := 1

/-- What is written for a number that is no character. -/
def replacement : Char := '\uFFFD'

/-- The character with a given number.  Fractions are cut off, and numbers
that are too large or too small are replaced by the nearest word. -/
def character (value : Float) : Char :=
  let n := value.toUInt32
  if h : n.isValidChar then ⟨n, h⟩ else replacement

/-- The number that a primitive yields and the text that it writes. -/
def apply : Primitive → Float → Float × String
  | putchard, value => (0, String.singleton (character value))
  | printd, value => (0, Binary64.fixed value ++ "\n")
  | sin, value => (value.sin, "")
  | cos, value => (value.cos, "")
  | sqrt, value => (value.sqrt, "")
  | exp, value => (value.exp, "")
  | log, value => (value.log, "")
  | fabs, value => (value.abs, "")

end Primitive

end Reckon
