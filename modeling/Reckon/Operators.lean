import Reckon.Table

/-!
# Infix operators

The table of infix operators says how tightly each binds.  Definitions add to
it while a program runs, so reading the next form depends on the forms before
it.  An entry that is not positive does not count as an operator.
-/

namespace Reckon

/-- How tightly each infix operator binds. -/
structure OperatorTable where
  /-- The entries, positive or not. -/
  table : Table Char Int
deriving Repr, DecidableEq

namespace OperatorTable

/-- The precedence of an operator that is defined without one. -/
def defaultPrecedence : Nat := 30

/-- The least precedence that a definition may ask for. -/
def leastPrecedence : Nat := 1

/-- The greatest precedence that a definition may ask for. -/
def greatestPrecedence : Nat := 100

/-- The greatest entry; greater requests are cut down to it. -/
def greatestEntry : Nat := 2147483647

/-- The table without operators. -/
def empty : OperatorTable := ⟨.empty⟩

/-- The operators that need no definition. -/
def builtins : OperatorTable :=
  ⟨⟨[('=', 2), ('<', 10), ('+', 20), ('-', 20), ('*', 40)]⟩⟩

/-- The precedence of a declared operator. -/
def precedence? (ops : OperatorTable) (op : Char) : Option Int :=
  (ops.table.find? op).filter fun precedence => 0 < precedence

/-- The entry that an installation makes. -/
def entry (precedence : Nat) : Int := min precedence greatestEntry

/-- Declare an operator.  The second part is the entry it displaced. -/
def install (ops : OperatorTable) (op : Char) (precedence : Nat) :
    OperatorTable × Option Int :=
  (⟨ops.table.insert op (entry precedence)⟩, ops.table.find? op)

/-- Put a displaced entry back. -/
def restore (ops : OperatorTable) (op : Char) (previous : Option Int) : OperatorTable :=
  ⟨ops.table.restore op previous⟩

/-- Putting the displaced entry back undoes an installation exactly. -/
theorem restore_install (ops : OperatorTable) (op : Char) (precedence : Nat) :
    (ops.install op precedence).1.restore op (ops.install op precedence).2 = ops := by
  simp [install, restore, Table.restore_insert]

end OperatorTable

end Reckon
