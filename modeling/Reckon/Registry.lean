import Reckon.Table
import Reckon.Syntax.Prototype

/-!
# Known prototypes

The registry holds the last prototype seen of every callee.  It is what calls
are checked against.
-/

namespace Reckon

/-- The last prototype seen of every callee. -/
structure Registry where
  /-- The prototypes. -/
  table : Table Callee Prototype
deriving Repr, DecidableEq

namespace Registry

/-- The registry that knows nothing. -/
def empty : Registry := ⟨.empty⟩

/-- The prototype of a callee. -/
def get? (r : Registry) (callee : Callee) : Option Prototype := r.table.find? callee

/-- Whether a callee is known. -/
def contains (r : Registry) (callee : Callee) : Bool := r.table.contains callee

/-- Record a prototype.  The second part is the one it displaced. -/
def insert (r : Registry) (p : Prototype) : Registry × Option Prototype :=
  (⟨r.table.insert p.callee p⟩, r.table.find? p.callee)

/-- Put a displaced prototype back. -/
def restore (r : Registry) (callee : Callee) (previous : Option Prototype) : Registry :=
  ⟨r.table.restore callee previous⟩

/-- The number of callees known. -/
def size (r : Registry) : Nat := r.table.size

/-- Putting the displaced prototype back undoes an insertion exactly. -/
theorem restore_insert (r : Registry) (p : Prototype) :
    (r.insert p).1.restore p.callee (r.insert p).2 = r := by
  simp [insert, restore, Table.restore_insert]

/-- An insertion decides the prototype of its own callee and of no other. -/
theorem get?_insert (r : Registry) (p : Prototype) (callee : Callee) :
    (r.insert p).1.get? callee = if p.callee = callee then some p else r.get? callee :=
  Table.find?_insert r.table p.callee callee p

/-- Every prototype is kept under its own callee. -/
def Keyed (r : Registry) : Prop := ∀ callee p, r.get? callee = some p → p.callee = callee

theorem keyed_empty : empty.Keyed := by
  intro callee p h
  cases h

theorem Keyed.insert {r : Registry} (h : r.Keyed) (p : Prototype) : (r.insert p).1.Keyed := by
  intro callee q hq
  rw [get?_insert] at hq
  split at hq
  · next heq => exact Option.some.inj hq ▸ heq
  · exact h callee q hq

end Registry

end Reckon
