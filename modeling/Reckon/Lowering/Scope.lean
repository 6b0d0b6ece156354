import Reckon.Table

/-!
# Scopes

A scope says where each name is kept.  Binding a name leaves a mark, which is
what to go back to when the binding ends: ending it gives back the scope as it
was (`restore_bind`).  Bindings that end together end last to first, which
matters only if they bind one name twice.
-/

namespace Reckon

/-- Where each name is kept. -/
structure Scope (σ : Type) where
  /-- The bindings. -/
  table : Table String σ
deriving Repr, DecidableEq

/-- What the binding of a name displaced. -/
structure Mark (σ : Type) where
  /-- The name. -/
  name : String
  /-- The binding it had before, if any. -/
  previous : Option σ
deriving Repr, DecidableEq

namespace Scope

variable {σ : Type}

/-- The scope without names. -/
def empty : Scope σ := ⟨.empty⟩

/-- Where a name is kept. -/
def lookup (s : Scope σ) (name : String) : Option σ := s.table.find? name

/-- Bind a name. -/
def bind (s : Scope σ) (name : String) (place : σ) : Scope σ × Mark σ :=
  (⟨s.table.insert name place⟩, ⟨name, s.lookup name⟩)

/-- End a binding. -/
def restore (s : Scope σ) (mark : Mark σ) : Scope σ :=
  ⟨s.table.restore mark.name mark.previous⟩

/-- Ending a binding gives the scope back exactly. -/
theorem restore_bind (s : Scope σ) (name : String) (place : σ) :
    (s.bind name place).1.restore (s.bind name place).2 = s := by
  simp [bind, restore, lookup, Table.restore_insert]

/-- A binding decides its own name and no other. -/
theorem lookup_bind (s : Scope σ) (name other : String) (place : σ) :
    (s.bind name place).1.lookup other = if name = other then some place else s.lookup other :=
  Table.find?_insert s.table name other place

end Scope

end Reckon
