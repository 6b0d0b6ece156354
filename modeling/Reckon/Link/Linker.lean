import Reckon.Link.Unit

/-!
# The linker

The linker keeps the units of a session and says what a symbol refers to.  A
symbol that has been declared but has no code has a cell.  Code compiled in
the meantime calls through the cell, and linking a definition of the symbol
fills the cell.  Linking a second definition fills it again, so calls through
cells reach the newest definition, whereas a call of a function that had an
address when its caller was compiled stays with that function.

`unresolved?` looks for a symbol without code among everything that running a
unit could reach.
-/

namespace Reckon

/-- A linked unit: the code of its function, and where each of its
declarations is. -/
structure LinkedUnit where
  /-- The code. -/
  procedure : Code.Procedure
  /-- The address of each declaration. -/
  targets : List Address
deriving Repr, DecidableEq

/-- The units of a session and what symbols refer to. -/
structure Linker where
  /-- The address of every symbol that a linked unit defines. -/
  symbols : Table String Address
  /-- The cells.  An empty one waits for a definition. -/
  cells : Table String (Option Address)
  /-- The symbols that the newest definition of a symbol refers to. -/
  dependencies : Table String (List String)
  /-- The linked units in order. -/
  units : Array LinkedUnit
deriving Repr, DecidableEq

namespace Linker

/-- The linker without units. -/
def empty : Linker := ⟨.empty, .empty, .empty, #[]⟩

/-- The address that a unit has published for a symbol. -/
def published? (l : Linker) (symbol : String) : Option Address := l.symbols.find? symbol

/-- The address of a symbol.  A definition goes before a primitive of the same
name. -/
def address? (l : Linker) (symbol : String) : Option Address :=
  match l.published? symbol with
  | some address => some address
  | none => (Primitive.ofSymbol? symbol).map .primitive

/-- Whether a symbol has an address. -/
def isLinked (l : Linker) (symbol : String) : Bool := (l.address? symbol).isSome

/-- Whether a symbol has a cell. -/
def hasCell (l : Linker) (symbol : String) : Bool := l.cells.contains symbol

/-- Give a symbol a cell, unless it has an address or a cell already. -/
def reserve (l : Linker) (symbol : String) : Linker :=
  if l.isLinked symbol || l.hasCell symbol then l
  else { l with cells := l.cells.insert symbol none }

/-- Fill the cell of a symbol, if it has one. -/
def fill (l : Linker) (symbol : String) (address : Address) : Linker :=
  if l.hasCell symbol then { l with cells := l.cells.insert symbol (some address) } else l

/-- Let a symbol refer to a unit that refers to other symbols. -/
def publish (l : Linker) (symbol : String) (address : Address) (references : List String) :
    Linker :=
  { l.fill symbol address with
    symbols := l.symbols.insert symbol address
    dependencies := l.dependencies.insert symbol references }

/-- Add a unit.  The unit refers to itself by the next free address. -/
def load (l : Linker) (f : Compilation) : Linker × Address :=
  let address := Address.unit l.units.size
  let targets := f.unit.declarations.map fun d =>
    match d.binding with
    | .own => address
    | .imported target => target
  ({ l with units := l.units.push ⟨f.procedure, targets⟩ }, address)

/-- Link a definition: add its unit and publish its symbol.  The function of a
bare expression is not published. -/
def link (l : Linker) (f : Compilation) : Linker :=
  let (l, address) := l.load f
  if f.prototype.isAnonymous then l
  else l.publish f.prototype.callee.symbol address f.unit.references

/-- The number of linked units. -/
def unitCount (l : Linker) : Nat := l.units.size

/-- The symbols that the newest definition of a symbol refers to. -/
def dependenciesOf (l : Linker) (symbol : String) : List String :=
  (l.dependencies.find? symbol).getD []

/-- The number of references among the unvisited ones of some symbols. -/
def weight (l : Linker) (seen : List String) : List String → Nat
  | [] => 0
  | symbol :: symbols =>
    (if seen.contains symbol then 0 else (l.dependenciesOf symbol).length)
      + l.weight seen symbols

theorem weight_cons_le (l : Linker) (seen : List String) (symbol : String)
    (symbols : List String) : l.weight (symbol :: seen) symbols ≤ l.weight seen symbols := by
  induction symbols with
  | nil => exact Nat.le_refl _
  | cons other symbols ih => grind [weight]

theorem weight_cons_add_le (l : Linker) {seen : List String} {symbol : String}
    {symbols : List String} (hseen : seen.contains symbol = false)
    (hmem : symbol ∈ symbols) :
    l.weight (symbol :: seen) symbols + (l.dependenciesOf symbol).length
      ≤ l.weight seen symbols := by
  induction symbols with
  | nil => cases hmem
  | cons other symbols ih =>
    have hle := weight_cons_le l seen symbol symbols
    grind [weight]

theorem mem_keys_of_dependencies {l : Linker} {symbol : String}
    (h : l.dependenciesOf symbol ≠ []) : symbol ∈ l.dependencies.keys := by
  apply Table.mem_keys_of_find?
  intro hnone
  simp [dependenciesOf, hnone] at h

/-- Visiting a symbol adds no more references than it takes off the unvisited
ones. -/
theorem weight_visit_le (l : Linker) {seen : List String} {symbol : String}
    (hseen : seen.contains symbol = false) :
    l.weight (symbol :: seen) l.dependencies.keys + (l.dependenciesOf symbol).length
      ≤ l.weight seen l.dependencies.keys := by
  by_cases h : l.dependenciesOf symbol = []
  · simpa [h] using weight_cons_le l seen symbol l.dependencies.keys
  · exact weight_cons_add_le l hseen (mem_keys_of_dependencies h)

/-- A symbol without an address that can be reached from pending symbols,
where the symbols in `seen` need not be visited again. -/
def search (l : Linker) (seen pending : List String) : Option String :=
  match pending with
  | [] => none
  | symbol :: pending =>
    if _hseen : seen.contains symbol then l.search seen pending
    else if l.isLinked symbol then
      l.search (symbol :: seen) (l.dependenciesOf symbol ++ pending)
    else some symbol
termination_by l.weight seen l.dependencies.keys + pending.length
decreasing_by
  · simp
  · have := weight_visit_le l (Bool.eq_false_iff.mpr _hseen)
    simp only [List.length_append, List.length_cons]
    omega

/-- A symbol without an address that running a unit could reach. -/
def unresolved? (l : Linker) (u : CompilationUnit) : Option String :=
  l.search [] u.references

end Linker

end Reckon
