import Reckon.Proofs.Link.Declarations
import Reckon.Proofs.Lowering.Steps

/-!
# What code refers to

Compiled code reaches other functions in two ways: through a declaration that
was imported with an address, and through the cell of a symbol.  In both cases
the linker had what the code relies on when it was compiled, and the unit notes
the symbol (`LowerState.Resolved`).  So the references of a unit say everything
that its code could call.
-/

namespace Reckon

namespace Code

/-- The instructions of a procedure, block by block. -/
def Procedure.instructions (p : Procedure) : List Instruction := p.blocks.flatMap Block.body

/-- Some instructions name the cell of a symbol. -/
def NamesCell (instructions : List Instruction) (symbol : String) : Prop :=
  ∃ v, .define v (.cell symbol) ∈ instructions

/-- Some instructions call through the cell of a symbol. -/
def CallsCell (instructions : List Instruction) (symbol : String) (signature : Nat)
    (args : List ValueId) : Prop :=
  ∃ v code address : Nat, .define v (.callThrough signature code args) ∈ instructions ∧
    .define code (.loadCell address) ∈ instructions ∧ .define address (.cell symbol) ∈ instructions

theorem CallsCell.namesCell {instructions : List Instruction} {symbol : String} {signature : Nat}
    {args : List ValueId} (h : CallsCell instructions symbol signature args) :
    NamesCell instructions symbol := by
  obtain ⟨_, _, address, -, -, hcell⟩ := h
  exact ⟨address, hcell⟩

namespace Builder

/-- The instructions so far, block by block. -/
def instructions (b : Builder) : List Instruction :=
  b.complete.toList.flatMap Block.body ++ b.body.toList

theorem instructions_define (b : Builder) (operation : Operation) :
    (b.define operation).2.instructions =
      b.instructions ++ [.define b.values operation] := by
  simp [instructions, define]

theorem instructions_storeSlot (b : Builder) (value : ValueId) (slot : SlotId) :
    (b.storeSlot value slot).instructions = b.instructions ++ [.storeSlot value slot] := by
  simp [instructions, storeSlot]

theorem instructions_enter (b : Builder) (transfer : Transfer) (next : BlockId)
    (params : List ValueId) : (b.enter transfer next params).instructions = b.instructions := by
  simp [instructions, enter, currentBlock]

theorem instructions_finish (b : Builder) (symbol : String) (arity : Nat) (transfer : Transfer) :
    (b.finish symbol arity transfer).instructions = b.instructions := by
  simp [instructions, Procedure.instructions, finish, currentBlock]

end Builder

end Code

namespace LowerState

/-- What the code so far reaches is there and is noted by the unit. -/
structure Resolved (l : Linker) (s : LowerState) : Prop where
  imports : ∀ d ∈ s.unit.declarations, d.binding = .own ∨
    ∃ address, d.binding = .imported address ∧ l.address? d.symbol = some address ∧
      d.symbol ∈ s.unit.references
  cells : ∀ symbol, Code.NamesCell s.builder.instructions symbol →
    l.hasCell symbol = true ∧ symbol ∈ s.unit.references
  routes : ∀ callee symbol signature,
    s.routes.find? callee = some (.throughCell symbol signature) →
      l.hasCell symbol = true ∧ symbol ∈ s.unit.references

namespace Resolved

variable {l : Linker} {s s' : LowerState}

theorem of_same (h : s.Resolved l)
    (hinstructions : s'.builder.instructions = s.builder.instructions)
    (hunit : s'.unit = s.unit) (hroutes : s'.routes = s.routes) : s'.Resolved l := by
  refine ⟨?_, ?_, ?_⟩
  · rw [hunit]
    exact h.imports
  · rw [hinstructions, hunit]
    exact h.cells
  · rw [hroutes, hunit]
    exact h.routes

/-- An instruction that names no cell. -/
theorem of_append {instruction : Code.Instruction} (h : s.Resolved l)
    (hinstructions : s'.builder.instructions = s.builder.instructions ++ [instruction])
    (hcell : ∀ v symbol, instruction ≠ .define v (.cell symbol))
    (hunit : s'.unit = s.unit) (hroutes : s'.routes = s.routes) : s'.Resolved l := by
  refine ⟨?_, ?_, ?_⟩
  · rw [hunit]
    exact h.imports
  · intro symbol hnames
    obtain ⟨v, hmem⟩ := hnames
    rw [hinstructions] at hmem
    rw [hunit]
    rcases List.mem_append.mp hmem with hmem | hmem
    · exact h.cells symbol ⟨v, hmem⟩
    · exact absurd (List.mem_singleton.mp hmem).symm (hcell v symbol)
  · rw [hroutes, hunit]
    exact h.routes

theorem define (h : s.Resolved l) (operation : Code.Operation)
    (hcell : operation.cell? = none) :
    (s.built (s.builder.define operation).2).Resolved l := by
  refine h.of_append (s.builder.instructions_define operation) ?_ rfl rfl
  intro v symbol heq
  obtain rfl := (Code.Instruction.define.inj heq).2
  cases hcell

/-- A cell is named only where a route goes through it. -/
theorem cell (h : s.Resolved l) {callee : Callee} {symbol : String} {signature : Nat}
    (hroute : s.routes.find? callee = some (.throughCell symbol signature)) :
    (s.built (s.builder.define (.cell symbol)).2).Resolved l := by
  refine ⟨h.imports, ?_, h.routes⟩
  intro other hnames
  obtain ⟨v, hmem⟩ := hnames
  have hmem' : Code.Instruction.define v (.cell other) ∈
      (s.builder.define (.cell symbol)).2.instructions := hmem
  rw [Code.Builder.instructions_define] at hmem'
  rcases List.mem_append.mp hmem' with hmem' | hmem'
  · exact h.cells other ⟨v, hmem'⟩
  · have heq := (Code.Instruction.define.inj (List.mem_singleton.mp hmem')).2
    obtain rfl := Code.Operation.cell.inj heq
    exact h.routes callee other signature hroute

theorem storeSlot (h : s.Resolved l) (value : Code.ValueId) (slot : Code.SlotId) :
    (s.built (s.builder.storeSlot value slot)).Resolved l :=
  h.of_append (s.builder.instructions_storeSlot value slot) (fun _ _ heq => by cases heq) rfl rfl

theorem enter (h : s.Resolved l) (transfer : Code.Transfer) (next : Code.BlockId)
    (params : List Code.ValueId) :
    (s.built (s.builder.enter transfer next params)).Resolved l :=
  h.of_same (s.builder.instructions_enter transfer next params) rfl rfl

/-- Operations that have to do with no other function leave everything resolved. -/
theorem plain {b : Code.Builder} (h : s.Resolved l) (hplain : s.builder.EmitsPlain b) :
    (s.built b).Resolved l := by
  generalize hstart : s.builder = start at hplain
  induction hplain generalizing s with
  | define operation hreaches =>
      subst hstart
      exact h.define operation (Code.Operation.cell?_eq_none hreaches)
  | storeSlot value slot =>
      subst hstart
      exact h.storeSlot value slot
  | newSlot | newBlock | newParam =>
      subst hstart
      exact h.of_same rfl rfl rfl
  | enter transfer next params =>
      subst hstart
      exact h.enter transfer next params
  | trans _ _ ih ih' =>
      have hmid := ih h hstart
      have hend := ih' hmid rfl
      exact hend

/-- A unit may declare more, as long as that is resolved too. -/
theorem reunit {unit : CompilationUnit} {b : Code.Builder} (h : s.Resolved l)
    (hreferences : ∀ symbol ∈ s.unit.references, symbol ∈ unit.references)
    (hdeclarations : ∀ d ∈ unit.declarations, d ∈ s.unit.declarations ∨
      ∃ address, d.binding = .imported address ∧ l.address? d.symbol = some address ∧
        d.symbol ∈ unit.references)
    (hinstructions : b.instructions = s.builder.instructions) :
    Resolved l { s with unit := unit, builder := b } := by
  refine ⟨?_, ?_, ?_⟩
  · intro d hd
    rcases hdeclarations d hd with hold | hnew
    · rcases h.imports d hold with hown | ⟨address, hbinding, haddress, hreference⟩
      · exact Or.inl hown
      · exact Or.inr ⟨address, hbinding, haddress, hreferences _ hreference⟩
    · exact Or.inr hnew
  · intro symbol hnames
    rw [hinstructions] at hnames
    obtain ⟨hcell, hreference⟩ := h.cells symbol hnames
    exact ⟨hcell, hreferences symbol hreference⟩
  · intro callee symbol signature hroute
    obtain ⟨hcell, hreference⟩ := h.routes callee symbol signature hroute
    exact ⟨hcell, hreferences symbol hreference⟩

/-- A new route keeps everything resolved if what it needs is there. -/
theorem insert {callee : Callee} {route : Route} (h : s.Resolved l)
    (hroute : ∀ symbol signature, route = .throughCell symbol signature →
      l.hasCell symbol = true ∧ symbol ∈ s.unit.references) :
    Resolved l { s with routes := s.routes.insert callee route } := by
  refine ⟨h.imports, h.cells, ?_⟩
  intro other symbol signature hfound
  rw [Table.find?_insert] at hfound
  split at hfound
  · exact hroute symbol signature (Option.some.inj hfound)
  · exact h.routes other symbol signature hfound

end Resolved

end LowerState

namespace Lower

variable {around : Surroundings}

/-- Whatever a route needs is there when the route is found. -/
theorem Finds.resolved (hkeyed : around.registry.Keyed) {callee : Callee} {route : Route}
    {s s' : LowerState} (h : Finds around callee s route s')
    (hresolved : s.Resolved around.linker) :
    LowerState.Resolved around.linker { s' with routes := s'.routes.insert callee route } := by
  cases h with
  | @declared found hfound =>
      have hsame : (s.built (s.builder.newExternal found.declaration found.arity
          (s.unit.isOwn found.declaration)).2).Resolved around.linker :=
        hresolved.of_same rfl rfl rfl
      exact hsame.insert (fun _ _ heq => by cases heq)
  | @imported p address found unit hnew hknown haddress himport =>
      obtain rfl := hkeyed _ _ hknown
      obtain ⟨u, hcallee, rfl⟩ := CompilationUnit.declareImport_ok himport
      have hreferences := CompilationUnit.declareCallee_references hcallee
      have hsame : (s.builder.newExternal found.declaration found.arity
          ((u.refer p.callee.symbol).isOwn found.declaration)).2.instructions =
            s.builder.instructions := rfl
      refine (hresolved.reunit ?_ ?_ hsame).insert ?_
      · intro symbol hmem
        exact CompilationUnit.mem_refer.mpr (Or.inl (hreferences ▸ hmem))
      · intro d hd
        rw [CompilationUnit.refer_declarations] at hd
        rcases CompilationUnit.mem_declareCallee hcallee hd with hold | rfl
        · exact Or.inl hold
        · exact Or.inr ⟨address, rfl, haddress, CompilationUnit.mem_refer.mpr (Or.inr rfl)⟩
      · intro symbol signature heq
        cases heq
  | @throughCell p hnew hknown haddress hcell =>
      have hsame : (s.builder.newSignature p.arity).2.instructions = s.builder.instructions := rfl
      refine (hresolved.reunit ?_ ?_ hsame).insert ?_
      · intro symbol hmem
        exact CompilationUnit.mem_refer.mpr (Or.inl hmem)
      · intro d hd
        rw [CompilationUnit.refer_declarations] at hd
        exact Or.inl hd
      · intro symbol signature heq
        obtain ⟨rfl, -⟩ := Route.throughCell.inj heq
        exact ⟨hcell, CompilationUnit.mem_refer.mpr (Or.inr rfl)⟩

/-- Lowering resolves whatever the code reaches. -/
theorem respected_resolved (hkeyed : around.registry.Keyed) :
    Respected around fun s s' => s.Resolved around.linker → s'.Resolved around.linker := by
  apply Respected.of_plain
  case refl => exact fun _ h => h
  case trans => exact fun h h' hresolved => h' (h hresolved)
  case plain => exact fun hplain h => h.plain hplain
  case callDirect => exact fun args _ h => h.define (.call _ args) rfl
  case callCell =>
    exact fun args hroute h =>
      ((h.cell hroute).define (.loadCell _) rfl).define (.callThrough _ _ args) rfl
  case finds => exact fun _ hfinds h => hfinds.resolved hkeyed h
  case binds =>
    intro s s' name slot hinner h
    have hinner' := hinner (h.of_same rfl rfl rfl)
    exact hinner'.of_same rfl rfl rfl

/-- Lowering parameters names no cells. -/
theorem parameters_instructions {s s' : LowerState} {first : Code.ValueId} {names : List String}
    {u : Unit} {symbol : String} (h : parameters first names s = .ok u s') :
    Code.NamesCell s'.builder.instructions symbol →
      Code.NamesCell s.builder.instructions symbol := by
  induction names generalizing first s with
  | nil =>
      obtain rfl := parameters_nil_ok.mp h
      exact id
  | cons name names ih =>
      intro hnames
      obtain ⟨v, hmem⟩ := ih (parameters_cons_ok.mp h) hnames
      have hmem' : Code.Instruction.define v (.cell symbol) ∈
          (s.builder.newSlot.2.storeSlot first s.builder.slots).instructions := hmem
      rw [Code.Builder.instructions_storeSlot] at hmem'
      rcases List.mem_append.mp hmem' with hold | hnew
      · exact ⟨v, hold⟩
      · cases List.mem_singleton.mp hnew

end Lower

/-- What a compilation reaches beyond itself. -/
structure Compilation.Resolved (l : Linker) (c : Compilation) : Prop where
  imports : ∀ d ∈ c.unit.declarations, d.binding = .own ∨
    ∃ address, d.binding = .imported address ∧ l.address? d.symbol = some address ∧
      d.symbol ∈ c.unit.references
  cells : ∀ symbol, Code.NamesCell c.procedure.instructions symbol →
    l.hasCell symbol = true ∧ symbol ∈ c.unit.references

/-- Every import of compiled code has its address, and every cell that the code
names exists. -/
theorem compile_resolved {around : Surroundings} (hkeyed : around.registry.Keyed) {f : Function}
    {c : Compilation} (h : around.compile f = .ok c) : c.Resolved around.linker := by
  obtain ⟨declared, unit, r, s, hdeclare, hfunction, rfl, -⟩ := Surroundings.compile_ok.mp h
  obtain ⟨s₁, hparams, hbody⟩ := Lower.function_ok.mp hfunction
  obtain ⟨hunit, hroutes⟩ := Lower.parameters_unit hparams
  have hstart : s₁.Resolved around.linker := by
    refine ⟨?_, ?_, ?_⟩
    · intro d hd
      rw [hunit] at hd
      rcases CompilationUnit.mem_declareCallee hdeclare hd with hnone | rfl
      · cases hnone
      · exact Or.inl rfl
    · intro symbol hnames
      obtain ⟨v, hmem⟩ := Lower.parameters_instructions hparams hnames
      cases hmem
    · intro callee symbol signature hroute
      rw [hroutes] at hroute
      cases hroute
  have hend := (Lower.respected_resolved hkeyed).expr f.body hbody hstart
  refine ⟨hend.imports, ?_⟩
  intro symbol hnames
  rw [Code.Builder.instructions_finish] at hnames
  exact hend.cells symbol hnames

end Reckon
