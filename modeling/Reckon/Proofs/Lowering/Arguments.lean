import Reckon.Proofs.Lowering.Growth
import Reckon.Proofs.Lowering.References

/-!
# How many arguments calls pass

A call is checked against the prototype that was known when its caller was
compiled, and compiled code keeps that number: a direct call passes as many
arguments as its declaration has parameters, and a call through a cell as many as
were promised for the symbol of the cell (`Compilation.Agrees`).  What was promised
is a parameter here; it is for the session to say when promises are kept.

Calls through cells need an argument about the code, because the cell, the code
that it refers to and the call are three instructions: values are numbered in the
order in which they are computed (`LowerState.Agrees.ordered`), so a value is never
taken for one that was computed later.
-/

namespace Reckon

/-- The number of parameters of the code at an address. -/
def Linker.parameters? (l : Linker) : Address → Option Nat
  | .primitive _ => some Primitive.arity
  | .unit index => l.units[index]?.map fun u => u.procedure.arity

namespace Code

/-- The value that an operation finds code with. -/
def Operation.source? : Operation → Option Nat
  | .loadCell address => some address
  | .callThrough _ code _ => some code
  | _ => none

theorem Operation.source?_eq_none {operation : Operation} (h : operation.reaches = false) :
    operation.source? = none := by
  cases operation <;> first | rfl | cases h

/-- Each value is computed after the value that it finds code with, and all of them
before some number. -/
def Ordered (instructions : List Instruction) (n : Nat) : Prop :=
  ∀ (v : Nat) (operation : Operation), .define v operation ∈ instructions →
    v < n ∧ ∀ source ∈ operation.source?, source < v

variable {instructions : List Instruction} {n : Nat} {symbol : String} {signature : Nat}
  {args : List ValueId}

theorem Ordered.mono {m : Nat} (h : Ordered instructions n) (hle : n ≤ m) :
    Ordered instructions m := by
  intro v operation hmem
  obtain ⟨hlt, hsource⟩ := h v operation hmem
  exact ⟨Nat.lt_of_lt_of_le hlt hle, hsource⟩

theorem Ordered.define (h : Ordered instructions n) (operation : Operation)
    (hsource : ∀ source ∈ operation.source?, source < n) :
    Ordered (instructions ++ [.define n operation]) (n + 1) := by
  intro v found hmem
  rcases List.mem_append.mp hmem with hold | hnew
  · obtain ⟨hlt, hbefore⟩ := h v found hold
    exact ⟨by omega, hbefore⟩
  · obtain ⟨rfl, rfl⟩ := Instruction.define.inj (List.mem_singleton.mp hnew)
    exact ⟨by omega, hsource⟩

/-- What instructions define is all that matters. -/
theorem Ordered.of_defines {instructions' : List Instruction} (h : Ordered instructions n)
    (hdefines : ∀ v operation, .define v operation ∈ instructions' →
      .define v operation ∈ instructions) : Ordered instructions' n :=
  fun v operation hmem => h v operation (hdefines v operation hmem)

theorem CallsCell.of_defines {instructions' : List Instruction}
    (hdefines : ∀ v operation, .define v operation ∈ instructions' →
      .define v operation ∈ instructions)
    (h : CallsCell instructions' symbol signature args) :
    CallsCell instructions symbol signature args := by
  obtain ⟨v, code, address, hcall, hload, hcell⟩ := h
  exact ⟨v, code, address, hdefines _ _ hcall, hdefines _ _ hload, hdefines _ _ hcell⟩

/-- An instruction that has nothing to do with cells adds no call. -/
theorem CallsCell.of_define {v : ValueId} {operation : Operation}
    (hcell : operation.cell? = none) (hsource : operation.source? = none)
    (h : CallsCell (instructions ++ [.define v operation]) symbol signature args) :
    CallsCell instructions symbol signature args := by
  obtain ⟨v', code, address, hcall, hload, haddress⟩ := h
  have hold {w : ValueId} {found : Operation} (hfound : found ≠ operation)
      (hmem : .define w found ∈ instructions ++ [.define v operation]) :
      .define w found ∈ instructions := by
    rcases List.mem_append.mp hmem with hmem | hmem
    · exact hmem
    · exact absurd (Instruction.define.inj (List.mem_singleton.mp hmem)).2 hfound
  refine ⟨v', code, address, hold ?_ hcall, hold ?_ hload, hold ?_ haddress⟩
  · rintro rfl
    cases hsource
  · rintro rfl
    cases hsource
  · rintro rfl
    cases hcell

/-- A call through a cell adds itself and no other: what is new is computed after
what was there, so nothing that was there refers to it. -/
theorem CallsCell.of_callCell {new : String} {newSignature : Nat} {newArgs : List ValueId}
    (hordered : Ordered instructions n)
    (h : CallsCell (instructions ++ [.define n (.cell new), .define (n + 1) (.loadCell n),
      .define (n + 2) (.callThrough newSignature (n + 1) newArgs)]) symbol signature args) :
    CallsCell instructions symbol signature args ∨
      symbol = new ∧ signature = newSignature ∧ args = newArgs := by
  obtain ⟨v, code, address, hcall, hload, hcell⟩ := h
  simp only [List.mem_append, List.mem_cons, List.not_mem_nil, or_false, Instruction.define.injEq,
    reduceCtorEq, and_false, false_or, Operation.callThrough.injEq, Operation.loadCell.injEq,
    Operation.cell.injEq] at hcall hload hcell
  rcases hcall with hcall | ⟨-, hsignature, rfl, hargs⟩
  · have hcode : code < n := by
      obtain ⟨hlt, hsource⟩ := hordered v _ hcall
      exact Nat.lt_trans (hsource code rfl) hlt
    rcases hload with hload | ⟨rfl, -⟩
    · have haddress : address < n := Nat.lt_trans ((hordered code _ hload).2 address rfl) hcode
      rcases hcell with hcell | ⟨rfl, -⟩
      · exact Or.inl ⟨v, code, address, hcall, hload, hcell⟩
      · exact absurd haddress (Nat.lt_irrefl _)
    · omega
  · rcases hload with hload | ⟨-, rfl⟩
    · have hlt := (hordered _ _ hload).1
      omega
    · rcases hcell with hcell | ⟨-, hsymbol⟩
      · exact absurd (hordered _ _ hcell).1 (Nat.lt_irrefl _)
      · exact Or.inr ⟨hsymbol, hsignature, hargs⟩

end Code

/-- What a registry says of a callee can be relied upon: the code at its address has
as many parameters as its prototype, and if it has only a cell its prototype has as
many as were promised. -/
def Surroundings.Trusts (around : Surroundings) (promised : String → Nat) (callee : Callee) :
    Prop :=
  ∀ p, around.registry.get? callee = some p →
    (∀ address, around.linker.address? callee.symbol = some address →
      around.linker.parameters? address = some p.arity) ∧
    (around.linker.address? callee.symbol = none → around.linker.hasCell callee.symbol = true →
      p.arity = promised callee.symbol)

namespace LowerState

/-- The numbers of parameters that the code so far goes by are right, for a function
that is being compiled and what was promised. -/
structure Agrees (l : Linker) (promised : String → Nat) (p : Prototype) (s : LowerState) :
    Prop where
  own : ∃ found, s.unit.declared? p.callee = some found
  declarations : ∀ d ∈ s.unit.declarations, (d.binding = .own ∧ d.arity = p.arity) ∨
    ∃ address, d.binding = .imported address ∧ l.parameters? address = some d.arity
  callees : ∀ callee found, s.unit.declared? callee = some found →
    ∃ d, s.unit.declarations[found.declaration]? = some d ∧ d.arity = found.arity
  externals : ∀ e ∈ s.builder.externals.toList, ∃ d,
    s.unit.declarations[e.declaration]? = some d ∧
      s.builder.signatures.toList[e.signature]? = some d.arity
  routes : ∀ callee symbol signature,
    s.routes.find? callee = some (.throughCell symbol signature) →
      s.builder.signatures.toList[signature]? = some (promised symbol)
  ordered : Code.Ordered s.builder.instructions s.builder.values
  cells : ∀ symbol signature args, Code.CallsCell s.builder.instructions symbol signature args →
    s.builder.signatures.toList[signature]? = some (promised symbol)

namespace Agrees

variable {l : Linker} {promised : String → Nat} {p : Prototype} {s : LowerState}

/-- Code that defines the same values, with signatures for whatever it calls. -/
theorem of_defines {b : Code.Builder} (h : s.Agrees l promised p)
    (hdefines : ∀ v operation, .define v operation ∈ b.instructions →
      .define v operation ∈ s.builder.instructions)
    (hvalues : s.builder.values ≤ b.values)
    (hsignatures : s.builder.signatures.toList <+: b.signatures.toList)
    (hexternals : ∀ e ∈ b.externals.toList, e ∈ s.builder.externals.toList ∨
      ∃ d, s.unit.declarations[e.declaration]? = some d ∧
        b.signatures.toList[e.signature]? = some d.arity) : (s.built b).Agrees l promised p where
  own := h.own
  declarations := h.declarations
  callees := h.callees
  externals := by
    intro e he
    rcases hexternals e he with hold | hnew
    · obtain ⟨d, hd, harity⟩ := h.externals e hold
      exact ⟨d, hd, getElem?_of_prefix hsignatures harity⟩
    · exact hnew
  routes := fun callee symbol signature hroute =>
    getElem?_of_prefix hsignatures (h.routes callee symbol signature hroute)
  ordered := (h.ordered.mono hvalues).of_defines hdefines
  cells := fun symbol signature args hcalls =>
    getElem?_of_prefix hsignatures (h.cells symbol signature args (hcalls.of_defines hdefines))

/-- A value that has nothing to do with cells. -/
theorem define (h : s.Agrees l promised p) (operation : Code.Operation)
    (hcell : operation.cell? = none) (hsource : operation.source? = none) :
    (s.built (s.builder.define operation).2).Agrees l promised p where
  own := h.own
  declarations := h.declarations
  callees := h.callees
  externals := h.externals
  routes := h.routes
  ordered := by
    change Code.Ordered (s.builder.define operation).2.instructions _
    rw [Code.Builder.instructions_define]
    apply h.ordered.define operation
    rw [hsource]
    simp
  cells := by
    intro symbol signature args hcalls
    change Code.CallsCell (s.builder.define operation).2.instructions _ _ _ at hcalls
    rw [Code.Builder.instructions_define] at hcalls
    exact h.cells symbol signature args (hcalls.of_define hcell hsource)

/-- Operations that have to do with no other function. -/
theorem plain {b : Code.Builder} (h : s.Agrees l promised p) (hplain : s.builder.EmitsPlain b) :
    (s.built b).Agrees l promised p := by
  generalize hstart : s.builder = start at hplain
  induction hplain generalizing s with
  | define operation hreaches =>
      subst hstart
      exact h.define operation (Code.Operation.cell?_eq_none hreaches)
        (Code.Operation.source?_eq_none hreaches)
  | storeSlot value slot =>
      subst hstart
      refine h.of_defines ?_ (Nat.le_refl _) List.prefix_rfl fun _ => Or.inl
      intro v operation hmem
      rw [Code.Builder.instructions_storeSlot] at hmem
      simpa using hmem
  | newSlot | newBlock =>
      subst hstart
      exact h.of_defines (fun _ _ => id) (Nat.le_refl _) List.prefix_rfl fun _ => Or.inl
  | newParam =>
      subst hstart
      exact h.of_defines (fun _ _ => id) (Nat.le_succ _) List.prefix_rfl fun _ => Or.inl
  | enter transfer next params =>
      subst hstart
      refine h.of_defines ?_ (Nat.le_refl _) List.prefix_rfl fun _ => Or.inl
      intro v operation hmem
      rwa [Code.Builder.instructions_enter] at hmem
  | trans _ _ ih ih' =>
      have hmid := ih h hstart
      have hend := ih' hmid rfl
      exact hend

/-- A call through a cell uses the signature of its route. -/
theorem callCell {callee : Callee} {symbol : String} {signature : Nat}
    (args : List Code.ValueId) (h : s.Agrees l promised p)
    (hroute : s.routes.find? callee = some (.throughCell symbol signature)) :
    (s.built (s.builder.callCell symbol signature args)).Agrees l promised p where
  own := h.own
  declarations := h.declarations
  callees := h.callees
  externals := h.externals
  routes := h.routes
  ordered := by
    change Code.Ordered (s.builder.callCell symbol signature args).instructions _
    unfold Code.Builder.callCell
    simp only [Code.Builder.instructions_define]
    have hcell : Code.Ordered (s.builder.instructions ++ [.define s.builder.values (.cell symbol)])
        (s.builder.values + 1) := h.ordered.define _ fun source hsource => nomatch hsource
    have hload := hcell.define (.loadCell s.builder.values) fun source hsource => by
      obtain rfl := Option.some.inj hsource
      exact Nat.lt_succ_self _
    refine hload.define (.callThrough signature (s.builder.values + 1) args) ?_
    intro source hsource
    obtain rfl := Option.some.inj hsource
    exact Nat.lt_succ_self _
  cells := by
    intro symbol' signature' args' hcalls
    change Code.CallsCell (s.builder.callCell symbol signature args).instructions _ _ _ at hcalls
    unfold Code.Builder.callCell at hcalls
    simp only [Code.Builder.instructions_define, List.append_assoc, List.cons_append,
      List.nil_append] at hcalls
    rcases hcalls.of_callCell h.ordered with hold | ⟨rfl, rfl, rfl⟩
    · exact h.cells _ _ _ hold
    · exact h.routes _ _ _ hroute

theorem newSignature (h : s.Agrees l promised p) (arity : Nat) :
    (s.built (s.builder.newSignature arity).2).Agrees l promised p := by
  refine h.of_defines (fun _ _ => id) (Nat.le_refl _) ?_ fun _ => Or.inl
  simp [Code.Builder.newSignature]

/-- A function that is declared is listed with a signature of its own. -/
theorem newExternal (h : s.Agrees l promised p) {found : Declared}
    (hfound : ∃ d, s.unit.declarations[found.declaration]? = some d ∧ d.arity = found.arity)
    (colocated : Bool) :
    (s.built (s.builder.newExternal found.declaration found.arity colocated).2).Agrees l promised
      p := by
  refine h.of_defines (fun _ _ => id) (Nat.le_refl _) ?_ fun e he => ?_
  · simp [Code.Builder.newExternal, Code.Builder.newSignature]
  · simp only [Code.Builder.newExternal, Code.Builder.newSignature, Array.toList_push,
      List.mem_append, List.mem_singleton] at he
    refine he.imp_right fun heq => ?_
    obtain ⟨d, hd, harity⟩ := hfound
    refine ⟨d, heq ▸ hd, ?_⟩
    simp [heq, harity, Code.Builder.newExternal, Code.Builder.newSignature]

/-- A function with code is declared with the number of parameters of its code. -/
theorem declareImport (h : s.Agrees l promised p) {q : Prototype} {address : Address}
    {found : Declared} {unit : CompilationUnit}
    (himport : s.unit.declareImport q address = .ok (found, unit))
    (haddress : l.parameters? address = some q.arity) :
    Agrees l promised p { s with unit := unit } := by
  obtain ⟨u, hcallee, rfl⟩ := CompilationUnit.declareImport_ok himport
  have hextends := CompilationUnit.declareCallee_extends hcallee
  refine ⟨?_, ?_, ?_, ?_, h.routes, h.ordered, h.cells⟩
  · obtain ⟨own, hown⟩ := h.own
    simp only [CompilationUnit.declared?_refer]
    rw [CompilationUnit.declared?_declareCallee hcallee]
    split
    · exact ⟨found, rfl⟩
    · exact ⟨own, hown⟩
  · intro d hd
    rw [CompilationUnit.refer_declarations] at hd
    rcases CompilationUnit.mem_declareCallee hcallee hd with hold | rfl
    · exact h.declarations d hold
    · exact Or.inr ⟨address, rfl, haddress⟩
  · intro callee other hother
    rw [CompilationUnit.refer_declarations]
    rw [CompilationUnit.declared?_refer, CompilationUnit.declared?_declareCallee hcallee] at hother
    split at hother
    · obtain rfl := Option.some.inj hother
      exact CompilationUnit.declareCallee_arity hcallee
    · obtain ⟨d, hd, harity⟩ := h.callees callee other hother
      exact ⟨d, getElem?_of_prefix hextends hd, harity⟩
  · intro e he
    obtain ⟨d, hd, harity⟩ := h.externals e he
    refine ⟨d, ?_, harity⟩
    rw [CompilationUnit.refer_declarations]
    exact getElem?_of_prefix hextends hd

theorem refer (h : s.Agrees l promised p) (symbol : String) :
    Agrees l promised p { s with unit := s.unit.refer symbol } := by
  refine ⟨?_, ?_, ?_, ?_, h.routes, h.ordered, h.cells⟩
  · simpa [CompilationUnit.declared?] using h.own
  · simpa using h.declarations
  · simpa [CompilationUnit.declared?] using h.callees
  · simpa using h.externals

theorem insert (h : s.Agrees l promised p) (callee : Callee) {route : Route}
    (hroute : ∀ symbol signature, route = .throughCell symbol signature →
      s.builder.signatures.toList[signature]? = some (promised symbol)) :
    Agrees l promised p { s with routes := s.routes.insert callee route } := by
  refine ⟨h.own, h.declarations, h.callees, h.externals, ?_, h.ordered, h.cells⟩
  intro other symbol signature hfound
  rw [Table.find?_insert] at hfound
  split at hfound
  · exact hroute symbol signature (Option.some.inj hfound)
  · exact h.routes other symbol signature hfound

theorem rescope (h : s.Agrees l promised p) (scope : Scope Code.SlotId) :
    (s.scoped scope).Agrees l promised p :=
  ⟨h.own, h.declarations, h.callees, h.externals, h.routes, h.ordered, h.cells⟩

end Agrees

end LowerState

namespace Lower

variable {around : Surroundings} {promised : String → Nat} {p : Prototype}

/-- A route is found with the number of parameters of what it leads to. -/
theorem Finds.agrees (htrusts : ∀ callee, callee ≠ p.callee → around.Trusts promised callee)
    {callee : Callee} {route : Route} {s s' : LowerState} (h : Finds around callee s route s')
    (hs : s.Agrees around.linker promised p) :
    LowerState.Agrees around.linker promised p
      { s' with routes := s'.routes.insert callee route } := by
  -- a callee that is not declared yet is not the function itself, which is
  have hother (hnew : s.unit.declared? callee = none) : around.Trusts promised callee := by
    apply htrusts
    rintro rfl
    obtain ⟨found, hfound⟩ := hs.own
    rw [hnew] at hfound
    cases hfound
  cases h with
  | @declared found hfound =>
      have hlisted := hs.newExternal (hs.callees callee found hfound)
        (s.unit.isOwn found.declaration)
      exact hlisted.insert callee fun _ _ heq => nomatch heq
  | @imported q address found unit hnew hknown haddress himport =>
      have harity := (hother hnew q hknown).1 address haddress
      have hdeclared := hs.declareImport himport harity
      have hfound : ∃ d, unit.declarations[found.declaration]? = some d ∧
          d.arity = found.arity := by
        obtain ⟨u, hcallee, rfl⟩ := CompilationUnit.declareImport_ok himport
        rw [CompilationUnit.refer_declarations]
        exact CompilationUnit.declareCallee_arity hcallee
      have hlisted := hdeclared.newExternal hfound (unit.isOwn found.declaration)
      exact hlisted.insert callee fun _ _ heq => nomatch heq
  | @throughCell q hnew hknown haddress hcell =>
      have hsigned := (hs.refer callee.symbol).newSignature q.arity
      refine hsigned.insert callee fun symbol signature heq => ?_
      obtain ⟨rfl, rfl⟩ := Route.throughCell.inj heq
      rw [← (hother hnew q hknown).2 haddress hcell]
      simp [LowerState.built, Code.Builder.newSignature]

/-- Lowering goes by the right numbers of parameters. -/
theorem respected_agrees (htrusts : ∀ callee, callee ≠ p.callee → around.Trusts promised callee) :
    Respected around fun s s' =>
      s.Agrees around.linker promised p → s'.Agrees around.linker promised p := by
  apply Respected.of_plain
  case refl => exact fun _ h => h
  case trans => exact fun h h' hs => h' (h hs)
  case plain => exact fun hplain hs => hs.plain hplain
  case callDirect => exact fun args _ hs => hs.define (.call _ args) rfl rfl
  case callCell => exact fun args hroute hs => hs.callCell args hroute
  case finds => exact fun _ hfinds hs => hfinds.agrees htrusts hs
  case binds => exact fun name slot hinner hs => (hinner (hs.rescope _)).rescope _

theorem parameters_agrees {l : Linker} {s s' : LowerState} {first : Code.ValueId}
    {names : List String} {u : Unit} (h : parameters first names s = .ok u s')
    (hs : s.Agrees l promised p) : s'.Agrees l promised p := by
  induction names generalizing first s with
  | nil =>
      obtain rfl := parameters_nil_ok.mp h
      exact hs
  | cons name names ih =>
      refine ih (parameters_cons_ok.mp h) ?_
      exact (hs.plain (.trans .newSlot (.storeSlot _ _))).rescope _

end Lower

namespace Code

/-- A check that passes passes everywhere. -/
theorem forM_ok {α : Type} {check : α → Except Fault Unit} {xs : List α} {x : α}
    (h : xs.forM check = .ok ()) (hmem : x ∈ xs) : check x = .ok () := by
  induction xs with
  | nil => cases hmem
  | cons first rest ih =>
      have hboth : (check first >>= fun _ => rest.forM check) = .ok () := h
      cases hfirst : check first with
      | error fault => simp [hfirst, bind, Except.bind] at hboth
      | ok _ =>
          simp only [hfirst, bind, Except.bind] at hboth
          rcases List.mem_cons.mp hmem with rfl | hmem
          · exact hfirst
          · exact ih hboth hmem

/-- What is checked of code is checked of each of its operations. -/
theorem Procedure.checkOperation_ok {p : Procedure} (h : p.check = .ok ()) {v : ValueId}
    {operation : Operation} (hmem : .define v operation ∈ p.instructions) :
    p.checkOperation operation = .ok () := by
  obtain ⟨block, hblock, hbody⟩ := List.mem_flatMap.mp hmem
  have hchecked := forM_ok h hblock
  unfold Procedure.checkBlock at hchecked
  cases hforM : block.body.forM p.checkInstruction with
  | error fault => simp [hforM, bind, Except.bind] at hchecked
  | ok _ =>
      have hinstruction : p.checkInstruction (.define v operation) = .ok () := forM_ok hforM hbody
      exact hinstruction

theorem Procedure.checkSignature_ok {p : Procedure} {signature found : Nat}
    (h : p.checkSignature signature found = .ok ()) : p.signatures[signature]? = some found := by
  unfold Procedure.checkSignature at h
  split at h
  · cases h
  · next arity harity =>
      split at h
      · next heq => exact heq ▸ harity
      · cases h

end Code

/-- The number of arguments of each call is that of the parameters of the
declaration that it refers to, or that were promised for the symbol of its cell,
and declarations are right about what they stand for. -/
structure Compilation.Agrees (l : Linker) (promised : String → Nat) (c : Compilation) : Prop where
  declarations : ∀ d ∈ c.unit.declarations, (d.binding = .own ∧ d.arity = c.procedure.arity) ∨
    ∃ address, d.binding = .imported address ∧ l.parameters? address = some d.arity
  direct : ∀ v external args e, .define v (.call external args) ∈ c.procedure.instructions →
    c.procedure.externals[external]? = some e →
      ∃ d, c.unit.declarations[e.declaration]? = some d ∧ args.length = d.arity
  through : ∀ symbol signature args,
    Code.CallsCell c.procedure.instructions symbol signature args →
      args.length = promised symbol

/-- A function starts with its own declaration and nothing else. -/
theorem LowerState.agrees_start {l : Linker} {promised : String → Nat} {p : Prototype}
    {declared : Declared} {unit : CompilationUnit}
    (h : CompilationUnit.empty.declareDefinition p = .ok (declared, unit)) :
    (LowerState.start unit p.arity).Agrees l promised p := by
  have hown := CompilationUnit.declared?_declareCallee h
  refine ⟨⟨declared, (hown p.callee).trans (if_pos rfl)⟩, ?_, ?_, ?_, ?_, ?_, ?_⟩
  · intro d hd
    rcases CompilationUnit.mem_declareCallee h hd with hnone | rfl
    · cases hnone
    · exact Or.inl ⟨rfl, rfl⟩
  · intro callee found hfound
    have hfound' := (hown callee).symm.trans hfound
    split at hfound'
    · obtain rfl := Option.some.inj hfound'
      exact CompilationUnit.declareCallee_arity h
    · cases hfound'
  · intro e he
    cases he
  · intro callee symbol signature hroute
    cases hroute
  · intro v operation hmem
    cases hmem
  · intro symbol signature args hcalls
    obtain ⟨_, _, _, hcall, -⟩ := hcalls
    cases hcall

/-- **Compiled code passes the arguments that were agreed on**, if what is known
about other functions can be trusted. -/
theorem compile_agrees {around : Surroundings} {promised : String → Nat} {f : Function}
    {c : Compilation}
    (htrusts : ∀ callee, callee ≠ f.prototype.callee → around.Trusts promised callee)
    (h : around.compile f = .ok c) : c.Agrees around.linker promised := by
  obtain ⟨declared, unit, r, s, hdeclare, hfunction, rfl, hcheck⟩ := Surroundings.compile_ok.mp h
  obtain ⟨s₁, hparams, hbody⟩ := Lower.function_ok.mp hfunction
  have hend : s.Agrees around.linker promised f.prototype :=
    (Lower.respected_agrees htrusts).expr f.body hbody
      (Lower.parameters_agrees hparams (LowerState.agrees_start hdeclare))
  refine ⟨hend.declarations, ?_, ?_⟩
  · intro v external args e hcall he
    have hchecked := Code.Procedure.checkOperation_ok hcheck hcall
    have hexternal := List.mem_of_getElem? he
    obtain ⟨d, hd, harity⟩ := hend.externals e hexternal
    simp only [Code.Procedure.checkOperation] at hchecked
    rw [he] at hchecked
    have hlength := Code.Procedure.checkSignature_ok hchecked
    exact ⟨d, hd, Option.some.inj (hlength.symm.trans harity)⟩
  · intro symbol signature args hcalls
    have hpromised : s.builder.signatures.toList[signature]? = some (promised symbol) := by
      apply hend.cells symbol signature args
      rwa [Code.Builder.instructions_finish] at hcalls
    obtain ⟨v, code, address, hcall, -⟩ := hcalls
    have hlength := Code.Procedure.checkSignature_ok (Code.Procedure.checkOperation_ok hcheck hcall)
    exact Option.some.inj (hlength.symm.trans hpromised)

end Reckon
