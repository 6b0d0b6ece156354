import Reckon.Proofs.Grammar.Symbols
import Reckon.Proofs.Lowering.Calls
import Reckon.Proofs.Lowering.Planning
import Reckon.Proofs.Lowering.Rejection

/-!
# Compiled code is well formed

Compiling a function fails only where its source is at fault.  Otherwise the code
that comes out of it is well formed: blocks and values are there once, every path
through the code is supplied with what it needs, blocks and calls get as many values
as they have parameters, and every callee is listed once
(`Surroundings.compile_wellFormed`).  So the check that code has to pass before it is
linked never fails, and no block is ever left open or lost.
-/

namespace Reckon

namespace Code

/-- The value that an instruction computes. -/
def Instruction.result? : Instruction → Option ValueId
  | define result _ => some result
  | storeSlot _ _ => none

/-- The values that a block defines. -/
def Block.definitions (block : Block) : List ValueId :=
  block.params ++ block.body.filterMap Instruction.result?

/-- The values that a procedure defines, block by block. -/
def Procedure.definitions (p : Procedure) : List ValueId := p.blocks.flatMap Block.definitions

/-- Code is well formed. -/
structure Procedure.WellFormed (p : Procedure) : Prop where
  blocks : (p.blocks.map Block.id).Nodup
  definitions : p.definitions.Nodup
  paths : ∀ blocks, p.IsPath blocks → Supplied [] (blocks.flatMap Block.steps)
  targets : ∀ block ∈ p.blocks, ∀ target ∈ block.transfer.targets,
    ∃ next, p.block? target.1 = some next ∧ next.params.length = target.2
  calls : ∀ v external args, .define v (.call external args) ∈ p.instructions →
    ∃ e, p.externals[external]? = some e ∧ p.signatures[e.signature]? = some args.length
  callsThrough : ∀ v signature code args,
    .define v (.callThrough signature code args) ∈ p.instructions →
      p.signatures[signature]? = some args.length

namespace Builder

/-- The values defined so far. -/
def definitions (b : Builder) : List ValueId :=
  b.complete.toList.flatMap Block.definitions ++
    (b.params ++ b.body.toList.filterMap Instruction.result?)

theorem definitions_define (b : Builder) (operation : Operation) :
    (b.define operation).2.definitions = b.definitions ++ [b.values] := by
  simp [definitions, define, Instruction.result?]

theorem definitions_storeSlot (b : Builder) (value : ValueId) (slot : SlotId) :
    (b.storeSlot value slot).definitions = b.definitions := by
  simp [definitions, storeSlot, Instruction.result?]

theorem definitions_enter (b : Builder) (transfer : Transfer) (next : BlockId)
    (params : List ValueId) :
    (b.enter transfer next params).definitions = b.definitions ++ params := by
  simp [definitions, enter, currentBlock, Block.definitions]

theorem definitions_finish (b : Builder) (symbol : String) (arity : Nat) (transfer : Transfer) :
    (b.finish symbol arity transfer).definitions = b.definitions := by
  simp [definitions, Procedure.definitions, finish, currentBlock, Block.definitions]

theorem definitions_test (b : Builder) (value : ValueId) :
    (b.test value).definitions = b.definitions ++ [b.values] ++ [b.values + 1] := by
  rw [test, definitions_define, definitions_define]
  rfl

theorem definitions_choose (b : Builder) (condition : ValueId) :
    (b.choose condition).definitions = b.definitions ++ [b.values] ++ [b.values + 1] := by
  rw [choose, definitions_enter, List.append_nil]
  exact b.definitions_test condition

/-- Between two builders, every new value was defined exactly once. -/
abbrev DefinesNew (b b' : Builder) : Prop :=
  AddsNew b.values b.definitions b'.values b'.definitions

theorem definesNew_define (b : Builder) (operation : Operation) :
    b.DefinesNew (b.define operation).2 := by
  rw [DefinesNew, definitions_define]
  exact .next _ _

theorem definesNew_storeSlot (b : Builder) (value : ValueId) (slot : SlotId) :
    b.DefinesNew (b.storeSlot value slot) := by
  rw [DefinesNew, definitions_storeSlot]
  exact .refl _ _

/-- A block without parameters defines nothing when it is entered. -/
theorem definesNew_enter (b : Builder) (transfer : Transfer) (next : BlockId) :
    b.DefinesNew (b.enter transfer next []) := by
  rw [DefinesNew, definitions_enter, List.append_nil]
  exact .refl _ _

theorem definesNew_beginLoop (b : Builder) (start : ValueId) (slot : SlotId) :
    b.DefinesNew (b.beginLoop start slot) :=
  -- creating the block of the loop defines nothing either, so the numbers of values agree
  (b.definesNew_storeSlot start slot).trans
    (definesNew_enter (b.storeSlot start slot).newBlock.2 _ _)

theorem definesNew_endLoop (b : Builder) (slot : SlotId) (step finish : ValueId)
    (loop : BlockId) : b.DefinesNew (b.endLoop slot step finish loop) := by
  have hload := b.definesNew_define (.loadSlot slot)
  have hadd := (b.define (.loadSlot slot)).2.definesNew_define (.arithmetic .add b.values step)
  have hadvance : b.DefinesNew (b.advance slot step) :=
    hload.trans (hadd.trans (definesNew_storeSlot _ _ _))
  have htest : (b.advance slot step).DefinesNew ((b.advance slot step).test finish) :=
    (definesNew_define _ (.number 0)).trans (definesNew_define _ _)
  exact (hadvance.trans htest).trans
    (definesNew_enter ((b.advance slot step).test finish).newBlock.2 _ _)

/-- Code that keeps to a plan and ends with a value that is known is a procedure that
keeps to the plan and goes only to blocks that have been created. -/
theorem Planned.finish {b : Builder} {plan : Plan} (h : b.Planned plan) {value : ValueId}
    (hvalue : .computed value ∈ b.known plan) (symbol : String) (arity : Nat) :
    ∀ block ∈ (b.finish symbol arity (.leave value)).blocks,
      plan.Admits block ∧ ∀ target ∈ block.transfer.targets, target.1 < b.blocks := by
  intro block hblock
  rcases Array.mem_push.mp (Array.mem_toList_iff.mp hblock) with hold | rfl
  · exact ⟨h.complete block hold, (h.created block hold).2⟩
  · refine ⟨⟨h.params, ?_, fun _ htarget => nomatch htarget⟩, fun _ htarget => nomatch htarget⟩
    have hsteps : (b.currentBlock (.leave value)).steps = b.steps ++ [.finish (.leave value)] := rfl
    rw [hsteps, supplied_append]
    refine ⟨h.supplied, fun fact hfact => ?_, trivial⟩
    obtain rfl := List.mem_singleton.mp hfact
    exact hvalue

end Builder

end Code

namespace Lower

open Code

variable {around : Surroundings}

/-- Lowering defines every value that it makes, and defines it once. -/
theorem respected_definesNew :
    Respected around fun s s' => s.builder.DefinesNew s'.builder where
  refl := fun s => .refl _ _
  trans := AddsNew.trans
  define := fun operation _ => Builder.definesNew_define _ operation
  callDirect := fun args _ => Builder.definesNew_define _ _
  callCell := by
    intro s callee symbol signature args _
    have hcell := s.builder.definesNew_define (.cell symbol)
    have hload := (s.builder.define (.cell symbol)).2.definesNew_define
      (.loadCell s.builder.values)
    exact hcell.trans (hload.trans (Builder.definesNew_define _ _))
  storeSlot := fun value slot => Builder.definesNew_storeSlot _ value slot
  newSlot := .refl _ _
  finds := by
    intro callee s route s' _ h
    cases h <;> exact .refl _ _
  binds := fun _ _ h => h
  cond := by
    intro s s₁ s₂ condition thenValue elseValue hthen helse
    have hthenLe : s.builder.values + 3 ≤ s₁.builder.values := hthen.le
    have helseLe : s₁.builder.values ≤ s₂.builder.values := helse.le
    refine ⟨show s.builder.values ≤ s₂.builder.values by omega, fun v => ?_⟩
    have hthenCount : s₁.builder.definitions.count v = s.builder.definitions.count v +
        (if s.builder.values = v then 1 else 0) + (if s.builder.values + 1 = v then 1 else 0) +
        if s.builder.values + 3 ≤ v ∧ v < s₁.builder.values then 1 else 0 := by
      refine (hthen.count v).trans (congrArg (· + _) ?_)
      change (s.builder.choose condition).definitions.count v = _
      simp only [Builder.definitions_choose, List.count_append, List.count_singleton, beq_iff_eq]
    have helseCount : s₂.builder.definitions.count v = s₁.builder.definitions.count v +
        if s₁.builder.values ≤ v ∧ v < s₂.builder.values then 1 else 0 := by
      refine (helse.count v).trans (congrArg (· + _) ?_)
      change (s₁.builder.enter _ _ _).definitions.count v = _
      rw [Builder.definitions_enter, List.append_nil]
    change (s₂.builder.enter _ _ _).definitions.count v = _ +
      if s.builder.values ≤ v ∧ v < s₂.builder.values then 1 else 0
    rw [Builder.definitions_enter, List.count_append, List.count_singleton, helseCount, hthenCount]
    grind
  loop := by
    intro s s₁ start slot step finish hbody
    exact (s.builder.definesNew_beginLoop start slot).trans
      (hbody.trans (s₁.builder.definesNew_endLoop slot step finish s.builder.blocks))

variable {own : Prototype} {s s' : LowerState}

/-- Keeping parameters in slots calls nothing and defines no value. -/
theorem parameters_calls (h : s.Listed around own) {first : ValueId} {names : List String}
    {u : Unit} (hparams : parameters first names s = .ok u s') :
    s.Calls around own [] s' ∧ s.builder.DefinesNew s'.builder := by
  induction names generalizing first s with
  | nil =>
      obtain rfl := parameters_nil_ok.mp hparams
      exact ⟨.refl h, .refl _ _⟩
  | cons name names ih =>
      have hstore := LowerState.Calls.plain h
        (.trans .newSlot (.storeSlot first s.builder.slots))
      obtain ⟨hrest, hdefines⟩ := ih (hstore.listed.rescope _) (parameters_cons_ok.mp hparams)
      refine ⟨hstore.trans
        ⟨hrest.listed, hrest.kept, hrest.met, hrest.instructions, hrest.calls⟩, ?_⟩
      exact (s.builder.newSlot.2.definesNew_storeSlot first s.builder.slots).trans hdefines

/-- Parameters are known when they are kept in slots. -/
theorem parameters_planned {plan : Plan} (h : s.Planned plan) {first : Nat}
    {names : List String} {u : Unit}
    (hknown : ∀ v : Nat, v < first + names.length → .computed v ∈ s.builder.known plan)
    (hparams : parameters first names s = .ok u s') : s'.Planned plan := by
  induction names generalizing first s with
  | nil =>
      obtain rfl := parameters_nil_ok.mp hparams
      exact h
  | cons name names ih =>
      have hslot := h.newSlot
      have hstore := (hslot.planned h).storeSlot s.builder.slots
        (hslot.known (hknown first (by simp)))
      have hboth := hslot.trans hstore
      have hstored : .stored s.builder.slots ∈
          (s.builder.newSlot.2.storeSlot first s.builder.slots).known plan := by
        rw [Builder.known_storeSlot]
        simp
      refine ih ((hboth.planned h).bind name hstored) (fun v hv => ?_)
        (parameters_cons_ok.mp hparams)
      refine hboth.known (hknown v ?_)
      rw [List.length_cons]
      omega

end Lower

/-- A call uses the signature of its own callee: directly by an external that is
declared under the symbol of the callee, or through the cell of that symbol, and then
there is no external for it. -/
def Compilation.CallsBy (c : Compilation) (listed : List Callee) :
    Code.Instruction → Callee → Prop
  | .define _ (.call external _), callee =>
    ∃ e d, c.procedure.externals[external]? = some e ∧ listed[e.signature]? = some callee ∧
      c.unit.declarations[e.declaration]? = some d ∧ d.symbol = callee.symbol
  | .define _ (.callThrough signature code _), callee =>
    listed[signature]? = some callee ∧ (∀ e ∈ c.procedure.externals, e.signature ≠ signature) ∧
      ∃ address, .define code (.loadCell address) ∈ c.procedure.instructions ∧
        .define address (.cell callee.symbol) ∈ c.procedure.instructions
  | _, _ => False

/-- Every callee is listed once, with one signature and at most one external, and each
call uses those of its own callee. -/
structure Compilation.Lists (c : Compilation) (arityOf? : Callee → Option Nat)
    (callees listed : List Callee) : Prop where
  nodup : listed.Nodup
  mem : ∀ callee, callee ∈ listed ↔ callee ∈ callees
  signatures : listed.map arityOf? = c.procedure.signatures.map some
  externals : (c.procedure.externals.map Code.External.signature).Nodup
  calls : List.Forall₂ (c.CallsBy listed) c.procedure.calls callees

namespace LowerState

variable {around : Surroundings} {own : Prototype} {s : LowerState}

/-- The key of an entry is found at its place. -/
theorem Listed.getElem?_keys {i : Nat} {callee : Callee} {route : Route}
    (h : s.routes.entries[i]? = some (callee, route)) : s.routes.keys[i]? = some callee := by
  rw [Table.keys, List.getElem?_map, h]
  rfl

/-- The route to a callee uses the signature that stands where the callee does. -/
theorem Listed.uses (h : s.Listed around own) {callee : Callee} {route : Route}
    (hroute : s.routes.find? callee = some route) :
    ∃ i : Nat, s.routes.entries[i]? = some (callee, route) ∧ route.Uses s.builder callee i := by
  obtain ⟨i, hi⟩ := List.mem_iff_getElem?.mp (Table.mem_entries_of_find? hroute)
  exact ⟨i, hi, h.routes i callee route hi⟩

end LowerState

namespace Lower

open Code

variable {around : Surroundings} {f : Function} {unit : CompilationUnit} {s : LowerState}
  {r : Computed}

theorem callsBy_of_reaches {own : Prototype} (hlisted : s.Listed around own) (hnamed : s.Named)
    {c : Compilation}
    (hexternals : c.procedure.externals = s.builder.externals.toList)
    (hunit : c.unit = s.unit)
    (hinstructions : c.procedure.instructions = s.builder.instructions)
    {instruction : Instruction} {callee : Callee}
    (h : s.Reaches around own instruction callee) :
    c.CallsBy s.routes.keys instruction callee := by
  unfold LowerState.Reaches at h
  split at h
  · next external args =>
      obtain ⟨hroute, -⟩ := h
      obtain ⟨i, hi, e, he, rfl⟩ := hlisted.uses hroute
      obtain ⟨e', d, he', hd, hsymbol⟩ := hnamed.routes callee _ hroute
      obtain rfl := Option.some.inj (he.symm.trans he')
      exact ⟨e, d, hexternals ▸ he, LowerState.Listed.getElem?_keys hi, hunit ▸ hd, hsymbol⟩
  · next signature code args =>
      obtain ⟨hroute, -, address, hload, hcell⟩ := h
      obtain ⟨i, hi, -, rfl⟩ := hlisted.uses hroute
      refine ⟨LowerState.Listed.getElem?_keys hi, ?_, address, hinstructions ▸ hload,
        hinstructions ▸ hcell⟩
      rintro e he rfl
      rw [hexternals] at he
      obtain ⟨k, hk⟩ := List.mem_iff_getElem?.mp he
      obtain ⟨other, hother⟩ := hlisted.externals k e hk
      cases hi.symm.trans hother
  · exact h.elim

/-- The signature that a route uses has as many parameters as the callee. -/
theorem signature_of_uses {own : Prototype} (hlisted : s.Listed around own) {i n : Nat}
    {callee : Callee}
    {route : Route} (hentry : s.routes.entries[i]? = some (callee, route))
    (harity : around.arityOf? own callee = some n) : s.builder.signatures.toList[i]? = some n := by
  have hmap := congrArg (·[i]?) hlisted.signatures
  simp only [List.getElem?_map, LowerState.Listed.getElem?_keys hentry, Option.map_some,
    harity] at hmap
  obtain ⟨found, hfound, heq⟩ := Option.map_eq_some_iff.mp hmap.symm
  exact heq ▸ hfound

/-- Before its body is lowered, a function lists nothing and has declared itself. -/
theorem listed_start (around : Surroundings) {p : Prototype} {declared : Declared}
    {unit : CompilationUnit}
    (h : CompilationUnit.empty.declareDefinition p = .ok (declared, unit)) :
    (LowerState.start unit p.arity).Listed around p ∧ (LowerState.start unit p.arity).Named := by
  have hdeclared := CompilationUnit.declared?_declareCallee h
  have hitself : unit.declared? p.callee = some declared := (hdeclared _).trans (if_pos rfl)
  have harity : declared.arity = p.arity := by
    obtain ⟨n, u, -, rfl, -⟩ := CompilationUnit.declareCallee_ok h
    rfl
  have hunit : unit.Declares around p := by
    refine ⟨by rw [hitself]; rfl, fun callee found hfound => ?_, fun d hd => ?_⟩
    · rw [hdeclared] at hfound
      split at hfound
      · next heq =>
          obtain rfl := Option.some.inj hfound
          rw [Surroundings.arityOf?, if_pos heq, harity]
      · cases hfound
    · rcases CompilationUnit.mem_declareCallee h hd with hnone | rfl
      · cases hnone
      · exact ⟨p.callee, declared, hitself, rfl⟩
  refine ⟨⟨hunit, List.nodup_nil, rfl, fun _ _ _ h => ?_, fun _ _ h => ?_⟩,
    ⟨CompilationUnit.named_empty.declareCallee h, fun _ _ h => ?_⟩⟩
  · cases h
  · cases h
  · cases h

/-- What the body of a function has been lowered to. -/
theorem function_calls (hkeyed : around.registry.Keyed) {declared : Declared}
    {unit : CompilationUnit}
    (hdeclare : CompilationUnit.empty.declareDefinition f.prototype = .ok (declared, unit))
    (h : function around f (.start unit f.prototype.arity) = .ok r s) :
    (LowerState.start unit f.prototype.arity).Calls around f.prototype f.body.callees s ∧
      s.Named := by
  obtain ⟨s₁, hparams, hbody⟩ := function_ok.mp h
  obtain ⟨hlisted, hnamed⟩ := listed_start around hdeclare
  obtain ⟨hcalls, -⟩ := parameters_calls hlisted hparams
  obtain ⟨hunit, hroutes⟩ := parameters_unit hparams
  refine ⟨hcalls.trans (expr_calls hkeyed _ hcalls.listed hbody), ?_⟩
  refine ((respected_grows hkeyed).expr f.body hbody).named ⟨hunit ▸ hnamed.unit, ?_⟩
  intro callee route hroute
  rw [hroutes] at hroute
  cases hroute

/-- Lowering a function keeps to a plan in which nothing is known when its first block
begins. -/
theorem function_planned (h : function around f (.start unit f.prototype.arity) = .ok r s) :
    ∃ plan : Plan, s.builder.Planned plan ∧ .computed r.value ∈ s.builder.known plan ∧
      (plan 0).known = [] := by
  obtain ⟨s₁, hparams, hbody⟩ := function_ok.mp h
  let plan : Plan := fun _ => ⟨f.prototype.arity, []⟩
  have hstart : (LowerState.start unit f.prototype.arity).Planned plan := by
    refine ⟨⟨fun block hblock => ?_, List.length_range, ⟨List.nil_subset _, trivial⟩,
      fun block hblock => ?_, Nat.one_pos⟩, fun name slot hslot => ?_⟩
    · cases Array.not_mem_empty _ hblock
    · cases Array.not_mem_empty _ hblock
    · cases hslot
  have hkept := parameters_planned hstart (fun v hv => ?_) hparams
  · obtain ⟨plan', hcontinues⟩ := expr_continues _ hkept hbody
    have hcreated : 0 < s₁.builder.blocks :=
      Nat.lt_of_lt_of_le Nat.one_pos (parameters_grows hparams).1.blocks
    refine ⟨plan', hcontinues.code, hcontinues.values (List.mem_singleton_self _), ?_⟩
    rw [hcontinues.keeps 0 hcreated]
  · have hrange : v ∈ List.range f.prototype.arity := by
      rw [List.mem_range]
      simpa [Prototype.arity] using hv
    refine List.mem_append_right _ ?_
    simpa [LowerState.start, Builder.start, Builder.steps, Step.gives] using hrange

end Lower

namespace Code

/-- Every transfer of control goes to a block that takes what it passes. -/
def Procedure.Targeted (p : Procedure) : Prop :=
  ∀ block ∈ p.blocks, ∀ target ∈ block.transfer.targets,
    ∃ next, p.block? target.1 = some next ∧ next.params.length = target.2

theorem Procedure.Targeted.checkTransfer {p : Procedure} (h : p.Targeted) {block : Block}
    (hblock : block ∈ p.blocks) : p.checkTransfer block.transfer = .ok () := by
  have htarget (target : BlockId × Nat) (hmem : target ∈ block.transfer.targets) :
      p.checkTarget target.1 target.2 = .ok () := by
    obtain ⟨next, hnext, hparams⟩ := h block hblock target hmem
    simp [Procedure.checkTarget, hnext, hparams]
  cases htransfer : block.transfer with
  | jump target args => exact htarget (target, args.length) (by simp [htransfer, Transfer.targets])
  | branch condition whenTrue whenFalse =>
      have htrue := htarget (whenTrue, 0) (by simp [htransfer, Transfer.targets])
      have hfalse := htarget (whenFalse, 0) (by simp [htransfer, Transfer.targets])
      change (p.checkTarget whenTrue 0 >>= fun _ => p.checkTarget whenFalse 0) = .ok ()
      rw [show p.checkTarget whenTrue 0 = .ok () from htrue]
      exact hfalse
  | leave value => rfl

theorem Procedure.checkInstruction_of_not_isCall (p : Procedure) {instruction : Instruction}
    (h : instruction.isCall = false) : p.checkInstruction instruction = .ok () := by
  cases instruction with
  | storeSlot value slot => rfl
  | define result operation => cases operation <;> first | rfl | cases h

/-- Instructions that are no calls are not checked. -/
theorem Procedure.forM_checkInstruction (p : Procedure) (instructions : List Instruction) :
    forM instructions p.checkInstruction =
      forM (instructions.filter Instruction.isCall) p.checkInstruction := by
  induction instructions with
  | nil => rfl
  | cons instruction instructions ih =>
      rw [List.forM_cons, ih]
      cases hcall : instruction.isCall with
      | true => rw [List.filter_cons_of_pos hcall, List.forM_cons]
      | false =>
          rw [List.filter_cons_of_neg (by simp [hcall]), p.checkInstruction_of_not_isCall hcall]
          rfl

/-- Where every transfer goes to a block that takes what it passes, checking code is
checking its calls. -/
theorem Procedure.Targeted.check {p : Procedure} (h : p.Targeted) :
    p.check = forM p.calls p.checkInstruction := by
  have hblocks (blocks : List Block) (hall : ∀ block ∈ blocks, block ∈ p.blocks) :
      forM blocks p.checkBlock = forM (blocks.flatMap Block.body) p.checkInstruction := by
    induction blocks with
    | nil => rfl
    | cons block blocks ih =>
        obtain ⟨hblock, hothers⟩ := List.forall_mem_cons.mp hall
        have hbody : p.checkBlock block = forM block.body p.checkInstruction := by
          change (forM block.body p.checkInstruction >>= fun _ =>
            p.checkTransfer block.transfer) = _
          rw [h.checkTransfer hblock]
          cases forM block.body p.checkInstruction <;> rfl
        rw [List.forM_cons, List.flatMap_cons, List.forM_append, hbody, ih hothers]
  exact (hblocks p.blocks fun _ hblock => hblock).trans (p.forM_checkInstruction _)

/-- Where every call and every jump passes what it has to, the check passes. -/
theorem Procedure.WellFormed.check {p : Procedure} (h : p.WellFormed) : p.check = .ok () := by
  have htargeted : p.Targeted := h.targets
  have hcalls (calls : List Instruction)
      (hall : ∀ call ∈ calls, p.checkInstruction call = .ok ()) :
      forM calls p.checkInstruction = .ok () := by
    induction calls with
    | nil => rfl
    | cons call calls ih =>
        obtain ⟨hcall, hothers⟩ := List.forall_mem_cons.mp hall
        rw [List.forM_cons, hcall]
        exact ih hothers
  have hsignature {signature found : Nat} (hfound : p.signatures[signature]? = some found) :
      p.checkSignature signature found = .ok () := by
    simp [Procedure.checkSignature, hfound]
  rw [htargeted.check]
  refine hcalls p.calls fun call hcall => ?_
  obtain ⟨hmem, -⟩ := List.mem_filter.mp hcall
  cases call with
  | storeSlot value slot => rfl
  | define result operation =>
      cases operation with
      | call external args =>
          obtain ⟨e, he, hlength⟩ := h.calls result external args hmem
          simp only [Procedure.checkInstruction, Procedure.checkOperation, he]
          exact hsignature hlength
      | callThrough signature code args =>
          exact hsignature (h.callsThrough result signature code args hmem)
      | _ => rfl

end Code

namespace Lower

open Code

variable {around : Surroundings} {f : Function} {unit : CompilationUnit} {s : LowerState}
  {r : Computed}

/-- Lowering a function enters every block once and defines every value once. -/
theorem function_entered {declared : Declared}
    (hdeclare : CompilationUnit.empty.declareDefinition f.prototype = .ok (declared, unit))
    (h : function around f (.start unit f.prototype.arity) = .ok r s) :
    s.builder.entered.Perm (List.range s.builder.blocks) ∧
      s.builder.definitions.Perm (List.range s.builder.values) := by
  obtain ⟨s₁, hparams, hbody⟩ := function_ok.mp h
  obtain ⟨hlisted, -⟩ := listed_start around hdeclare
  have hdefines := (parameters_calls hlisted hparams).2.trans
    (respected_definesNew.expr f.body hbody)
  have henters := (parameters_grows hparams).2.trans (respected_entersNew.expr f.body hbody)
  refine ⟨henters.perm_range (.refl _), hdefines.perm_range ?_⟩
  simp [LowerState.start, Builder.start, Builder.definitions]

/-- Every call that lowering a function emits reaches one of its callees. -/
theorem function_reaches {declared : Declared} (hkeyed : around.registry.Keyed)
    (hdeclare : CompilationUnit.empty.declareDefinition f.prototype = .ok (declared, unit))
    (h : function around f (.start unit f.prototype.arity) = .ok r s) {instruction : Instruction}
    (hmem : instruction ∈ s.builder.instructions) (hcall : instruction.isCall = true) :
    ∃ callee ∈ f.body.callees, s.Reaches around f.prototype instruction callee := by
  obtain ⟨new, hnew, hreaches⟩ := (function_calls hkeyed hdeclare h).1.calls
  have hcalls : instruction ∈ s.builder.calls := List.mem_filter.mpr ⟨hmem, hcall⟩
  rw [hnew] at hcalls
  exact exists_of_forall₂ hreaches hcalls

/-- Lowering a function yields code in which every transfer goes to a block that takes
what it passes. -/
theorem function_targeted {declared : Declared}
    (hdeclare : CompilationUnit.empty.declareDefinition f.prototype = .ok (declared, unit))
    (h : function around f (.start unit f.prototype.arity) = .ok r s) (symbol : String) :
    ((s.builder.finish symbol f.prototype.arity (.leave r.value)).blocks.map Block.id).Nodup ∧
      (s.builder.finish symbol f.prototype.arity (.leave r.value)).Targeted := by
  obtain ⟨plan, hplanned, hvalue, -⟩ := function_planned h
  obtain ⟨hentered, -⟩ := function_entered hdeclare h
  have hfinish := hplanned.finish hvalue symbol f.prototype.arity
  have hids : (s.builder.finish symbol f.prototype.arity (.leave r.value)).blocks.map Block.id =
      s.builder.entered := by
    simp [Builder.finish, Builder.entered, Builder.currentBlock]
  have hnodup := hids ▸ hentered.nodup_iff.mpr List.nodup_range
  refine ⟨hnodup, fun block hblock target htarget => ?_⟩
  obtain ⟨hadmits, hcreated⟩ := hfinish block hblock
  have hmem : target.1 ∈ s.builder.entered :=
    hentered.mem_iff.mpr (List.mem_range.mpr (hcreated target htarget))
  rw [← hids] at hmem
  obtain ⟨next, hnext, hid⟩ := List.mem_map.mp hmem
  refine ⟨next, hid ▸ Procedure.block?_of_mem hnodup hnext, ?_⟩
  rw [(hfinish next hnext).1.params, hid, (hadmits.targets target htarget).1]

/-- Lowering a function yields well-formed code. -/
theorem function_wellFormed {declared : Declared} (hsensible : around.Sensible f.prototype)
    (hdeclare : CompilationUnit.empty.declareDefinition f.prototype = .ok (declared, unit))
    (h : function around f (.start unit f.prototype.arity) = .ok r s) (symbol : String) :
    (s.builder.finish symbol f.prototype.arity (.leave r.value)).WellFormed := by
  obtain ⟨plan, hplanned, hvalue, hnothing⟩ := function_planned h
  obtain ⟨-, hdefined⟩ := function_entered hdeclare h
  have hlisted := (function_calls hsensible.keyed hdeclare h).1.listed
  have hfinish := hplanned.finish hvalue symbol f.prototype.arity
  obtain ⟨hnodup, htargeted⟩ := function_targeted hdeclare h symbol
  -- a call passes as many arguments as its callee has parameters
  have hpasses {callee : Callee} {route : Route} {passed : Nat}
      (hroute : s.routes.find? callee = some route)
      (hpassed : around.passed? f.prototype callee = some passed) :
      around.arityOf? f.prototype callee = some passed := by
    have hmet : callee ∈ s.routes.keys := Table.mem_keys_of_find? (by simp [hroute])
    obtain ⟨n, hn⟩ := hlisted.known hmet
    rwa [hn, ← hsensible.passed? hn]
  refine ⟨hnodup, ?_, fun blocks hpath => ?_, htargeted, ?_, ?_⟩
  · rw [Builder.definitions_finish]
    exact hdefined.nodup_iff.mpr List.nodup_range
  · refine hpath.supplied (fun block hblock => (hfinish block hblock).1) fun block hblock => ?_
    obtain ⟨first, rest, hblocks, hid⟩ := Builder.finish_first
      (function_grows hsensible.keyed h).1.entered symbol f.prototype.arity (.leave r.value)
    rw [hblocks] at hblock
    obtain rfl := Option.some.inj hblock
    rw [hid]
    exact hnothing
  · intro v external args hmem
    rw [Builder.instructions_finish] at hmem
    obtain ⟨callee, -, hroute, hpassed⟩ := function_reaches hsensible.keyed hdeclare h hmem rfl
    obtain ⟨i, hi, e, he, rfl⟩ := hlisted.uses hroute
    exact ⟨e, he, signature_of_uses hlisted hi (hpasses hroute hpassed)⟩
  · intro v signature code args hmem
    rw [Builder.instructions_finish] at hmem
    obtain ⟨callee, -, hroute, hpassed, -⟩ := function_reaches hsensible.keyed hdeclare h hmem rfl
    obtain ⟨i, hi, -, rfl⟩ := hlisted.uses hroute
    exact signature_of_uses hlisted hi (hpasses hroute hpassed)

/-- Lowering a function lists each callee of its body once. -/
theorem function_lists {declared : Declared} (hkeyed : around.registry.Keyed)
    (hdeclare : CompilationUnit.empty.declareDefinition f.prototype = .ok (declared, unit))
    (h : function around f (.start unit f.prototype.arity) = .ok r s) (symbol : String) :
    Compilation.Lists
      ⟨f.prototype, s.builder.finish symbol f.prototype.arity (.leave r.value), s.unit⟩
      (around.arityOf? f.prototype) f.body.callees s.routes.keys := by
  obtain ⟨hcalls, hnamed⟩ := function_calls hkeyed hdeclare h
  have hlisted := hcalls.listed
  have hinstructions := s.builder.instructions_finish symbol f.prototype.arity (.leave r.value)
  refine ⟨hlisted.keys, fun callee => ?_, hlisted.signatures, ?_, ?_⟩
  · rw [hcalls.met]
    simp [LowerState.start, Table.keys, Table.empty]
  · change (s.builder.externals.toList.map External.signature).Nodup
    rw [List.nodup_iff_getElem?_ne_getElem?]
    intro i j hij hj heq
    rw [List.getElem?_map, List.getElem?_map] at heq
    obtain ⟨e, he⟩ : ∃ e, s.builder.externals.toList[j]? = some e :=
      ⟨_, List.getElem?_eq_getElem (by simpa using hj)⟩
    obtain ⟨e', he', hsame⟩ := Option.map_eq_some_iff.mp (heq.trans (by rw [he]; rfl))
    obtain ⟨callee, hcallee⟩ := hlisted.externals j e he
    obtain ⟨callee', hcallee'⟩ := hlisted.externals i e' he'
    rw [hsame, hcallee] at hcallee'
    injection hcallee' with hentry
    injection hentry with hcallee hroute
    injection hroute with hindex
    omega
  · obtain ⟨new, hnew, hreaches⟩ := hcalls.calls
    have hsame : Procedure.calls (s.builder.finish symbol f.prototype.arity (.leave r.value)) =
        new := by
      rw [Procedure.calls, hinstructions]
      exact hnew
    change List.Forall₂ _ (Procedure.calls _) _
    rw [hsame]
    exact hreaches.imp fun _ _ hr => callsBy_of_reaches hlisted hnamed rfl rfl hinstructions hr

end Lower

/-- Whether an error says what is wrong with the source of a function. -/
def LowerError.isOfSource : LowerError → Bool
  | branchOutOfPlace _ => false
  | faultyCode _ => false
  | clash _ => false
  | _ => true

namespace Lower

variable {around : Surroundings} {own : Prototype}

/-- Where what is known is right, lowering an expression fails only where the source is
at fault. -/
theorem expr_stops_ofSource (hsensible : around.Sensible own) {e : Expr} {s : LowerState}
    (hs : s.Listed around own) :
    (expr around e).Stops (fun e => e.isOfSource = true) s := by
  have hrejects : Rejects around (fun e => e.isOfSource = true) (LowerState.Listed around own) := by
    refine ⟨fun e he => ?_, fun callee s hs => stops_findRoute ?_ rfl,
      fun hs h => (expr_calls hsensible.keyed _ hs h).listed,
      fun hs hplain => (LowerState.Calls.plain hs hplain).listed, fun scope hs => hs.rescope scope⟩
    · cases e <;> first | rfl | cases he
    · intro p address clash hnew hknown himport
      obtain rfl := hsensible.keyed _ _ hknown
      have harity := arityOf?_registry hs.unit hnew hknown
      exact absurd (CompilationUnit.declareImport_error himport)
        (hs.unit.declare_ne_clash hsensible hnew (by rw [harity]; rfl))
  exact expr_stops hrejects (Expr.everywhere_of_forall (fun e => by
    cases e <;> first | exact Or.inr rfl | trivial) e) hs

end Lower

/-- A registry is lawful if prototypes are kept under their own callees, those of
operators have as many parameters as operands, and distinct callees have distinct
symbols. -/
structure Registry.Lawful (registry : Registry) : Prop where
  keyed : registry.Keyed
  operands : ∀ callee p, registry.get? callee = some p → ∀ n ∈ p.kind.operands?, p.arity = n
  symbols : ∀ callee other, (registry.get? callee).isSome → (registry.get? other).isSome →
    callee.symbol = other.symbol → callee = other

theorem Registry.lawful_empty : Registry.empty.Lawful where
  keyed := keyed_empty
  operands := fun _ _ hp => by cases hp
  symbols := fun _ _ hcallee => by cases hcallee

/-- A registry stays lawful with one more prototype, unless that is an operator's with too
many or too few parameters, or another callee has its symbol. -/
theorem Registry.Lawful.insert {registry : Registry} {p : Prototype} (h : registry.Lawful)
    (hoperands : ∀ n ∈ p.kind.operands?, p.arity = n)
    (hsymbol : ∀ callee, (registry.get? callee).isSome → callee.symbol = p.callee.symbol →
      callee = p.callee) : (registry.insert p).1.Lawful := by
  have hknown {callee : Callee} (hcallee : ((registry.insert p).1.get? callee).isSome) :
      p.callee = callee ∨ (registry.get? callee).isSome := by
    rw [get?_insert] at hcallee
    split at hcallee
    · next heq => exact Or.inl heq
    · exact Or.inr hcallee
  refine ⟨h.keyed.insert p, fun callee q hq => ?_, fun callee other hcallee hother hsame => ?_⟩
  · rw [get?_insert] at hq
    split at hq
    · exact Option.some.inj hq ▸ hoperands
    · exact h.operands callee q hq
  · rcases hknown hcallee with rfl | hcallee
    · rcases hknown hother with rfl | hother
      · rfl
      · exact (hsymbol _ hother hsame.symm).symm
    · rcases hknown hother with rfl | hother
      · exact hsymbol _ hcallee hsame
      · exact h.symbols _ _ hcallee hother hsame

/-- A registry with one prototype is lawful unless that is an operator's with too many
or too few parameters. -/
theorem Registry.lawful_insert_empty {p : Prototype} (h : ∀ n ∈ p.kind.operands?, p.arity = n) :
    (Registry.empty.insert p).1.Lawful :=
  lawful_empty.insert h fun _ hcallee => by cases hcallee

/-- A function is announced if the registry has its prototype.  That of a bare
expression is not recorded. -/
def Surroundings.Announces (around : Surroundings) (p : Prototype) : Prop :=
  p.isAnonymous = true ∨ around.registry.get? p.callee = some p

theorem Prototype.operands?_callee (p : Prototype) : p.callee.operands? = p.kind.operands? := by
  cases p with
  | mk name params kind => cases kind <;> rfl

/-- No operator has the symbol of a bare expression. -/
theorem Callee.symbol_eq_anonymousName {callee : Callee}
    (h : callee.symbol = Prototype.anonymousName) : callee = .named Prototype.anonymousName := by
  have hchars := congrArg String.toList h
  cases callee with
  | named name => exact congrArg Callee.named h
  | unary op =>
      rw [toList_symbol_unary] at hchars
      simp [Prototype.anonymousName] at hchars
  | binary op =>
      rw [toList_symbol_binary] at hchars
      simp [Prototype.anonymousName] at hchars

theorem Prototype.callee_of_isAnonymous {p : Prototype} (h : p.isAnonymous = true) :
    p.callee = .named anonymousName := by
  obtain ⟨hkind, hname⟩ : p.kind = .function ∧ p.name = anonymousName := by
    simpa [isAnonymous] using h
  rw [callee, hkind, hname]

/-- Where a lawful registry announces a function, what is known is right. -/
theorem Registry.Lawful.sensible {around : Surroundings} {p : Prototype}
    (hlawful : around.registry.Lawful) (h : around.Announces p) : around.Sensible p := by
  have hknown {callee : Callee} (harity : (around.arityOf? p callee).isSome) :
      p.callee = callee ∨ (around.registry.get? callee).isSome := by
    by_cases heq : p.callee = callee
    · exact Or.inl heq
    · rw [Surroundings.arityOf?, if_neg heq] at harity
      simpa using Or.inr harity
  have hown {callee : Callee} (hsome : (around.registry.get? callee).isSome)
      (hsymbol : callee.symbol = p.callee.symbol) : callee = p.callee := by
    rcases h with hanonymous | hregistered
    · rw [Prototype.callee_of_isAnonymous hanonymous] at hsymbol ⊢
      exact Callee.symbol_eq_anonymousName hsymbol
    · exact hlawful.symbols _ _ hsome (by rw [hregistered]; rfl) hsymbol
  refine ⟨hlawful.keyed, fun callee other hcallee hother hsymbol => ?_, fun callee n hn => ?_⟩
  · rcases hknown hcallee with rfl | hcallee
    · rcases hknown hother with rfl | hother
      · rfl
      · exact (hown hother hsymbol.symm).symm
    · rcases hknown hother with rfl | hother
      · exact hown hcallee hsymbol
      · exact hlawful.symbols _ _ hcallee hother hsymbol
  · intro operands hoperands
    have hregistered {q : Prototype} (hq : around.registry.get? callee = some q) :
        q.arity = operands := by
      refine hlawful.operands callee q hq operands ?_
      rwa [← Prototype.operands?_callee, hlawful.keyed callee q hq]
    unfold Surroundings.arityOf? at hn
    split at hn
    · next heq =>
        obtain rfl := Option.some.inj hn
        rcases h with hanonymous | hself
        · rw [← heq, Prototype.callee_of_isAnonymous hanonymous] at hoperands
          cases hoperands
        · exact hregistered (heq ▸ hself)
    · obtain ⟨q, hq, rfl⟩ := Option.map_eq_some_iff.mp hn
      exact hregistered hq

/-- A function can always be declared in an empty unit. -/
theorem CompilationUnit.declareDefinition_empty (p : Prototype) :
    ∃ declared unit, empty.declareDefinition p = .ok (declared, unit) :=
  ⟨_, _, rfl⟩

end Reckon
