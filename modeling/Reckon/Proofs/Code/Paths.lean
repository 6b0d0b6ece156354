import Mathlib.Data.List.Chain
import Reckon.Code.Basic

/-!
# Paths through code

Whatever code uses has to be there on every way to the use: a value has been
computed, and a slot that is loaded has been stored.  Both are facts that steps of
the code give and other steps need, and a path is `Supplied` if each of its steps
finds what it needs among what the steps before it give.  For values this is what
is called dominance: every path from the first block to a use goes through the
definition.

There are infinitely many paths where there is a loop.  A plan says for each block
what may be relied upon when it begins.  If every block keeps to the plan, all paths
are supplied (`Procedure.IsPath.supplied`).
-/

namespace Reckon.Code

/-- What a step of the code may rely on. -/
inductive Fact where
  /-- A value has been computed. -/
  | computed (value : ValueId)
  /-- A slot has been stored. -/
  | stored (slot : SlotId)
deriving Repr, DecidableEq

/-- The slots that an operation loads. -/
def Operation.slots : Operation → List SlotId
  | loadSlot slot => [slot]
  | _ => []

/-- The facts that an operation needs. -/
def Operation.needs (operation : Operation) : List Fact :=
  operation.operands.map .computed ++ operation.slots.map .stored

/-- The blocks that a transfer may go to, and how many values it passes to them. -/
def Transfer.targets : Transfer → List (BlockId × Nat)
  | jump target args => [(target, args.length)]
  | branch _ whenTrue whenFalse => [(whenTrue, 0), (whenFalse, 0)]
  | leave _ => []

/-- A step along a path. -/
inductive Step where
  /-- A block begins, and has its parameters. -/
  | begin (params : List ValueId)
  /-- An instruction is executed. -/
  | execute (instruction : Instruction)
  /-- A block ends. -/
  | finish (transfer : Transfer)
deriving Repr, DecidableEq

namespace Step

/-- The facts that a step needs. -/
def needs : Step → List Fact
  | begin _ => []
  | execute (.define _ operation) => operation.needs
  | execute (.storeSlot value _) => [.computed value]
  | finish transfer => transfer.operands.map .computed

/-- The facts that a step gives. -/
def gives : Step → List Fact
  | begin params => params.map .computed
  | execute (.define result _) => [.computed result]
  | execute (.storeSlot _ slot) => [.stored slot]
  | finish _ => []

end Step

/-- The steps of a block. -/
def Block.steps (block : Block) : List Step :=
  .begin block.params :: block.body.map .execute ++ [.finish block.transfer]

/-- Each step finds what it needs among what is known and what the steps before it
give. -/
def Supplied (known : List Fact) : List Step → Prop
  | [] => True
  | step :: steps => step.needs ⊆ known ∧ Supplied (known ++ step.gives) steps

variable {known known' : List Fact} {steps steps' : List Step}

theorem supplied_append : Supplied known (steps ++ steps') ↔
    Supplied known steps ∧ Supplied (known ++ steps.flatMap Step.gives) steps' := by
  induction steps generalizing known with
  | nil => simp [Supplied]
  | cons step steps ih => simp [Supplied, ih, and_assoc]

theorem Supplied.mono (h : Supplied known steps) (hsub : known ⊆ known') :
    Supplied known' steps := by
  induction steps generalizing known known' with
  | nil => trivial
  | cons step steps ih =>
      refine ⟨List.Subset.trans h.1 hsub, ih h.2 ?_⟩
      exact List.append_subset.mpr
        ⟨List.Subset.trans hsub (List.subset_append_left _ _), List.subset_append_right _ _⟩

/-- What a step on a path needs has been given by a step before it. -/
theorem Supplied.given {before after : List Step} {step : Step}
    (h : Supplied [] (before ++ step :: after)) {fact : Fact} (hfact : fact ∈ step.needs) :
    ∃ earlier ∈ before, fact ∈ earlier.gives := by
  have hstep := (supplied_append.mp h).2.1
  simpa using hstep hfact

/-- Blocks through which control can go one after the other, from the first block on. -/
structure Procedure.IsPath (p : Procedure) (blocks : List Block) : Prop where
  first : ∀ block ∈ blocks.head?, p.blocks.head? = some block
  edges : blocks.IsChain fun block next =>
    ∃ target ∈ block.transfer.targets, p.block? target.1 = some next

/-- What is planned for a block: how many parameters it has, and what is known when
it begins. -/
structure Expectation where
  /-- The number of parameters. -/
  params : Nat
  /-- What is known. -/
  known : List Fact

/-- What is planned for each block. -/
abbrev Plan := BlockId → Expectation

/-- A block keeps to a plan: it gets by with what is known, and so do the blocks that
it goes to. -/
structure Plan.Admits (plan : Plan) (block : Block) : Prop where
  params : block.params.length = (plan block.id).params
  supplied : Supplied (plan block.id).known block.steps
  targets : ∀ target ∈ block.transfer.targets, target.2 = (plan target.1).params ∧
    (plan target.1).known ⊆ (plan block.id).known ++ block.steps.flatMap Step.gives

theorem Procedure.mem_of_block? {p : Procedure} {id : BlockId} {block : Block}
    (h : p.block? id = some block) : block ∈ p.blocks ∧ block.id = id :=
  ⟨List.mem_of_find?_eq_some h, by simpa using List.find?_some h⟩

/-- Where a plan is kept to, control that goes from block to block always finds what
it needs. -/
theorem Plan.supplied {plan : Plan} {p : Procedure}
    (hadmits : ∀ block ∈ p.blocks, plan.Admits block) {blocks : List Block} {known : List Fact}
    (hedges : blocks.IsChain fun block next =>
      ∃ target ∈ block.transfer.targets, p.block? target.1 = some next)
    (hfirst : ∀ block ∈ blocks.head?, block ∈ p.blocks ∧ (plan block.id).known ⊆ known) :
    Supplied known (blocks.flatMap Block.steps) := by
  induction blocks generalizing known with
  | nil => trivial
  | cons block blocks ih =>
      obtain ⟨hmem, hknown⟩ := hfirst block rfl
      have hblock := hadmits block hmem
      obtain ⟨hnext, hrest⟩ := List.isChain_cons.mp hedges
      rw [List.flatMap_cons, supplied_append]
      refine ⟨hblock.supplied.mono hknown, ih hrest fun next hhead => ?_⟩
      obtain ⟨target, htarget, hfound⟩ := hnext next hhead
      obtain ⟨hmemNext, hid⟩ := Procedure.mem_of_block? hfound
      rw [hid]
      refine ⟨hmemNext, List.Subset.trans (hblock.targets target htarget).2 ?_⟩
      exact List.append_subset.mpr
        ⟨List.Subset.trans hknown (List.subset_append_left _ _), List.subset_append_right _ _⟩

/-- **Every path is supplied** where every block keeps to a plan in which nothing is
known when the first block begins. -/
theorem Procedure.IsPath.supplied {plan : Plan} {p : Procedure} {blocks : List Block}
    (h : p.IsPath blocks) (hadmits : ∀ block ∈ p.blocks, plan.Admits block)
    (hfirst : ∀ block ∈ p.blocks.head?, (plan block.id).known = []) :
    Supplied [] (blocks.flatMap Block.steps) := by
  refine plan.supplied hadmits h.edges fun block hblock => ?_
  have hhead := h.first block hblock
  refine ⟨List.mem_of_head? hhead, ?_⟩
  rw [hfirst block hhead]
  exact List.Subset.refl _

end Reckon.Code
