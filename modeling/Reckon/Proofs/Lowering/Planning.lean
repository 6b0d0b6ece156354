import Reckon.Proofs.Code.Paths
import Reckon.Proofs.Lowering.Growth

/-!
# Lowering keeps to a plan

Every block that lowering creates can be planned for when it is created: a branch of
a choice begins with what is known after the test, the block that joins the branches
with that and its parameter, and a loop with what is known when it is first entered.
What is known never shrinks on the way, so whoever goes to a block later fulfils its
plan too, also from the end of a loop (`expr_planned`).  In particular the slots of
all names in scope are known to be stored.
-/

namespace Reckon

namespace Code

/-- A plan that agrees with another one about the first blocks. -/
def Plan.Keeps (plan plan' : Plan) (n : Nat) : Prop := ∀ id : Nat, id < n → plan' id = plan id

theorem Plan.Keeps.trans {plan₁ plan₂ plan₃ : Plan} {n m : Nat} (h : plan₁.Keeps plan₂ n)
    (h' : plan₂.Keeps plan₃ m) (hle : n ≤ m) : plan₁.Keeps plan₃ n :=
  fun id hid => (h' id (Nat.lt_of_lt_of_le hid hle)).trans (h id hid)

/-- The plan with one more block. -/
def Plan.set (plan : Plan) (id : BlockId) (expectation : Expectation) : Plan :=
  fun other => if other = id then expectation else plan other

@[simp] theorem Plan.set_self (plan : Plan) (id : BlockId) (expectation : Expectation) :
    plan.set id expectation id = expectation :=
  if_pos rfl

theorem Plan.set_ne {plan : Plan} {id other : BlockId} {expectation : Expectation}
    (h : other ≠ id) : plan.set id expectation other = plan other :=
  if_neg h

theorem Plan.keeps_set (plan : Plan) {n id : Nat} (expectation : Expectation) (h : n ≤ id) :
    plan.Keeps (plan.set id expectation) n :=
  fun _ hother => Plan.set_ne (Nat.ne_of_lt (Nat.lt_of_lt_of_le hother h))

namespace Builder

/-- The steps so far of the block being filled. -/
def steps (b : Builder) : List Step := .begin b.params :: b.body.toList.map .execute

/-- What is known at the end of the code so far. -/
def known (b : Builder) (plan : Plan) : List Fact :=
  (plan b.current).known ++ b.steps.flatMap Step.gives

/-- The code so far keeps to a plan, and goes only to blocks that have been created. -/
structure Planned (b : Builder) (plan : Plan) : Prop where
  complete : ∀ block ∈ b.complete, plan.Admits block
  params : b.params.length = (plan b.current).params
  supplied : Supplied (plan b.current).known b.steps
  created : ∀ block ∈ b.complete, block.id < b.blocks ∧
    ∀ target ∈ block.transfer.targets, target.1 < b.blocks
  current : b.current < b.blocks

namespace Planned

variable {b : Builder} {plan plan' : Plan}

/-- Only blocks that have been created matter. -/
theorem replan (h : b.Planned plan) (hkeeps : plan.Keeps plan' b.blocks) : b.Planned plan' := by
  have hcurrent := hkeeps b.current h.current
  refine ⟨fun block hblock => ?_, hcurrent ▸ h.params, hcurrent ▸ h.supplied, h.created, h.current⟩
  obtain ⟨hid, htargets⟩ := h.created block hblock
  obtain ⟨hparams, hsupplied, hplanned⟩ := h.complete block hblock
  have hsame := hkeeps block.id hid
  refine ⟨hsame ▸ hparams, hsame ▸ hsupplied, fun target htarget => ?_⟩
  rw [hkeeps target.1 (htargets target htarget), hsame]
  exact hplanned target htarget

theorem known_replan (h : b.Planned plan) (hkeeps : plan.Keeps plan' b.blocks) :
    b.known plan' = b.known plan := by
  rw [known, known, hkeeps b.current h.current]

theorem execute (h : b.Planned plan) (instruction : Instruction)
    (hneeds : (Step.execute instruction).needs ⊆ b.known plan) (values : Nat) :
    Planned { b with values := values, body := b.body.push instruction } plan where
  complete := h.complete
  params := h.params
  supplied := by
    have hsteps : steps { b with values := values, body := b.body.push instruction } =
        b.steps ++ [.execute instruction] := by simp [steps]
    rw [hsteps, supplied_append]
    exact ⟨h.supplied, hneeds, trivial⟩
  created := h.created
  current := h.current

theorem define (h : b.Planned plan) {operation : Operation}
    (hneeds : operation.needs ⊆ b.known plan) : (b.define operation).2.Planned plan :=
  h.execute (.define b.values operation) hneeds (b.values + 1)

theorem storeSlot (h : b.Planned plan) {value : ValueId} (slot : SlotId)
    (hvalue : .computed value ∈ b.known plan) : (b.storeSlot value slot).Planned plan :=
  h.execute (.storeSlot value slot) (by simpa [Step.needs] using hvalue) b.values

theorem newParam (h : b.Planned plan) : b.newParam.2.Planned plan :=
  ⟨h.complete, h.params, h.supplied, h.created, h.current⟩

theorem newBlock (h : b.Planned plan) : b.newBlock.2.Planned plan where
  complete := h.complete
  params := h.params
  supplied := h.supplied
  created := by
    intro block hblock
    obtain ⟨hid, htargets⟩ := h.created block hblock
    exact ⟨Nat.lt_succ_of_lt hid, fun target htarget => Nat.lt_succ_of_lt (htargets target htarget)⟩
  current := Nat.lt_succ_of_lt h.current

/-- A block may end by going to blocks that are planned for. -/
theorem enter (h : b.Planned plan) {transfer : Transfer} {next : BlockId}
    {params : List ValueId} (hneeds : transfer.operands.map .computed ⊆ b.known plan)
    (htargets : ∀ target ∈ transfer.targets, target.1 < b.blocks ∧
      target.2 = (plan target.1).params ∧ (plan target.1).known ⊆ b.known plan)
    (hnext : next < b.blocks) (hparams : params.length = (plan next).params) :
    (b.enter transfer next params).Planned plan where
  complete := by
    have hsteps : (b.currentBlock transfer).steps = b.steps ++ [.finish transfer] := rfl
    intro block hblock
    rcases Array.mem_push.mp hblock with hold | rfl
    · exact h.complete block hold
    · refine ⟨h.params, ?_, fun target htarget => ?_⟩
      · rw [hsteps, supplied_append]
        exact ⟨h.supplied, hneeds, trivial⟩
      · obtain ⟨-, hcount, hknown⟩ := htargets target htarget
        refine ⟨hcount, ?_⟩
        rw [hsteps, List.flatMap_append, ← List.append_assoc]
        exact List.subset_append_of_subset_left _ hknown
  params := hparams
  supplied := ⟨List.nil_subset _, trivial⟩
  created := by
    intro block hblock
    rcases Array.mem_push.mp hblock with hold | rfl
    · exact h.created block hold
    · exact ⟨h.current, fun target htarget => (htargets target htarget).1⟩
  current := hnext

end Planned

variable (b : Builder) (plan : Plan)

theorem known_define (operation : Operation) :
    (b.define operation).2.known plan = b.known plan ++ [.computed b.values] := by
  simp [known, steps, define, Step.gives]

theorem known_storeSlot (value : ValueId) (slot : SlotId) :
    (b.storeSlot value slot).known plan = b.known plan ++ [.stored slot] := by
  simp [known, steps, storeSlot, Step.gives]

theorem known_enter (transfer : Transfer) (next : BlockId) (params : List ValueId) :
    (b.enter transfer next params).known plan =
      (plan next).known ++ params.map .computed := by
  simp [known, steps, enter, Step.gives]

end Builder

end Code

namespace LowerState

open Code

/-- The code so far keeps to a plan, and what is kept for the names in scope is known
to be there. -/
structure Planned (s : LowerState) (plan : Plan) : Prop where
  code : s.builder.Planned plan
  scope : ∀ name slot, s.scope.lookup name = some slot → .stored slot ∈ s.builder.known plan

/-- Lowering has gone on from a planned state and has computed some values. -/
structure Continues (s : LowerState) (plan : Plan) (s' : LowerState) (plan' : Plan)
    (values : List ValueId) : Prop where
  keeps : plan.Keeps plan' s.builder.blocks
  blocks : s.builder.blocks ≤ s'.builder.blocks
  scope : s'.scope = s.scope
  code : s'.builder.Planned plan'
  known : s.builder.known plan ⊆ s'.builder.known plan'
  values : values.map .computed ⊆ s'.builder.known plan'

variable {s s₁ s₂ s' : LowerState} {plan plan₁ plan₂ plan' : Plan} {values values' : List ValueId}

theorem Continues.planned (h : s.Continues plan s' plan' values) (hs : s.Planned plan) :
    s'.Planned plan' :=
  ⟨h.code, fun name slot hslot => h.known (hs.scope name slot (h.scope ▸ hslot))⟩

theorem Continues.refl (h : s.Planned plan) : s.Continues plan s plan [] :=
  ⟨fun _ _ => rfl, Nat.le_refl _, rfl, h.code, List.Subset.refl _, List.nil_subset _⟩

theorem Continues.trans (h : s.Continues plan s₁ plan₁ values)
    (h' : s₁.Continues plan₁ s₂ plan₂ values') :
    s.Continues plan s₂ plan₂ (values ++ values') where
  keeps := h.keeps.trans h'.keeps h.blocks
  blocks := Nat.le_trans h.blocks h'.blocks
  scope := h'.scope.trans h.scope
  code := h'.code
  known := List.Subset.trans h.known h'.known
  values := by
    rw [List.map_append]
    exact List.append_subset.mpr ⟨List.Subset.trans h.values h'.known, h'.values⟩

/-- Only some of the values may matter later. -/
theorem Continues.weaken (h : s.Continues plan s' plan' values) (hsub : values' ⊆ values) :
    s.Continues plan s' plan' values' :=
  { h with values := List.Subset.trans (List.map_subset _ hsub) h.values }

/-- Code that goes on in the same block. -/
theorem Continues.of_code {b : Builder} {facts : List Fact} (hcode : b.Planned plan)
    (hblocks : b.blocks = s.builder.blocks)
    (hknown : b.known plan = s.builder.known plan ++ facts)
    (hvalues : values.map .computed ⊆ facts) : s.Continues plan (s.built b) plan values where
  keeps := fun _ _ => rfl
  blocks := Nat.le_of_eq hblocks.symm
  scope := rfl
  code := hcode
  known := hknown ▸ List.subset_append_left _ _
  values := hknown ▸ List.subset_append_of_subset_right _ hvalues

theorem Planned.define (h : s.Planned plan) (operation : Operation)
    (hneeds : operation.needs ⊆ s.builder.known plan) :
    s.Continues plan (s.built (s.builder.define operation).2) plan [s.builder.values] :=
  .of_code (h.code.define hneeds) rfl (s.builder.known_define plan operation)
    (List.Subset.refl _)

theorem Planned.storeSlot (h : s.Planned plan) {value : ValueId} (slot : SlotId)
    (hvalue : .computed value ∈ s.builder.known plan) :
    s.Continues plan (s.built (s.builder.storeSlot value slot)) plan [] :=
  .of_code (h.code.storeSlot slot hvalue) rfl (s.builder.known_storeSlot plan value slot)
    (List.nil_subset _)

theorem Planned.newSlot (h : s.Planned plan) :
    s.Continues plan (s.built s.builder.newSlot.2) plan [] :=
  .of_code ⟨h.code.complete, h.code.params, h.code.supplied, h.code.created, h.code.current⟩ rfl
    (List.append_nil _).symm (List.nil_subset _)

/-- Testing a value takes two new values. -/
theorem Planned.test (h : s.Planned plan) {value : ValueId}
    (hvalue : .computed value ∈ s.builder.known plan) :
    s.Continues plan (s.built (s.builder.test value)) plan [s.builder.values + 1] := by
  have hzero := h.define (.number 0) (List.nil_subset _)
  have hcompare := (hzero.planned h).define (.compare .distinct value s.builder.values)
    (by simpa [Operation.needs, Operation.operands, Operation.slots] using
      ⟨hzero.known hvalue, hzero.values (List.mem_singleton_self _)⟩)
  exact (hzero.trans hcompare).weaken (List.subset_append_right _ _)

/-- After a test, the branches of a choice and the block that joins them are planned
for, and the first branch begins. -/
theorem Planned.choose (h : s.Planned plan) {condition : ValueId}
    (hcondition : .computed condition ∈ s.builder.known plan) :
    ∃ plan' known, s.Continues plan (s.built (s.builder.choose condition)) plan' [] ∧
      (s.builder.choose condition).known plan' = known ∧ s.builder.known plan ⊆ known ∧
      plan' (s.builder.blocks + 1) = ⟨0, known⟩ ∧ plan' (s.builder.blocks + 2) = ⟨1, known⟩ := by
  have htest := h.test hcondition
  let n := s.builder.blocks
  let known := (s.builder.test condition).known plan
  let plan' := ((plan.set n ⟨0, known⟩).set (n + 1) ⟨0, known⟩).set (n + 2) ⟨1, known⟩
  have hkeeps : plan.Keeps plan' n :=
    ((plan.keeps_set _ (Nat.le_refl n)).trans (Plan.keeps_set _ _ (Nat.le_succ n))
      (Nat.le_refl n)).trans (Plan.keeps_set _ _ (by omega)) (Nat.le_refl n)
  have hthen : plan' n = ⟨0, known⟩ := by simp [plan', Plan.set]
  have helse : plan' (n + 1) = ⟨0, known⟩ := by simp [plan', Plan.set]
  have hjoin : plan' (n + 2) = ⟨1, known⟩ := Plan.set_self _ _ _
  have hcode : (s.builder.test condition).Planned plan' := htest.code.replan hkeeps
  have hcreated := hcode.newBlock.newBlock.newBlock.newParam
  have hsame : (s.builder.test condition).newBlock.2.newBlock.2.newBlock.2.newParam.2.known plan' =
      known := htest.code.known_replan hkeeps
  have hentered : (s.builder.choose condition).Planned plan' := by
    refine hcreated.enter ?_ ?_ ?_ ?_
    · exact hsame ▸ htest.values
    · intro target htarget
      simp only [Transfer.targets, List.mem_cons, List.not_mem_nil, or_false] at htarget
      rw [hsame]
      rcases htarget with rfl | rfl
      · exact ⟨show n < n + 3 by omega, congrArg Expectation.params hthen.symm,
          hthen ▸ List.Subset.refl _⟩
      · exact ⟨show n + 1 < n + 3 by omega, congrArg Expectation.params helse.symm,
          helse ▸ List.Subset.refl _⟩
    · exact show n < n + 3 by omega
    · exact congrArg Expectation.params hthen.symm
  have hknown : (s.builder.choose condition).known plan' = known := by
    refine (Builder.known_enter _ plan' _ _ _).trans ?_
    rw [List.map_nil, List.append_nil]
    exact congrArg Expectation.known hthen
  refine ⟨plan', known, ⟨hkeeps, ?_, rfl, hentered, ?_, List.nil_subset _⟩, hknown, htest.known,
    helse, hjoin⟩
  · exact show n ≤ n + 3 by omega
  · exact hknown ▸ htest.known

/-- A branch of a choice ends by going to the block that joins the branches, where
only what was known before the branches is relied upon. -/
theorem Continues.join {known : List Fact} {value : ValueId} {target next : Nat}
    (params : List ValueId) (h : s.Continues plan s₁ plan₁ values)
    (hbranch : s₁.Continues plan₁ s₂ plan₂ [value]) (hbefore : s.builder.known plan ⊆ known)
    (hknown : known ⊆ s₁.builder.known plan₁) (htarget : plan₂ target = ⟨1, known⟩)
    (hnext : plan₂ next = ⟨params.length, known⟩) (hcreated : target < s₂.builder.blocks)
    (hcreatedNext : next < s₂.builder.blocks) :
    s.Continues plan (s₂.built (s₂.builder.enter (.jump target [value]) next params)) plan₂
        params ∧
      known ⊆ (s₂.builder.enter (.jump target [value]) next params).known plan₂ := by
  have hend : (s₂.builder.enter (.jump target [value]) next params).known plan₂ =
      known ++ params.map .computed := by
    rw [Builder.known_enter, hnext]
  have hcode : (s₂.builder.enter (.jump target [value]) next params).Planned plan₂ := by
    refine hbranch.code.enter hbranch.values ?_ hcreatedNext
      (congrArg Expectation.params hnext.symm)
    intro other hother
    obtain rfl := List.mem_singleton.mp hother
    refine ⟨hcreated, congrArg Expectation.params htarget.symm, ?_⟩
    exact htarget ▸ List.Subset.trans hknown hbranch.known
  have hboth := h.trans hbranch
  refine ⟨⟨hboth.keeps, hboth.blocks, hboth.scope, hcode, ?_, ?_⟩, ?_⟩
  · exact hend ▸ List.subset_append_of_subset_left _ hbefore
  · exact hend ▸ List.subset_append_right _ _
  · exact hend ▸ List.subset_append_left _ _

/-- A loop begins when the first value of its name is in its slot. -/
theorem Planned.beginLoop (h : s.Planned plan) {start : ValueId} (slot : SlotId)
    (hstart : .computed start ∈ s.builder.known plan) :
    ∃ plan' known, s.Continues plan (s.built (s.builder.beginLoop start slot)) plan' [] ∧
      (s.builder.beginLoop start slot).known plan' = known ∧ .stored slot ∈ known ∧
      plan' s.builder.blocks = ⟨0, known⟩ := by
  have hstore := h.storeSlot slot hstart
  let n := s.builder.blocks
  let known := (s.builder.storeSlot start slot).known plan
  let plan' := plan.set n ⟨0, known⟩
  have hloop : plan' n = ⟨0, known⟩ := Plan.set_self _ _ _
  have hkeeps : plan.Keeps plan' n := plan.keeps_set _ (Nat.le_refl n)
  have hcode : (s.builder.storeSlot start slot).Planned plan' := hstore.code.replan hkeeps
  have hsame : (s.builder.storeSlot start slot).newBlock.2.known plan' = known :=
    hstore.code.known_replan hkeeps
  have hentered : (s.builder.beginLoop start slot).Planned plan' := by
    refine hcode.newBlock.enter (List.nil_subset _) ?_ (Nat.lt_succ_self n)
      (congrArg Expectation.params hloop.symm)
    intro target htarget
    obtain rfl := List.mem_singleton.mp htarget
    exact ⟨Nat.lt_succ_self n, congrArg Expectation.params hloop.symm,
      hsame ▸ hloop ▸ List.Subset.refl _⟩
  have hknown : (s.builder.beginLoop start slot).known plan' = known := by
    refine (Builder.known_enter _ plan' _ _ _).trans ?_
    rw [List.map_nil, List.append_nil]
    exact congrArg Expectation.known hloop
  refine ⟨plan', known, ⟨hkeeps, Nat.le_succ n, rfl, hentered, hknown ▸ hstore.known,
    List.nil_subset _⟩, hknown, ?_, hloop⟩
  rw [show known = _ from s.builder.known_storeSlot plan start slot]
  simp

/-- A loop is advanced with what its slot holds. -/
theorem Planned.advance (h : s.Planned plan) {slot : SlotId} {step : ValueId}
    (hslot : .stored slot ∈ s.builder.known plan)
    (hstep : .computed step ∈ s.builder.known plan) :
    s.Continues plan (s.built (s.builder.advance slot step)) plan [] := by
  have hload := h.define (.loadSlot slot)
    (by simpa [Operation.needs, Operation.operands, Operation.slots] using hslot)
  have hadd := (hload.planned h).define (.arithmetic .add s.builder.values step)
    (by simpa [Operation.needs, Operation.operands, Operation.slots] using
      ⟨hload.values (List.mem_singleton_self _), hload.known hstep⟩)
  have hstore := ((hload.trans hadd).planned h).storeSlot slot
    (hadd.values (List.mem_singleton_self _))
  exact ((hload.trans hadd).trans hstore).weaken (List.nil_subset _)

/-- A loop ends by going back to its block, which finds what was known when it was
entered first, or on to a new one. -/
theorem Planned.endLoop (h : s.Planned plan) {slot : SlotId} {step finish : ValueId}
    {loop : BlockId} {known : List Fact} (hslot : .stored slot ∈ s.builder.known plan)
    (hstep : .computed step ∈ s.builder.known plan)
    (hfinish : .computed finish ∈ s.builder.known plan)
    (hloop : plan loop = ⟨0, known⟩) (hcreated : loop < s.builder.blocks)
    (hknown : known ⊆ s.builder.known plan) :
    ∃ plan', s.Continues plan (s.built (s.builder.endLoop slot step finish loop)) plan' [] := by
  have hadvance := h.advance hslot hstep
  have htest := (hadvance.planned h).test (hadvance.known hfinish)
  have hboth := hadvance.trans htest
  let n := s.builder.blocks
  let after := ((s.builder.advance slot step).test finish).known plan
  let plan' := plan.set n ⟨0, after⟩
  have hafter : plan' n = ⟨0, after⟩ := Plan.set_self _ _ _
  have hback : plan' loop = ⟨0, known⟩ := (Plan.set_ne (Nat.ne_of_lt hcreated)).trans hloop
  have hkeeps : plan.Keeps plan' n := plan.keeps_set _ (Nat.le_refl n)
  have hcode : ((s.builder.advance slot step).test finish).Planned plan' :=
    hboth.code.replan hkeeps
  have hsame : ((s.builder.advance slot step).test finish).newBlock.2.known plan' = after :=
    hboth.code.known_replan hkeeps
  have hentered : (s.builder.endLoop slot step finish loop).Planned plan' := by
    refine hcode.newBlock.enter (hsame ▸ htest.values) ?_ (Nat.lt_succ_self n)
      (congrArg Expectation.params hafter.symm)
    intro target htarget
    simp only [Transfer.targets, List.mem_cons, List.not_mem_nil, or_false] at htarget
    rw [hsame]
    rcases htarget with rfl | rfl
    · exact ⟨Nat.lt_succ_of_lt hcreated, congrArg Expectation.params hback.symm,
        hback ▸ List.Subset.trans hknown hboth.known⟩
    · exact ⟨Nat.lt_succ_self n, congrArg Expectation.params hafter.symm,
        hafter ▸ List.Subset.refl _⟩
  have hend : (s.builder.endLoop slot step finish loop).known plan' = after := by
    refine (Builder.known_enter _ plan' _ _ _).trans ?_
    rw [List.map_nil, List.append_nil]
    exact congrArg Expectation.known hafter
  exact ⟨plan', hkeeps, Nat.le_succ n, rfl, hentered, hend ▸ hboth.known, List.nil_subset _⟩

/-- What is lowered with a name bound to a slot that is stored goes on with the scope
as it was. -/
theorem Continues.binds {name : String} {slot : SlotId}
    (h : (s.scoped (s.scope.bind name slot).1).Continues plan s' plan' values) :
    s.Continues plan (s'.scoped (s'.scope.restore (s.scope.bind name slot).2)) plan' values where
  keeps := h.keeps
  blocks := h.blocks
  scope := by
    show s'.scope.restore _ = s.scope
    rw [h.scope]
    exact Scope.restore_bind _ _ _
  code := h.code
  known := h.known
  values := h.values

/-- A name may be bound to a slot that is stored. -/
theorem Planned.bind (h : s.Planned plan) (name : String) {slot : SlotId}
    (hslot : .stored slot ∈ s.builder.known plan) :
    (s.scoped (s.scope.bind name slot).1).Planned plan := by
  refine ⟨h.code, fun other found hfound => ?_⟩
  have hlookup : (s.scope.bind name slot).1.lookup other = some found := hfound
  rw [Scope.lookup_bind] at hlookup
  split at hlookup
  · exact Option.some.inj hlookup ▸ hslot
  · exact h.scope other found hlookup

end LowerState

namespace Lower

open Code

variable {around : Surroundings} {s s' : LowerState} {plan : Plan} {r : Computed}

theorem emit_continues (h : s.Planned plan) {operation : Operation}
    (hneeds : operation.needs ⊆ s.builder.known plan) (hemit : emit operation s = .ok r s') :
    s.Continues plan s' plan [r.value] := by
  obtain ⟨rfl, rfl⟩ := emit_ok.mp hemit
  exact h.define operation hneeds

/-- Finding a route is no step of the code. -/
theorem Finds.continues (h : s.Planned plan) {callee : Callee} {route : Route}
    (hfinds : Finds around callee s route s') :
    s.Continues plan { s' with routes := s'.routes.insert callee route } plan [] := by
  obtain ⟨hcomplete, hparams, hsupplied, hcreated, hcurrent⟩ := h.code
  cases hfinds <;>
    exact ⟨fun _ _ => rfl, Nat.le_refl _, rfl,
      ⟨hcomplete, hparams, hsupplied, hcreated, hcurrent⟩, List.Subset.refl _, List.nil_subset _⟩

theorem callOrThrow_continues (h : s.Planned plan) {callee : Callee} {missing : LowerError}
    {args : List ValueId} (hargs : args.map .computed ⊆ s.builder.known plan)
    (hcall : callOrThrow around callee missing args s = .ok r s') :
    s.Continues plan s' plan [r.value] := by
  obtain ⟨route, s₁, hroute, hcall⟩ := callOrThrow_ok.mp hcall
  have hfound : s.Continues plan s₁ plan [] := by
    rcases route?_ok hroute with ⟨-, rfl⟩ | ⟨-, s₂, hfinds, rfl⟩
    · exact .refl h
    · exact hfinds.continues h
  have hs₁ := hfound.planned h
  have hargs₁ := List.Subset.trans hargs hfound.known
  cases route with
  | direct external =>
      refine hfound.trans (emit_continues hs₁ ?_ (call_direct_ok.mp hcall))
      simpa [Operation.needs, Operation.operands, Operation.slots] using hargs₁
  | throughCell symbol signature =>
      have hcell := hs₁.define (.cell symbol) (List.nil_subset _)
      have hload := (hcell.planned hs₁).define (.loadCell s₁.builder.values)
        (by simpa [Operation.needs, Operation.operands, Operation.slots] using
          hcell.values (List.mem_singleton_self _))
      have hboth := hcell.trans hload
      have hcode : Fact.computed (s₁.builder.values + 1) ∈ _ :=
        hload.values (List.mem_singleton_self _)
      refine ((hfound.trans hboth).trans
        (emit_continues (hboth.planned hs₁) ?_ (call_throughCell_ok.mp hcall))).weaken
        (List.subset_append_right _ _)
      simpa [Operation.needs, Operation.operands, Operation.slots] using
        ⟨hcode, List.Subset.trans hargs₁ hboth.known⟩

theorem infixOperator_continues (h : s.Planned plan) {op : Char} {left right : ValueId}
    (hleft : .computed left ∈ s.builder.known plan)
    (hright : .computed right ∈ s.builder.known plan)
    (hoperator : infixOperator around op left right s = .ok r s') :
    s.Continues plan s' plan [r.value] := by
  have hoperands {operation : Operation} (hneeds : operation.operands = [left, right])
      (hslots : operation.slots = []) : operation.needs ⊆ s.builder.known plan := by
    simpa [Operation.needs, hneeds, hslots] using ⟨hleft, hright⟩
  unfold infixOperator at hoperator
  split at hoperator
  · exact emit_continues h (hoperands rfl rfl) hoperator
  · exact emit_continues h (hoperands rfl rfl) hoperator
  · exact emit_continues h (hoperands rfl rfl) hoperator
  · simp only [bind_ok, define_ok] at hoperator
    obtain ⟨_, _, ⟨rfl, rfl⟩, _, _, ⟨rfl, rfl⟩, hoperator⟩ := hoperator
    have hless := h.define (.compare .less left right) (hoperands rfl rfl)
    have hword := (hless.planned h).define (.extend s.builder.values)
      (by simpa [Operation.needs, Operation.operands, Operation.slots] using
        hless.values (List.mem_singleton_self _))
    refine ((hless.trans hword).trans (emit_continues ((hless.trans hword).planned h) ?_
      hoperator)).weaken (List.subset_append_right _ _)
    simpa [Operation.needs, Operation.operands, Operation.slots] using
      hword.values (List.mem_singleton_self _)
  · refine callOrThrow_continues h ?_ hoperator
    simpa using ⟨hleft, hright⟩

/-- Lowering an expression keeps to a plan: whatever it uses is known where it uses it, and its
value is known at the end. -/
def ExprContinues (around : Surroundings) (e : Expr) : Prop :=
  ∀ ⦃s s' : LowerState⦄ ⦃plan : Plan⦄ ⦃r : Computed⦄, s.Planned plan →
    expr around e s = .ok r s' → ∃ plan', s.Continues plan s' plan' [r.value]

/-- Arguments go on as each of them does. -/
theorem arguments_continues {args : List Expr} (hargs : ∀ arg ∈ args, ExprContinues around arg)
    {vs : List ValueId} (h : s.Planned plan)
    (hlowered : arguments around args s = .ok vs s') :
    ∃ plan', s.Continues plan s' plan' vs := by
  induction args generalizing s plan vs with
  | nil =>
      obtain ⟨rfl, rfl⟩ := arguments_nil_ok.mp hlowered
      exact ⟨plan, .refl h⟩
  | cons arg args ih =>
      obtain ⟨v, s₁, others, harg, hothers, rfl⟩ := arguments_cons_ok.mp hlowered
      obtain ⟨plan₁, hfirst⟩ := hargs arg List.mem_cons_self h harg
      obtain ⟨plan₂, hrest⟩ := ih (fun other hother => hargs other (List.mem_cons_of_mem _ hother))
        (hfirst.planned h) hothers
      exact ⟨plan₂, hfirst.trans hrest⟩

theorem valueOr_continues {otherwise : Float} {value? : Option Expr}
    (hvalue : ∀ value ∈ value?, ExprContinues around value)
    {v : ValueId} (h : s.Planned plan) (hlowered : valueOr around otherwise value? s = .ok v s') :
    ∃ plan', s.Continues plan s' plan' [v] := by
  cases value? with
  | none =>
      obtain ⟨rfl, rfl⟩ := define_ok.mp (valueOr_none_ok.mp hlowered)
      exact ⟨plan, h.define (.number otherwise) (List.nil_subset _)⟩
  | some value =>
      obtain ⟨r, hr, rfl⟩ := valueOr_some_ok.mp hlowered
      exact hvalue value rfl h hr

/-- A new slot is stored before anything is lowered with it. -/
theorem locals_continues {bindings : List (String × Option Expr)} {body : Expr}
    (hbindings : ∀ binding ∈ bindings, ∀ value ∈ binding.2, ExprContinues around value)
    (hbody : ExprContinues around body) (h : s.Planned plan)
    (hlowered : locals around (expr around body) bindings s = .ok r s') :
    ∃ plan', s.Continues plan s' plan' [r.value] := by
  induction bindings generalizing s s' plan with
  | nil => exact hbody h hlowered
  | cons binding bindings ih =>
      obtain ⟨v, s₁, s₂, hv, hr, rfl⟩ := locals_cons_ok.mp hlowered
      obtain ⟨plan₁, hvalue⟩ := valueOr_continues (hbindings binding List.mem_cons_self) h hv
      have hs₁ := hvalue.planned h
      have hslot := hs₁.newSlot
      have hstore := (hslot.planned hs₁).storeSlot s₁.builder.slots
        (hslot.known (hvalue.values (List.mem_singleton_self _)))
      have hstored : .stored s₁.builder.slots ∈
          (s₁.builder.newSlot.2.storeSlot v s₁.builder.slots).known plan₁ := by
        rw [Builder.known_storeSlot]
        simp
      obtain ⟨plan₂, hinner⟩ := ih
        (fun other hother => hbindings other (List.mem_cons_of_mem _ hother))
        (((hslot.trans hstore).planned hs₁).bind binding.1 hstored) hr
      exact ⟨plan₂, ((hvalue.trans (hslot.trans hstore)).trans hinner.binds).weaken
        (List.subset_append_right _ _)⟩

/-- A choice keeps to a plan in which its three blocks are added: what is known before them is
known in each, and the value of the join there as well. -/
theorem cond_continues {condition thenBranch elseBranch : Expr}
    (hcondition : ExprContinues around condition) (hthen : ExprContinues around thenBranch)
    (helse : ExprContinues around elseBranch) :
    ExprContinues around (.cond condition thenBranch elseBranch) := by
  intro s s' plan r h hlowered
  obtain ⟨c, s₁, t, s₂, e, s₃, hc, ht, -, he, -, rfl, rfl⟩ := expr_cond_ok.mp hlowered
  obtain ⟨plan₁, htest⟩ := hcondition h hc
  have hs₁ := htest.planned h
  obtain ⟨plan₂, known, hchoose, hknown, hmore, hother, hjoin⟩ :=
    hs₁.choose (htest.values (List.mem_singleton_self _))
  obtain ⟨plan₃, htaken⟩ := hthen (hchoose.planned hs₁) ht
  have hcreated : s₁.builder.blocks + 3 ≤ s₂.builder.blocks := htaken.blocks
  have hjoin₃ := (htaken.keeps (s₁.builder.blocks + 2) (Nat.lt_succ_self _)).trans hjoin
  have hother₃ := (htaken.keeps (s₁.builder.blocks + 1) (by
    show s₁.builder.blocks + 1 < s₁.builder.blocks + 3
    omega)).trans hother
  obtain ⟨hfirst, hknown₃⟩ := hchoose.join [] htaken hmore (hknown ▸ List.Subset.refl _) hjoin₃
    hother₃ (by omega) (by omega)
  obtain ⟨plan₄, hrest⟩ := helse (hfirst.planned hs₁) he
  have hcreated₄ : s₂.builder.blocks ≤ s₃.builder.blocks := hrest.blocks
  have hjoin₄ : plan₄ (s₁.builder.blocks + 2) = ⟨1, known⟩ :=
    (hrest.keeps (s₁.builder.blocks + 2) (by
      show s₁.builder.blocks + 2 < s₂.builder.blocks
      omega)).trans hjoin₃
  obtain ⟨hboth, -⟩ := hfirst.join [s₁.builder.values + 2] hrest hmore hknown₃ hjoin₄ hjoin₄
    (by omega) (by omega)
  exact ⟨plan₄, (htest.trans hboth).weaken (List.subset_append_right _ _)⟩

/-- A loop keeps to a plan in which its two blocks are added: whatever is known at the first round
is known at every later one and behind the loop. -/
theorem loop_continues {name : String} {start finish body : Expr} {step : Option Expr}
    (hstart : ExprContinues around start) (hfinish : ExprContinues around finish)
    (hstep : ∀ value ∈ step, ExprContinues around value) (hbody : ExprContinues around body) :
    ExprContinues around (.loop name start finish step body) := by
  intro s s' plan r h hlowered
  obtain ⟨a, s₁, b, s₂, v, s₃, f, s₄, ha, hb, hv, hf, hr⟩ := expr_loop_ok.mp hlowered
  have hslot := h.newSlot
  obtain ⟨plan₁, hfirst⟩ := hstart (hslot.planned h) ha
  have hs₁ := hfirst.planned (hslot.planned h)
  obtain ⟨plan₂, known, hbegin, hknown, hstored, hloop⟩ :=
    hs₁.beginLoop s.builder.slots (hfirst.values (List.mem_singleton_self _))
  have hbound := (hbegin.planned hs₁).bind name (hknown ▸ hstored)
  obtain ⟨plan₃, hround⟩ := hbody hbound hb
  obtain ⟨plan₄, hgrowth⟩ := valueOr_continues hstep (hround.planned hbound) hv
  have hs₃ := hgrowth.planned (hround.planned hbound)
  obtain ⟨plan₅, htest⟩ := hfinish hs₃ hf
  have hinner := hround.trans (hgrowth.trans htest)
  have hsub : known ⊆ s₄.builder.known plan₅ := hknown ▸ hinner.known
  obtain ⟨plan₆, hend⟩ := (hinner.planned hbound).endLoop (hsub hstored)
    (htest.known (hgrowth.values (List.mem_singleton_self _)))
    (htest.values (List.mem_singleton_self _))
    ((hinner.keeps s₁.builder.blocks (Nat.lt_succ_self _)).trans hloop)
    (Nat.lt_of_lt_of_le (Nat.lt_succ_self _) hinner.blocks) hsub
  have hwhole := hbegin.trans (hinner.trans hend).binds
  have hdone := (hslot.trans hfirst).trans hwhole
  have hresult := emit_continues (hdone.planned h) (List.nil_subset _) hr
  exact ⟨plan₆, (hdone.trans hresult).weaken (List.subset_append_right _ _)⟩

/-- **Lowering keeps to a plan**, whatever the expression is. -/
theorem expr_continues (e : Expr) : ExprContinues around e := by
  induction e using Expr.induction with
  | number value =>
      intro s s' plan r h hlowered
      exact ⟨plan, emit_continues h (List.nil_subset _) (expr_number_ok.mp hlowered)⟩
  | var name =>
      intro s s' plan r h hlowered
      obtain ⟨slot, hslot, hlowered⟩ := expr_var_ok.mp hlowered
      refine ⟨plan, emit_continues h ?_ hlowered⟩
      simpa [Operation.needs, Operation.operands, Operation.slots] using h.scope name slot hslot
  | unary op operand ih =>
      intro s s' plan r h hlowered
      obtain ⟨v, s₁, hv, hcall⟩ := expr_unary_ok.mp hlowered
      obtain ⟨plan₁, hoperand⟩ := ih h hv
      have hresult := callOrThrow_continues (hoperand.planned h) hoperand.values hcall
      exact ⟨plan₁, (hoperand.trans hresult).weaken (List.subset_append_right _ _)⟩
  | binary op left right ihl ihr =>
      intro s s' plan r h hlowered
      by_cases hop : op = '='
      · subst hop
        obtain ⟨name, slot, s₁, -, hr, hslot, rfl⟩ := expr_assign_ok.mp hlowered
        obtain ⟨plan₁, hright⟩ := ihr h hr
        have hstore := (hright.planned h).storeSlot slot
          (hright.values (List.mem_singleton_self _))
        exact ⟨plan₁, (hright.trans hstore).weaken (List.subset_append_left _ _)⟩
      · obtain ⟨a, s₁, b, s₂, ha, hb, hoperator⟩ := (expr_binary_ok hop).mp hlowered
        obtain ⟨plan₁, hleft⟩ := ihl h ha
        obtain ⟨plan₂, hright⟩ := ihr (hleft.planned h) hb
        have hboth := hleft.trans hright
        have hresult := infixOperator_continues (hboth.planned h)
          (hright.known (hleft.values (List.mem_singleton_self _)))
          (hright.values (List.mem_singleton_self _)) hoperator
        exact ⟨plan₂, (hboth.trans hresult).weaken (List.subset_append_right _ _)⟩
  | call name args ih =>
      intro s s' plan r h hlowered
      obtain ⟨-, vs, s₁, hargs, hcall⟩ := expr_call_ok.mp hlowered
      obtain ⟨plan₁, hvalues⟩ := arguments_continues ih h hargs
      have hresult := callOrThrow_continues (hvalues.planned h) hvalues.values hcall
      exact ⟨plan₁, (hvalues.trans hresult).weaken (List.subset_append_right _ _)⟩
  | cond condition thenBranch elseBranch ihc iht ihe => exact cond_continues ihc iht ihe
  | loop name start finish step body ihs ihf ihstep ihb => exact loop_continues ihs ihf ihstep ihb
  | locals bindings body ihbindings ihbody =>
      intro s s' plan r h hlowered
      rw [expr] at hlowered
      exact locals_continues ihbindings ihbody h hlowered

end Lower

end Reckon
