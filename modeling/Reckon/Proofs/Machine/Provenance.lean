import Reckon.Machine.Run
import Reckon.Proofs.Lowering.References

/-!
# Where calls come from

A frame makes the calls that the code of its procedure says, and passes as many
numbers as the code lists arguments (`Frame.SourcedCall`).  Registers get cells
from instructions and nowhere else, and a frame never leaves its procedure
(`Frame.Sourced`), so a call through the cell of a symbol is one that the code
makes with that cell.
-/

namespace Reckon

namespace Frame

open Code

variable {p : Procedure} {f f' : Frame}

/-- What a register may hold: a cell only if the code names it there, and the
code of a cell only if it loads it there. -/
def SourcedDatum (p : Procedure) (v : ValueId) : Datum → Prop
  | .cell symbol => .define v (.cell symbol) ∈ p.instructions
  | .code symbol => ∃ address, .define v (.loadCell address) ∈ p.instructions ∧
      .define address (.cell symbol) ∈ p.instructions
  | _ => True

/-- A frame executes a procedure, and every cell in its registers comes from
there. -/
structure Sourced (p : Procedure) (f : Frame) : Prop where
  procedure : f.procedure = p
  registers : ∀ v datum, f.registers.get? v = some datum → SourcedDatum p v datum
  body : ∀ instruction ∈ f.body, instruction ∈ p.instructions

namespace Sourced

theorem define (h : f.Sourced p) (v : ValueId) {datum : Datum} (hdatum : SourcedDatum p v datum) :
    (f.define v datum).Sourced p := by
  refine ⟨h.procedure, ?_, h.body⟩
  intro w found hfound
  have hget : (f.registers.set v datum).get? w = some found := hfound
  rw [Numbered.get?_set] at hget
  split at hget
  · next heq => exact heq ▸ Option.some.inj hget ▸ hdatum
  · exact h.registers w found hget

theorem defineAll (h : f.Sourced p) (vs : List ValueId) (xs : List Float) :
    (f.defineAll vs xs).Sourced p := by
  induction vs generalizing f xs with
  | nil => exact h
  | cons v vs ih =>
      cases xs with
      | nil => exact h
      | cons x xs =>
          have hnumber : SourcedDatum p v (.number x) := trivial
          exact ih (h.define v hnumber) xs

/-- The instructions of a block are instructions of its procedure. -/
theorem enter (h : f.Sourced p) {block : Block} (hblock : block ∈ p.blocks) :
    Sourced p { f with body := block.body, transfer := block.transfer } := by
  refine ⟨h.procedure, h.registers, ?_⟩
  intro instruction hmem
  exact List.mem_flatMap.mpr ⟨block, hblock, hmem⟩

theorem enter? (h : f.Sourced p) {target : BlockId} {args : List Float}
    (henter : f.enter? target args = some f') : f'.Sourced p := by
  unfold Frame.enter? at henter
  split at henter
  · cases henter
  · next block hblock =>
      split at henter
      · obtain rfl := Option.some.inj henter
        rw [h.procedure] at hblock
        exact (h.enter (List.mem_of_find?_eq_some hblock)).defineAll _ _
      · cases henter

/-- What an operation computes is a cell only if the operation names it, or
computes its code from it. -/
theorem compute? (h : f.Sourced p) {v : ValueId} {operation : Operation} {datum : Datum}
    (hmem : .define v operation ∈ p.instructions)
    (hcompute : f.compute? operation = some datum) : SourcedDatum p v datum := by
  cases operation with
  | cell symbol =>
      obtain rfl := Option.some.inj hcompute
      exact hmem
  | loadCell address =>
      simp only [Frame.compute?] at hcompute
      split at hcompute
      · next symbol hcell =>
          obtain rfl := Option.some.inj hcompute
          exact ⟨address, hmem, h.registers address (.cell symbol) hcell⟩
      · cases hcompute
  | number value =>
      obtain rfl := Option.some.inj hcompute
      trivial
  | loadSlot slot =>
      obtain ⟨value, -, rfl⟩ := Option.map_eq_some_iff.mp hcompute
      trivial
  | call external args => cases hcompute
  | callThrough signature code args => cases hcompute
  | arithmetic op left right | compare op left right | extend flag | convert word =>
      simp only [Frame.compute?] at hcompute
      split at hcompute
      · obtain rfl := Option.some.inj hcompute
        trivial
      · cases hcompute

end Sourced

/-- As many numbers are passed as there are arguments. -/
theorem length_numbers? {vs : List ValueId} {xs : List Float} (h : f.numbers? vs = some xs) :
    vs.length = xs.length := by
  induction vs generalizing xs with
  | nil =>
      obtain rfl := Option.some.inj h
      rfl
  | cons v vs ih =>
      unfold Frame.numbers? at h
      split at h
      · next value values _ hvalues =>
          obtain rfl := Option.some.inj h
          exact congrArg Nat.succ (ih hvalues)
      · cases h

/-- A call that the procedure makes, with as many arguments as it lists. -/
def SourcedCall (p : Procedure) (arguments : Nat) : CallSite → Prop
  | .declaration number => ∃ v external args e, .define v (.call external args) ∈ p.instructions ∧
      p.externals[external]? = some e ∧ e.declaration = number ∧ args.length = arguments
  | .cell symbol => ∃ signature args, CallsCell p.instructions symbol signature args ∧
      args.length = arguments

/-- A step stays in the procedure. -/
def SourcedStep (p : Procedure) : FrameStep → Prop
  | .next f => f.Sourced p
  | .call site args _ f => f.Sourced p ∧ SourcedCall p args.length site
  | .done _ => True
  | .stuck => True

namespace Sourced

theorem leave (h : f.Sourced p) (transfer : Transfer) : SourcedStep p (f.leave transfer) := by
  unfold Frame.leave
  split
  · split
    · trivial
    · split
      · next henter => exact h.enter? henter
      · trivial
  · split
    · split
      · next henter => exact h.enter? henter
      · trivial
    · trivial
  · split <;> trivial

theorem operate (h : f.Sourced p) {v : ValueId} {operation : Operation}
    (hmem : .define v operation ∈ p.instructions) : SourcedStep p (f.operate v operation) := by
  unfold Frame.operate
  split
  · split
    · next external args _ _ e values he hvalues =>
        rw [h.procedure] at he
        exact ⟨h, v, external, args, e, hmem, he, rfl, length_numbers? hvalues⟩
    · trivial
  · split
    · next signature code args _ _ symbol values hcode hvalues =>
        obtain ⟨address, hload, hcell⟩ := h.registers _ _ hcode
        exact ⟨h, signature, args, ⟨v, code, address, hmem, hload, hcell⟩,
          length_numbers? hvalues⟩
    · trivial
  · cases hcompute : f.compute? operation with
    | none => trivial
    | some datum => exact h.define v (h.compute? hmem hcompute)

/-- Every step of a frame stays in its procedure. -/
theorem step (h : f.Sourced p) : SourcedStep p f.step := by
  have hrest : ∀ instruction rest, f.body = instruction :: rest →
      Sourced p { f with body := rest } := by
    intro instruction rest hbody
    refine ⟨h.procedure, h.registers, fun other hmem => h.body other ?_⟩
    rw [hbody]
    exact List.mem_cons_of_mem _ hmem
  unfold Frame.step
  split
  · exact h.leave _
  · next value slot rest hbody =>
      have hstored := hrest _ _ hbody
      split
      · exact ⟨hstored.procedure, hstored.registers, hstored.body⟩
      · trivial
  · next v operation rest hbody =>
      exact (hrest _ _ hbody).operate (h.body _ (hbody ▸ List.mem_cons_self))

end Sourced

/-- A frame that starts executes its procedure. -/
theorem sourced_start {args : List Float} (h : start? p args = some f) : f.Sourced p := by
  unfold start? at h
  split at h
  · cases h
  · next block blocks hblocks =>
      split at h
      · obtain rfl := Option.some.inj h
        have hempty : Sourced p ⟨p, .empty, .empty, [], block.transfer⟩ :=
          ⟨rfl, fun v datum hget => by simp at hget, by simp⟩
        have hblock : block ∈ p.blocks := hblocks ▸ List.mem_cons_self
        exact (hempty.enter hblock).defineAll _ _
      · cases h

end Frame

end Reckon
