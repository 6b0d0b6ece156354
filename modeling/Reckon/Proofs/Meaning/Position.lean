import Reckon.Proofs.Lowering.Growth
import Reckon.Proofs.Meaning.Simulation

/-!
# Where a frame stands

While code is executed, a frame stands where a builder stood when the code was
built: in the block that was being filled, behind the instructions that it held
by then (`Frame.At`).  If the builder then emits something and is still within
the procedure, that is what the frame executes next.
-/

namespace Reckon

namespace Frame

open Code

/-- A frame executes a procedure and stands where a builder stood. -/
structure At (f : Frame) (p : Procedure) (b : Builder) : Prop where
  procedure : f.procedure = p
  block : ∃ block, p.block? b.current = some block ∧ f.body = block.body.drop b.body.size ∧
    f.transfer = block.transfer

/-- Registers under a number are the same in two frames. -/
def SameBelow (n : Nat) (f f' : Frame) : Prop :=
  ∀ v : Nat, v < n → f'.registers.get? v = f.registers.get? v

section Registers

variable {f f' f'' : Frame} {n : Nat}

theorem SameBelow.refl (n : Nat) (f : Frame) : SameBelow n f f := fun _ _ => rfl

theorem SameBelow.trans {n' : Nat} (h : SameBelow n f f') (h' : SameBelow n' f' f'')
    (hle : n ≤ n') : SameBelow n f f'' := by
  intro v hv
  rw [h' v (Nat.lt_of_lt_of_le hv hle), h v hv]

theorem SameBelow.of_eq (h : f'.registers = f.registers) : SameBelow n f f' := by
  intro v _
  rw [h]

theorem SameBelow.of_set {v : Nat} {datum : Datum}
    (h : f'.registers = f.registers.set v datum) (hle : n ≤ v) : SameBelow n f f' := by
  intro w hw
  have hne : v ≠ w := by omega
  rw [h, Numbered.get?_set, if_neg hne]

theorem SameBelow.number? {v : ValueId} (h : SameBelow n f f') (hv : v < n) :
    f'.number? v = f.number? v := by
  unfold Frame.number?
  rw [h v hv]

theorem numbers?_congr {vs : List ValueId} (h : ∀ v ∈ vs, f'.number? v = f.number? v) :
    f'.numbers? vs = f.numbers? vs := by
  induction vs with
  | nil => rfl
  | cons v vs ih =>
      have hrest := ih (fun w hw => h w (List.mem_cons_of_mem v hw))
      rw [numbers?, numbers?, h v List.mem_cons_self, hrest]

theorem SameBelow.numbers? {vs : List ValueId} (h : SameBelow n f f')
    (hvs : ∀ v : Nat, v ∈ vs → v < n) : f'.numbers? vs = f.numbers? vs :=
  numbers?_congr fun v hv => h.number? (hvs v hv)

theorem number?_of_set {v : ValueId} {x : Float}
    (h : f'.registers = f.registers.set v (.number x)) : f'.number? v = some x := by
  unfold Frame.number?
  rw [h, Numbered.get?_set, if_pos rfl]

end Registers

section Position

variable {f : Frame} {p : Procedure} {b : Builder}

theorem At.congr {b' : Builder} (h : f.At p b) (hcurrent : b'.current = b.current)
    (hbody : b'.body = b.body) : f.At p b' := by
  refine ⟨h.procedure, ?_⟩
  rw [hcurrent, hbody]
  exact h.block

/-- What is emitted next is what the frame executes next. -/
theorem At.push {instruction : Instruction} {values : Nat} (h : f.At p b)
    (hin : { b with values := values, body := b.body.push instruction }.Within p) :
    ∃ rest, f.body = instruction :: rest ∧
      { f with body := rest }.At p
        { b with values := values, body := b.body.push instruction } := by
  obtain ⟨block, hblock, hbody, htransfer⟩ := h.block
  obtain ⟨block', hblock', -, rest, hrest⟩ := hin.filling
  obtain rfl := Option.some.inj (hblock.symm.trans hblock')
  have hwhole : block.body = b.body.toList ++ instruction :: rest := by
    simpa using hrest.symm
  have hdrop : block.body.drop b.body.size = instruction :: rest := by
    rw [hwhole]
    exact List.drop_left
  refine ⟨rest, hbody.trans hdrop, h.procedure, block, hblock, ?_, htransfer⟩
  show rest = block.body.drop (b.body.push instruction).size
  rw [Array.size_push, ← List.drop_drop, hdrop]
  rfl

/-- An operation that is not a call computes its value in one step. -/
theorem At.computes {operation : Operation} {datum : Datum} (h : f.At p b)
    (hin : (b.define operation).2.Within p) (hvalue : f.compute? operation = some datum) :
    ∃ f', f.step = .next f' ∧ f'.At p (b.define operation).2 ∧
      f'.registers = f.registers.set b.values datum ∧ f'.slots = f.slots := by
  obtain ⟨rest, hbody, hat⟩ := h.push hin
  have hsame : { f with body := rest }.compute? operation = some datum := by
    rw [← hvalue]
    cases operation <;> rfl
  refine ⟨({ f with body := rest } : Frame).define b.values datum, ?_,
    ⟨hat.procedure, hat.block⟩, rfl, rfl⟩
  unfold step
  rw [hbody]
  cases operation with
  | call external args => simp [compute?] at hvalue
  | callThrough signature code args => simp [compute?] at hvalue
  | _ => simp [operate, hsame, result]

/-- A slot is changed in one step. -/
theorem At.stores {value : ValueId} {slot : SlotId} {x : Float} (h : f.At p b)
    (hin : (b.storeSlot value slot).Within p) (hvalue : f.number? value = some x) :
    ∃ f', f.step = .next f' ∧ f'.At p (b.storeSlot value slot) ∧
      f'.registers = f.registers ∧ f'.slots = f.slots.set slot x := by
  have hpushed : { b with values := b.values, body := b.body.push (.storeSlot value slot) }.Within p :=
    hin
  obtain ⟨rest, hbody, hat⟩ := h.push hpushed
  refine ⟨{ f with body := rest, slots := f.slots.set slot x }, ?_,
    ⟨hat.procedure, hat.block⟩, rfl, rfl⟩
  unfold step
  rw [hbody]
  simp [hvalue]

/-- A direct call names the declaration that it refers to. -/
theorem At.callsDirect {external : Nat} {args : List ValueId} {e : External} {xs : List Float}
    (h : f.At p b) (hin : (b.define (.call external args)).2.Within p)
    (hexternal : p.externals[external]? = some e) (hargs : f.numbers? args = some xs) :
    ∃ f', f.step = .call (.declaration e.declaration) xs b.values f' ∧
      f'.At p (b.define (.call external args)).2 ∧
      f'.registers = f.registers ∧ f'.slots = f.slots := by
  obtain ⟨rest, hbody, hat⟩ := h.push hin
  obtain rfl := h.procedure
  refine ⟨{ f with body := rest }, ?_, hat, rfl, rfl⟩
  have hsame : ({ f with body := rest } : Frame).numbers? args = some xs := by
    rw [← hargs]
    exact numbers?_congr fun _ _ => rfl
  unfold step
  rw [hbody]
  simp [operate, hexternal, hsame]

/-- A call through a cell names the symbol of the cell. -/
theorem At.callsThrough {signature : Nat} {code : ValueId} {args : List ValueId} {symbol : String}
    {xs : List Float} (h : f.At p b)
    (hin : (b.define (.callThrough signature code args)).2.Within p)
    (hcode : f.registers.get? code = some (.code symbol)) (hargs : f.numbers? args = some xs) :
    ∃ f', f.step = .call (.cell symbol) xs b.values f' ∧
      f'.At p (b.define (.callThrough signature code args)).2 ∧
      f'.registers = f.registers ∧ f'.slots = f.slots := by
  obtain ⟨rest, hbody, hat⟩ := h.push hin
  refine ⟨{ f with body := rest }, ?_, hat, rfl, rfl⟩
  have hsame : ({ f with body := rest } : Frame).numbers? args = some xs := by
    rw [← hargs]
    exact numbers?_congr fun _ _ => rfl
  unfold step
  rw [hbody]
  simp [operate, hcode, hsame]

/-- Only registers are defined. -/
theorem defineAll_eq (f : Frame) (vs : List ValueId) (xs : List Float) :
    f.defineAll vs xs = { f with registers := (f.defineAll vs xs).registers } := by
  induction vs generalizing f xs with
  | nil => rfl
  | cons v vs ih =>
      cases xs with
      | nil => rfl
      | cons x xs => exact ih (f.define v (.number x)) xs

theorem defineAll_registers {f f' : Frame} (h : f'.registers = f.registers) (vs : List ValueId)
    (xs : List Float) : (f'.defineAll vs xs).registers = (f.defineAll vs xs).registers := by
  induction vs generalizing f f' xs with
  | nil => exact h
  | cons v vs ih =>
      cases xs with
      | nil => exact h
      | cons x xs => exact ih (congrArg (·.set v (.number x)) h) xs

theorem defineAll_other {f : Frame} {vs : List ValueId} {xs : List Float} {w : ValueId}
    (hw : w ∉ vs) : (f.defineAll vs xs).registers.get? w = f.registers.get? w := by
  induction vs generalizing f xs with
  | nil => rfl
  | cons v vs ih =>
      obtain ⟨hne, hrest⟩ : w ≠ v ∧ w ∉ vs := by
        simpa [not_or] using hw
      cases xs with
      | nil => rfl
      | cons x xs =>
          rw [defineAll, ih hrest]
          show (f.registers.set v (.number x)).get? w = f.registers.get? w
          rw [Numbered.get?_set, if_neg (Ne.symm hne)]

/-- Registers that are defined together hold the numbers that were given. -/
theorem numbers?_defineAll {f : Frame} {vs : List ValueId} {xs : List Float} (hnodup : vs.Nodup)
    (hlength : vs.length = xs.length) : (f.defineAll vs xs).numbers? vs = some xs := by
  induction vs generalizing f xs with
  | nil =>
      obtain rfl := List.length_eq_zero_iff.mp hlength.symm
      rfl
  | cons v vs ih =>
      obtain ⟨hnotMem, hrest⟩ := List.nodup_cons.mp hnodup
      cases xs with
      | nil => cases hlength
      | cons x xs =>
          have hfirst : ((f.define v (.number x)).defineAll vs xs).number? v = some x := by
            unfold number?
            rw [defineAll_other hnotMem, define, Numbered.get?_set, if_pos rfl]
          rw [defineAll, numbers?, hfirst, ih hrest (Nat.succ.inj hlength)]

/-- Where a block was ended, the frame has only its transfer left. -/
theorem At.ended {transfer : Transfer} {next : BlockId} {params : List ValueId} (h : f.At p b)
    (hin : (b.enter transfer next params).Within p) : f.body = [] ∧ f.transfer = transfer := by
  obtain ⟨block, hblock, hbody, htransfer⟩ := h.block
  obtain rfl := Option.some.inj (hblock.symm.trans hin.ended)
  refine ⟨?_, htransfer⟩
  rw [hbody]
  exact List.drop_length

/-- A block that was entered while the code was built can be entered. -/
theorem enter?_of_within {transfer : Transfer} {next : BlockId} {params : List ValueId}
    {xs : List Float} (hp : f.procedure = p) (hin : (b.enter transfer next params).Within p)
    (hlength : params.length = xs.length) :
    ∃ f', f.enter? next xs = some f' ∧ f'.At p (b.enter transfer next params) ∧
      f'.registers = (f.defineAll params xs).registers ∧ f'.slots = f.slots := by
  obtain ⟨block, hblock, hfilling, -⟩ := hin.filling
  have hparams : block.params = params := hfilling
  have hcurrent : f.procedure.block? next = some block := by
    rw [hp]
    exact hblock
  obtain ⟨frame, hframe⟩ : ∃ frame : Frame,
      frame = { f with body := block.body, transfer := block.transfer } := ⟨_, rfl⟩
  have hregisters : frame.registers = f.registers := by rw [hframe]
  refine ⟨frame.defineAll params xs, ?_, ⟨?_, block, hblock, ?_, ?_⟩,
    defineAll_registers hregisters params xs, ?_⟩
  · unfold enter?
    rw [hcurrent, hframe]
    dsimp only
    rw [hparams, if_pos hlength]
  · rw [defineAll_eq, hframe]
    exact hp
  · rw [defineAll_eq, hframe]
    rfl
  · rw [defineAll_eq, hframe]
  · rw [defineAll_eq, hframe]

/-- A jump enters its target with the values that it passes. -/
theorem At.jumps {b' : Builder} {transfer : Transfer} {target next : BlockId}
    {args params params' : List ValueId} {xs : List Float} (h : f.At p b)
    (hin : (b.enter (.jump target args) next params).Within p)
    (htarget : (b'.enter transfer target params').Within p) (hargs : f.numbers? args = some xs)
    (hlength : params'.length = xs.length) :
    ∃ f', f.step = .next f' ∧ f'.At p (b'.enter transfer target params') ∧
      f'.registers = (f.defineAll params' xs).registers ∧ f'.slots = f.slots := by
  obtain ⟨hbody, htransfer⟩ := h.ended hin
  obtain ⟨f', henter, hat, hregisters, hslots⟩ := enter?_of_within h.procedure htarget hlength
  refine ⟨f', ?_, hat, hregisters, hslots⟩
  unfold step
  rw [hbody, htransfer]
  simp [leave, hargs, henter]

/-- A branch enters one of its targets. -/
theorem At.branches {b' : Builder} {transfer : Transfer} {condition : ValueId}
    {whenTrue whenFalse next : BlockId} {params : List ValueId} {flag : Bool} (h : f.At p b)
    (hin : (b.enter (.branch condition whenTrue whenFalse) next params).Within p)
    (htarget : (b'.enter transfer (if flag then whenTrue else whenFalse) []).Within p)
    (hflag : f.registers.get? condition = some (.flag flag)) :
    ∃ f', f.step = .next f' ∧
      f'.At p (b'.enter transfer (if flag then whenTrue else whenFalse) []) ∧
      f'.registers = f.registers ∧ f'.slots = f.slots := by
  obtain ⟨hbody, htransfer⟩ := h.ended hin
  have hlength : ([] : List ValueId).length = ([] : List Float).length := rfl
  obtain ⟨f', henter, hat, hregisters, hslots⟩ := enter?_of_within h.procedure htarget hlength
  refine ⟨f', ?_, hat, hregisters, hslots⟩
  unfold step
  rw [hbody, htransfer]
  simp [leave, hflag, henter]

/-- At the end of the last block the frame returns its value. -/
theorem At.done {symbol : String} {arity : Nat} {value : ValueId} {x : Float}
    (h : f.At (b.finish symbol arity (.leave value)) b) (hnodup : b.entered.Nodup)
    (hvalue : f.number? value = some x) : f.step = .done x := by
  obtain ⟨block, hblock, hbody, htransfer⟩ := h.block
  obtain rfl := Option.some.inj (hblock.symm.trans (Builder.finish_block? hnodup _ _ _))
  have hempty : f.body = [] := by
    rw [hbody]
    exact List.drop_length
  unfold step
  rw [hempty, htransfer]
  simp [leave, Builder.currentBlock, hvalue]

/-- A procedure starts where the builder of its code started. -/
theorem start?_of_within {arity : Nat} {xs : List Float} (hin : (Builder.start arity).Within p)
    (hfirst : ∃ block rest, p.blocks = block :: rest ∧ block.id = 0) (harity : p.arity = arity)
    (hlength : arity = xs.length) :
    ∃ f, start? p xs = some f ∧ f.At p (Builder.start arity) ∧
      f.numbers? (List.range arity) = some xs := by
  obtain ⟨first, rest, hblocks, hid⟩ := hfirst
  obtain ⟨block, hblock, hfilling, -⟩ := hin.filling
  have hparams : block.params = List.range arity := hfilling
  have hsame : first = block := by
    have hfind : p.block? 0 = some first := by
      simp [Procedure.block?, hblocks, hid]
    exact Option.some.inj (hfind.symm.trans hblock)
  subst hsame
  refine ⟨defineAll ⟨p, .empty, .empty, first.body, first.transfer⟩ (List.range arity) xs,
    ?_, ⟨?_, first, hblock, ?_, ?_⟩, ?_⟩
  · simp [start?, hblocks, hparams, harity, hlength]
  · rw [defineAll_eq]
  · rw [defineAll_eq]
    rfl
  · rw [defineAll_eq]
  · exact numbers?_defineAll List.nodup_range (by rw [List.length_range, hlength])

end Position

end Frame

end Reckon
