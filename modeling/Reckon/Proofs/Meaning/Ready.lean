import Reckon.Proofs.Binary64.Comparison
import Reckon.Proofs.Meaning.Layout

/-!
# Executing what is lowered next

A frame is ready to execute what is lowered next if it stands where the builder
stands and its slots hold the cells of the names in scope (`Ready`).  Executing
an expression yields a frame that is ready again and has the value in a register
(`Yields`).  Registers that had a value before keep it, so operands are still
there when the operation that needs them comes.

This file takes the steps that are no expressions of their own: one operation,
a call, a test, a name that is bound, the beginning of a loop and the end of a round.
-/

namespace Reckon

open Evaluation

/-- What has been lowered so far is part of a compilation. -/
structure LowerState.Fits (s : LowerState) (c : Compilation) : Prop where
  within : s.builder.Within c.procedure
  declarations : s.unit.declarations <+: c.unit.declarations

theorem LowerState.Fits.of_grows {s s' : LowerState} {c : Compilation} (h : s'.Fits c)
    (hgrows : s.Grows s') : s.Fits c :=
  ⟨hgrows.builder.within h.within, hgrows.declarations.trans h.declarations⟩

theorem LowerState.Fits.of_define {s : LowerState} {c : Compilation} {operation : Code.Operation}
    (h : (s.built (s.builder.define operation).2).Fits c) : s.Fits c :=
  h.of_grows (.emits (.define operation))

theorem LowerState.Fits.of_emit {s s' : LowerState} {c : Compilation}
    {operation : Code.Operation} {r : Computed} (h : s'.Fits c)
    (hemit : Lower.emit operation s = .ok r s') : s.Fits c := by
  obtain ⟨-, rfl⟩ := Lower.emit_ok.mp hemit
  exact h.of_define

/-- A frame is about to execute what is lowered next. -/
structure Ready (c : Compilation) (layout : Layout) (s : LowerState)
    (cells : List (String × Float)) (f : Frame) : Prop where
  named : s.Named
  placed : s.Placed layout
  position : f.At c.procedure s.builder
  kept : Kept f.slots layout cells

/-- Executing what was lowered between two states has put a value in a register. -/
structure Yields (c : Compilation) (layout : Layout) (s s' : LowerState) (f : Frame)
    (v : Code.ValueId) (value : Float) (m : Memory) (f' : Frame) : Prop where
  ready : Ready c layout s' m.cells f'
  number : f'.number? v = some value
  defined : v < s'.builder.values
  same : f.SameBelow s.builder.values f'

/-- The same for several values. -/
structure YieldsAll (c : Compilation) (layout : Layout) (s s' : LowerState) (f : Frame)
    (vs : List Code.ValueId) (values : List Float) (m : Memory) (f' : Frame) : Prop where
  ready : Ready c layout s' m.cells f'
  numbers : f'.numbers? vs = some values
  defined : ∀ v : Nat, v ∈ vs → v < s'.builder.values
  same : f.SameBelow s.builder.values f'

variable {c : Compilation} {callees : Callees} {layout : Layout} {s s' : LowerState}
  {f f' : Frame} {m : Memory} {cells : List (String × Float)}

theorem Ready.advance (h : Ready c layout s cells f) (hgrows : s.Grows s')
    (hposition : f'.At c.procedure s'.builder) (hslots : f'.slots = f.slots) :
    Ready c layout s' cells f' :=
  ⟨hgrows.named h.named, h.placed.grows hgrows, hposition, hslots ▸ h.kept⟩

/-- What follows an execution keeps the registers that the execution kept. -/
theorem Yields.after {s₀ : LowerState} {f₀ : Frame} {v : Code.ValueId} {value : Float}
    (h : Yields c layout s s' f v value m f') (hsame : f₀.SameBelow s₀.builder.values f)
    (hgrows : s₀.Grows s) : Yields c layout s₀ s' f₀ v value m f' :=
  ⟨h.ready, h.number, h.defined, hsame.trans h.same hgrows.builder.values⟩

namespace Ready

/-- An operation that is not a call. -/
theorem computes {operation : Code.Operation} {datum : Datum} (h : Ready c layout s cells f)
    (hfits : (s.built (s.builder.define operation).2).Fits c)
    (hvalue : f.compute? operation = some datum) :
    ∃ f', f.step = .next f' ∧
      Ready c layout (s.built (s.builder.define operation).2) cells f' ∧
      f'.registers = f.registers.set s.builder.values datum := by
  obtain ⟨f', hstep, hat, hregisters, hslots⟩ := h.position.computes hfits.within hvalue
  exact ⟨f', hstep, h.advance (.emits (.define operation)) hat hslots, hregisters⟩

/-- A frame that has put a number in the next register. -/
theorem yields {operation : Code.Operation} {x : Float} (h : Ready c layout s cells f)
    (hat : f'.At c.procedure (s.builder.define operation).2)
    (hregisters : f'.registers = f.registers.set s.builder.values (.number x))
    (hslots : f'.slots = f.slots) (hcells : m.cells = cells) :
    Yields c layout s (s.built (s.builder.define operation).2) f s.builder.values x m f' := by
  refine ⟨?_, Frame.number?_of_set hregisters, Nat.lt_succ_self _, ?_⟩
  · rw [hcells]
    exact h.advance (.emits (.define operation)) hat hslots
  · exact .of_set hregisters (Nat.le_refl _)

/-- An operation that computes a number. -/
theorem emits {operation : Code.Operation} {r : Computed} {x : Float}
    (h : Ready c layout s m.cells f) (hemit : Lower.emit operation s = .ok r s')
    (hfits : s'.Fits c) (hvalue : f.compute? operation = some (.number x)) :
    f.Meets c.unit callees m.events ((pure x : Evaluation Float) m)
      (Yields c layout s s' f r.value) := by
  obtain ⟨rfl, rfl⟩ := Lower.emit_ok.mp hemit
  obtain ⟨f', hstep, hat, hregisters, hslots⟩ := h.position.computes hfits.within hvalue
  exact .of_next hstep (.pure (h.yields hat hregisters hslots rfl))

/-- A value is compared with zero. -/
theorem tests {value : Code.ValueId} {x : Float} (h : Ready c layout s cells f)
    (hfits : (s.built (s.builder.test value)).Fits c) (hvalue : f.number? value = some x)
    (hdefined : value < s.builder.values) (events : List Event) :
    ∃ f', f.Reaches c.unit callees events f' events ∧
      Ready c layout (s.built (s.builder.test value)) cells f' ∧
      f'.registers.get? (s.builder.values + 1) = some (.flag (truth x)) ∧
      f.SameBelow s.builder.values f' := by
  have hfits₁ : (s.built (s.builder.define (.number 0)).2).Fits c := hfits.of_define (s := s.built _)
  obtain ⟨f₁, hstep₁, hready₁, hregisters₁⟩ := h.computes hfits₁ rfl
  have hsame₁ : f.SameBelow s.builder.values f₁ := .of_set hregisters₁ (Nat.le_refl _)
  have hzero : f₁.number? s.builder.values = some 0 := Frame.number?_of_set hregisters₁
  have hcompare : f₁.compute? (.compare .distinct value s.builder.values) =
      some (.flag (truth x)) := by
    simp only [Frame.compute?, hsame₁.number? hdefined, hvalue, hzero,
      Binary64.holds_distinct_zero, truth]
  obtain ⟨f₂, hstep₂, hready₂, hregisters₂⟩ := hready₁.computes hfits hcompare
  refine ⟨f₂, (Frame.Reaches.next hstep₁).trans (.next hstep₂), hready₂, ?_, ?_⟩
  · rw [hregisters₂, Numbered.get?_set]
    exact if_pos rfl
  · exact hsame₁.trans (.of_set hregisters₂ (Nat.le_refl _)) (Nat.le_succ _)

/-- A slot of a name is written when its cell is assigned. -/
theorem stores {name : String} {slot : Code.SlotId} {value : Code.ValueId} {x : Float}
    (h : Ready c layout s m.cells f) (hfits : (s.built (s.builder.storeSlot value slot)).Fits c)
    (hslot : s.scope.lookup name = some slot) (hvalue : f.number? value = some x) :
    f.Meets c.unit callees m.events (store name x m) fun _ m' f' =>
      Ready c layout (s.built (s.builder.storeSlot value slot)) m'.cells f' ∧
        f'.registers = f.registers := by
  have hgrows : s.Grows (s.built (s.builder.storeSlot value slot)) := .emits (.storeSlot _ _)
  obtain ⟨cells', hassign, hkept⟩ := h.kept.assign h.placed.nodup (h.placed.scope name ▸ hslot) x
  obtain ⟨f', hstep, hat, hregisters, hslots⟩ := h.position.stores hfits.within hvalue
  refine .of_next hstep ?_
  unfold store
  rw [hassign]
  refine ⟨f', .refl _ _, ⟨hgrows.named h.named, h.placed.grows hgrows, hat, ?_⟩, hregisters⟩
  rw [hslots]
  exact hkept

/-- A direct call goes to the function with the symbol of its declaration. -/
theorem callsDirect {external : Nat} {symbol : String} {args : List Code.ValueId}
    {xs : List Float} {r : Computed} (h : Ready c layout s m.cells f)
    (hleads : (Route.direct external).Leads s symbol)
    (hemit : Lower.emit (.call external args) s = .ok r s') (hfits : s'.Fits c)
    (hargs : f.numbers? args = some xs) :
    f.Meets c.unit callees m.events (call callees symbol xs m)
      (Yields c layout s s' f r.value) := by
  obtain ⟨rfl, rfl⟩ := Lower.emit_ok.mp hemit
  have hfits₀ := hfits.of_define
  obtain ⟨e, d, he, hd, hsymbol⟩ := hleads
  have hexternal := getElem?_of_prefix hfits₀.within.externals he
  obtain ⟨f', hstep, hat, hregisters, hslots⟩ :=
    h.position.callsDirect hfits.within hexternal hargs
  have hsite : c.unit.symbolAt? (.declaration e.declaration) = some symbol := by
    simp [CompilationUnit.symbolAt?, getElem?_of_prefix hfits₀.declarations hd, hsymbol]
  refine .call hstep hsite ?_
  intro value m' hcells
  refine h.yields ⟨hat.procedure, hat.block⟩ ?_ hslots hcells
  rw [← hregisters]
  rfl

/-- A call through a cell goes to the function with the symbol of the cell. -/
theorem callsThrough {signature : Nat} {code : Code.ValueId} {symbol : String}
    {args : List Code.ValueId} {xs : List Float} {r : Computed} (h : Ready c layout s m.cells f)
    (hemit : Lower.emit (.callThrough signature code args) s = .ok r s') (hfits : s'.Fits c)
    (hcode : f.registers.get? code = some (.code symbol)) (hargs : f.numbers? args = some xs) :
    f.Meets c.unit callees m.events (call callees symbol xs m)
      (Yields c layout s s' f r.value) := by
  obtain ⟨rfl, rfl⟩ := Lower.emit_ok.mp hemit
  obtain ⟨f', hstep, hat, hregisters, hslots⟩ :=
    h.position.callsThrough hfits.within hcode hargs
  refine .call hstep rfl ?_
  intro value m' hcells
  refine h.yields ⟨hat.procedure, hat.block⟩ ?_ hslots hcells
  rw [← hregisters]
  rfl

/-- A callee is called by its symbol, whatever its route. -/
theorem calls {around : Surroundings} (hkeyed : around.registry.Keyed) {callee : Callee}
    {missing : LowerError} {args : List Code.ValueId} {xs : List Float} {r : Computed}
    (h : Ready c layout s m.cells f)
    (hcall : Lower.callOrThrow around callee missing args s = .ok r s') (hfits : s'.Fits c)
    (hargs : f.numbers? args = some xs)
    (hdefined : ∀ v : Nat, v ∈ args → v < s.builder.values) :
    f.Meets c.unit callees m.events (call callees callee.symbol xs m)
      (Yields c layout s s' f r.value) := by
  obtain ⟨route, s₁, hroute, hcall⟩ := Lower.callOrThrow_ok.mp hcall
  obtain ⟨hgrows, hleads, hvalues, hcurrent, hbody⟩ :=
    Lower.route?_leads hkeyed hroute h.named
  have hready : Ready c layout s₁ m.cells f :=
    h.advance hgrows (h.position.congr hcurrent hbody) rfl
  cases route with
  | direct external =>
      refine (hready.callsDirect hleads (Lower.call_direct_ok.mp hcall) hfits hargs).imp ?_
      intro value m' f' hyields
      exact hyields.after (.refl _ _) hgrows
  | throughCell symbol signature =>
      obtain rfl : symbol = callee.symbol := hleads
      have hemit := Lower.call_throughCell_ok.mp hcall
      have hfits₂ := hfits.of_emit hemit
      have hfits₁ : (s₁.built (s₁.builder.define (.cell callee.symbol)).2).Fits c :=
        hfits₂.of_define (s := s₁.built _)
      obtain ⟨f₁, hstep₁, hready₁, hregisters₁⟩ := hready.computes hfits₁ rfl
      have hcell : f₁.compute? (.loadCell s₁.builder.values) = some (.code callee.symbol) := by
        simp [Frame.compute?, hregisters₁, Numbered.get?_set]
      obtain ⟨f₂, hstep₂, hready₂, hregisters₂⟩ := hready₁.computes hfits₂ hcell
      have hsame₁ : f.SameBelow s₁.builder.values f₁ := .of_set hregisters₁ (Nat.le_refl _)
      have hsame : f.SameBelow s₁.builder.values f₂ :=
        hsame₁.trans (.of_set hregisters₂ (Nat.le_refl _)) (Nat.le_succ _)
      have hcode : f₂.registers.get? (s₁.builder.values + 1) = some (.code callee.symbol) := by
        rw [hregisters₂, Numbered.get?_set]
        exact if_pos rfl
      have hargs₂ : f₂.numbers? args = some xs := by
        rw [← hargs]
        exact hsame.numbers? (hvalues ▸ hdefined)
      refine .of_next hstep₁ (.of_next hstep₂ ?_)
      refine (hready₂.callsThrough hemit hfits hcode hargs₂).imp ?_
      intro value m' f' hyields
      have hemitted : s₁.Grows (s₁.built ((s₁.builder.define (.cell callee.symbol)).2.define
          (.loadCell s₁.builder.values)).2) :=
        .emits (.trans (.define _) (.define _))
      exact (hyields.after hsame hemitted).after (.refl _ _) hgrows

/-- An infix operator is an instruction or a call. -/
theorem infixOperator {around : Surroundings} (hkeyed : around.registry.Keyed) {op : Char}
    {left right : Code.ValueId} {a b : Float} {r : Computed} (h : Ready c layout s m.cells f)
    (hoperator : Lower.infixOperator around op left right s = .ok r s') (hfits : s'.Fits c)
    (ha : f.number? left = some a) (hb : f.number? right = some b)
    (hleft : left < s.builder.values) (hright : right < s.builder.values) :
    f.Meets c.unit callees m.events (applyInfix callees op a b m)
      (Yields c layout s s' f r.value) := by
  unfold Lower.infixOperator at hoperator
  split at hoperator
  · exact h.emits hoperator hfits (by simp [Frame.compute?, ha, hb, Code.Arithmetic.apply])
  · exact h.emits hoperator hfits (by simp [Frame.compute?, ha, hb, Code.Arithmetic.apply])
  · exact h.emits hoperator hfits (by simp [Frame.compute?, ha, hb, Code.Arithmetic.apply])
  · simp only [Lower.bind_ok, Lower.define_ok] at hoperator
    obtain ⟨_, _, ⟨rfl, rfl⟩, _, _, ⟨rfl, rfl⟩, hemit⟩ := hoperator
    have hfits₂ := hfits.of_emit hemit
    have hcompare : f.compute? (.compare .less left right) =
        some (.flag (decide (a < b) || a.isNaN || b.isNaN)) := by
      simp only [Frame.compute?, ha, hb, Binary64.holds_less]
    obtain ⟨f₁, hstep₁, hready₁, hregisters₁⟩ :=
      h.computes (hfits₂.of_define (s := s.built _)) hcompare
    have hextend : f₁.compute? (.extend s.builder.values) =
        some (.word (decide (a < b) || a.isNaN || b.isNaN).toUInt64) := by
      simp [Frame.compute?, hregisters₁, Numbered.get?_set]
    obtain ⟨f₂, hstep₂, hready₂, hregisters₂⟩ := hready₁.computes hfits₂ hextend
    have hconvert : f₂.compute? (.convert (s.builder.values + 1)) =
        some (.number (less a b)) := by
      have hword : f₂.registers.get? (s.builder.values + 1) =
          some (.word (decide (a < b) || a.isNaN || b.isNaN).toUInt64) := by
        rw [hregisters₂, Numbered.get?_set]
        exact if_pos rfl
      simp only [Frame.compute?, hword, less]
      cases decide (a < b) || a.isNaN || b.isNaN with
      | false => rfl
      | true => rfl
    refine .of_next hstep₁ (.of_next hstep₂ ?_)
    refine (hready₂.emits hemit hfits hconvert).imp ?_
    intro value m' f' hyields
    have hsame₁ : f.SameBelow s.builder.values f₁ := .of_set hregisters₁ (Nat.le_refl _)
    have hsame₂ : f₁.SameBelow (s.builder.values + 1) f₂ := .of_set hregisters₂ (Nat.le_refl _)
    exact hyields.after (hsame₁.trans hsame₂ (Nat.le_succ _)) (.emits (.trans (.define _) (.define _)))
  · next hadd hsub hmul hless =>
    have happly : applyInfix callees op a b = call callees (Callee.binary op).symbol [a, b] := by
      unfold applyInfix
      split
      · exact absurd rfl hadd
      · exact absurd rfl hsub
      · exact absurd rfl hmul
      · exact absurd rfl hless
      · rfl
    have hargs : f.numbers? [left, right] = some [a, b] := by
      simp [Frame.numbers?, ha, hb]
    rw [happly]
    refine h.calls hkeyed hoperator hfits hargs ?_
    intro v hv
    rcases List.mem_cons.mp hv with rfl | hv
    · exact hleft
    · exact List.mem_singleton.mp hv ▸ hright

/-- A name is bound to a slot that no other name has, once its value has been stored there. -/
theorem binds {slot : Code.SlotId} {value : Code.ValueId} {x : Float} (h : Ready c layout s cells f)
    (hfits : (s.built (s.builder.storeSlot value slot)).Fits c) (hvalue : f.number? value = some x)
    (hfresh : slot ∉ layout.map Prod.snd) (hslot : slot < s.builder.slots) (name : String) :
    ∃ f', f.step = .next f' ∧
      Ready c ((name, slot) :: layout)
        ((s.built (s.builder.storeSlot value slot)).scoped (s.scope.bind name slot).1)
        ((name, x) :: cells) f' ∧
      f'.registers = f.registers := by
  have hgrows : s.Grows (s.built (s.builder.storeSlot value slot)) := .emits (.storeSlot _ _)
  have hnamed := hgrows.named h.named
  obtain ⟨f', hstep, hat, hregisters, hslots⟩ := h.position.stores hfits.within hvalue
  refine ⟨f', hstep, ⟨⟨hnamed.unit, hnamed.routes⟩, ?_, hat, ?_⟩, hregisters⟩
  · exact (h.placed.grows hgrows).bind (s := s.built _) name hfresh hslot
  · rw [hslots]
    exact h.kept.bind hfresh name x

/-- The step of a loop is added to what the slot of its name holds. -/
theorem advances {name : String} {slot : Code.SlotId} {step : Code.ValueId} {y : Float}
    (h : Ready c ((name, slot) :: layout) s cells f)
    (hfits : (s.built (s.builder.advance slot step)).Fits c) (hstep : f.number? step = some y)
    (hdefined : step < s.builder.values) (events : List Event) :
    ∃ x rest f', cells = (name, x) :: rest ∧ f.Reaches c.unit callees events f' events ∧
      Ready c ((name, slot) :: layout) (s.built (s.builder.advance slot step))
        ((name, x + y) :: rest) f' ∧
      f.SameBelow s.builder.values f' := by
  obtain ⟨x, rest, rfl, hslot⟩ : ∃ x rest, cells = (name, x) :: rest ∧
      f.slots.get? slot = some x := by
    cases h.kept with
    | cons hvalue hrest => exact ⟨_, _, rfl, hvalue⟩
  have hfits₂ : (s.built ((s.builder.define (.loadSlot slot)).2.define
      (.arithmetic .add s.builder.values step)).2).Fits c :=
    hfits.of_grows (.emits (s := s.built _) (.storeSlot _ _))
  have hload : f.compute? (.loadSlot slot) = some (.number x) := by
    simp [Frame.compute?, hslot]
  obtain ⟨f₁, hstep₁, hready₁, hregisters₁⟩ :=
    h.computes (hfits₂.of_define (s := s.built _)) hload
  have hsame₁ : f.SameBelow s.builder.values f₁ := .of_set hregisters₁ (Nat.le_refl _)
  have hadd : f₁.compute? (.arithmetic .add s.builder.values step) = some (.number (x + y)) := by
    simp only [Frame.compute?, Frame.number?_of_set hregisters₁, hsame₁.number? hdefined, hstep]
    rfl
  obtain ⟨f₂, hstep₂, hready₂, hregisters₂⟩ := hready₁.computes hfits₂ hadd
  have hsame₂ : f.SameBelow s.builder.values f₂ :=
    hsame₁.trans (.of_set hregisters₂ (Nat.le_refl _)) (Nat.le_succ _)
  obtain ⟨f₃, hstep₃, hat₃, hregisters₃, hslots₃⟩ :=
    hready₂.position.stores hfits.within (Frame.number?_of_set hregisters₂)
  refine ⟨x, rest, f₃, rfl,
    (Frame.Reaches.next hstep₁).trans ((Frame.Reaches.next hstep₂).trans (.next hstep₃)), ?_,
    hsame₂.trans (.of_eq hregisters₃) (Nat.le_refl _)⟩
  have hgrows : s.Grows (s.built (s.builder.advance slot step)) := .emits (.advance _ _ _)
  refine ⟨hgrows.named h.named, h.placed.grows hgrows, hat₃, ?_⟩
  have hnodup := List.nodup_cons.mp h.placed.nodup
  rw [hslots₃]
  exact hready₂.kept.tail.bind hnodup.1 name (x + y)

/-- A choice goes on in the block of one of its branches. -/
theorem chooses {t : LowerState} {b' : Code.Builder} {transfer : Code.Transfer}
    {value : Code.ValueId} {x : Float} (h : Ready c layout s cells f)
    (hfits : (s.built (s.builder.choose value)).Fits c) (hvalue : f.number? value = some x)
    (hdefined : value < s.builder.values) (hgrows : s.Grows t) (hfits' : t.Fits c)
    (hentered : t.builder =
      b'.enter transfer (if truth x then s.builder.blocks else s.builder.blocks + 1) [])
    (events : List Event) :
    ∃ f', f.Reaches c.unit callees events f' events ∧ Ready c layout t cells f' ∧
      f.SameBelow s.builder.values f' := by
  have hchoose : (s.built (s.builder.test value)).Grows (s.built (s.builder.choose value)) := by
    refine .emits (s := s.built _) (.trans .newBlock (.trans .newBlock ?_))
    exact .trans .newBlock (.trans .newParam (.enter _ _ _))
  obtain ⟨f₁, hreaches, hready, hflag, hsame⟩ :=
    h.tests (hfits.of_grows hchoose) hvalue hdefined events
  have hat : f₁.At c.procedure
      (s.builder.test value).newBlock.2.newBlock.2.newBlock.2.newParam.2 :=
    hready.position.congr rfl rfl
  have htarget : (b'.enter transfer
      (if truth x then s.builder.blocks else s.builder.blocks + 1) []).Within c.procedure := by
    rw [← hentered]
    exact hfits'.within
  obtain ⟨f₂, hstep, hat₂, hregisters, hslots⟩ := hat.branches hfits.within htarget hflag
  refine ⟨f₂, hreaches.trans (.next hstep), ⟨?_, ?_, ?_, ?_⟩, ?_⟩
  · exact hgrows.named h.named
  · exact h.placed.grows hgrows
  · rw [hentered]
    exact hat₂
  · rw [hslots]
    exact hready.kept
  · exact hsame.trans (.of_eq hregisters) (Nat.le_refl _)

end Ready

/-- The next step enters the block of a state.  Registers under a number are
those of an earlier frame. -/
def Enters (c : Compilation) (layout : Layout) (t : LowerState) (n : Nat) (f₀ : Frame)
    (m : Memory) (f : Frame) : Prop :=
  ∃ f', f.step = .next f' ∧ Ready c layout t m.cells f' ∧ f₀.SameBelow n f'

theorem Enters.after {t : LowerState} {n n' : Nat} {f₀ f₁ : Frame}
    (h : Enters c layout t n' f₁ m f) (hsame : f₀.SameBelow n f₁) (hle : n ≤ n') :
    Enters c layout t n f₀ m f := by
  obtain ⟨f', hstep, hready, hsame'⟩ := h
  exact ⟨f', hstep, hready, hsame.trans hsame' hle⟩

/-- When a name goes out of scope its cell goes. -/
theorem Enters.unbind {t t' : LowerState} {n : Nat} {f₀ : Frame} {name : String}
    {slot : Code.SlotId} (h : Enters c ((name, slot) :: layout) t n f₀ m f)
    (hbuilder : t'.builder = t.builder) (hnamed : t'.Named) (hplaced : t'.Placed layout) :
    Enters c layout t' n f₀ { m with cells := m.cells.tail } f := by
  obtain ⟨f', hstep, hready, hsame⟩ := h
  refine ⟨f', hstep, ⟨hnamed, hplaced, ?_, hready.kept.tail⟩, hsame⟩
  rw [hbuilder]
  exact hready.position

/-- Once the name of a loop has its first value, the block of the loop is entered. -/
theorem Ready.begins {slot : Code.SlotId} {start : Code.ValueId} {x : Float}
    (h : Ready c layout s m.cells f) (hfits : (s.built (s.builder.beginLoop start slot)).Fits c)
    (hstart : f.number? start = some x) (hfresh : slot ∉ layout.map Prod.snd)
    (hslot : slot < s.builder.slots) (name : String) :
    ∃ f', f.step = .next f' ∧
      Enters c ((name, slot) :: layout)
        ((s.built (s.builder.beginLoop start slot)).scoped (s.scope.bind name slot).1)
        s.builder.values f { m with cells := (name, x) :: m.cells } f' := by
  have hblock : (s.built (s.builder.storeSlot start slot)).Grows
      (s.built (s.builder.beginLoop start slot)) :=
    .emits (s := s.built _) (.trans .newBlock (.enter _ _ _))
  obtain ⟨f₁, hstep₁, hready, hregisters₁⟩ :=
    h.binds (hfits.of_grows hblock) hstart hfresh hslot name
  have hat : f₁.At c.procedure (s.builder.storeSlot start slot).newBlock.2 :=
    hready.position.congr rfl rfl
  obtain ⟨f₂, hstep₂, hat₂, hregisters₂, hslots⟩ :=
    hat.jumps hfits.within hfits.within rfl rfl
  have hscoped : ((s.built (s.builder.storeSlot start slot)).scoped
        (s.scope.bind name slot).1).Grows
      ((s.built (s.builder.beginLoop start slot)).scoped (s.scope.bind name slot).1) :=
    .emits (s := (s.built _).scoped _) (.trans .newBlock (.enter _ _ _))
  exact ⟨f₁, hstep₁, f₂, hstep₂, hready.advance hscoped hat₂ hslots,
    .of_eq (hregisters₂.trans hregisters₁)⟩

/-- After a test the block of the loop is entered again, or the one behind it. -/
theorem Ready.endsRound {t : LowerState} {b' : Code.Builder} {transfer : Code.Transfer}
    {slot : Code.SlotId} {step finish : Code.ValueId} {loop : Code.BlockId} {z : Float}
    (h : Ready c layout (s.built (s.builder.advance slot step)) m.cells f)
    (hfits : (s.built (s.builder.endLoop slot step finish loop)).Fits c)
    (hfinish : f.number? finish = some z) (hdefined : finish < s.builder.values)
    (hnamed : t.Named) (hplaced : t.Placed layout)
    (hentered : t.builder = b'.enter transfer (if truth z then loop else s.builder.blocks) [])
    (hfits' : t.Fits c) :
    ∃ f', f.Reaches c.unit callees m.events f' m.events ∧
      Enters c layout t s.builder.values f m f' := by
  have hend : (s.built ((s.builder.advance slot step).test finish)).Grows
      (s.built (s.builder.endLoop slot step finish loop)) :=
    .emits (s := s.built _) (.trans .newBlock (.enter _ _ _))
  have hvalues : finish < (s.builder.advance slot step).values :=
    Nat.lt_of_lt_of_le hdefined (Code.Builder.Emits.advance _ _ _).grows.values
  obtain ⟨f₁, hreaches, hready, hflag, hsame⟩ :=
    h.tests (hfits.of_grows hend) hfinish hvalues m.events
  have hat : f₁.At c.procedure ((s.builder.advance slot step).test finish).newBlock.2 :=
    hready.position.congr rfl rfl
  have htarget : (b'.enter transfer
      (if truth z then loop else s.builder.blocks) []).Within c.procedure := by
    rw [← hentered]
    exact hfits'.within
  obtain ⟨f₂, hstep, hat₂, hregisters, hslots⟩ := hat.branches hfits.within htarget hflag
  refine ⟨f₁, hreaches, f₂, hstep, ⟨hnamed, hplaced, ?_, ?_⟩, ?_⟩
  · rw [hentered]
    exact hat₂
  · rw [hslots]
    exact hready.kept
  · intro w hw
    have hw' : w < (s.builder.advance slot step).values := Nat.lt_add_right 2 hw
    rw [hregisters]
    exact hsame w hw'

/-- A jump passes a value on to the block where it is needed. -/
theorem Yields.jumps {s₀ t : LowerState} {b' : Code.Builder} {transfer : Code.Transfer}
    {v param : Nat} {x : Float} {f₀ : Frame} {target next : Code.BlockId}
    {params : List Code.ValueId} (h : Yields c layout s₀ s f₀ v x m f)
    (hin : (s.builder.enter (.jump target [v]) next params).Within c.procedure)
    (hgrows : s.Grows t) (hfits : t.Fits c) (hentered : t.builder = b'.enter transfer target [param])
    (hfresh : s₀.builder.values ≤ param) (hdefined : param < b'.values) :
    ∃ f', f.Reaches c.unit callees m.events f' m.events ∧
      Yields c layout s₀ t f₀ param x m f' := by
  have htarget : (b'.enter transfer target [param]).Within c.procedure := by
    rw [← hentered]
    exact hfits.within
  have hargs : f.numbers? [v] = some [x] := by
    simp [Frame.numbers?, h.number]
  obtain ⟨f', hstep, hat, hregisters, hslots⟩ :=
    h.ready.position.jumps hin htarget hargs rfl
  refine ⟨f', .next hstep, h.ready.advance hgrows ?_ hslots, ?_, ?_, ?_⟩
  · rw [hentered]
    exact hat
  · exact Frame.number?_of_set hregisters
  · rw [hentered]
    exact hdefined
  · exact h.same.trans (.of_set hregisters hfresh) (Nat.le_refl _)

end Reckon
