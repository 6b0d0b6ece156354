import Reckon.Proofs.Meaning.Ready

/-!
# Code generation preserves meaning

Executing what an expression was lowered to comes to what evaluating the
expression comes to (`Preserved`).  The proof is an induction over expressions
with one lemma for each form.  A compiled function therefore returns a number
after making some calls exactly if its evaluation does
(`compile_execute_iff_evaluate`), for any behaviour of what it calls.
-/

namespace Reckon

open Evaluation

/-- Executing a lowered expression meets its evaluation. -/
def Preserved (around : Surroundings) (callees : Callees) (c : Compilation) (e : Expr) : Prop :=
  ∀ ⦃layout s s' r m f⦄, Lower.expr around e s = .ok r s' → s'.Fits c →
    Ready c layout s m.cells f →
    Frame.Meets c.unit callees f m.events (e.evaluate callees m) (Yields c layout s s' f r.value)

namespace Preserved

variable {around : Surroundings} {callees : Callees} {c : Compilation} {layout : Layout}
  {s s' : LowerState} {m : Memory} {f : Frame}

theorem number (value : Float) : Preserved around callees c (.number value) := by
  intro layout s s' r m f hlower hfits hready
  rw [Expr.evaluate]
  exact hready.emits (Lower.expr_number_ok.mp hlower) hfits rfl

theorem var (name : String) : Preserved around callees c (.var name) := by
  intro layout s s' r m f hlower hfits hready
  obtain ⟨slot, hslot, hemit⟩ := Lower.expr_var_ok.mp hlower
  obtain ⟨value, hcell, hkept⟩ := hready.kept.lookup (hready.placed.scope name ▸ hslot)
  have hfetch : (Expr.var name).evaluate callees m = (pure value : Evaluation Float) m := by
    rw [Expr.evaluate, fetch, hcell]
    rfl
  rw [hfetch]
  exact hready.emits hemit hfits (by simp [Frame.compute?, hkept])

theorem unary (hkeyed : around.registry.Keyed) (op : Char) {operand : Expr}
    (ih : Preserved around callees c operand) :
    Preserved around callees c (.unary op operand) := by
  intro layout s s' r m f hlower hfits hready
  obtain ⟨v, s₁, hv, hcall⟩ := Lower.expr_unary_ok.mp hlower
  have hgrows : s.Grows s₁ := (Lower.respected_grows hkeyed).expr operand hv
  have hrest : s₁.Grows s' := (Lower.respected_grows hkeyed).callOrThrow hcall
  rw [Expr.evaluate]
  refine .bind (ih hv (hfits.of_grows hrest) hready) ?_
  intro value m₁ f₁ hyields
  have hargs : f₁.numbers? [v.value] = some [value] := by
    simp [Frame.numbers?, hyields.number]
  refine (hyields.ready.calls hkeyed hcall hfits hargs ?_).imp ?_
  · intro w hw
    exact List.mem_singleton.mp hw ▸ hyields.defined
  · intro value' m' f' hyields'
    exact hyields'.after hyields.same hgrows

theorem assign (hkeyed : around.registry.Keyed) {left right : Expr}
    (ih : Preserved around callees c right) :
    Preserved around callees c (.binary '=' left right) := by
  intro layout s s' r m f hlower hfits hready
  obtain ⟨name, slot, s₁, rfl, hr, hslot, rfl⟩ := Lower.expr_assign_ok.mp hlower
  have hgrows : s.Grows s₁ := (Lower.respected_grows hkeyed).expr right hr
  have hstore : s₁.Grows (s₁.built (s₁.builder.storeSlot r.value slot)) := .emits (.storeSlot _ _)
  rw [Expr.evaluate, if_pos rfl]
  refine .bind (ih hr (hfits.of_grows hstore) hready) ?_
  intro value m₁ f₁ hyields
  refine .bind (hyields.ready.stores hfits hslot hyields.number) ?_
  intro _ m₂ f₂ hstored
  have hsame : f₁.SameBelow s₁.builder.values f₂ := .of_eq hstored.2
  refine .pure ⟨hstored.1, ?_, hyields.defined, hyields.same.trans hsame hgrows.builder.values⟩
  rw [hsame.number? hyields.defined]
  exact hyields.number

theorem binary (hkeyed : around.registry.Keyed) {op : Char} {left right : Expr} (hop : op ≠ '=')
    (ihl : Preserved around callees c left) (ihr : Preserved around callees c right) :
    Preserved around callees c (.binary op left right) := by
  intro layout s s' r m f hlower hfits hready
  obtain ⟨a, s₁, b, s₂, ha, hb, hoperator⟩ := (Lower.expr_binary_ok hop).mp hlower
  have hgrows₁ : s.Grows s₁ := (Lower.respected_grows hkeyed).expr left ha
  have hgrows₂ : s₁.Grows s₂ := (Lower.respected_grows hkeyed).expr right hb
  have hgrows₃ : s₂.Grows s' := (Lower.respected_grows hkeyed).infixOperator hoperator
  have hfits₂ := hfits.of_grows hgrows₃
  rw [Expr.evaluate_binary callees hop]
  refine .bind (ihl ha (hfits₂.of_grows hgrows₂) hready) ?_
  intro x m₁ f₁ hx
  refine .bind (ihr hb hfits₂ hx.ready) ?_
  intro y m₂ f₂ hy
  -- the left value is still in its register when the right one has been computed
  have hleft : f₂.number? a.value = some x := by
    rw [hy.same.number? hx.defined]
    exact hx.number
  have hdefined : a.value < s₂.builder.values :=
    Nat.lt_of_lt_of_le hx.defined hgrows₂.builder.values
  refine (hy.ready.infixOperator hkeyed hoperator hfits hleft hy.number hdefined hy.defined).imp ?_
  intro value m' f' hyields
  exact (hyields.after hy.same hgrows₂).after hx.same hgrows₁

/-- Arguments are evaluated from left to right, and stay in their registers. -/
theorem arguments (hkeyed : around.registry.Keyed) {args : List Expr}
    (ih : ∀ arg ∈ args, Preserved around callees c arg) {vs : List Code.ValueId}
    (hlower : Lower.arguments around args s = .ok vs s') (hfits : s'.Fits c)
    (hready : Ready c layout s m.cells f) :
    f.Meets c.unit callees m.events (evaluateAll callees args m)
      (YieldsAll c layout s s' f vs) := by
  induction args generalizing s m f vs with
  | nil =>
      obtain ⟨rfl, rfl⟩ := Lower.arguments_nil_ok.mp hlower
      rw [evaluateAll]
      exact .pure ⟨hready, rfl, by simp, .refl _ _⟩
  | cons arg args ihargs =>
      obtain ⟨v, s₁, others, hv, hothers, rfl⟩ := Lower.arguments_cons_ok.mp hlower
      have hgrows : s.Grows s₁ := (Lower.respected_grows hkeyed).expr arg hv
      have hrest : s₁.Grows s' := (Lower.respected_grows hkeyed).arguments
        (fun arg _ => (Lower.respected_grows hkeyed).expr arg) hothers
      rw [evaluateAll]
      refine .bind (ih arg List.mem_cons_self hv (hfits.of_grows hrest) hready) ?_
      intro x m₁ f₁ hx
      have ihrest := ihargs (fun other hother => ih other (List.mem_cons_of_mem _ hother))
        hothers hx.ready
      refine .bind ihrest ?_
      intro xs m₂ f₂ hxs
      refine .pure ⟨hxs.ready, ?_, ?_, hx.same.trans hxs.same hgrows.builder.values⟩
      · simp only [Frame.numbers?, hxs.same.number? hx.defined, hx.number, hxs.numbers]
      · intro w hw
        rcases List.mem_cons.mp hw with rfl | hw
        · exact Nat.lt_of_lt_of_le hx.defined hrest.builder.values
        · exact hxs.defined w hw

theorem call (hkeyed : around.registry.Keyed) (name : String) {args : List Expr}
    (ih : ∀ arg ∈ args, Preserved around callees c arg) :
    Preserved around callees c (.call name args) := by
  intro layout s s' r m f hlower hfits hready
  obtain ⟨-, vs, s₁, hargs, hcall⟩ := Lower.expr_call_ok.mp hlower
  have hgrows : s.Grows s₁ := (Lower.respected_grows hkeyed).arguments
    (fun arg _ => (Lower.respected_grows hkeyed).expr arg) hargs
  have hrest : s₁.Grows s' := (Lower.respected_grows hkeyed).callOrThrow hcall
  rw [Expr.evaluate]
  refine .bind (arguments hkeyed ih hargs (hfits.of_grows hrest) hready) ?_
  intro xs m₁ f₁ hxs
  refine (hxs.ready.calls hkeyed hcall hfits hxs.numbers hxs.defined).imp ?_
  intro value m' f' hyields
  exact hyields.after hxs.same hgrows

theorem valueOr {value? : Option Expr} (ih : ∀ value ∈ value?, Preserved around callees c value)
    {otherwise : Float} {v : Code.ValueId}
    (hlower : Lower.valueOr around otherwise value? s = .ok v s') (hfits : s'.Fits c)
    (hready : Ready c layout s m.cells f) :
    f.Meets c.unit callees m.events (evaluateOr callees otherwise value? m)
      (Yields c layout s s' f v) := by
  cases value? with
  | none =>
      obtain ⟨rfl, rfl⟩ := Lower.define_ok.mp (Lower.valueOr_none_ok.mp hlower)
      rw [evaluateOr]
      exact hready.emits (Lower.emit_ok.mpr ⟨rfl, rfl⟩) hfits rfl
  | some value =>
      obtain ⟨r, hr, rfl⟩ := Lower.valueOr_some_ok.mp hlower
      rw [evaluateOr]
      exact ih value rfl hr hfits hready

/-- A choice takes one branch, and both branches meet where its value is. -/
theorem cond (hkeyed : around.registry.Keyed) {condition thenBranch elseBranch : Expr}
    (ihc : Preserved around callees c condition) (iht : Preserved around callees c thenBranch)
    (ihe : Preserved around callees c elseBranch) :
    Preserved around callees c (.cond condition thenBranch elseBranch) := by
  intro layout s s' r m f hlower hfits hready
  obtain ⟨v, s₁, t, s₂, e, s₃, hv, ht, -, he, -, rfl, rfl⟩ := Lower.expr_cond_ok.mp hlower
  have hR := Lower.respected_grows hkeyed
  have hgrows : s.Grows s₁ := hR.expr condition hv
  have htest : s₁.Grows (s₁.built (s₁.builder.test v.value)) := .emits (.test _ _)
  have hchoose : s₁.Grows (s₁.built (s₁.builder.choose v.value)) := .emits (.choose _ _)
  have hthen := hR.expr thenBranch ht
  have henter : s₂.Grows (s₂.built (s₂.builder.enter (.jump (s₁.builder.blocks + 2) [t.value])
    (s₁.builder.blocks + 1) [])) := .emits (.enter _ _ _)
  have helse := hR.expr elseBranch he
  have hjoin : s₃.Grows (s₃.built (s₃.builder.enter (.jump (s₁.builder.blocks + 2) [e.value])
    (s₁.builder.blocks + 2) [s₁.builder.values + 2])) := .emits (.enter _ _ _)
  have hfits₃ := hfits.of_grows hjoin
  have hfitsElse := hfits₃.of_grows helse
  have hfits₂ := hfitsElse.of_grows henter
  have hfitsThen := hfits₂.of_grows hthen
  rw [Expr.evaluate]
  refine .bind (ihc hv (hfitsThen.of_grows hchoose) hready) ?_
  intro x m₁ f₁ hx
  have hparam : s.builder.values ≤ s₁.builder.values + 2 :=
    Nat.le_trans hgrows.builder.values (Nat.le_add_right _ 2)
  have hvalues₂ : s₁.builder.values + 3 ≤ s₂.builder.values := hthen.builder.values
  have hvalues₃ : s₂.builder.values ≤ s₃.builder.values := helse.builder.values
  cases htruth : truth x with
  | true =>
      obtain ⟨f₂, hreaches, hready₂, hsame₂⟩ :=
        hx.ready.chooses hfitsThen hx.number hx.defined hchoose hfitsThen
          (by rw [htruth]; rfl) m₁.events
      simp only [if_true]
      refine .of_reaches hreaches ((iht ht hfits₂ hready₂).continues ?_)
      intro y m₂ f₃ hy
      have hyields := (hy.after hsame₂ hchoose).after hx.same hgrows
      exact hyields.jumps hfitsElse.within (henter.trans (helse.trans hjoin)) hfits rfl hparam
        (by omega)
  | false =>
      have hskip := hchoose.trans (hthen.trans henter)
      obtain ⟨f₂, hreaches, hready₂, hsame₂⟩ :=
        hx.ready.chooses hfitsThen hx.number hx.defined hskip hfitsElse
          (by rw [htruth]; rfl) m₁.events
      simp only [Bool.false_eq_true, if_false]
      refine .of_reaches hreaches ((ihe he hfits₃ hready₂).continues ?_)
      intro y m₂ f₃ hy
      have hyields := (hy.after hsame₂ hskip).after hx.same hgrows
      exact hyields.jumps hfits.within hjoin hfits rfl hparam (by omega)

/-- One round of a loop.  The name grows after the end has been evaluated, and
the next step goes back to where the round began or leaves the loop. -/
theorem round (hkeyed : around.registry.Keyed) {name : String} {slot : Code.SlotId}
    {finish body : Expr} {step : Option Expr} {begun s₂ s₃ s₄ : LowerState} {b r : Computed}
    {v : Code.ValueId} {loop : Code.BlockId} {b' : Code.Builder} {transfer : Code.Transfer}
    (ihb : Preserved around callees c body)
    (ihstep : ∀ value ∈ step, Preserved around callees c value)
    (ihf : Preserved around callees c finish)
    (hb : Lower.expr around body begun = .ok b s₂)
    (hv : Lower.valueOr around 1 step s₂ = .ok v s₃)
    (hf : Lower.expr around finish s₃ = .ok r s₄)
    (hfits : (s₄.built (s₄.builder.endLoop slot v r.value loop)).Fits c)
    (hentered : begun.builder = b'.enter transfer loop [])
    (hready : Ready c ((name, slot) :: layout) begun m.cells f) :
    f.Meets c.unit callees m.events
      ((do
        let _ ← body.evaluate callees
        let step ← evaluateOr callees 1 step
        let finish ← finish.evaluate callees
        let current ← fetch name
        store name (current + step)
        return truth finish : Evaluation Bool) m)
      fun goOn m' f' =>
        if goOn then Enters c ((name, slot) :: layout) begun begun.builder.values f m' f'
        else Enters c ((name, slot) :: layout)
          (s₄.built (s₄.builder.endLoop slot v r.value loop)) begun.builder.values f m' f' := by
  have hR := Lower.respected_grows hkeyed
  have hbody : begun.Grows s₂ := hR.expr body hb
  have hstep : s₂.Grows s₃ := hR.valueOr (fun value _ => hR.expr value) hv
  have hfinish : s₃.Grows s₄ := hR.expr finish hf
  have hend : s₄.Grows (s₄.built (s₄.builder.endLoop slot v r.value loop)) :=
    .emits (.endLoop _ _ _ _ _)
  have hfits₄ := hfits.of_grows hend
  have hfits₃ := hfits₄.of_grows hfinish
  have hfits₂ := hfits₃.of_grows hstep
  refine .bind (ihb hb hfits₂ hready) ?_
  intro x m₁ f₁ hx
  refine .bind (valueOr ihstep hv hfits₃ hx.ready) ?_
  intro y m₂ f₂ hy
  refine .bind (ihf hf hfits₄ hy.ready) ?_
  intro z m₃ f₃ hz
  have hadvance : (s₄.built (s₄.builder.advance slot v)).Grows
      (s₄.built (s₄.builder.endLoop slot v r.value loop)) :=
    .emits (s := s₄.built _) (.trans (.test _ _) (.trans .newBlock (.enter _ _ _)))
  have hstepNumber : f₃.number? v = some y := by
    rw [hz.same.number? hy.defined]
    exact hy.number
  have hstepDefined : v < s₄.builder.values :=
    Nat.lt_of_lt_of_le hy.defined hfinish.builder.values
  obtain ⟨w, rest, f₄, hcells, hreaches, hready₄, hsame₄⟩ :=
    hz.ready.advances (hfits.of_grows hadvance) hstepNumber hstepDefined m₃.events
  have hresult : (do
      let current ← fetch name
      store name (current + y)
      return truth z : Evaluation Bool) m₃ =
        some (truth z, ⟨(name, w + y) :: rest, m₃.events⟩) := by
    simp [bind_apply, map_apply, fetch, store, hcells, Evaluation.assign]
  have hsame : f.SameBelow begun.builder.values f₄ := by
    have hsame₂ := hx.same.trans hy.same hbody.builder.values
    have hsame₃ := hsame₂.trans hz.same (hbody.trans hstep).builder.values
    exact hsame₃.trans hsame₄ (hbody.trans (hstep.trans hfinish)).builder.values
  have hfinishNumber : f₄.number? r.value = some z := by
    rw [hsame₄.number? hz.defined]
    exact hz.number
  have hle := (hbody.trans (hstep.trans hfinish)).builder.values
  rw [hresult]
  cases htruth : truth z with
  | true =>
      obtain ⟨f₅, hreaches', henters⟩ := hready₄.endsRound
        (m := ⟨(name, w + y) :: rest, m₃.events⟩) hfits hfinishNumber hz.defined
        hready.named hready.placed (by rw [htruth]; exact hentered)
        (hfits₂.of_grows hbody)
      exact ⟨f₅, hreaches.trans hreaches', henters.after hsame hle⟩
  | false =>
      obtain ⟨f₅, hreaches', henters⟩ := hready₄.endsRound
        (m := ⟨(name, w + y) :: rest, m₃.events⟩) hfits hfinishNumber hz.defined
        (hend.named hz.ready.named) (hz.ready.placed.grows hend) (by rw [htruth]; rfl) hfits
      exact ⟨f₅, hreaches.trans hreaches', henters.after hsame hle⟩

/-- A loop is executed round by round.  Before each round the frame is about to
enter the block of the loop, with the cell of its name in the slot of the loop. -/
theorem loop (hkeyed : around.registry.Keyed) {name : String} {start finish body : Expr}
    {step : Option Expr} (ihs : Preserved around callees c start)
    (ihf : Preserved around callees c finish)
    (ihstep : ∀ value ∈ step, Preserved around callees c value)
    (ihb : Preserved around callees c body) :
    Preserved around callees c (.loop name start finish step body) := by
  intro layout s s' r m f hlower hfits hready
  obtain ⟨a, s₁, b, s₂, v, s₃, e, s₄, ha, hb, hv, hf, hr⟩ := Lower.expr_loop_ok.mp hlower
  have hR := Lower.respected_grows hkeyed
  have hslot : s.Grows (s.built s.builder.newSlot.2) := .emits .newSlot
  have hstart : (s.built s.builder.newSlot.2).Grows s₁ := hR.expr start ha
  have hbegin : s₁.Grows (s₁.built (s₁.builder.beginLoop a.value s.builder.slots)) :=
    .emits (.beginLoop _ _ _)
  have hround := (hR.expr body hb).trans
    ((hR.valueOr (fun value _ => hR.expr value) hv).trans (hR.expr finish hf))
  have hend : s₄.Grows (s₄.built
      (s₄.builder.endLoop s.builder.slots v e.value s₁.builder.blocks)) :=
    .emits (.endLoop _ _ _ _ _)
  have hleft := LowerState.Grows.binds (s := s₁.built _) name s.builder.slots (hround.trans hend)
  have hfitsLeft := hfits.of_emit hr
  have hfitsEnd : (s₄.built
      (s₄.builder.endLoop s.builder.slots v e.value s₁.builder.blocks)).Fits c :=
    ⟨hfitsLeft.within, hfitsLeft.declarations⟩
  have hfitsBegin := hfitsLeft.of_grows hleft
  have hready₁ : Ready c layout (s.built s.builder.newSlot.2) m.cells f :=
    hready.advance hslot (hready.position.congr rfl rfl) rfl
  rw [Expr.evaluate]
  refine .bind (ihs ha (hfitsBegin.of_grows hbegin) hready₁) ?_
  intro x m₁ f₁ hx
  have hplaced := hx.ready.placed.grows hbegin
  have hnamed := hbegin.named hx.ready.named
  obtain ⟨f₂, hstep₂, hagain⟩ := hx.ready.begins hfitsBegin hx.number
    (hready.placed.fresh (Nat.le_refl s.builder.slots)) hstart.builder.slots name
  have hloop : f₁.Meets c.unit callees m₁.events
      (within name x (repeatWhile do
        let _ ← body.evaluate callees
        let step ← evaluateOr callees 1 step
        let finish ← finish.evaluate callees
        let current ← fetch name
        store name (current + step)
        return truth finish) m₁)
      fun _ m' f' => Enters c layout
        ((s₄.built (s₄.builder.endLoop s.builder.slots v e.value s₁.builder.blocks)).scoped
          (s₄.scope.restore (s₁.scope.bind name s.builder.slots).2)) s₁.builder.values f₁ m' f' := by
    refine .of_next hstep₂ (.within (.repeatWhile ?_ hagain))
    intro m' f' hprevious
    obtain ⟨f'', hstep, hready', hsame⟩ := hprevious
    refine ⟨f'', hstep, (round hkeyed ihb ihstep ihf hb hv hf hfitsEnd rfl hready').imp ?_⟩
    intro goOn m'' g hpost
    cases goOn with
    | true => exact Enters.after hpost hsame (Nat.le_refl _)
    | false =>
        have hexit := Enters.after hpost hsame (Nat.le_refl _)
        exact hexit.unbind rfl (hleft.named hnamed) (hplaced.grows hleft)
  refine .bind hloop ?_
  intro _ m₂ f₃ hexit
  obtain ⟨f₄, hstep₄, hready₄, hsame₄⟩ := hexit
  refine .of_next hstep₄ ((hready₄.emits hr hfits rfl).imp ?_)
  intro value m' f' hyields
  have hyields₁ := hyields.after hsame₄ (hbegin.trans hleft)
  exact (hyields₁.after hx.same hstart).after (.refl _ _) hslot

/-- New names are bound one after the other, each to a slot of its own. -/
theorem locals (hkeyed : around.registry.Keyed) {bindings : List (String × Option Expr)}
    {body : Expr}
    (ihbindings : ∀ binding ∈ bindings, ∀ value ∈ binding.2, Preserved around callees c value)
    (ihbody : Preserved around callees c body) {r : Computed}
    (hlower : Lower.locals around (Lower.expr around body) bindings s = .ok r s')
    (hfits : s'.Fits c) (hready : Ready c layout s m.cells f) :
    f.Meets c.unit callees m.events (evaluateLocals callees (body.evaluate callees) bindings m)
      (Yields c layout s s' f r.value) := by
  induction bindings generalizing s s' m f layout with
  | nil =>
      rw [evaluateLocals]
      exact ihbody hlower hfits hready
  | cons binding bindings ih =>
      obtain ⟨name, initial⟩ := binding
      obtain ⟨v, s₁, s₂, hv, hrest, rfl⟩ := Lower.locals_cons_ok.mp hlower
      have hR := Lower.respected_grows hkeyed
      have hinitial : s.Grows s₁ := hR.valueOr (fun value _ => hR.expr value) hv
      have hstore : s₁.Grows (s₁.built (s₁.builder.newSlot.2.storeSlot v s₁.builder.slots)) :=
        .emits (.trans .newSlot (.storeSlot _ _))
      have hinner := hR.locals (fun _ _ value _ => hR.expr value) (hR.expr body) hrest
      have hleft := LowerState.Grows.binds (s := s₁.built _) name s₁.builder.slots hinner
      have hfitsStore := hfits.of_grows hleft
      rw [evaluateLocals]
      refine .bind (valueOr (ihbindings _ List.mem_cons_self) hv
        (hfitsStore.of_grows hstore) hready) ?_
      intro x m₁ f₁ hx
      have hslot : s₁.Grows (s₁.built s₁.builder.newSlot.2) := .emits .newSlot
      have hready₁ : Ready c layout (s₁.built s₁.builder.newSlot.2) m₁.cells f₁ :=
        hx.ready.advance hslot (hx.ready.position.congr rfl rfl) rfl
      obtain ⟨f₂, hstep, hready₂, hregisters⟩ := hready₁.binds hfitsStore hx.number
        (hx.ready.placed.fresh (Nat.le_refl s₁.builder.slots)) (Nat.lt_succ_self _) name
      have hbody := ih (m := { m₁ with cells := (name, x) :: m₁.cells })
        (fun other hother => ihbindings other (List.mem_cons_of_mem _ hother)) hrest
        ⟨hfits.within, hfits.declarations⟩ hready₂
      refine .of_next hstep (.within (hbody.imp ?_))
      intro value m' f' hyields
      have hsame₁ : f₁.SameBelow s₁.builder.values f₂ := .of_eq hregisters
      have hsame := hx.same.trans (hsame₁.trans hyields.same (Nat.le_refl _))
        hinitial.builder.values
      refine ⟨⟨?_, ?_, hyields.ready.position, hyields.ready.kept.tail⟩,
        hyields.number, hyields.defined, hsame⟩
      · exact hleft.named (hstore.named hx.ready.named)
      · exact (hx.ready.placed.grows hstore).grows hleft

end Preserved

/-- Lowering preserves the meaning of every expression. -/
theorem preserved {around : Surroundings} (hkeyed : around.registry.Keyed) (callees : Callees)
    (c : Compilation) (e : Expr) : Preserved around callees c e := by
  induction e using Expr.induction with
  | number value => exact .number value
  | var name => exact .var name
  | unary op operand ih => exact .unary hkeyed op ih
  | binary op left right ihl ihr =>
      by_cases hop : op = '='
      · subst hop
        exact .assign hkeyed ihr
      · exact .binary hkeyed hop ihl ihr
  | call name args ih => exact .call hkeyed name ih
  | cond condition thenBranch elseBranch ihc iht ihe => exact .cond hkeyed ihc iht ihe
  | loop name start finish step body ihs ihf ihstep ihb =>
      exact .loop hkeyed ihs ihf ihstep ihb
  | locals bindings body ihbindings ihbody =>
      intro layout s s' r m f hlower hfits hready
      rw [Lower.expr] at hlower
      rw [Expr.evaluate]
      exact Preserved.locals hkeyed ihbindings ihbody hlower hfits hready

end Reckon
