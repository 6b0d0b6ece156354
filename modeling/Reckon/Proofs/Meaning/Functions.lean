import Reckon.Proofs.Meaning.Preservation

/-!
# Compiled functions return what their bodies mean

Parameters are kept in slots before the body is executed, and become the first
cells.  With that, what is known of expressions carries over to functions: a
compiled function returns a number after some calls exactly if its evaluation
does (`compile_execute_iff_evaluate`), whatever it calls does.
-/

namespace Reckon

open Evaluation

variable {around : Surroundings} {c : Compilation}

/-- Parameters become names with the arguments in their cells. -/
theorem Ready.parameters {layout : Layout} {s s' : LowerState} {cells : List (String × Float)}
    {f : Frame} {names : List String} {first : Nat} {xs : List Float} {u : Unit}
    (h : Ready c layout s cells f) (hlower : Lower.parameters first names s = .ok u s')
    (hfits : s'.Fits c) (hargs : f.numbers? (List.range' first names.length) = some xs)
    (callees : Callees) (events : List Event) :
    ∃ layout' f', f.Reaches c.unit callees events f' events ∧
      Ready c layout' s' ((names.zip xs).reverse ++ cells) f' := by
  induction names generalizing layout s cells f first xs with
  | nil =>
      obtain rfl := Lower.parameters_nil_ok.mp hlower
      exact ⟨layout, f, .refl _ _, h⟩
  | cons name names ih =>
      have hrest := Lower.parameters_cons_ok.mp hlower
      have hstore : s.Grows (s.built (s.builder.newSlot.2.storeSlot first s.builder.slots)) :=
        .emits (.trans .newSlot (.storeSlot _ _))
      have hwithin := (Lower.parameters_grows hrest).1.within hfits.within
      rw [List.length_cons, List.range'_succ, Frame.numbers?] at hargs
      cases hx : f.number? first with
      | none => simp [hx] at hargs
      | some x =>
          cases hxs : f.numbers? (List.range' (first + 1) names.length) with
          | none => simp [hx, hxs] at hargs
          | some others =>
              simp only [hx, hxs] at hargs
              obtain rfl := Option.some.inj hargs
              have hat : f.At c.procedure s.builder.newSlot.2 := h.position.congr rfl rfl
              obtain ⟨f₁, hstep, hat₁, hregisters, hslots⟩ := hat.stores hwithin hx
              have hfresh := h.placed.fresh (Nat.le_refl s.builder.slots)
              have hnamed := hstore.named h.named
              have hready : Ready c ((name, s.builder.slots) :: layout)
                  ((s.built (s.builder.newSlot.2.storeSlot first s.builder.slots)).scoped
                    (s.scope.bind name s.builder.slots).1) ((name, x) :: cells) f₁ := by
                refine ⟨⟨hnamed.unit, hnamed.routes⟩,
                  (h.placed.grows hstore).bind (s := s.built _) name hfresh (Nat.lt_succ_self _),
                  hat₁, ?_⟩
                rw [hslots]
                exact h.kept.bind hfresh name x
              have hothers : f₁.numbers? (List.range' (first + 1) names.length) = some others := by
                rw [← hxs]
                refine Frame.numbers?_congr fun v _ => ?_
                unfold Frame.number?
                rw [hregisters]
              obtain ⟨layout', f', hreaches, hready'⟩ := ih hready hrest hothers
              refine ⟨layout', f', (Frame.Reaches.next hstep).trans hreaches, ?_⟩
              simpa using hready'

/-- A function starts ready, with its parameters in registers. -/
theorem Ready.start {f : Function} {declared : Declared} {unit : CompilationUnit} {xs : List Float}
    (hdeclare : CompilationUnit.empty.declareDefinition f.prototype = .ok (declared, unit))
    (hin : (Code.Builder.start f.prototype.arity).Within c.procedure)
    (hfirst : ∃ block rest, c.procedure.blocks = block :: rest ∧ block.id = 0)
    (harity : c.procedure.arity = f.prototype.arity) (hlength : f.prototype.arity = xs.length) :
    ∃ frame, Frame.start? c.procedure xs = some frame ∧
      Ready c [] (.start unit f.prototype.arity) [] frame ∧
      frame.numbers? (List.range' 0 f.prototype.params.length) = some xs := by
  obtain ⟨frame, hframe, hat, hnumbers⟩ := Frame.start?_of_within hin hfirst harity hlength
  refine ⟨frame, hframe, ⟨⟨?_, ?_⟩, ⟨?_, ?_, ?_⟩, hat, .nil⟩, ?_⟩
  · exact CompilationUnit.named_empty.declareCallee hdeclare
  · intro callee route hroute
    cases hroute
  · intro name
    rfl
  · intro slot hslot
    cases hslot
  · exact List.nodup_nil
  · rw [← List.range_eq_range']
    exact hnumbers

/-- With as many arguments as it has parameters, compiled code comes to what the body of
its function does. -/
theorem compile_meets (hkeyed : around.registry.Keyed) {f : Function}
    (hcompile : around.compile f = .ok c) (callees : Callees) {xs : List Float}
    (hlength : f.prototype.params.length = xs.length) :
    ∃ frame, Frame.start? c.procedure xs = some frame ∧
      frame.Meets c.unit callees []
        (f.body.evaluate callees ⟨(f.prototype.params.zip xs).reverse, []⟩)
        fun value _ f' => f'.step = .done value := by
  obtain ⟨hin, hfirst⟩ := compile_within hkeyed hcompile
  obtain ⟨-, -, harity⟩ := Surroundings.compile_head hcompile
  obtain ⟨declared, unit, v, s, hdeclare, hfunction, hc, -⟩ :=
    Surroundings.compile_ok.mp hcompile
  obtain ⟨s₁, hparams, hbody⟩ := Lower.function_ok.mp hfunction
  have hprocedure : c.procedure = s.builder.finish f.prototype.callee.symbol f.prototype.arity
      (.leave v.value) := by rw [hc]
  have hgrows : s₁.Grows s := (Lower.respected_grows hkeyed).expr f.body hbody
  have hnodup : s.builder.entered.Nodup := by
    refine (Lower.function_grows hkeyed hfunction).2.nodup (List.nodup_singleton 0) ?_
    intro id hid
    obtain rfl := List.mem_singleton.mp hid
    exact Nat.one_pos
  have hfits : s.Fits c := by
    refine ⟨?_, ?_⟩
    · rw [hprocedure]
      exact Code.Builder.within_finish hnodup _ _ _
    · simp [hc]
  obtain ⟨f₀, hframe, hready, hnumbers⟩ := Ready.start hdeclare hin hfirst harity hlength
  obtain ⟨layout, f₁, hreaches, hready₁⟩ :=
    hready.parameters hparams (hfits.of_grows hgrows) hnumbers callees []
  rw [List.append_nil] at hready₁
  have hmeets := preserved hkeyed callees c f.body hbody hfits
    (m := ⟨(f.prototype.params.zip xs).reverse, []⟩) hready₁
  refine ⟨f₀, hframe, (Frame.Meets.of_reaches hreaches hmeets).imp ?_⟩
  intro x m f' hyields
  have hposition := hyields.ready.position
  rw [hprocedure] at hposition
  exact hposition.done hnodup hyields.number

/-- With any other number of arguments, compiled code does not start. -/
theorem compile_start?_eq_none (hkeyed : around.registry.Keyed) {f : Function}
    (hcompile : around.compile f = .ok c) {xs : List Float}
    (hlength : f.prototype.params.length ≠ xs.length) : Frame.start? c.procedure xs = none := by
  obtain ⟨-, block, rest, hblocks, -⟩ := compile_within hkeyed hcompile
  obtain ⟨-, -, harity⟩ := Surroundings.compile_head hcompile
  have hne : ¬ f.prototype.arity = xs.length := hlength
  simp [Frame.start?, hblocks, harity, hne]

/-- **Code generation preserves meaning.**  A compiled function returns a number
after making some calls if and only if its evaluation does, for any arguments
and any behaviour of what it calls. -/
theorem compile_execute_iff_evaluate (hkeyed : around.registry.Keyed) {f : Function}
    (hcompile : around.compile f = .ok c) (callees : Callees) (xs : List Float) (value : Float)
    (events : List Event) :
    (∃ limit, c.execute callees limit xs = some (value, events)) ↔
      f.evaluate callees xs = some (value, events) := by
  unfold Compilation.execute Function.evaluate
  by_cases hlength : f.prototype.params.length = xs.length
  · obtain ⟨frame, hframe, hmeets⟩ := compile_meets hkeyed hcompile callees hlength
    rw [hframe, if_pos hlength]
    exact hmeets.returns (fun _ _ _ hdone => hdone) (value, events)
  · rw [compile_start?_eq_none hkeyed hcompile hlength, if_neg hlength]
    simp

/-- An assignment to a parameter returns what it assigns. -/
theorem execute_assignment :
    ∃ c, (Surroundings.mk .empty .empty).compile
        ⟨⟨"f", ["x", "y"], .function⟩, .binary '=' (.var "x") (.var "y")⟩ = .ok c ∧
      ∃ limit, c.execute (fun _ _ => none) limit [1, 2] = some (2, []) := by
  have hkeyed : (Surroundings.mk .empty .empty).registry.Keyed := Registry.keyed_empty
  have hevaluate : Function.evaluate (fun _ _ => none)
      ⟨⟨"f", ["x", "y"], .function⟩, .binary '=' (.var "x") (.var "y")⟩ [1, 2] =
        some (2, []) := by
    simp [Function.evaluate, Expr.evaluate, fetch, store, Evaluation.assign, bind_apply,
      map_apply]
  refine ⟨_, rfl, ?_⟩
  exact (compile_execute_iff_evaluate hkeyed rfl (fun _ _ => none) [1, 2] 2 []).mpr hevaluate

end Reckon
