import Reckon.Proofs.Lowering.Computation
import Reckon.Proofs.Lowering.Congruence

/-!
# What lowering leaves in scope

Lowering an expression leaves the scope as it found it, whether it yields a value or stops
with an error, however deep in the expression that happens (`Lower.expr_keepsScope`).  Most
parts do not even see the scope (`Lower.Scopeless`).  Only names that are bound change it, and
every binding is ended on the way out (`Lower.KeepsScope.withBinding`).

New names are bound one after the other and may repeat each other.  Binding them in nested
computations comes to the same as keeping a list of marks, one for each name that was bound
before the body or an initial value came to its end, and going back along that list from the
newest mark to the oldest (`Lower.locals_eq_undo`).
-/

namespace Reckon

/-- Undo bindings, the newest first. -/
def Scope.undo {σ : Type} (scope : Scope σ) (marks : List (Mark σ)) : Scope σ :=
  marks.foldl Scope.restore scope

theorem Scope.undo_append {σ : Type} (scope : Scope σ) (newer older : List (Mark σ)) :
    scope.undo (newer ++ older) = (scope.undo newer).undo older :=
  List.foldl_append

namespace Lower

variable {α β : Type} {s t : LowerState} {around : Surroundings}

/-- The state that a computation leaves, whether it yields something or stops. -/
def leaves (m : Lower α) (s : LowerState) : LowerState :=
  match m s with
  | .ok _ t => t
  | .error _ t => t

/-- A computation leaves the scope as it found it. -/
def KeepsScope (m : Lower α) : Prop := ∀ s, (m.leaves s).scope = s.scope

/-- What a computation came to, with a change of the scope that it leaves. -/
def mapScope (f : Scope Code.SlotId → Scope Code.SlotId) :
    EStateM.Result LowerError LowerState α → EStateM.Result LowerError LowerState α
  | .ok a t => .ok a (t.scoped (f t.scope))
  | .error e t => .error e (t.scoped (f t.scope))

theorem mapScope_mapScope (f g : Scope Code.SlotId → Scope Code.SlotId)
    (r : EStateM.Result LowerError LowerState α) :
    mapScope f (mapScope g r) = mapScope (fun scope => f (g scope)) r := by
  cases r <;> rfl

/-- Something is lowered with a name bound in the extended scope, and then the binding is
ended. -/
theorem withBinding_eq (name : String) (slot : Code.SlotId) (inner : Lower α)
    (s : LowerState) :
    withBinding name slot inner s =
      mapScope (fun scope => scope.restore (s.scope.bind name slot).2)
        (inner (s.scoped (s.scope.bind name slot).1)) := by
  simp only [withBinding, LowerState.scoped]
  cases inner { s with scope := (s.scope.bind name slot).1 } <;> rfl

namespace KeepsScope

theorem of_ok {m : Lower α} (h : m.KeepsScope) {a : α} (hrun : m s = .ok a t) :
    t.scope = s.scope := by
  have hleaves := h s
  rwa [leaves, hrun] at hleaves

/-- Putting back the scope that there was changes nothing. -/
theorem mapScope_self {m : Lower α} (h : m.KeepsScope) (s : LowerState) :
    mapScope (fun _ => s.scope) (m s) = m s := by
  have hleaves := h s
  unfold leaves at hleaves
  cases hrun : m s <;>
  · rw [hrun] at hleaves
    dsimp only at hleaves
    rw [← hleaves]
    rfl

theorem pure (a : α) : (Pure.pure a : Lower α).KeepsScope := fun _ => rfl

theorem throw (e : LowerError) : (MonadExcept.throw e : Lower α).KeepsScope := fun _ => rfl

theorem get : (MonadState.get : Lower LowerState).KeepsScope := fun _ => rfl

theorem build (f : Code.Builder → α × Code.Builder) : (Lower.build f).KeepsScope := fun _ => rfl

/-- A sequence leaves the scope alone if both its parts do.  If the first part stops, the
second one is not run. -/
theorem bind {m : Lower α} {k : α → Lower β} (hm : m.KeepsScope)
    (hk : ∀ a, (k a).KeepsScope) : (m >>= k).KeepsScope := by
  intro s
  have hfirst := hm s
  unfold leaves at hfirst ⊢
  change (match EStateM.bind m k s with | .ok _ t => t | .error _ t => t).scope = s.scope
  unfold EStateM.bind
  cases hrun : m s with
  | ok a t =>
      rw [hrun] at hfirst
      exact (hk a t).trans hfirst
  | error e t =>
      rw [hrun] at hfirst
      exact hfirst

/-- A binding is ended on the way out, also after an error. -/
theorem withBinding (name : String) (slot : Code.SlotId) {inner : Lower α}
    (h : inner.KeepsScope) : (Lower.withBinding name slot inner).KeepsScope := by
  intro s
  have hinner := h (s.scoped (s.scope.bind name slot).1)
  unfold leaves at hinner ⊢
  rw [withBinding_eq]
  cases hrun : inner (s.scoped (s.scope.bind name slot).1) <;>
  · rw [hrun] at hinner
    dsimp only at hinner
    simp only [mapScope, LowerState.scoped, hinner]
    exact Scope.restore_bind s.scope name slot

end KeepsScope

/-- A computation comes to the same in every scope, which it leaves alone. -/
def Scopeless (m : Lower α) : Prop :=
  ∀ scope' s, m (s.scoped scope') = mapScope (fun _ => scope') (m s)

namespace Scopeless

theorem keepsScope {m : Lower α} (h : m.Scopeless) : m.KeepsScope := by
  intro s
  have hrun := h s.scope s
  change m s = _ at hrun
  unfold leaves
  rw [hrun]
  cases m s <;> rfl

theorem pure (a : α) : (Pure.pure a : Lower α).Scopeless := fun _ _ => rfl

theorem throw (e : LowerError) : (MonadExcept.throw e : Lower α).Scopeless := fun _ _ => rfl

theorem build (f : Code.Builder → α × Code.Builder) : (Lower.build f).Scopeless := fun _ _ => rfl

theorem bind {m : Lower α} {k : α → Lower β} (hm : m.Scopeless) (hk : ∀ a, (k a).Scopeless) :
    (m >>= k).Scopeless := by
  intro scope' s
  have hfirst := hm scope' s
  cases hrun : m s with
  | ok a t =>
      rw [hrun] at hfirst
      rw [bind_of_ok hfirst, bind_of_ok hrun]
      exact hk a scope' t
  | error e t =>
      rw [hrun] at hfirst
      rw [bind_of_error hfirst, bind_of_error hrun]
      rfl

/-- What goes on after reading the state does not read the scope. -/
theorem get_bind {k : LowerState → Lower β} (hscope : ∀ scope' s, k (s.scoped scope') = k s)
    (hk : ∀ s, (k s).Scopeless) : ((get : Lower LowerState) >>= k).Scopeless := by
  intro scope' s
  change k (s.scoped scope') (s.scoped scope') = _
  rw [hscope]
  exact hk s scope' s

theorem map {m : Lower α} (f : α → β) (h : m.Scopeless) : (f <$> m).Scopeless := by
  intro scope' s
  change EStateM.map f m (s.scoped scope') = mapScope (fun _ => scope') (EStateM.map f m s)
  unfold EStateM.map
  rw [h]
  cases m s <;> rfl

end Scopeless

theorem emit_scopeless (operation : Code.Operation) : (emit operation).Scopeless :=
  fun _ _ => rfl

theorem isTrue_scopeless (value : Code.ValueId) : (isTrue value).Scopeless := fun _ _ => rfl

theorem jumpWith_scopeless (computed : Computed) (target next : Code.BlockId)
    (params : List Code.ValueId) : (jumpWith computed target next params).Scopeless := by
  refine .get_bind (fun _ _ => rfl) fun s => ?_
  split
  · exact .build _
  · exact .throw _

theorem arity?_scopeless (around : Surroundings) (callee : Callee) :
    (arity? around callee).Scopeless := by
  refine .get_bind (fun _ _ => rfl) fun s => ?_
  split
  · exact .pure _
  · exact .pure _

theorem findRoute_scopeless (around : Surroundings) (callee : Callee) :
    (findRoute around callee).Scopeless := by
  have hdirect (declared : Declared) : (some <$> direct declared).Scopeless :=
    .map some fun _ _ => rfl
  refine .get_bind (fun _ _ => rfl) fun s => ?_
  split
  · exact hdirect _
  · split
    · exact .pure _
    · dsimp only
      split
      · refine .get_bind (fun _ _ => rfl) fun s => ?_
        split
        · exact .bind (fun _ _ => rfl) fun _ => hdirect _
        · exact .throw _
      · split
        · exact .bind (fun _ _ => rfl) fun _ => .bind (.build _) fun _ => .pure _
        · exact .throw _

theorem route?_scopeless (around : Surroundings) (callee : Callee) :
    (route? around callee).Scopeless := by
  refine .get_bind (fun _ _ => rfl) fun s => ?_
  split
  · exact .pure _
  · refine .bind (findRoute_scopeless around callee) fun found => ?_
    cases found with
    | none => exact .pure _
    | some route => exact .bind (fun _ _ => rfl) fun _ => .pure _

theorem callOrThrow_scopeless (around : Surroundings) (callee : Callee) (missing : LowerError)
    (args : List Code.ValueId) : (callOrThrow around callee missing args).Scopeless := by
  refine .bind (route?_scopeless around callee) fun found => ?_
  cases found with
  | none => exact .throw _
  | some route =>
      cases route with
      | direct external => exact emit_scopeless _
      | throughCell symbol signature =>
          exact .bind (.build _) fun _ => .bind (.build _) fun _ => emit_scopeless _

theorem infixOperator_scopeless (around : Surroundings) (op : Char)
    (left right : Code.ValueId) : (infixOperator around op left right).Scopeless := by
  unfold infixOperator
  split
  · exact emit_scopeless _
  · exact emit_scopeless _
  · exact emit_scopeless _
  · exact .bind (.build _) fun _ => .bind (.build _) fun _ => emit_scopeless _
  · exact callOrThrow_scopeless around _ _ _

theorem slotOf_keepsScope (name : String) : (slotOf name).KeepsScope := by
  refine .bind .get fun s => ?_
  split
  · exact .pure _
  · exact .throw _

/-- Whatever binds names ends its bindings, so lowering is left with single steps. -/
theorem KeepsScope.congruence : Congruence fun m _ => m.KeepsScope where
  pure := .pure
  throw := .throw
  bind hm hk := .bind hm hk
  build := .build
  here _ := .bind .get fun _ => .pure _
  jumpWith computed target next params :=
    (jumpWith_scopeless computed target next params).keepsScope
  slotOf := slotOf_keepsScope
  withBinding name slot := .withBinding name slot

/-- **Lowering an expression leaves the scope as it found it.** -/
theorem expr_keepsScope (around : Surroundings) (e : Expr) : (expr around e).KeepsScope :=
  KeepsScope.congruence.expr around around e fun callee _ =>
    ⟨(arity?_scopeless around callee).keepsScope, (route?_scopeless around callee).keepsScope⟩

theorem valueOr_keepsScope (around : Surroundings) (otherwise : Float) (value? : Option Expr) :
    (valueOr around otherwise value?).KeepsScope :=
  KeepsScope.congruence.valueOr around around otherwise fun value _ => expr_keepsScope around value

/-- Lower an initial value and keep it in a new slot. -/
def place (around : Surroundings) (initial : Option Expr) : Lower Code.SlotId := do
  let value ← valueOr around 0 initial
  let slot ← newSlot
  storeSlot value slot
  return slot

/-- Bind new names one after the other and lower something with all of them, without ending
a binding.  What that comes to is accompanied by the marks of the bindings that were made,
the newest first.  If an initial value stops, these are the marks of the names before it. -/
def bindEach (around : Surroundings) (body : Lower Computed) (marks : List (Mark Code.SlotId)) :
    List (String × Option Expr) → LowerState →
      EStateM.Result LowerError LowerState Computed × List (Mark Code.SlotId)
  | [], s => (body s, marks)
  | (name, initial) :: bindings, s =>
    match place around initial s with
    | .error e t => (.error e t, marks)
    | .ok slot t =>
      bindEach around body ((t.scope.bind name slot).2 :: marks) bindings
        (t.scoped (t.scope.bind name slot).1)

theorem locals_cons (around : Surroundings) (body : Lower Computed) (name : String)
    (initial : Option Expr) (bindings : List (String × Option Expr)) (s : LowerState) :
    locals around body ((name, initial) :: bindings) s =
      match place around initial s with
      | .error e t => .error e t
      | .ok slot t => withBinding name slot (locals around body bindings) t := by
  rw [locals, place]
  simp only [bind, EStateM.bind, pure, EStateM.pure]
  cases valueOr around 0 initial s <;> rfl

/-- The bindings that are made are undone in what lowering in nested bindings comes to.  The
induction is over the names; the marks of the names before them are left alone. -/
theorem bindEach_undo (around : Surroundings) (body : Lower Computed)
    (bindings : List (String × Option Expr)) (marks : List (Mark Code.SlotId))
    (s : LowerState) :
    ∃ newer, (bindEach around body marks bindings s).2 = newer ++ marks ∧
      locals around body bindings s =
        mapScope (fun scope => scope.undo newer) (bindEach around body marks bindings s).1 := by
  induction bindings generalizing marks s with
  | nil =>
      refine ⟨[], rfl, ?_⟩
      rw [locals, bindEach]
      cases body s <;> rfl
  | cons binding bindings ih =>
      obtain ⟨name, initial⟩ := binding
      rw [locals_cons, bindEach]
      cases place around initial s with
      | error e t => exact ⟨[], rfl, rfl⟩
      | ok slot t =>
          obtain ⟨newer, hmarks, hlocals⟩ :=
            ih ((t.scope.bind name slot).2 :: marks) (t.scoped (t.scope.bind name slot).1)
          refine ⟨newer ++ [(t.scope.bind name slot).2], by simp [hmarks], ?_⟩
          dsimp only
          rw [withBinding_eq, hlocals, mapScope_mapScope]
          simp only [Scope.undo_append]
          rfl

/-- **New names are bound one after the other, and undone from the newest to the oldest**,
whether the body came to its end or an initial value stopped. -/
theorem locals_eq_undo (around : Surroundings) (body : Lower Computed)
    (bindings : List (String × Option Expr)) (s : LowerState) :
    locals around body bindings s =
      mapScope (fun scope => scope.undo (bindEach around body [] bindings s).2)
        (bindEach around body [] bindings s).1 := by
  obtain ⟨newer, hmarks, hlocals⟩ := bindEach_undo around body bindings [] s
  rw [hlocals, hmarks, List.append_nil]

/-- The order matters where one name is bound twice. -/
example :
    let first := (.empty : Scope Nat).bind "x" 0
    let second := first.1.bind "x" 1
    second.1.undo [second.2, first.2] = .empty ∧
      (second.1.undo [first.2, second.2]).lookup "x" = some 0 := by decide

/-- Every name in scope is kept where it was before an expression was lowered, and every other
name is out of scope as before, whether the expression yields a value or stops with an error.

For new names this is the work of their marks: what the body came to, or the initial value
that stopped, is followed by going back along the marks of the names bound up to there. -/
theorem expr_lookup (around : Surroundings) (s : LowerState) :
    (∀ e name, ((expr around e).leaves s).scope.lookup name = s.scope.lookup name) ∧
    ∀ bindings body, ∃ outcome marks,
      bindEach around (expr around body) [] bindings s = (outcome, marks) ∧
        expr around (.locals bindings body) s =
          mapScope (fun scope => scope.undo marks) outcome := by
  constructor
  · intro e name
    rw [expr_keepsScope around e s]
  · intro bindings body
    refine ⟨_, _, rfl, ?_⟩
    rw [expr]
    exact locals_eq_undo around (expr around body) bindings s

end Lower

end Reckon
