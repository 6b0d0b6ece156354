import Mathlib.Data.List.Nodup
import Reckon.Proofs.Link.Declarations
import Reckon.Proofs.Lowering.Steps

/-!
# What lowering never undoes

What a builder holds stays in the code that comes out of it.  A builder is
`Within` a procedure if the procedure has its complete blocks, and a block that
begins like the one being filled.  Lowering an expression can only take a
builder out of a procedure and never into one, so whoever knows the finished
procedure knows that every builder on the way was within it.

This needs that no two blocks have one number.  Lowering an expression enters
every block that it creates exactly once (`Lower.expr_entersNew`), though it
creates them in another order.
-/

namespace Reckon

/-- Between two lists, every number from one bound up to another was added once and no
other number was. -/
structure AddsNew (m : Nat) (xs : List Nat) (n : Nat) (ys : List Nat) : Prop where
  le : m ≤ n
  count : ∀ i, ys.count i = xs.count i + if m ≤ i ∧ i < n then 1 else 0

namespace AddsNew

variable {m n k : Nat} {xs ys zs : List Nat}

theorem refl (n : Nat) (xs : List Nat) : AddsNew n xs n xs := by
  refine ⟨Nat.le_refl _, fun i => ?_⟩
  have hnone : ¬ (n ≤ i ∧ i < n) := by omega
  rw [if_neg hnone, Nat.add_zero]

theorem trans (h : AddsNew m xs n ys) (h' : AddsNew n ys k zs) : AddsNew m xs k zs := by
  refine ⟨Nat.le_trans h.le h'.le, fun i => ?_⟩
  have hle := h.le
  have hle' := h'.le
  rw [h'.count, h.count]
  grind

/-- The next number is added. -/
theorem next (n : Nat) (xs : List Nat) : AddsNew n xs (n + 1) (xs ++ [n]) := by
  refine ⟨Nat.le_succ n, fun i => ?_⟩
  rw [List.count_append, List.count_singleton]
  grind

/-- No number is there twice if none was and none was too large. -/
theorem nodup (h : AddsNew m xs n ys) (hnodup : xs.Nodup) (hold : ∀ i, i ∈ xs → i < m) :
    ys.Nodup := by
  rw [List.nodup_iff_count_le_one]
  intro i
  have hcount := h.count i
  have hone := List.nodup_iff_count_le_one.mp hnodup i
  by_cases hmem : i ∈ xs
  · have hlt := hold i hmem
    have hnone : ¬ (m ≤ i ∧ i < n) := by omega
    rw [if_neg hnone] at hcount
    omega
  · rw [List.count_eq_zero_of_not_mem hmem] at hcount
    split at hcount <;> omega

/-- What contains all numbers up to a bound once goes on to do so. -/
theorem perm_range (h : AddsNew m xs n ys) (hxs : xs.Perm (List.range m)) :
    ys.Perm (List.range n) := by
  rw [List.perm_iff_count] at hxs ⊢
  intro i
  have hle := h.le
  rw [h.count, hxs, List.count_range, List.count_range]
  grind

end AddsNew

namespace Code

/-- A block is found by its number if no other block has that number. -/
theorem Procedure.block?_of_mem {p : Procedure} {block : Block}
    (hnodup : (p.blocks.map Block.id).Nodup) (hmem : block ∈ p.blocks) :
    p.block? block.id = some block := by
  unfold Procedure.block?
  generalize p.blocks = blocks at hnodup hmem
  induction blocks with
  | nil => cases hmem
  | cons first rest ih =>
      obtain ⟨hfirst, hrest⟩ := List.nodup_cons.mp hnodup
      rcases List.mem_cons.mp hmem with rfl | hmem
      · simp
      · have hne : first.id ≠ block.id := by
          intro heq
          exact hfirst (heq ▸ List.mem_map_of_mem hmem)
        rw [List.find?_cons_of_neg (by simpa using hne)]
        exact ih hrest hmem

namespace Builder

/-- The numbers of the blocks that were entered, in order. -/
def entered (b : Builder) : List BlockId := b.complete.toList.map Block.id ++ [b.current]

/-- The code of a builder is part of a procedure. -/
structure Within (b : Builder) (p : Procedure) : Prop where
  complete : ∀ block ∈ b.complete, p.block? block.id = some block
  filling : ∃ block, p.block? b.current = some block ∧ block.params = b.params ∧
    b.body.toList <+: block.body
  externals : b.externals.toList <+: p.externals

/-- A builder has come from another one. -/
structure Grows (b b' : Builder) : Prop where
  values : b.values ≤ b'.values
  blocks : b.blocks ≤ b'.blocks
  slots : b.slots ≤ b'.slots
  entered : b.entered <+: b'.entered
  externals : b.externals.toList <+: b'.externals.toList
  within : ∀ {p}, b'.Within p → b.Within p

theorem Grows.refl (b : Builder) : b.Grows b :=
  ⟨Nat.le_refl _, Nat.le_refl _, Nat.le_refl _, List.prefix_rfl,
    List.prefix_rfl, id⟩

theorem Grows.trans {b₁ b₂ b₃ : Builder} (h : b₁.Grows b₂) (h' : b₂.Grows b₃) : b₁.Grows b₃ where
  values := Nat.le_trans h.values h'.values
  blocks := Nat.le_trans h.blocks h'.blocks
  slots := Nat.le_trans h.slots h'.slots
  entered := h.entered.trans h'.entered
  externals := h.externals.trans h'.externals
  within := fun hin => h.within (h'.within hin)

/-- The block being filled only gets longer. -/
theorem Within.of_push {b : Builder} {p : Procedure} {instruction : Instruction} {values : Nat}
    (h : Within { b with values := values, body := b.body.push instruction } p) : b.Within p := by
  obtain ⟨block, hblock, hparams, hbody⟩ := h.filling
  refine ⟨h.complete, ⟨block, hblock, hparams, ?_⟩, h.externals⟩
  rw [Array.toList_push] at hbody
  exact (List.prefix_append _ _).trans hbody

/-- When a block is ended, the block of the procedure is known. -/
theorem Within.ended {b : Builder} {p : Procedure} {transfer : Transfer} {next : BlockId}
    {params : List ValueId} (h : (b.enter transfer next params).Within p) :
    p.block? b.current = some (b.currentBlock transfer) :=
  h.complete (b.currentBlock transfer) (by simp [enter])

theorem Within.of_enter {b : Builder} {p : Procedure} {transfer : Transfer} {next : BlockId}
    {params : List ValueId} (h : (b.enter transfer next params).Within p) : b.Within p where
  complete := fun block hmem => h.complete block (by simp [enter, hmem])
  filling := ⟨b.currentBlock transfer, h.ended, rfl, List.prefix_rfl⟩
  externals := h.externals

theorem Emits.grows {b b' : Builder} (h : b.Emits b') : b.Grows b' := by
  induction h with
  | define operation =>
      exact ⟨Nat.le_succ _, Nat.le_refl _, Nat.le_refl _, List.prefix_rfl,
        List.prefix_rfl, Within.of_push⟩
  | storeSlot value slot =>
      exact ⟨Nat.le_refl _, Nat.le_refl _, Nat.le_refl _, List.prefix_rfl,
        List.prefix_rfl, Within.of_push⟩
  | newSlot =>
      exact ⟨Nat.le_refl _, Nat.le_refl _, Nat.le_succ _, List.prefix_rfl,
        List.prefix_rfl, fun h => ⟨h.complete, h.filling, h.externals⟩⟩
  | newBlock =>
      exact ⟨Nat.le_refl _, Nat.le_succ _, Nat.le_refl _, List.prefix_rfl,
        List.prefix_rfl, fun h => ⟨h.complete, h.filling, h.externals⟩⟩
  | newParam =>
      exact ⟨Nat.le_succ _, Nat.le_refl _, Nat.le_refl _, List.prefix_rfl,
        List.prefix_rfl, fun h => ⟨h.complete, h.filling, h.externals⟩⟩
  | enter transfer next params =>
      refine ⟨Nat.le_refl _, Nat.le_refl _, Nat.le_refl _, ?_, List.prefix_rfl, Within.of_enter⟩
      simp [Builder.entered, Builder.enter, Builder.currentBlock]
  | trans _ _ ih ih' => exact ih.trans ih'

theorem newSignature_grows (b : Builder) (arity : Nat) : b.Grows (b.newSignature arity).2 :=
  ⟨Nat.le_refl _, Nat.le_refl _, Nat.le_refl _, List.prefix_rfl, List.prefix_rfl,
    fun h => ⟨h.complete, h.filling, h.externals⟩⟩

theorem newExternal_getElem? (b : Builder) (declaration arity : Nat) (colocated : Bool) :
    (b.newExternal declaration arity colocated).2.externals.toList[b.externals.size]? =
      some ⟨declaration, b.signatures.size, colocated⟩ := by
  simp [newExternal, newSignature]

theorem newExternal_grows (b : Builder) (declaration arity : Nat) (colocated : Bool) :
    b.Grows (b.newExternal declaration arity colocated).2 := by
  have hpush : b.externals.toList <+:
      (b.newExternal declaration arity colocated).2.externals.toList := by
    simp [newExternal, newSignature]
  refine ⟨Nat.le_refl _, Nat.le_refl _, Nat.le_refl _, List.prefix_rfl, hpush, ?_⟩
  intro p h
  exact ⟨h.complete, h.filling, hpush.trans h.externals⟩

/-- What is finished is the block being filled with the last transfer. -/
theorem finish_block? {b : Builder} (hnodup : b.entered.Nodup) (symbol : String) (arity : Nat)
    (transfer : Transfer) :
    (b.finish symbol arity transfer).block? b.current = some (b.currentBlock transfer) := by
  show (b.finish symbol arity transfer).block? (b.currentBlock transfer).id = _
  refine Procedure.block?_of_mem ?_ (by simp [finish])
  simpa [finish, entered, currentBlock] using hnodup

/-- A builder is within what it is finished to. -/
theorem within_finish {b : Builder} (hnodup : b.entered.Nodup) (symbol : String) (arity : Nat)
    (transfer : Transfer) : b.Within (b.finish symbol arity transfer) where
  complete := by
    intro block hmem
    refine Procedure.block?_of_mem ?_ (by simp [finish, hmem])
    simpa [finish, entered, currentBlock] using hnodup
  filling := ⟨_, finish_block? hnodup symbol arity transfer, rfl, List.prefix_rfl⟩
  externals := List.prefix_rfl

/-- The block that was entered first comes first. -/
theorem finish_first {b : Builder} {id : BlockId} (h : [id] <+: b.entered) (symbol : String)
    (arity : Nat) (transfer : Transfer) :
    ∃ block rest, (b.finish symbol arity transfer).blocks = block :: rest ∧ block.id = id := by
  have hentered : b.entered = (b.finish symbol arity transfer).blocks.map Block.id := by
    simp [finish, entered, currentBlock]
  rw [hentered] at h
  cases hblocks : (b.finish symbol arity transfer).blocks with
  | nil => simp [hblocks] at h
  | cons block rest =>
      rw [hblocks, List.map_cons, List.cons_prefix_cons] at h
      exact ⟨block, rest, rfl, h.1.symm⟩

/-- Between two builders, every new block was entered exactly once and no other
block was entered. -/
abbrev EntersNew (b b' : Builder) : Prop := AddsNew b.blocks b.entered b'.blocks b'.entered

theorem count_enter (b : Builder) (transfer : Transfer) (next : BlockId) (params : List ValueId)
    (id : Nat) : (b.enter transfer next params).entered.count id =
      b.entered.count id + if next = id then 1 else 0 := by
  simp only [entered, enter, currentBlock, Array.toList_push, List.map_append, List.map_cons,
    List.map_nil, List.count_append, List.count_singleton, beq_iff_eq]

end Builder

end Code

/-- A route leads to the function with a symbol. -/
def Route.Leads (s : LowerState) (symbol : String) : Route → Prop
  | .direct external => ∃ e d, s.builder.externals.toList[external]? = some e ∧
      s.unit.declarations[e.declaration]? = some d ∧ d.symbol = symbol
  | .throughCell other _ => other = symbol

theorem Route.Leads.mono {s s' : LowerState} {symbol : String} {route : Route}
    (hexternals : s.builder.externals.toList <+: s'.builder.externals.toList)
    (hdeclarations : s.unit.declarations <+: s'.unit.declarations)
    (h : route.Leads s symbol) : route.Leads s' symbol := by
  cases route with
  | direct external =>
      obtain ⟨e, d, he, hd, hsymbol⟩ := h
      exact ⟨e, d, getElem?_of_prefix hexternals he, getElem?_of_prefix hdeclarations hd, hsymbol⟩
  | throughCell other signature => exact h

namespace LowerState

/-- Declarations and routes lead to the functions that they stand for. -/
structure Named (s : LowerState) : Prop where
  unit : s.unit.Named
  routes : ∀ callee route, s.routes.find? callee = some route → route.Leads s callee.symbol

/-- A state has come from another one. -/
structure Grows (s s' : LowerState) : Prop where
  builder : s.builder.Grows s'.builder
  declarations : s.unit.declarations <+: s'.unit.declarations
  scope : s'.scope = s.scope
  named : s.Named → s'.Named

/-- A new route keeps everything named if it leads where it should. -/
theorem Named.insert {s s' : LowerState} {callee : Callee} {route : Route} (hnamed : s.Named)
    (hunit : s'.unit.Named) (hroutes : s'.routes = s.routes)
    (hexternals : s.builder.externals.toList <+: s'.builder.externals.toList)
    (hdeclarations : s.unit.declarations <+: s'.unit.declarations)
    (hroute : route.Leads s' callee.symbol) :
    Named { s' with routes := s'.routes.insert callee route } := by
  refine ⟨hunit, ?_⟩
  intro other kept hkept
  rw [Table.find?_insert, hroutes] at hkept
  split at hkept
  · next heq =>
    obtain rfl := Option.some.inj hkept
    exact heq ▸ hroute
  · exact (hnamed.routes other kept hkept).mono hexternals hdeclarations

theorem Grows.refl (s : LowerState) : s.Grows s := ⟨.refl _, List.prefix_rfl, rfl, id⟩

theorem Grows.trans {s₁ s₂ s₃ : LowerState} (h : s₁.Grows s₂) (h' : s₂.Grows s₃) : s₁.Grows s₃ :=
  ⟨h.builder.trans h'.builder, h.declarations.trans h'.declarations, h'.scope.trans h.scope,
    fun hnamed => h'.named (h.named hnamed)⟩

theorem Grows.emits {s : LowerState} {b : Code.Builder} (h : s.builder.Emits b) :
    s.Grows (s.built b) := by
  refine ⟨h.grows, List.prefix_rfl, rfl, fun hnamed => ⟨hnamed.unit, ?_⟩⟩
  intro callee route hroute
  exact (hnamed.routes callee route hroute).mono h.grows.externals List.prefix_rfl

/-- When a binding has ended the scope is as before. -/
theorem Grows.binds {s s' : LowerState} (name : String) (slot : Code.SlotId)
    (h : (s.scoped (s.scope.bind name slot).1).Grows s') :
    s.Grows (s'.scoped (s'.scope.restore (s.scope.bind name slot).2)) := by
  refine ⟨h.builder, h.declarations, ?_, fun hnamed => ?_⟩
  · show s'.scope.restore _ = s.scope
    rw [h.scope]
    exact Scope.restore_bind _ _ _
  · have hnamed' := h.named ⟨hnamed.unit, hnamed.routes⟩
    exact ⟨hnamed'.unit, hnamed'.routes⟩

end LowerState

namespace Lower

variable {around : Surroundings}

theorem Finds.grows (hkeyed : around.registry.Keyed) {callee : Callee} {route : Route}
    {s s' : LowerState} (h : Finds around callee s route s') :
    s.Grows { s' with routes := s'.routes.insert callee route } := by
  cases h with
  | @declared found hfound =>
      have hgrows := s.builder.newExternal_grows found.declaration found.arity
        (s.unit.isOwn found.declaration)
      refine ⟨hgrows, List.prefix_rfl, rfl, fun hnamed => ?_⟩
      obtain ⟨d, hd, hsymbol⟩ := hnamed.unit callee found hfound
      have hroute : (Route.direct s.builder.externals.size).Leads
          (s.built (s.builder.newExternal found.declaration found.arity
            (s.unit.isOwn found.declaration)).2) callee.symbol :=
        ⟨_, d, s.builder.newExternal_getElem? _ _ _, hd, hsymbol⟩
      exact hnamed.insert hnamed.unit rfl hgrows.externals List.prefix_rfl hroute
  | @imported p address found unit hnew hknown haddress himport =>
      obtain ⟨u, hdeclare, rfl⟩ := CompilationUnit.declareImport_ok himport
      obtain rfl := hkeyed _ _ hknown
      have hgrows := s.builder.newExternal_grows found.declaration found.arity
        ((u.refer p.callee.symbol).isOwn found.declaration)
      have hextends : s.unit.declarations <+: (u.refer p.callee.symbol).declarations := by
        rw [CompilationUnit.refer_declarations]
        exact CompilationUnit.declareCallee_extends hdeclare
      refine ⟨hgrows, hextends, rfl, fun hnamed => ?_⟩
      obtain ⟨d, hd, hsymbol⟩ := CompilationUnit.declareCallee_symbol hdeclare
      have hunit := (hnamed.unit.declareCallee hdeclare).refer p.callee.symbol
      refine hnamed.insert hunit rfl hgrows.externals hextends ?_
      rw [← CompilationUnit.refer_declarations u p.callee.symbol] at hd
      exact ⟨_, d, s.builder.newExternal_getElem? _ _ _, hd, hsymbol⟩
  | @throughCell p hnew hknown haddress hcell =>
      have hgrows := s.builder.newSignature_grows p.arity
      have hextends : s.unit.declarations <+: (s.unit.refer callee.symbol).declarations := by simp
      refine ⟨hgrows, hextends, rfl, fun hnamed => ?_⟩
      exact hnamed.insert (hnamed.unit.refer _) rfl hgrows.externals hextends rfl

/-- Lowering only adds to its state, and gives the scope back as it was. -/
theorem respected_grows (hkeyed : around.registry.Keyed) :
    Respected around LowerState.Grows :=
  .of_emits .refl .trans .emits (fun _ h => h.grows hkeyed) .binds

/-- A route that was found leads to its callee, and no code was emitted for it. -/
theorem route?_leads (hkeyed : around.registry.Keyed) {callee : Callee} {route : Route}
    {s s' : LowerState} (h : route? around callee s = .ok (some route) s') (hnamed : s.Named) :
    s.Grows s' ∧ route.Leads s' callee.symbol ∧ s'.builder.values = s.builder.values ∧
      s'.builder.current = s.builder.current ∧ s'.builder.body = s.builder.body := by
  rcases route?_ok h with ⟨hkept, rfl⟩ | ⟨-, s₁, hfinds, rfl⟩
  · exact ⟨.refl _, hnamed.routes callee route hkept, rfl, rfl, rfl⟩
  · have hgrows := hfinds.grows hkeyed
    refine ⟨hgrows, (hgrows.named hnamed).routes callee route ?_, hfinds.code⟩
    rw [Table.find?_insert, if_pos rfl]

/-- Lowering enters every block that it creates, and enters it once. -/
theorem respected_entersNew :
    Respected around fun s s' => s.builder.EntersNew s'.builder where
  refl := fun s => .refl _ _
  trans := AddsNew.trans
  define := fun _ _ => .refl _ _
  callDirect := fun _ _ => .refl _ _
  callCell := fun _ _ => .refl _ _
  storeSlot := fun _ _ => .refl _ _
  newSlot := .refl _ _
  finds := by
    intro callee s route s' _ h
    cases h with
    | declared hfound => exact .refl _ _
    | imported hnew hknown haddress himport => exact .refl _ _
    | throughCell hnew hknown haddress hcell => exact .refl _ _
  binds := fun _ _ h => h
  cond := by
    intro s s₁ s₂ condition thenValue elseValue hthen helse
    have hblocks : s.builder.blocks + 3 ≤ s₁.builder.blocks := hthen.le
    have hblocks' : s₁.builder.blocks ≤ s₂.builder.blocks := helse.le
    refine ⟨(by omega : s.builder.blocks ≤ s₂.builder.blocks), fun id => ?_⟩
    have hthenCount : s₁.builder.entered.count id = s.builder.entered.count id +
        (if s.builder.blocks = id then 1 else 0) +
        if s.builder.blocks + 3 ≤ id ∧ id < s₁.builder.blocks then 1 else 0 :=
      (hthen.count id).trans (congrArg (· + _) (Code.Builder.count_enter _ _ _ _ id))
    have helseCount : s₂.builder.entered.count id = s₁.builder.entered.count id +
        (if s.builder.blocks + 1 = id then 1 else 0) +
        if s₁.builder.blocks ≤ id ∧ id < s₂.builder.blocks then 1 else 0 :=
      (helse.count id).trans (congrArg (· + _) (Code.Builder.count_enter _ _ _ _ id))
    refine (Code.Builder.count_enter _ _ _ _ id).trans ?_
    show _ = s.builder.entered.count id +
      if s.builder.blocks ≤ id ∧ id < s₂.builder.blocks then 1 else 0
    rw [helseCount, hthenCount]
    grind
  loop := by
    intro s s₁ start slot step finish hbody
    have hblocks : s.builder.blocks + 1 ≤ s₁.builder.blocks := hbody.le
    refine ⟨(by omega : s.builder.blocks ≤ s₁.builder.blocks + 1), fun id => ?_⟩
    have hbodyCount : s₁.builder.entered.count id = s.builder.entered.count id +
        (if s.builder.blocks = id then 1 else 0) +
        if s.builder.blocks + 1 ≤ id ∧ id < s₁.builder.blocks then 1 else 0 :=
      (hbody.count id).trans (congrArg (· + _) (Code.Builder.count_enter _ _ _ _ id))
    have hend : (s₁.builder.endLoop slot step finish s.builder.blocks).entered.count id =
        s₁.builder.entered.count id + if s₁.builder.blocks = id then 1 else 0 :=
      Code.Builder.count_enter _ _ _ _ id
    show (s₁.builder.endLoop slot step finish s.builder.blocks).entered.count id =
      s.builder.entered.count id +
        if s.builder.blocks ≤ id ∧ id < s₁.builder.blocks + 1 then 1 else 0
    rw [hend, hbodyCount]
    grind

/-- Keeping parameters in slots emits code in the first block. -/
theorem parameters_grows {s s' : LowerState} {first : Code.ValueId} {names : List String}
    {u : Unit} (h : parameters first names s = .ok u s') :
    s.builder.Grows s'.builder ∧ s.builder.EntersNew s'.builder := by
  induction names generalizing first s with
  | nil =>
      obtain rfl := parameters_nil_ok.mp h
      exact ⟨.refl _, .refl _ _⟩
  | cons name names ih =>
      obtain ⟨hgrows, henters⟩ := ih (parameters_cons_ok.mp h)
      have hstore : s.builder.Emits (s.builder.newSlot.2.storeSlot first s.builder.slots) :=
        .trans .newSlot (.storeSlot _ _)
      have hnew : s.builder.EntersNew (s.builder.newSlot.2.storeSlot first s.builder.slots) :=
        .refl _ _
      exact ⟨hstore.grows.trans hgrows, hnew.trans henters⟩

/-- Lowering a function only adds to the code, and enters each block once. -/
theorem function_grows (hkeyed : around.registry.Keyed) {f : Function} {s s' : LowerState}
    {r : Computed} (h : function around f s = .ok r s') :
    s.builder.Grows s'.builder ∧ s.builder.EntersNew s'.builder := by
  obtain ⟨s₁, hparams, hbody⟩ := function_ok.mp h
  obtain ⟨hgrows, henters⟩ := parameters_grows hparams
  have hrest := (respected_grows hkeyed).expr f.body hbody
  exact ⟨hgrows.trans hrest.builder, henters.trans (respected_entersNew.expr f.body hbody)⟩

end Lower

/-- A compiled function begins with a block that has its parameters. -/
theorem compile_within {around : Surroundings} (hkeyed : around.registry.Keyed) {f : Function}
    {c : Compilation} (h : around.compile f = .ok c) :
    (Code.Builder.start f.prototype.arity).Within c.procedure ∧
      ∃ block rest, c.procedure.blocks = block :: rest ∧ block.id = 0 := by
  obtain ⟨declared, unit, r, s, -, hfunction, rfl, -⟩ := Surroundings.compile_ok.mp h
  obtain ⟨hgrows, henters⟩ := Lower.function_grows hkeyed hfunction
  have hnodup : s.builder.entered.Nodup := by
    refine henters.nodup (List.nodup_singleton 0) ?_
    intro id hid
    obtain rfl := List.mem_singleton.mp hid
    exact Nat.one_pos
  exact ⟨hgrows.within (Code.Builder.within_finish hnodup _ _ _),
    Code.Builder.finish_first hgrows.entered _ _ _⟩

end Reckon
