import Reckon.Proofs.Meaning.Counterparts

/-!
# Linked code embodies its function

Compiled code calls what the linker knows by the symbols of its callees, and goes on to
do so as long as no symbol that had an address gets another one.  So code that has just
been linked embodies its function (`Linker.Embodies.fresh`), and keeps doing so while
the linker only gains units, cells and addresses (`Linker.Embodies.persists`).
-/

namespace Reckon

/-- A cell that compiled code calls through belongs to a callee other than the function
itself. -/
theorem compile_callsCell {around : Surroundings} (hkeyed : around.registry.Keyed)
    {f : Function} {c : Compilation} (h : around.compile f = .ok c) {symbol : String}
    {signature : Nat} {args : List Code.ValueId}
    (hcalls : Code.CallsCell c.procedure.instructions symbol signature args) :
    ∃ callee, f.prototype.callee ≠ callee ∧ callee.symbol = symbol := by
  obtain ⟨v, code, cell, hcall, hload, hcell⟩ := hcalls
  have hmem : .define v (.callThrough signature code args) ∈ c.procedure.calls :=
    List.mem_filter.mpr ⟨hcall, rfl⟩
  obtain ⟨bond, hbond, hbound⟩ := exists_of_forall₂ (compile_bonds hkeyed h) hmem
  obtain ⟨callee, -, rfl⟩ := List.mem_map.mp hbond
  generalize hlinked : around.linker.bond f.prototype callee = bond at hbound
  have hnodup := compile_definitions h
  cases hbound with
  | through hload' hcell' =>
      have hsame := Code.Procedure.operation_unique hnodup hload hload'
      obtain rfl := Code.Operation.loadCell.inj hsame
      have hsymbol := Code.Procedure.operation_unique hnodup hcell hcell'
      obtain rfl := Code.Operation.cell.inj hsymbol
      unfold Linker.bond at hlinked
      split at hlinked
      · cases hlinked
      · next hne =>
          split at hlinked
          · exact ⟨callee, hne, Bond.late.inj hlinked⟩
          · cases hlinked

namespace Linker

variable {l l' l'' : Linker} {c : Compilation} {f : Function} {i : Nat} {u : LinkedUnit}

/-- A cell holds what its symbol refers to. -/
theorem Coherent.cell (h : l.Coherent) {symbol : String} (hcell : l.hasCell symbol = true) :
    (l.cells.find? symbol).join = l.address? symbol := by
  obtain ⟨content, hcontent⟩ := hasCell_eq_true.mp hcell
  rw [hcontent]
  cases content with
  | none => exact (h.empty symbol hcontent).symm
  | some address => exact (address?_of_published (h.filled symbol address hcontent)).symm

/-- A linker has all that another one has, and no symbol has got another address. -/
structure Extends (l l' : Linker) : Prop where
  units : ∀ (i : Nat) (u : LinkedUnit), l.units[i]? = some u → l'.units[i]? = some u
  cells : ∀ symbol, l.hasCell symbol = true → l'.hasCell symbol = true
  addresses : ∀ symbol address, l.address? symbol = some address →
    l'.address? symbol = some address

theorem extends_load (l : Linker) (c : Compilation) : l.Extends (l.load c).1 :=
  ⟨fun _ _ => load_units_lt, fun _ => id, fun _ _ => id⟩

/-- Linking a function whose symbol had no address extends the linker. -/
theorem extends_link (h : l.isLinked c.prototype.callee.symbol = false) : l.Extends (l.link c) := by
  refine ⟨fun _ _ => link_units_lt, fun symbol => (hasCell_link symbol).trans,
    fun symbol address haddress => ?_⟩
  rw [link_eq]
  split
  · exact haddress
  · have hne : c.prototype.callee.symbol ≠ symbol := by
      rintro rfl
      simp [isLinked, haddress] at h
    rw [address?_publish, if_neg hne]
    exact haddress

/-- What a call goes to stays the same. -/
theorem Extends.target? (h : l.Extends l') {own symbol : String} {address : Address}
    (htarget : l.target? own i symbol = some address) :
    l'.target? own i symbol = some address := by
  unfold Linker.target? at htarget ⊢
  split
  · next heq => rwa [if_pos heq] at htarget
  · next hne => exact h.addresses _ _ (by rwa [if_neg hne] at htarget)

/-- Code embodies its function also in a linker that has more. -/
theorem Embodies.persists (h : l.Embodies f i c u) (hl : l.Coherent) (hl' : l'.Coherent)
    (hextends : l.Extends l') : l'.Embodies f i c u where
  compiled := h.compiled
  unit := hextends.units i u h.unit
  procedure := h.procedure
  targets := h.targets.imp fun _ _ htarget => hextends.target? htarget
  cells := by
    intro symbol signature args hcalls
    obtain ⟨hcell, hholds⟩ := h.cells symbol signature args hcalls
    have hcell' := hextends.cells symbol hcell
    refine ⟨hcell', ?_⟩
    rw [hl.cell hcell] at hholds
    rw [hl'.cell hcell']
    unfold Linker.target? at hholds ⊢
    split
    · next heq =>
        rw [if_pos heq] at hholds
        exact hextends.addresses _ _ hholds
    · rfl

/-- **Code that has been added to a linker embodies its function**, if the symbol of
the function refers to it, or belongs to a bare expression. -/
theorem Embodies.fresh {around : Surroundings} (hkeyed : around.registry.Keyed)
    (hcompile : around.compile f = .ok c) (hl' : l'.Coherent) (hextends : around.linker.Extends l')
    (hunit : l'.units[around.linker.units.size]? = some (around.linker.unitOf c))
    (hown : l'.address? f.prototype.callee.symbol = some (.unit around.linker.units.size) ∨
      f.prototype.isAnonymous = true) :
    l'.Embodies f around.linker.units.size c (around.linker.unitOf c) where
  compiled := ⟨around, hkeyed, hcompile⟩
  unit := hunit
  procedure := rfl
  targets := by
    refine List.forall₂_map_right_iff.mpr (List.forall₂_same.mpr fun d hd => ?_)
    rcases compile_declarations hkeyed hcompile d hd with
      ⟨hsymbol, hbinding⟩ | ⟨hne, address, hbinding, haddress⟩
    · rw [Linker.target?, if_pos hsymbol.symm, hbinding]
    · rw [Linker.target?, if_neg (Ne.symm hne), hbinding]
      exact hextends.addresses _ _ haddress
  cells := by
    intro symbol signature args hcalls
    have hcell := hextends.cells symbol
      ((compile_resolved hkeyed hcompile).cells symbol hcalls.namesCell).1
    refine ⟨hcell, ?_⟩
    rw [hl'.cell hcell, Linker.target?]
    split
    · next heq =>
        rcases hown with hpublished | hanonymous
        · exact heq ▸ hpublished
        · -- only the function itself has the symbol of a bare expression
          obtain ⟨callee, hne, hsymbol⟩ := compile_callsCell hkeyed hcompile hcalls
          have hcallee := Prototype.callee_of_isAnonymous hanonymous
          rw [hcallee] at heq hne
          exact absurd (Callee.symbol_eq_anonymousName (hsymbol.trans heq.symm)).symm hne
    · rfl

end Linker

end Reckon
