import Reckon.Proofs.Link.Coherence
import Reckon.Proofs.Lowering.Arguments
import Reckon.Proofs.Meaning.Position

/-!
# Linked code takes the arguments that it is given

The number of parameters of a unit never changes, and a direct call keeps its
target, so a call that agreed with its target when its unit was linked agrees with
it ever after.  A call through a cell agrees with what was promised for the symbol
of the cell; this is worth something as long as only definitions with that number
of parameters are published (`Linker.Agrees.link`).
-/

namespace Reckon

/-- The code that the calls of a unit lead to has as many parameters as they pass
arguments, and the function of the unit starts with as many as it has. -/
structure LinkedUnit.Agrees (l : Linker) (promised : String → Nat) (u : LinkedUnit) : Prop where
  direct : ∀ v external args e, .define v (.call external args) ∈ u.procedure.instructions →
    u.procedure.externals[external]? = some e →
      ∃ target, u.targets[e.declaration]? = some target ∧ l.parameters? target = some args.length
  through : ∀ symbol signature args,
    Code.CallsCell u.procedure.instructions symbol signature args →
      args.length = promised symbol
  starts : ∀ xs : List Float, u.procedure.arity = xs.length →
    ∃ frame, Frame.start? u.procedure xs = some frame

namespace Linker

/-- Every unit agrees with the code that it leads to, and what is in a cell has the
number of parameters that was promised. -/
structure Agrees (l : Linker) (promised : String → Nat) : Prop where
  units : ∀ (i : Nat) (u : LinkedUnit), l.units[i]? = some u → u.Agrees l promised
  cells : ∀ symbol address, l.cells.find? symbol = some (some address) →
    l.parameters? address = some (promised symbol)

variable {l l' : Linker} {promised : String → Nat} {c : Compilation}

/-- The code at an address keeps its parameters as long as no unit is lost. -/
theorem parameters?_of_units {address : Address} {n : Nat}
    (hunits : ∀ (j : Nat) (v : LinkedUnit), l.units[j]? = some v → l'.units[j]? = some v)
    (h : l.parameters? address = some n) : l'.parameters? address = some n := by
  cases address with
  | primitive primitive => exact h
  | unit j =>
      obtain ⟨v, hv, harity⟩ := Option.map_eq_some_iff.mp h
      exact Option.map_eq_some_iff.mpr ⟨v, hunits j v hv, harity⟩

end Linker

theorem LinkedUnit.Agrees.of_units {l l' : Linker} {promised : String → Nat} {u : LinkedUnit}
    (h : u.Agrees l promised)
    (hunits : ∀ (j : Nat) (v : LinkedUnit), l.units[j]? = some v → l'.units[j]? = some v) :
    u.Agrees l' promised := by
  refine ⟨?_, h.through, h.starts⟩
  intro v external args e hcall he
  obtain ⟨target, htarget, hparameters⟩ := h.direct v external args e hcall he
  exact ⟨target, htarget, Linker.parameters?_of_units hunits hparameters⟩

/-- A compiled function starts with as many arguments as it has parameters. -/
theorem compile_starts {around : Surroundings} (hkeyed : around.registry.Keyed) {f : Function}
    {c : Compilation} (h : around.compile f = .ok c) {xs : List Float}
    (hlength : c.procedure.arity = xs.length) :
    ∃ frame, Frame.start? c.procedure xs = some frame := by
  obtain ⟨hwithin, hfirst⟩ := compile_within hkeyed h
  obtain ⟨-, -, harity⟩ := Surroundings.compile_head h
  obtain ⟨frame, hframe, -⟩ :=
    Frame.start?_of_within hwithin hfirst harity (harity.symm.trans hlength)
  exact ⟨frame, hframe⟩

namespace Linker

variable {l l' : Linker} {promised : String → Nat} {c : Compilation}

theorem agrees_empty (promised : String → Nat) : empty.Agrees promised := by
  refine ⟨?_, ?_⟩
  · intro i u hu
    cases hu
  · intro symbol address hfilled
    cases hfilled

theorem Agrees.reserve (h : l.Agrees promised) (symbol : String) :
    (l.reserve symbol).Agrees promised := by
  unfold Linker.reserve
  split
  · exact h
  · refine ⟨fun i u hu => (h.units i u hu).of_units fun _ _ hv => hv, ?_⟩
    intro other address hfilled
    rw [Table.find?_insert] at hfilled
    split at hfilled
    · cases hfilled
    · exact h.cells other address hfilled

theorem parameters?_load (l : Linker) (c : Compilation) :
    (l.load c).1.parameters? (.unit l.units.size) = some c.procedure.arity :=
  Option.map_eq_some_iff.mpr ⟨_, load_unit l c, rfl⟩

/-- The declarations of a unit are resolved to code with their number of
parameters. -/
theorem agrees_unitOf (hc : c.Agrees l promised)
    (hstarts : ∀ xs : List Float, c.procedure.arity = xs.length →
      ∃ frame, Frame.start? c.procedure xs = some frame) :
    (l.unitOf c).Agrees (l.load c).1 promised := by
  refine ⟨?_, hc.through, hstarts⟩
  intro v external args e hcall he
  obtain ⟨d, hd, hlength⟩ := hc.direct v external args e hcall he
  rcases hc.declarations d (List.mem_of_getElem? hd) with
    ⟨hown, harity⟩ | ⟨address, himport, harity⟩
  · refine ⟨.unit l.units.size, ?_, ?_⟩
    · simp [unitOf, hd, hown]
    · rw [parameters?_load, hlength, harity]
  · refine ⟨address, ?_, ?_⟩
    · simp [unitOf, hd, himport]
    · rw [hlength]
      exact parameters?_of_units (fun _ _ => load_units_lt) harity

theorem Agrees.load (h : l.Agrees promised) (hunit : (l.unitOf c).Agrees (l.load c).1 promised) :
    (l.load c).1.Agrees promised := by
  refine ⟨?_, ?_⟩
  · intro i u hu
    rcases load_units_cases hu with ⟨-, rfl⟩ | hold
    · exact hunit
    · exact (h.units i u hold).of_units fun _ _ => load_units_lt
  · intro symbol address hfilled
    exact parameters?_of_units (fun _ _ => load_units_lt) (h.cells symbol address hfilled)

/-- A cell may be filled with code that has the promised number of parameters. -/
theorem Agrees.publish (h : l.Agrees promised) {symbol : String} {address : Address}
    {references : List String}
    (hpromised : l.hasCell symbol = true → l.parameters? address = some (promised symbol)) :
    (l.publish symbol address references).Agrees promised := by
  have hunits : ∀ (j : Nat) (v : LinkedUnit), l.units[j]? = some v →
      (l.publish symbol address references).units[j]? = some v := fun _ _ => publish_units_lt
  refine ⟨?_, ?_⟩
  · intro i u hu
    rw [publish_units] at hu
    exact (h.units i u hu).of_units hunits
  · intro other found hfilled
    apply parameters?_of_units hunits
    rw [find?_publish] at hfilled
    split at hfilled
    · next hcell =>
        obtain rfl := Option.some.inj (Option.some.inj hfilled)
        exact hcell.1 ▸ hpromised hcell.2
    · exact h.cells other found hfilled

/-- Linking a definition keeps all calls in agreement with what they lead to, if a
symbol with a cell gets the number of parameters that was promised for it. -/
theorem Agrees.link (h : l.Agrees promised) (hunit : (l.unitOf c).Agrees (l.load c).1 promised)
    (hpromised : l.hasCell c.prototype.callee.symbol = true →
      c.procedure.arity = promised c.prototype.callee.symbol) : (l.link c).Agrees promised := by
  rw [link_eq]
  split
  · exact h.load hunit
  · refine (h.load hunit).publish fun hcell => ?_
    rw [parameters?_load, hpromised hcell]

theorem reserve_units (symbol : String) : (l.reserve symbol).units = l.units := by
  unfold Linker.reserve
  split <;> rfl

theorem address?_reserve (symbol other : String) :
    (l.reserve symbol).address? other = l.address? other := by
  unfold Linker.reserve
  split <;> rfl

theorem isLinked_reserve (symbol other : String) :
    (l.reserve symbol).isLinked other = l.isLinked other := by
  rw [isLinked, isLinked, address?_reserve]

/-- Only the symbol itself gets a cell. -/
theorem hasCell_reserve {symbol other : String} (hne : symbol ≠ other) :
    (l.reserve symbol).hasCell other = l.hasCell other := by
  unfold Linker.reserve
  split
  · rfl
  · simp [hasCell, Table.contains, Table.find?_insert, hne]

theorem link_units_lt {j : Nat} {v : LinkedUnit} (h : l.units[j]? = some v) :
    (l.link c).units[j]? = some v := by
  rw [link_eq]
  split
  · exact load_units_lt h
  · exact publish_units_lt (load_units_lt h)

/-- Linking a definition adds no cell and takes none away. -/
theorem hasCell_link (symbol : String) : (l.link c).hasCell symbol = l.hasCell symbol := by
  rw [link_eq]
  split
  · rfl
  · exact hasCell_publish symbol

/-- Linking a definition takes no address away. -/
theorem isLinked_link {symbol : String} (h : l.isLinked symbol = true) :
    (l.link c).isLinked symbol = true := by
  have hload : (l.load c).1.isLinked symbol = true := h
  rw [link_eq]
  split
  · exact hload
  · unfold isLinked
    rw [address?_publish]
    split
    · rfl
    · exact hload

section Named

variable (hnamed : c.prototype.isAnonymous = false)

include hnamed

theorem link_of_named : l.link c =
    (l.load c).1.publish c.prototype.callee.symbol (.unit l.units.size) c.unit.references := by
  rw [link_eq, hnamed]
  rfl

/-- A definition is what its symbol refers to, and no other symbol is affected. -/
theorem address?_link (symbol : String) :
    (l.link c).address? symbol =
      if c.prototype.callee.symbol = symbol then some (.unit l.units.size)
      else l.address? symbol := by
  rw [link_of_named hnamed]
  exact address?_publish symbol

theorem parameters?_link : (l.link c).parameters? (.unit l.units.size) =
    some c.procedure.arity := by
  rw [link_of_named hnamed]
  exact parameters?_of_units (fun _ _ => publish_units_lt) (parameters?_load l c)

/-- A definition that is no bare expression has an address once it is linked. -/
theorem isLinked_link_self : (l.link c).isLinked c.prototype.callee.symbol = true := by
  rw [isLinked, address?_link hnamed, if_pos rfl]
  rfl

end Named

end Linker

end Reckon
