import Reckon.Link.Linker
import Reckon.Proofs.Lowering.References

/-!
# What the linker records about its units

The linker records the references of the newest definition of each symbol, while
the code of its units is bound once and for all.  `Linker.Coherent` says how the
two agree: a filled cell holds the newest definition, an empty cell belongs to a
symbol without an address, and the newest definition of a symbol reaches nothing
but primitives, itself and functions whose symbols are recorded.  Nothing is said
about the references of a definition that has been replaced, because the linker
does not keep them.
-/

namespace Reckon

namespace Linker

variable {l : Linker}

/-- An address that code with these references may hold. -/
def Noted (l : Linker) (index : Nat) (references : List String) : Address → Prop
  | .primitive _ => True
  | .unit j => j = index ∨ ∃ u, l.units[j]? = some u ∧ u.procedure.symbol ∈ references

/-- The references of a unit say everything that it reaches. -/
structure Recorded (l : Linker) (index : Nat) (u : LinkedUnit) (references : List String) :
    Prop where
  targets : ∀ target ∈ u.targets, l.Noted index references target
  cells : ∀ symbol, Code.NamesCell u.procedure.instructions symbol → symbol ∈ references

/-- The records of a linker agree with its units. -/
structure Coherent (l : Linker) : Prop where
  published : ∀ symbol address, l.published? symbol = some address →
    ∃ i u, address = .unit i ∧ l.units[i]? = some u ∧ u.procedure.symbol = symbol
  filled : ∀ symbol address, l.cells.find? symbol = some (some address) →
    l.published? symbol = some address
  empty : ∀ symbol, l.cells.find? symbol = some none → l.address? symbol = none
  cells : ∀ (i : Nat) (u : LinkedUnit) (symbol : String), l.units[i]? = some u →
    Code.NamesCell u.procedure.instructions symbol → l.hasCell symbol = true
  recorded : ∀ (symbol : String) (i : Nat) (u : LinkedUnit),
    l.published? symbol = some (.unit i) → l.units[i]? = some u →
      l.Recorded i u (l.dependenciesOf symbol)

theorem coherent_empty : empty.Coherent := by
  refine ⟨?_, ?_, ?_, ?_, ?_⟩
  · intro symbol address h
    cases h
  · intro symbol address h
    cases h
  · intro symbol h
    cases h
  · intro i u symbol h
    cases h
  · intro symbol i u h
    cases h

/-- A symbol is linked exactly if it has an address. -/
theorem isLinked_eq_true {symbol : String} :
    l.isLinked symbol = true ↔ ∃ address, l.address? symbol = some address :=
  Option.isSome_iff_exists

theorem address?_of_published {symbol : String} {address : Address}
    (h : l.published? symbol = some address) : l.address? symbol = some address := by
  simp [address?, h]

/-- An address is a primitive or the newest definition. -/
theorem address?_cases {symbol : String} {address : Address}
    (h : l.address? symbol = some address) :
    (∃ primitive, address = .primitive primitive) ∨ l.published? symbol = some address := by
  unfold address? at h
  split at h
  · next found hfound =>
      obtain rfl := Option.some.inj h
      exact Or.inr hfound
  · obtain ⟨primitive, -, rfl⟩ := Option.map_eq_some_iff.mp h
    exact Or.inl ⟨primitive, rfl⟩

theorem hasCell_eq_true {symbol : String} :
    l.hasCell symbol = true ↔ ∃ content, l.cells.find? symbol = some content :=
  Option.isSome_iff_exists

/-- A cell of a symbol that has an address is filled. -/
theorem Coherent.filled_of_linked (h : l.Coherent) {symbol : String}
    (hcell : l.hasCell symbol = true) (hlinked : l.isLinked symbol = true) :
    ∃ address, l.cells.find? symbol = some (some address) ∧
      l.published? symbol = some address := by
  obtain ⟨content, hcontent⟩ := hasCell_eq_true.mp hcell
  cases content with
  | some address => exact ⟨address, hcontent, h.filled symbol address hcontent⟩
  | none =>
      obtain ⟨address, haddress⟩ := isLinked_eq_true.mp hlinked
      rw [h.empty symbol hcontent] at haddress
      cases haddress

/-- What is recorded stays so as long as no unit is lost. -/
theorem Recorded.of_units {l' : Linker} {index : Nat} {u : LinkedUnit}
    {references : List String} (h : l.Recorded index u references)
    (hunits : ∀ (j : Nat) (v : LinkedUnit), l.units[j]? = some v → l'.units[j]? = some v) :
    l'.Recorded index u references := by
  refine ⟨?_, h.cells⟩
  intro target htarget
  have hnoted := h.targets target htarget
  cases target with
  | primitive primitive => trivial
  | unit j =>
      rcases hnoted with heq | ⟨v, hv, hmem⟩
      · exact Or.inl heq
      · exact Or.inr ⟨v, hunits j v hv, hmem⟩

section Reserve

theorem Coherent.reserve (h : l.Coherent) (symbol : String) : (l.reserve symbol).Coherent := by
  unfold Linker.reserve
  split
  · exact h
  · next hnew =>
      rw [Bool.not_eq_true, Bool.or_eq_false_iff] at hnew
      obtain ⟨hunlinked, -⟩ := hnew
      refine ⟨h.published, ?_, ?_, ?_, ?_⟩
      · intro other address hfound
        rw [Table.find?_insert] at hfound
        split at hfound
        · cases hfound
        · exact h.filled other address hfound
      · intro other hfound
        rw [Table.find?_insert] at hfound
        split at hfound
        · next heq =>
            subst heq
            exact Option.not_isSome_iff_eq_none.mp (Bool.eq_false_iff.mp hunlinked)
        · exact h.empty other hfound
      · intro i u other hu hnames
        obtain ⟨content, hcontent⟩ := hasCell_eq_true.mp (h.cells i u other hu hnames)
        refine hasCell_eq_true.mpr ?_
        rw [Table.find?_insert]
        split
        · exact ⟨_, rfl⟩
        · exact ⟨content, hcontent⟩
      · intro other i u hpublished hu
        exact (h.recorded other i u hpublished hu).of_units fun _ _ hv => hv

end Reserve

section Load

variable {c : Compilation}

/-- The unit that a compilation becomes. -/
def unitOf (l : Linker) (c : Compilation) : LinkedUnit :=
  ⟨c.procedure, c.unit.declarations.map fun d =>
    match d.binding with
    | .own => .unit l.units.size
    | .imported target => target⟩

theorem load_eq (l : Linker) (c : Compilation) :
    l.load c = ({ l with units := l.units.push (l.unitOf c) }, .unit l.units.size) := rfl

theorem link_eq (l : Linker) (c : Compilation) :
    l.link c = if c.prototype.isAnonymous then (l.load c).1
      else (l.load c).1.publish c.prototype.callee.symbol (.unit l.units.size)
        c.unit.references := rfl

theorem load_units_lt {i : Nat} {u : LinkedUnit} (h : l.units[i]? = some u) :
    (l.load c).1.units[i]? = some u := by
  obtain ⟨hlt, -⟩ := Array.getElem?_eq_some_iff.mp h
  rw [load_eq]
  dsimp only
  rw [Array.getElem?_push_lt hlt, ← Array.getElem?_eq_getElem hlt, h]

/-- A loaded unit is the new one or was there before. -/
theorem load_units_cases {i : Nat} {u : LinkedUnit} (h : (l.load c).1.units[i]? = some u) :
    (i = l.units.size ∧ u = l.unitOf c) ∨ l.units[i]? = some u := by
  rw [load_eq] at h
  dsimp only at h
  rw [Array.getElem?_push] at h
  split at h
  · next heq => exact Or.inl ⟨heq, (Option.some.inj h).symm⟩
  · exact Or.inr h

theorem load_unit (l : Linker) (c : Compilation) :
    (l.load c).1.units[l.units.size]? = some (l.unitOf c) := by
  rw [load_eq]
  exact Array.getElem?_push_size

/-- The references of a compilation say everything that its unit reaches. -/
theorem Coherent.recorded_unitOf (h : l.Coherent) (hc : c.Resolved l) :
    l.Recorded l.units.size (l.unitOf c) c.unit.references := by
  refine ⟨?_, fun symbol hnames => (hc.cells symbol hnames).2⟩
  intro target htarget
  obtain ⟨d, hd, rfl⟩ := List.mem_map.mp htarget
  rcases hc.imports d hd with hown | ⟨address, hbinding, haddress, hreference⟩
  · rw [hown]
    exact Or.inl rfl
  · rw [hbinding]
    rcases address?_cases haddress with ⟨primitive, rfl⟩ | hpublished
    · trivial
    · obtain ⟨i, u, rfl, hu, hsymbol⟩ := h.published _ _ hpublished
      exact Or.inr ⟨u, hu, hsymbol ▸ hreference⟩

theorem Coherent.load (h : l.Coherent) (hc : c.Resolved l) : (l.load c).1.Coherent := by
  refine ⟨?_, h.filled, h.empty, ?_, ?_⟩
  · intro symbol address hpublished
    obtain ⟨i, u, heq, hu, hsymbol⟩ := h.published symbol address hpublished
    exact ⟨i, u, heq, load_units_lt hu, hsymbol⟩
  · intro i u symbol hu hnames
    rcases load_units_cases hu with ⟨-, rfl⟩ | hold
    · exact (hc.cells symbol hnames).1
    · exact h.cells i u symbol hold hnames
  · intro symbol i u hpublished hu
    obtain ⟨j, v, heq, hv, -⟩ := h.published symbol _ hpublished
    obtain rfl := Address.unit.inj heq
    have hsame : u = v := Option.some.inj (hu.symm.trans (load_units_lt hv))
    subst hsame
    exact (h.recorded symbol i u hpublished hv).of_units fun _ _ => load_units_lt

end Load

section Publish

variable {symbol : String} {address : Address} {references : List String}

/-- Publishing a symbol fills its cell and no other. -/
theorem find?_publish (other : String) :
    (l.publish symbol address references).cells.find? other =
      if symbol = other ∧ l.hasCell symbol = true then some (some address)
      else l.cells.find? other := by
  unfold publish fill
  by_cases hcell : l.hasCell symbol = true
  · simp [hcell, Table.find?_insert]
  · simp [hcell]

/-- A cell holds the address if it is the one of the symbol, and is as it was if it is not. -/
theorem cell_publish {other : String} {content : Option Address}
    (h : (l.publish symbol address references).cells.find? other = some content) :
    symbol = other ∧ content = some address ∨
      symbol ≠ other ∧ l.cells.find? other = some content := by
  rw [find?_publish] at h
  split at h
  · next hboth => exact Or.inl ⟨hboth.1, (Option.some.inj h).symm⟩
  · next hother =>
      -- the cell of the symbol would have been filled
      have hne : symbol ≠ other := fun heq =>
        hother ⟨heq, hasCell_eq_true.mpr ⟨content, heq ▸ h⟩⟩
      exact Or.inr ⟨hne, h⟩

theorem published?_publish (other : String) :
    (l.publish symbol address references).published? other =
      if symbol = other then some address else l.published? other :=
  Table.find?_insert _ _ _ _

theorem dependencies_publish (other : String) :
    (l.publish symbol address references).dependencies.find? other =
      if symbol = other then some references else l.dependencies.find? other := by
  simp only [publish, Table.find?_insert]

theorem dependenciesOf_publish (other : String) :
    (l.publish symbol address references).dependenciesOf other =
      if symbol = other then references else l.dependenciesOf other := by
  unfold dependenciesOf
  rw [dependencies_publish]
  split <;> rfl

theorem publish_units : (l.publish symbol address references).units = l.units := by
  simp only [publish, fill]
  split <;> rfl

/-- Publishing a symbol adds no cell and takes none away. -/
theorem hasCell_publish (other : String) :
    (l.publish symbol address references).hasCell other = l.hasCell other := by
  rw [hasCell, Table.contains, find?_publish]
  split
  · next hboth => exact (hboth.1 ▸ hboth.2).symm
  · rfl

theorem publish_units_lt {j : Nat} {v : LinkedUnit} (h : l.units[j]? = some v) :
    (l.publish symbol address references).units[j]? = some v :=
  publish_units.symm ▸ h

theorem address?_publish (other : String) :
    (l.publish symbol address references).address? other =
      if symbol = other then some address else l.address? other := by
  unfold address?
  rw [published?_publish]
  by_cases heq : symbol = other
  · rw [if_pos heq, if_pos heq]
  · rw [if_neg heq, if_neg heq]

/-- A symbol may be given to a unit of its own whose references are recorded. -/
theorem Coherent.publish (h : l.Coherent) {i : Nat} {u : LinkedUnit}
    (hu : l.units[i]? = some u) (hsymbol : u.procedure.symbol = symbol)
    (hrecorded : l.Recorded i u references) :
    (l.publish symbol (.unit i) references).Coherent := by
  refine ⟨?_, ?_, ?_, ?_, ?_⟩
  · intro other address hpublished
    rw [published?_publish] at hpublished
    rw [publish_units]
    split at hpublished
    · next heq =>
        obtain rfl := Option.some.inj hpublished
        exact ⟨i, u, rfl, hu, hsymbol.trans heq⟩
    · exact h.published other address hpublished
  · intro other address hfilled
    rw [published?_publish]
    rcases cell_publish hfilled with ⟨heq, hcontent⟩ | ⟨hne, hold⟩
    · rw [if_pos heq]
      exact hcontent.symm
    · rw [if_neg hne]
      exact h.filled other address hold
  · intro other hempty
    rcases cell_publish hempty with ⟨-, hcontent⟩ | ⟨hne, hold⟩
    · cases hcontent
    · rw [address?_publish, if_neg hne]
      exact h.empty other hold
  · intro j v other hv hnames
    rw [publish_units] at hv
    exact (hasCell_publish other).trans (h.cells j v other hv hnames)
  · intro other j v hpublished hv
    rw [published?_publish] at hpublished
    rw [publish_units] at hv
    rw [dependenciesOf_publish]
    split at hpublished
    · next heq =>
        obtain rfl := Address.unit.inj (Option.some.inj hpublished)
        obtain rfl := Option.some.inj (hu.symm.trans hv)
        rw [if_pos heq]
        exact hrecorded.of_units fun _ _ => publish_units_lt
    · next hne =>
        rw [if_neg hne]
        exact (h.recorded other j v hpublished hv).of_units fun _ _ => publish_units_lt

end Publish

/-- Linking a definition keeps the records in agreement with the units. -/
theorem Coherent.link {c : Compilation} (h : l.Coherent) (hc : c.Resolved l)
    (hsymbol : c.procedure.symbol = c.prototype.callee.symbol) : (l.link c).Coherent := by
  rw [link_eq]
  split
  · exact h.load hc
  · exact (h.load hc).publish (l.load_unit c) hsymbol
      ((h.recorded_unitOf hc).of_units fun _ _ => load_units_lt)

end Linker

end Reckon
