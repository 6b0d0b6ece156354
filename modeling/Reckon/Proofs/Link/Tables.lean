import Reckon.Proofs.Link.Newest
import Reckon.Proofs.Syntax.Callees

/-!
# The tables of a linker

The linker keeps its symbols in three tables, which different operations write: a
declaration reserves a cell, and a definition publishes an address, fills the cell if
there is one and records what it refers to.  `Linker.Tabled` says what the tables have
to do with each other and with the functions that have been linked, in whatever order
symbols are reserved and published.
-/

namespace Reckon

namespace Function

/-- The function that a symbol refers to among some definitions, the last of which comes
first.  Nothing refers to a bare expression. -/
def latest? (defined : List Function) (symbol : String) : Option Function :=
  defined.find? fun f => !f.prototype.isAnonymous && f.symbol == symbol

variable {defined : List Function} {f : Function} {symbol : String}

theorem latest?_cons_anonymous (h : f.prototype.isAnonymous = true) :
    latest? (f :: defined) symbol = latest? defined symbol := by
  simp [latest?, h]

theorem latest?_cons_named (h : f.prototype.isAnonymous = false) :
    latest? (f :: defined) symbol = if f.symbol = symbol then some f else latest? defined symbol := by
  by_cases heq : f.symbol = symbol
  · simp [latest?, h, heq]
  · simp [latest?, h, heq]

theorem isSome_latest? : (latest? defined symbol).isSome = true ↔
    ∃ f ∈ defined, f.prototype.isAnonymous = false ∧ f.symbol = symbol := by
  simp [latest?, List.find?_isSome]

end Function

namespace Linker

/-- A symbol is linked, is that of a primitive, or has a cell. -/
def Knows (l : Linker) (symbol : String) : Prop :=
  (l.published? symbol).isSome = true ∨ (Primitive.ofSymbol? symbol).isSome = true ∨
    l.hasCell symbol = true

/-- The tables agree with each other and with the functions that have been linked, the
last of which comes first. -/
structure Tabled (l : Linker) (defined : List Function) : Prop where
  published : ∀ symbol, (l.published? symbol).isSome = true ↔
    ∃ f ∈ defined, f.prototype.isAnonymous = false ∧ f.symbol = symbol
  cells : ∀ symbol content, l.cells.find? symbol = some content →
    content = l.published? symbol
  primitives : ∀ primitive : Primitive, l.hasCell primitive.symbol = false
  depended : ∀ symbol, ∀ other ∈ l.dependenciesOf symbol, l.Knows other
  recorded : ∀ symbol, l.dependencies.contains symbol = (l.published? symbol).isSome
  needs : ∀ symbol f, Function.latest? defined symbol = some f →
    ∀ other, other ∈ l.dependenciesOf symbol ↔ other ∈ f.needs
  units : l.unitCount = defined.length

variable {l : Linker} {c : Compilation} {f : Function} {defined : List Function}
  {symbol : String}

theorem isLinked_iff : l.isLinked symbol = true ↔
    (l.published? symbol).isSome = true ∨ (Primitive.ofSymbol? symbol).isSome = true := by
  unfold isLinked address?
  cases l.published? symbol with
  | some address => simp
  | none => simp

theorem knows_iff : l.Knows symbol ↔ l.isLinked symbol = true ∨ l.hasCell symbol = true := by
  rw [isLinked_iff, or_assoc, Knows]

theorem Knows.reserve (h : l.Knows symbol) (other : String) : (l.reserve other).Knows symbol := by
  rw [knows_iff] at h ⊢
  rw [isLinked_reserve]
  by_cases heq : other = symbol
  · subst heq
    refine h.imp_right fun hcell => ?_
    rwa [Linker.reserve, if_pos (by simp [hcell])]
  · rwa [hasCell_reserve heq]

theorem Knows.link (h : l.Knows symbol) (c : Compilation) : (l.link c).Knows symbol := by
  rw [knows_iff] at h ⊢
  rw [hasCell_link]
  exact h.imp_left isLinked_link

/-- A symbol that is reserved has an address or a cell. -/
theorem reserve_there (l : Linker) (symbol : String) :
    l.isLinked symbol = true ∨ (l.reserve symbol).hasCell symbol = true := by
  unfold reserve
  split
  · next hthere =>
      rw [Bool.or_eq_true] at hthere
      exact hthere
  · right
    simp [hasCell, Table.contains, Table.find?_insert]

theorem knows_reserve (l : Linker) (symbol : String) : (l.reserve symbol).Knows symbol := by
  rw [knows_iff, isLinked_reserve]
  exact l.reserve_there symbol

theorem tabled_empty : empty.Tabled [] := by
  refine ⟨fun symbol => ⟨fun h => ?_, fun ⟨_, hmem, _⟩ => ?_⟩, fun _ _ h => ?_, fun _ => rfl,
    fun _ _ h => ?_, fun _ => rfl, fun _ _ h => ?_, rfl⟩
  · cases h
  · cases hmem
  · cases h
  · cases h
  · cases h

/-- A cell that is added is empty, and no address had been published for its symbol. -/
theorem Tabled.reserve (h : l.Tabled defined) (symbol : String) :
    (l.reserve symbol).Tabled defined := by
  have hknows {other : String} (hother : l.Knows other) := hother.reserve symbol
  unfold Linker.reserve at hknows ⊢
  split
  · exact h
  · next hnew =>
      rw [if_neg hnew] at hknows
      rw [Bool.not_eq_true, Bool.or_eq_false_iff] at hnew
      refine ⟨h.published, fun other content hcell => ?_, fun primitive => ?_,
        fun other needed hneeded => hknows (h.depended other needed hneeded), h.recorded,
        h.needs, h.units⟩
      · rw [Table.find?_insert] at hcell
        split at hcell
        · next heq =>
            obtain rfl := Option.some.inj hcell
            have hunlinked : ¬l.isLinked other = true := by simp [← heq, hnew.1]
            rw [isLinked_iff, not_or] at hunlinked
            exact (Option.not_isSome_iff_eq_none.mp hunlinked.1).symm
        · exact h.cells other content hcell
      · have hne : symbol ≠ primitive.symbol := by
          rintro rfl
          have hlinked : l.isLinked primitive.symbol = true :=
            isLinked_iff.mpr (Or.inr (by rw [Primitive.ofSymbol?_symbol]; rfl))
          rw [hnew.1] at hlinked
          cases hlinked
        have hold := h.primitives primitive
        rw [hasCell, Table.contains] at hold ⊢
        rwa [Table.find?_insert, if_neg hne]

/-- A bare expression that is kept adds a unit, and nothing refers to it. -/
theorem Tabled.load (h : l.Tabled defined) (hanonymous : f.prototype.isAnonymous = true)
    (c : Compilation) : (l.load c).1.Tabled (f :: defined) where
  published symbol := by
    refine (h.published symbol).trans ?_
    simp [hanonymous]
  cells := h.cells
  primitives := h.primitives
  depended := h.depended
  recorded := h.recorded
  needs symbol g hlatest := by
    rw [Function.latest?_cons_anonymous hanonymous] at hlatest
    exact h.needs symbol g hlatest
  units := by
    change (l.units.push _).size = _
    rw [Array.size_push, List.length_cons]
    exact congrArg (· + 1) h.units

/-- A function that is linked is what its symbol refers to from then on, in all three
tables. -/
theorem Tabled.link (h : l.Tabled defined) (hprototype : c.prototype = f.prototype)
    (hneeds : ∀ symbol, symbol ∈ c.unit.references ↔ symbol ∈ f.needs)
    (hknows : ∀ symbol ∈ f.needs, l.Knows symbol) : (l.link c).Tabled (f :: defined) := by
  by_cases hanonymous : f.prototype.isAnonymous = true
  · rw [link_eq, hprototype, if_pos hanonymous]
    exact h.load hanonymous c
  · have hnamed : f.prototype.isAnonymous = false := by simpa using hanonymous
    have hlink := link_of_named (l := l) (hprototype ▸ hnamed)
    rw [hprototype] at hlink
    have hpublished (symbol : String) : (l.link c).published? symbol =
        if f.symbol = symbol then some (.unit l.units.size) else l.published? symbol := by
      rw [hlink]
      exact published?_publish symbol
    have hdependencies (symbol : String) : (l.link c).dependenciesOf symbol =
        if f.symbol = symbol then c.unit.references else l.dependenciesOf symbol := by
      rw [hlink]
      exact dependenciesOf_publish symbol
    refine ⟨fun symbol => ?_, fun symbol content hcell => ?_, fun primitive => ?_,
      fun symbol other hother => ?_, fun symbol => ?_, fun symbol g hlatest other => ?_, ?_⟩
    · rw [hpublished]
      by_cases heq : f.symbol = symbol
      · simp [heq, hnamed]
      · simpa [heq] using h.published symbol
    · rw [hlink] at hcell
      rw [hpublished]
      rcases cell_publish hcell with ⟨heq, hcontent⟩ | ⟨hne, hold⟩
      · rw [if_pos heq]
        exact hcontent
      · rw [if_neg hne]
        exact h.cells symbol content hold
    · rw [hasCell_link]
      exact h.primitives primitive
    · apply Knows.link
      rw [hdependencies] at hother
      split at hother
      · exact hknows other ((hneeds other).mp hother)
      · exact h.depended symbol other hother
    · rw [hpublished, Table.contains, hlink, dependencies_publish]
      split
      · rfl
      · exact h.recorded symbol
    · rw [Function.latest?_cons_named hnamed] at hlatest
      rw [hdependencies]
      split at hlatest
      · next heq =>
          obtain rfl := Option.some.inj hlatest
          rw [if_pos heq]
          exact hneeds other
      · next hne =>
          rw [if_neg hne]
          exact h.needs symbol g hlatest other
    · rw [unitCount, link_units, Array.size_push, List.length_cons]
      exact congrArg (· + 1) h.units

/-- The newest definition of a symbol is the one that its address was published for. -/
theorem Tabled.isSome_latest? (h : l.Tabled defined) (symbol : String) :
    (Function.latest? defined symbol).isSome = (l.published? symbol).isSome := by
  rw [Bool.eq_iff_iff, Function.isSome_latest?, h.published]

end Linker

end Reckon
