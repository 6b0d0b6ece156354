import Mathlib.Data.List.Find
import Reckon.Proofs.Grammar.Symbols
import Reckon.Proofs.Link.Arities
import Reckon.Proofs.Lowering.WellFormed

/-!
# The newest definition of a symbol

Units are numbered in the order in which they are linked, so the newest definition of
a symbol is the last unit that has it (`Linker.newest?`).  It is what the symbol refers
to, and what its cell holds if it has one (`Linker.Dated.cell`).  A unit refers to
itself and to older units only.
-/

namespace Reckon

/-- A prototype has the symbol of a bare expression exactly if it is one of a bare
expression. -/
theorem Prototype.symbol_eq_anonymousName {p : Prototype} :
    p.callee.symbol = anonymousName ↔ p.isAnonymous = true := by
  constructor
  · intro h
    have hcallee := Callee.symbol_eq_anonymousName h
    obtain ⟨name, params, kind⟩ := p
    cases kind with
    | function =>
        obtain rfl := Callee.named.inj hcallee
        simp [isAnonymous]
    | unary op => cases hcallee
    | binary op precedence => cases hcallee
  · intro h
    rw [callee_of_isAnonymous h]
    rfl

namespace Linker

variable {l l' : Linker} {c : Compilation}

/-- The number of the newest unit that defines a symbol.  The function of a bare
expression defines none. -/
def newest? (l : Linker) (symbol : String) : Option Nat :=
  if symbol = Prototype.anonymousName then none
  else (List.range l.units.size).reverse.find? fun i =>
    l.units[i]?.map (fun u => u.procedure.symbol) == some symbol

/-- What is the newest is settled by the units alone. -/
theorem newest?_congr (h : l'.units = l.units) (symbol : String) :
    l'.newest? symbol = l.newest? symbol := by
  rw [newest?, newest?, h]

/-- A unit that is added is the newest definition of its symbol. -/
theorem newest?_push {u : LinkedUnit} (h : l'.units = l.units.push u) (symbol : String) :
    l'.newest? symbol =
      if u.procedure.symbol = symbol ∧ symbol ≠ Prototype.anonymousName then some l.units.size
      else l.newest? symbol := by
  by_cases hanonymous : symbol = Prototype.anonymousName
  · rw [newest?, newest?, if_pos hanonymous, if_neg fun hboth => hboth.2 hanonymous,
      if_pos hanonymous]
  · have hold : ∀ i ∈ (List.range l.units.size).reverse,
        (l'.units[i]?.map fun u => u.procedure.symbol) =
          l.units[i]?.map fun u => u.procedure.symbol := by
      intro i hi
      have hlt : i < l.units.size := List.mem_range.mp (List.mem_reverse.mp hi)
      rw [h, Array.getElem?_push_lt hlt, Array.getElem?_eq_getElem hlt]
    have hlast : (l'.units[l.units.size]?.map fun u => u.procedure.symbol) =
        some u.procedure.symbol := by
      rw [h, Array.getElem?_push_size]
      rfl
    rw [newest?, newest?, if_neg hanonymous, if_neg hanonymous, h, Array.size_push,
      List.range_succ, List.reverse_append, List.reverse_singleton, List.singleton_append,
      List.find?_cons, ← h, hlast]
    by_cases heq : u.procedure.symbol = symbol
    · simp [heq, hanonymous]
    · rw [if_neg fun hboth => heq hboth.1]
      have hother : (some u.procedure.symbol == some symbol) = false := by simpa using heq
      rw [hother]
      refine List.find?_congr fun i hi => ?_
      rw [hold i hi]

/-- Symbols refer to newest definitions, and units to units that are not newer. -/
structure Dated (l : Linker) : Prop where
  published : ∀ symbol, l.published? symbol = (l.newest? symbol).map .unit
  targets : ∀ (i : Nat) (u : LinkedUnit), l.units[i]? = some u →
    ∀ j, .unit j ∈ u.targets → j ≤ i

theorem dated_empty : empty.Dated := by
  refine ⟨fun symbol => ?_, fun i u hu => ?_⟩
  · have hnone : empty.newest? symbol = none := by
      unfold newest?
      split <;> rfl
    rw [hnone]
    rfl
  · cases hu

theorem Dated.reserve (h : l.Dated) (symbol : String) : (l.reserve symbol).Dated := by
  have hunits := l.reserve_units symbol
  have hpublished (other : String) : (l.reserve symbol).published? other = l.published? other := by
    unfold Linker.reserve
    split <;> rfl
  refine ⟨fun other => ?_, fun i u hu => h.targets i u (hunits ▸ hu)⟩
  rw [hpublished, newest?_congr hunits, h.published]

/-- The address of a symbol is that of a unit that is there. -/
theorem Coherent.address?_lt (h : l.Coherent) {symbol : String} {j : Nat}
    (haddress : l.address? symbol = some (.unit j)) : j < l.units.size := by
  rcases address?_cases haddress with ⟨primitive, heq⟩ | hpublished
  · cases heq
  · obtain ⟨i, u, heq, hu, -⟩ := h.published _ _ hpublished
    obtain rfl := Address.unit.inj heq
    exact (Array.getElem?_eq_some_iff.mp hu).1

theorem link_units (l : Linker) (c : Compilation) :
    (l.link c).units = l.units.push (l.unitOf c) := by
  rw [link_eq]
  split
  · rfl
  · exact publish_units

/-- Linking a definition keeps the units in order. -/
theorem Dated.link (h : l.Dated) (hcoherent : l.Coherent) (hc : c.Resolved l)
    (hsymbol : c.procedure.symbol = c.prototype.callee.symbol) : (l.link c).Dated := by
  have hunits := l.link_units c
  have hnewest := newest?_push hunits
  refine ⟨fun symbol => ?_, fun i u hu j hj => ?_⟩
  · rw [hnewest]
    have hown : (l.unitOf c).procedure.symbol = c.prototype.callee.symbol := hsymbol
    by_cases hanonymous : c.prototype.isAnonymous = true
    · have hnot : ¬((l.unitOf c).procedure.symbol = symbol ∧
          symbol ≠ Prototype.anonymousName) := by
        rintro ⟨rfl, hne⟩
        exact hne (hown.trans (Prototype.symbol_eq_anonymousName.mpr hanonymous))
      rw [if_neg hnot, link_eq, if_pos hanonymous]
      exact h.published symbol
    · rw [link_eq, if_neg hanonymous, published?_publish, hown]
      by_cases heq : c.prototype.callee.symbol = symbol
      · have hne : symbol ≠ Prototype.anonymousName := fun hname =>
          hanonymous (Prototype.symbol_eq_anonymousName.mp (heq.trans hname))
        rw [if_pos heq, if_pos ⟨heq, hne⟩]
        rfl
      · rw [if_neg heq, if_neg fun hboth => heq hboth.1]
        exact h.published symbol
  · rw [hunits, Array.getElem?_push] at hu
    split at hu
    · next heq =>
        obtain rfl := Option.some.inj hu
        obtain ⟨d, hd, htarget⟩ := List.mem_map.mp hj
        rcases hc.imports d hd with hown | ⟨address, hbinding, haddress, -⟩
        · simp only [hown] at htarget
          exact heq ▸ (Address.unit.inj htarget) ▸ Nat.le_refl _
        · simp only [hbinding] at htarget
          exact heq ▸ Nat.le_of_lt (hcoherent.address?_lt (htarget ▸ haddress))
    · exact h.targets i u hu j hj

/-- A cell holds the newest definition of its symbol, if there is one. -/
theorem Dated.cell (h : l.Dated) (hcoherent : l.Coherent) {symbol : String}
    (hcell : l.hasCell symbol = true) :
    l.cells.find? symbol = some ((l.newest? symbol).map .unit) := by
  obtain ⟨content, hcontent⟩ := hasCell_eq_true.mp hcell
  rw [hcontent, ← h.published]
  cases content with
  | some address => rw [hcoherent.filled symbol address hcontent]
  | none =>
      have hnone := hcoherent.empty symbol hcontent
      cases hpublished : l.published? symbol with
      | none => rfl
      | some address =>
          rw [address?_of_published hpublished] at hnone
          cases hnone

/-- The newest definition of a symbol is a unit that is there. -/
theorem Dated.newest?_lt (h : l.Dated) (hcoherent : l.Coherent) {symbol : String} {j : Nat}
    (hnewest : l.newest? symbol = some j) : j < l.units.size := by
  have hpublished : l.published? symbol = some (.unit j) := by
    rw [h.published, hnewest]
    rfl
  exact hcoherent.address?_lt (address?_of_published hpublished)

end Linker

end Reckon
