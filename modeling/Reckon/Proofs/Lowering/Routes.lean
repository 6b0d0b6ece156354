import Reckon.Proofs.Link.Coherence
import Reckon.Proofs.Lowering.Calls
import Reckon.Proofs.Lowering.Rejection

/-!
# What finding a route comes to

Whether the route to a callee can be found is settled by what the unit has declared so
far, by the registry, and by whether the symbol of the callee has an address or a cell
(`Lower.verdict`).  Which address it has does not matter.  `Lower.Notes` says what
finding the route leaves behind.
-/

namespace Reckon

namespace CompilationUnit

variable {u : CompilationUnit} {symbol : String} {arity : Nat} {binding : Binding}

/-- The number of parameters that a symbol is declared with. -/
def arityAt? (u : CompilationUnit) (symbol : String) : Option Nat :=
  (u.declarations.find? fun d => d.symbol == symbol).map Declaration.arity

theorem arityAt?_eq_none (h : ∀ d ∈ u.declarations, d.symbol ≠ symbol) :
    u.arityAt? symbol = none := by
  rw [arityAt?, Option.map_eq_none_iff, List.find?_eq_none]
  intro d hd
  simpa using h d hd

/-- A symbol cannot be declared with another number of parameters than before. -/
theorem declare_clash {m : Nat} (h : u.arityAt? symbol = some m) (hne : m ≠ arity) :
    u.declare symbol arity binding = .error ⟨symbol, m, arity⟩ := by
  rw [arityAt?, List.find?_eq_bind_findIdx?_getElem?] at h
  unfold declare
  cases hindex : u.declarations.findIdx? fun d => d.symbol == symbol with
  | none => simp [hindex] at h
  | some n =>
      rw [hindex] at h
      cases hd : u.declarations[n]? with
      | none => simp [hd] at h
      | some d =>
          obtain rfl : d.arity = m := by simpa [hd] using h
          dsimp only
          rw [hd]
          exact if_neg hne

/-- A symbol can be declared again, or for the first time. -/
theorem declare_of_arityAt? (binding : Binding)
    (h : ∀ m, u.arityAt? symbol = some m → m = arity) :
    ∃ n u', u.declare symbol arity binding = .ok (n, u') ∧
      ∀ other, u'.arityAt? other = if symbol = other then some arity else u.arityAt? other := by
  rw [arityAt?, List.find?_eq_bind_findIdx?_getElem?] at h
  unfold declare
  cases hindex : u.declarations.findIdx? fun d => d.symbol == symbol with
  | none =>
      refine ⟨_, _, rfl, fun other => ?_⟩
      have hnone : u.arityAt? symbol = none := by
        rw [arityAt?, List.find?_eq_bind_findIdx?_getElem?, hindex]
        rfl
      unfold arityAt? at hnone ⊢
      rw [List.find?_append]
      by_cases heq : symbol = other
      · rw [heq, Option.map_eq_none_iff] at hnone
        simp [heq, hnone]
      · simp [heq]
  | some n =>
      obtain ⟨hlt, -⟩ := List.findIdx?_eq_some_iff_getElem.mp hindex
      rw [hindex] at h
      have hsame : u.declarations[n].arity = arity :=
        h _ (by simp [List.getElem?_eq_getElem hlt])
      refine ⟨n, u, ?_, fun other => ?_⟩
      · dsimp only
        rw [List.getElem?_eq_getElem hlt]
        exact if_pos hsame
      · split
        · next heq =>
            rw [← heq, arityAt?, List.find?_eq_bind_findIdx?_getElem?, hindex]
            simp [List.getElem?_eq_getElem hlt, hsame]
        · rfl

variable {p : Prototype} {address : Address}

theorem declareImport_clash {m : Nat} (h : u.arityAt? p.callee.symbol = some m)
    (hne : m ≠ p.arity) :
    u.declareImport p address = .error ⟨p.callee.symbol, m, p.arity⟩ := by
  unfold declareImport declareCallee
  rw [declare_clash h hne]
  rfl

theorem arityAt?_refer (u : CompilationUnit) (symbol other : String) :
    (u.refer symbol).arityAt? other = u.arityAt? other := by
  rw [arityAt?, arityAt?, refer_declarations]

theorem references_refer_congr {u' : CompilationUnit} (h : u'.references = u.references)
    (symbol : String) : (u'.refer symbol).references = (u.refer symbol).references := by
  unfold refer
  rw [h]
  split
  · exact h
  · rfl

theorem declareImport_of_arityAt? (address : Address)
    (h : ∀ m, u.arityAt? p.callee.symbol = some m → m = p.arity) :
    ∃ found u', u.declareImport p address = .ok (found, u') ∧
      ∀ other, u'.arityAt? other =
        if p.callee.symbol = other then some p.arity else u.arityAt? other := by
  obtain ⟨n, u₁, hdeclare, harities⟩ := declare_of_arityAt? (.imported address) h
  refine ⟨_, _, by simp only [declareImport, declareCallee, hdeclare]; rfl, fun other => ?_⟩
  rw [arityAt?_refer]
  exact harities other

end CompilationUnit

namespace Lower

variable {around : Surroundings} {s s' t : LowerState} {callee : Callee} {route : Route}

/-- Whether there is a route to a callee that was not met before, as far as a unit with
some declarations is concerned. -/
def verdict (around : Surroundings) (callee : Callee) (u : CompilationUnit) :
    Except LowerError Bool :=
  if (u.declared? callee).isSome then .ok true
  else
    match around.registry.get? callee with
    | none => .ok false
    | some p =>
      if around.linker.isLinked callee.symbol then
        match u.arityAt? callee.symbol with
        | none => .ok true
        | some m =>
          if m = p.arity then .ok true else .error (.clash ⟨callee.symbol, m, p.arity⟩)
      else if around.linker.hasCell callee.symbol then .ok true
      else .error (.unresolvedSymbol callee.symbol)

/-- Looking for a route comes to a verdict: there is one, there is none, or an error. -/
def ComesTo (m : Lower (Option Route)) (s : LowerState) : Except LowerError Bool → Prop
  | .ok true => ∃ route t, m s = .ok (some route) t
  | .ok false => m s = .ok none s
  | .error e => ∃ t, m s = .error e t

theorem comesTo_get_bind {k : LowerState → Lower (Option Route)}
    {verdict : Except LowerError Bool} (h : ComesTo (k s) s verdict) :
    ComesTo ((get : Lower LowerState) >>= k) s verdict := by
  rcases verdict with e | (_ | _) <;> exact h

/-- Looking for a route that was not met before comes to the verdict on its callee. -/
theorem findRoute_verdict (hkeyed : around.registry.Keyed) (callee : Callee) (s : LowerState) :
    ComesTo (findRoute around callee) s (verdict around callee s.unit) := by
  unfold verdict findRoute
  apply comesTo_get_bind
  cases hdeclared : s.unit.declared? callee with
  | some found => exact ⟨_, _, rfl⟩
  | none =>
      cases hknown : around.registry.get? callee with
      | none => exact rfl
      | some p =>
          obtain rfl := hkeyed _ _ hknown
          rw [if_neg (by simp)]
          dsimp only
          cases haddress : around.linker.address? p.callee.symbol with
          | some address =>
              rw [if_pos (Linker.isLinked_eq_true.mpr ⟨address, haddress⟩)]
              apply comesTo_get_bind
              cases harity : s.unit.arityAt? p.callee.symbol with
              | none =>
                  obtain ⟨found, u, himport, -⟩ := CompilationUnit.declareImport_of_arityAt?
                    (u := s.unit) (p := p) address (by simp [harity])
                  rw [himport]
                  exact ⟨_, _, rfl⟩
              | some m =>
                  by_cases hm : m = p.arity
                  · obtain ⟨found, u, himport, -⟩ := CompilationUnit.declareImport_of_arityAt?
                      (u := s.unit) (p := p) address (by simp [harity, hm])
                    rw [himport]
                    dsimp only
                    rw [if_pos hm]
                    exact ⟨_, _, rfl⟩
                  · rw [CompilationUnit.declareImport_clash harity hm]
                    dsimp only
                    rw [if_neg hm]
                    exact ⟨_, rfl⟩
          | none =>
              have hunlinked : ¬around.linker.isLinked p.callee.symbol = true := by
                simp [Linker.isLinked, haddress]
              rw [if_neg hunlinked]
              cases hcell : around.linker.hasCell p.callee.symbol with
              | true => exact ⟨_, _, rfl⟩
              | false => exact ⟨_, rfl⟩

/-- What finding the route to a callee that was not met before leaves behind. -/
structure Notes (around : Surroundings) (callee : Callee) (s t : LowerState) : Prop where
  scope : t.scope = s.scope
  slots : t.builder.slots = s.builder.slots
  routes : t.routes = s.routes
  references : t.unit.references =
    if (s.unit.declared? callee).isSome then s.unit.references
    else (s.unit.refer callee.symbol).references
  declared : ∀ other, (t.unit.declared? other).isSome →
    (s.unit.declared? other).isSome ∨ callee = other
  arities : ∀ symbol, t.unit.arityAt? symbol =
    if (s.unit.declared? callee).isSome = false ∧ around.linker.isLinked callee.symbol = true ∧
      callee.symbol = symbol then (around.registry.get? callee).map Prototype.arity
    else s.unit.arityAt? symbol

theorem Finds.notes (hkeyed : around.registry.Keyed) (h : Finds around callee s route t) :
    Notes around callee s t := by
  cases h with
  | @declared found hfound =>
      exact ⟨rfl, rfl, rfl, by simp [hfound]; rfl, fun other hother => Or.inl hother,
        fun symbol => by simp [hfound]; rfl⟩
  | @imported p address found unit hnew hknown haddress himport =>
      obtain rfl := hkeyed _ _ hknown
      obtain ⟨u, hcallee, rfl⟩ := CompilationUnit.declareImport_ok himport
      have hreferences := CompilationUnit.declareCallee_references hcallee
      have hlinked : around.linker.isLinked p.callee.symbol = true := by
        rw [Linker.isLinked, haddress]
        rfl
      refine ⟨rfl, rfl, rfl, ?_, fun other hother => ?_, fun symbol => ?_⟩
      · rw [hnew]
        exact CompilationUnit.references_refer_congr hreferences _
      · change ((u.refer p.callee.symbol).declared? other).isSome = true at hother
        rw [CompilationUnit.declared?_refer,
          CompilationUnit.declared?_declareCallee hcallee] at hother
        split at hother
        · next heq => exact Or.inr heq
        · exact Or.inl hother
      · have hagrees : ∀ m, s.unit.arityAt? p.callee.symbol = some m → m = p.arity := by
          intro m hm
          by_contra hne
          rw [CompilationUnit.declareImport_clash hm hne] at himport
          cases himport
        obtain ⟨found', u', himport', harities⟩ :=
          CompilationUnit.declareImport_of_arityAt? address hagrees
        obtain ⟨-, rfl⟩ := Prod.mk.inj (Except.ok.inj (himport'.symm.trans himport))
        change (u.refer p.callee.symbol).arityAt? symbol = _
        rw [harities, hnew, hknown]
        by_cases heq : p.callee.symbol = symbol
        · rw [if_pos heq, if_pos ⟨rfl, hlinked, heq⟩]
          rfl
        · rw [if_neg heq, if_neg fun hall => heq hall.2.2]
  | @throughCell p hnew hknown haddress hcell =>
      have hlinked : around.linker.isLinked callee.symbol = false := by
        rw [Linker.isLinked, haddress]
        rfl
      refine ⟨rfl, rfl, rfl, by rw [hnew]; rfl, fun other hother => Or.inl ?_, fun symbol => ?_⟩
      · change ((s.unit.refer callee.symbol).declared? other).isSome = true at hother
        rwa [CompilationUnit.declared?_refer] at hother
      · rw [if_neg (by simp [hlinked])]
        exact s.unit.arityAt?_refer _ _

end Lower

end Reckon
