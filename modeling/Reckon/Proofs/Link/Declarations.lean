import Reckon.Link.Unit

/-!
# Declarations of a unit

A unit never gives up a declaration.  A declared callee has a declaration with
its own symbol (`CompilationUnit.Named`), also where the symbol had been declared
before and kept its older declaration.
-/

namespace Reckon

/-- An element keeps its place when a list grows. -/
theorem getElem?_of_prefix {α : Type} {xs ys : List α} {n : Nat} {a : α} (h : xs <+: ys)
    (ha : xs[n]? = some a) : ys[n]? = some a := by
  obtain ⟨rest, rfl⟩ := h
  obtain ⟨hlt, -⟩ := List.getElem?_eq_some_iff.mp ha
  rw [List.getElem?_append_left hlt, ha]

/-- In a list with one more element behind it, an element is an old one or the last. -/
theorem getElem?_append_singleton {α : Type} {xs : List α} {a b : α} {n : Nat}
    (h : (xs ++ [b])[n]? = some a) : xs[n]? = some a ∨ n = xs.length ∧ a = b := by
  rcases Nat.lt_or_ge n xs.length with hlt | hge
  · rw [List.getElem?_append_left hlt] at h
    exact Or.inl h
  · rw [List.getElem?_append_right hge, List.getElem?_singleton] at h
    split at h
    · exact Or.inr ⟨by omega, (Option.some.inj h).symm⟩
    · cases h

namespace CompilationUnit

variable {u u' : CompilationUnit} {p : Prototype} {found : Declared}

/-- A symbol keeps the declaration that it has, or gets the next one. -/
theorem declare_ok {symbol : String} {arity n : Nat} {binding : Binding}
    (h : u.declare symbol arity binding = .ok (n, u')) :
    (u' = u ∧ ∃ d, u.declarations[n]? = some d ∧ d.symbol = symbol ∧ d.arity = arity) ∨
      (∀ d ∈ u.declarations, d.symbol ≠ symbol) ∧ n = u.declarations.length ∧
        u' = { u with declarations := u.declarations ++ [⟨symbol, arity, binding⟩] } := by
  unfold declare at h
  split at h
  · next hnone =>
    obtain ⟨rfl, rfl⟩ := Prod.mk.inj (Except.ok.inj h)
    refine Or.inr ⟨fun d hd heq => ?_, rfl, rfl⟩
    have hother := List.findIdx?_eq_none_iff.mp hnone d hd
    simp [heq] at hother
  · next k hk =>
    obtain ⟨hlt, hsymbol, -⟩ := List.findIdx?_eq_some_iff_getElem.mp hk
    rw [List.getElem?_eq_getElem hlt] at h
    dsimp only at h
    split at h
    · next harity =>
      obtain ⟨rfl, rfl⟩ := Prod.mk.inj (Except.ok.inj h)
      exact Or.inl ⟨rfl, _, List.getElem?_eq_getElem hlt, by simpa using hsymbol, harity⟩
    · cases h

theorem declareCallee_ok {binding : Binding} (h : u.declareCallee p binding = .ok (found, u')) :
    ∃ n u₁, u.declare p.callee.symbol p.arity binding = .ok (n, u₁) ∧
      found = ⟨n, p.arity⟩ ∧ u' = { u₁ with callees := u₁.callees.insert p.callee found } := by
  unfold declareCallee at h
  cases hdeclare : u.declare p.callee.symbol p.arity binding with
  | error clash => simp [hdeclare, bind, Except.bind] at h
  | ok result =>
      simp only [hdeclare, bind, Except.bind, pure, Except.pure] at h
      obtain ⟨rfl, rfl⟩ := Prod.mk.inj (Except.ok.inj h)
      exact ⟨result.1, result.2, rfl, rfl, rfl⟩

theorem declareImport_ok {address : Address}
    (h : u.declareImport p address = .ok (found, u')) :
    ∃ u₁, u.declareCallee p (.imported address) = .ok (found, u₁) ∧
      u' = u₁.refer p.callee.symbol := by
  unfold declareImport at h
  cases hdeclare : u.declareCallee p (.imported address) with
  | error clash => simp [hdeclare, bind, Except.bind] at h
  | ok result =>
      simp only [hdeclare, bind, Except.bind, pure, Except.pure] at h
      obtain ⟨rfl, rfl⟩ := Prod.mk.inj (Except.ok.inj h)
      exact ⟨result.2, rfl, rfl⟩

/-- An import clashes only if its symbol does. -/
theorem declareImport_error {address : Address} {clash : Clash}
    (h : u.declareImport p address = .error clash) :
    u.declare p.callee.symbol p.arity (.imported address) = .error clash := by
  unfold declareImport declareCallee at h
  cases hdeclare : u.declare p.callee.symbol p.arity (.imported address) with
  | error found =>
      simp only [hdeclare, bind, Except.bind] at h
      cases h
      rfl
  | ok result => simp [hdeclare, bind, Except.bind, pure, Except.pure] at h

@[simp] theorem refer_declarations (u : CompilationUnit) (symbol : String) :
    (u.refer symbol).declarations = u.declarations := by
  unfold refer
  split <;> rfl

@[simp] theorem refer_callees (u : CompilationUnit) (symbol : String) :
    (u.refer symbol).callees = u.callees := by
  unfold refer
  split <;> rfl

/-- Referring to a symbol declares nothing. -/
@[simp] theorem declared?_refer (u : CompilationUnit) (symbol : String) (callee : Callee) :
    (u.refer symbol).declared? callee = u.declared? callee := by
  rw [declared?, declared?, refer_callees]

theorem mem_refer {u : CompilationUnit} {symbol other : String} :
    other ∈ (u.refer symbol).references ↔ other ∈ u.references ∨ other = symbol := by
  unfold refer
  split
  · next hmem =>
    constructor
    · exact Or.inl
    · rintro (h | rfl)
      · exact h
      · simpa using hmem
  · simp

/-- A declared callee has a declaration with its symbol. -/
def Named (u : CompilationUnit) : Prop :=
  ∀ callee found, u.declared? callee = some found →
    ∃ d, u.declarations[found.declaration]? = some d ∧ d.symbol = callee.symbol

theorem named_empty : Named empty := by
  intro callee found hfound
  cases hfound

theorem Named.refer (h : u.Named) (symbol : String) : (u.refer symbol).Named := by
  intro callee found hfound
  rw [declared?_refer] at hfound
  rw [refer_declarations]
  exact h callee found hfound

/-- What has been declared keeps its place. -/
theorem declareCallee_extends {binding : Binding}
    (h : u.declareCallee p binding = .ok (found, u')) : u.declarations <+: u'.declarations := by
  obtain ⟨n, u₁, hdeclare, -, rfl⟩ := declareCallee_ok h
  rcases declare_ok hdeclare with ⟨rfl, -⟩ | ⟨-, -, rfl⟩
  · exact List.prefix_rfl
  · exact List.prefix_append _ _

/-- A callee is declared under its own symbol. -/
theorem declareCallee_symbol {binding : Binding}
    (h : u.declareCallee p binding = .ok (found, u')) :
    ∃ d, u'.declarations[found.declaration]? = some d ∧ d.symbol = p.callee.symbol := by
  obtain ⟨n, u₁, hdeclare, rfl, rfl⟩ := declareCallee_ok h
  rcases declare_ok hdeclare with ⟨rfl, d, hd, hsymbol, -⟩ | ⟨-, rfl, rfl⟩
  · exact ⟨d, hd, hsymbol⟩
  · exact ⟨_, List.getElem?_concat_length, rfl⟩

/-- A callee is declared with as many parameters as its declaration has. -/
theorem declareCallee_arity {binding : Binding}
    (h : u.declareCallee p binding = .ok (found, u')) :
    ∃ d, u'.declarations[found.declaration]? = some d ∧ d.arity = found.arity := by
  obtain ⟨n, u₁, hdeclare, rfl, rfl⟩ := declareCallee_ok h
  rcases declare_ok hdeclare with ⟨rfl, d, hd, -, harity⟩ | ⟨-, rfl, rfl⟩
  · exact ⟨d, hd, harity⟩
  · exact ⟨_, List.getElem?_concat_length, rfl⟩

/-- There is at most one new declaration. -/
theorem mem_declareCallee {binding : Binding} {d : Declaration}
    (h : u.declareCallee p binding = .ok (found, u')) (hd : d ∈ u'.declarations) :
    d ∈ u.declarations ∨ d = ⟨p.callee.symbol, p.arity, binding⟩ := by
  obtain ⟨n, u₁, hdeclare, -, rfl⟩ := declareCallee_ok h
  rcases declare_ok hdeclare with ⟨rfl, -⟩ | ⟨-, -, rfl⟩
  · exact Or.inl hd
  · exact (List.mem_append.mp hd).imp_right List.mem_singleton.mp

/-- A declaration is new only if its symbol had none. -/
theorem declareCallee_fresh {binding : Binding} {d : Declaration}
    (h : u.declareCallee p binding = .ok (found, u')) (hd : d ∈ u'.declarations)
    (hnew : d ∉ u.declarations) : ∀ other ∈ u.declarations, other.symbol ≠ d.symbol := by
  obtain ⟨n, u₁, hdeclare, -, rfl⟩ := declareCallee_ok h
  rcases declare_ok hdeclare with ⟨rfl, -⟩ | ⟨hother, -, rfl⟩
  · exact absurd hd hnew
  · rcases List.mem_append.mp hd with hold | hlast
    · exact absurd hold hnew
    · obtain rfl := List.mem_singleton.mp hlast
      exact hother

theorem declareCallee_references {binding : Binding}
    (h : u.declareCallee p binding = .ok (found, u')) : u'.references = u.references := by
  obtain ⟨n, u₁, hdeclare, -, rfl⟩ := declareCallee_ok h
  rcases declare_ok hdeclare with ⟨rfl, -⟩ | ⟨-, -, rfl⟩ <;> rfl

/-- Declaring a callee decides about itself and no other. -/
theorem declared?_declareCallee {binding : Binding}
    (h : u.declareCallee p binding = .ok (found, u')) (callee : Callee) :
    u'.declared? callee = if p.callee = callee then some found else u.declared? callee := by
  obtain ⟨n, u₁, hdeclare, -, rfl⟩ := declareCallee_ok h
  have hcallees : u₁.callees = u.callees := by
    rcases declare_ok hdeclare with ⟨rfl, -⟩ | ⟨-, -, rfl⟩ <;> rfl
  rw [declared?, Table.find?_insert, hcallees]
  rfl

theorem Named.declareCallee {binding : Binding} (hnamed : u.Named)
    (h : u.declareCallee p binding = .ok (found, u')) : u'.Named := by
  intro callee other hother
  have hsymbol := declareCallee_symbol h
  have hextends := declareCallee_extends h
  rw [declared?_declareCallee h] at hother
  split at hother
  · next heq =>
    obtain rfl := Option.some.inj hother
    exact heq ▸ hsymbol
  · obtain ⟨d, hd, hdsymbol⟩ := hnamed callee other hother
    exact ⟨d, getElem?_of_prefix hextends hd, hdsymbol⟩

end CompilationUnit

end Reckon
