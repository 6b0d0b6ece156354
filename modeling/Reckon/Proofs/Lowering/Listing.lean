import Reckon.Proofs.Lowering.Growth
import Reckon.Proofs.Lowering.References

/-!
# How callees are listed

Every callee that a function meets gets one signature, and one external if it is
called directly.  The signatures stand in the order in which the callees were met
(`LowerState.Listed`).  This needs that what is known of a callee is right
(`Surroundings.Sensible`); then no declaration of a unit ever clashes with another.
-/

namespace Reckon

namespace Table

variable {κ α : Type} [DecidableEq κ] {t : Table κ α} {key : κ} {value : α}

/-- A new key comes last. -/
theorem entries_insert (h : t.find? key = none) :
    (t.insert key value).entries = t.entries ++ [(key, value)] := by
  have hin (entries : List (κ × α)) (hnone : findIn key entries = none) :
      insertIn key value entries = entries ++ [(key, value)] := by
    induction entries with
    | nil => rfl
    | cons entry rest ih =>
        obtain ⟨k, a⟩ := entry
        by_cases hkey : k = key
        · simp [findIn, hkey] at hnone
        · simp only [findIn, if_neg hkey] at hnone
          simp [insertIn, hkey, ih hnone]
  exact hin t.entries h

theorem keys_insert (h : t.find? key = none) : (t.insert key value).keys = t.keys ++ [key] := by
  simp [keys, entries_insert h]

/-- A key that has no entry is none of the keys. -/
theorem not_mem_keys (h : t.find? key = none) : key ∉ t.keys := by
  have hin (entries : List (κ × α)) (hnone : findIn key entries = none) :
      key ∉ entries.map Prod.fst := by
    induction entries with
    | nil => exact List.not_mem_nil
    | cons entry rest ih => grind [findIn]
  exact hin t.entries h

end Table

namespace Code.Builder

/-- What has to do with no other function lists none. -/
theorem EmitsPlain.listing {b b' : Builder} (h : b.EmitsPlain b') :
    b'.signatures = b.signatures ∧ b'.externals = b.externals := by
  induction h with
  | trans _ _ ih ih' => exact ⟨ih'.1.trans ih.1, ih'.2.trans ih.2⟩
  | _ => exact ⟨rfl, rfl⟩

end Code.Builder

/-- The number of operands of the function behind an operator. -/
def Callee.operands? : Callee → Option Nat
  | named _ => none
  | unary _ => some 1
  | binary _ => some 2

/-- The number of parameters of a callee, as far as it is known where a function is
compiled. -/
def Surroundings.arityOf? (around : Surroundings) (own : Prototype) (callee : Callee) :
    Option Nat :=
  if own.callee = callee then some own.arity
  else (around.registry.get? callee).map Prototype.arity

/-- What is known where a function is compiled is kept under the right callees,
distinct ones have distinct symbols, and operators have as many parameters as
operands. -/
structure Surroundings.Sensible (around : Surroundings) (own : Prototype) : Prop where
  keyed : around.registry.Keyed
  symbols : ∀ callee other, (around.arityOf? own callee).isSome →
    (around.arityOf? own other).isSome → callee.symbol = other.symbol → callee = other
  operands : ∀ callee n, around.arityOf? own callee = some n →
    ∀ operands ∈ callee.operands?, n = operands

/-- What a unit declares is known, and it declares each symbol for one callee. -/
structure CompilationUnit.Declares (around : Surroundings) (own : Prototype)
    (u : CompilationUnit) : Prop where
  itself : (u.declared? own.callee).isSome
  callees : ∀ callee found, u.declared? callee = some found →
    around.arityOf? own callee = some found.arity
  declarations : ∀ d ∈ u.declarations, ∃ callee found, u.declared? callee = some found ∧
    callee.symbol = d.symbol

/-- A route to a callee uses the signature with a given number, and if there is one the
cell of the callee. -/
def Route.Uses (b : Code.Builder) (callee : Callee) (signature : Nat) : Route → Prop
  | .direct external => ∃ e, b.externals.toList[external]? = some e ∧ e.signature = signature
  | .throughCell symbol found => symbol = callee.symbol ∧ found = signature

/-- A route uses what it used when externals are added. -/
theorem Route.Uses.mono {b b' : Code.Builder} {callee : Callee} {signature : Nat}
    {route : Route} (h : route.Uses b callee signature)
    (hextends : b.externals.toList <+: b'.externals.toList) :
    route.Uses b' callee signature := by
  cases route with
  | direct external =>
      obtain ⟨e, he, hsignature⟩ := h
      exact ⟨e, getElem?_of_prefix hextends he, hsignature⟩
  | throughCell symbol found => exact h

namespace LowerState

/-- Every callee that was met has one signature, and one external if it is called
directly. -/
structure Listed (around : Surroundings) (own : Prototype) (s : LowerState) : Prop where
  unit : s.unit.Declares around own
  keys : s.routes.keys.Nodup
  signatures : s.routes.keys.map (around.arityOf? own) =
    s.builder.signatures.toList.map some
  routes : ∀ (i : Nat) (callee : Callee) (route : Route),
    s.routes.entries[i]? = some (callee, route) →
    route.Uses s.builder callee i
  externals : ∀ (k : Nat) (e : Code.External), s.builder.externals.toList[k]? = some e →
    ∃ callee, s.routes.entries[e.signature]? = some (callee, .direct k)

variable {around : Surroundings} {own : Prototype} {s s' : LowerState} {callee : Callee}
  {route : Route}

namespace Listed

theorem of_same (h : s.Listed around own) (hunit : s'.unit = s.unit)
    (hroutes : s'.routes = s.routes)
    (hsignatures : s'.builder.signatures = s.builder.signatures)
    (hexternals : s'.builder.externals = s.builder.externals) : s'.Listed around own where
  unit := hunit ▸ h.unit
  keys := hroutes ▸ h.keys
  signatures := by
    rw [hroutes, hsignatures]
    exact h.signatures
  routes := by
    intro i callee route hroute
    exact (h.routes i callee route (hroutes ▸ hroute)).mono (hexternals ▸ List.prefix_rfl)
  externals := by
    rw [hroutes, hexternals]
    exact h.externals

theorem rescope (h : s.Listed around own) (scope : Scope Code.SlotId) :
    (s.scoped scope).Listed around own :=
  h.of_same rfl rfl rfl rfl

/-- There are as many signatures as callees. -/
theorem size (h : s.Listed around own) :
    s.builder.signatures.size = s.routes.entries.length := by
  have hlength := congrArg List.length h.signatures
  simpa [Table.keys] using hlength.symm

/-- Every callee that was met is known. -/
theorem known (h : s.Listed around own) (hmet : callee ∈ s.routes.keys) :
    ∃ n, around.arityOf? own callee = some n := by
  have hmem := List.mem_map_of_mem (f := around.arityOf? own) hmet
  rw [h.signatures] at hmem
  obtain ⟨n, -, hn⟩ := List.mem_map.mp hmem
  exact ⟨n, hn.symm⟩

/-- A listed callee keeps its place when another one is listed behind it. -/
theorem entry_of_insert (h : s.Listed around own) (hnew : s.routes.find? callee = none) {i : Nat}
    {other : Callee} {found : Route}
    (hentry : (s.routes.insert callee route).entries[i]? = some (other, found)) :
    s.routes.entries[i]? = some (other, found) ∨
      i = s.builder.signatures.size ∧ other = callee ∧ found = route := by
  rw [Table.entries_insert hnew] at hentry
  rcases getElem?_append_singleton hentry with hold | ⟨hi, heq⟩
  · exact Or.inl hold
  · obtain ⟨rfl, rfl⟩ := Prod.mk.inj heq
    exact Or.inr ⟨hi.trans h.size.symm, rfl, rfl⟩

/-- A callee that is met gets the next signature. -/
theorem insert (h : s.Listed around own) (hnew : s.routes.find? callee = none)
    (hunit : s'.unit.Declares around own) (hroutes : s'.routes = s.routes) {n : Nat}
    (harity : around.arityOf? own callee = some n)
    (hsignatures : s'.builder.signatures.toList = s.builder.signatures.toList ++ [n])
    (hroute : (route = .throughCell callee.symbol s.builder.signatures.size ∧
        s'.builder.externals = s.builder.externals) ∨
      ∃ declaration colocated, route = .direct s.builder.externals.size ∧
        s'.builder.externals.toList = s.builder.externals.toList ++
          [⟨declaration, s.builder.signatures.size, colocated⟩]) :
    Listed around own { s' with routes := s'.routes.insert callee route } := by
  have hentries : (s.routes.insert callee route).entries = s.routes.entries ++ [(callee, route)] :=
    Table.entries_insert hnew
  have hkeys : (s.routes.insert callee route).keys = s.routes.keys ++ [callee] :=
    Table.keys_insert hnew
  rw [hroutes]
  have hextends : s.builder.externals.toList <+: s'.builder.externals.toList := by
    rcases hroute with ⟨-, hsame⟩ | ⟨_, _, -, happend⟩
    · exact hsame ▸ List.prefix_rfl
    · exact happend ▸ List.prefix_append _ _
  have hkeeps {j : Nat} {entry : Callee × Route} (hentry : s.routes.entries[j]? = some entry) :
      (s.routes.insert callee route).entries[j]? = some entry := by
    rw [hentries]
    exact getElem?_of_prefix (List.prefix_append _ _) hentry
  have hlast : (s.routes.insert callee route).entries[s.builder.signatures.size]? =
      some (callee, route) := by
    rw [hentries, h.size]
    exact List.getElem?_concat_length
  refine ⟨hunit, ?_, ?_, ?_, ?_⟩
  · rw [hkeys]
    exact List.nodup_append.mpr ⟨h.keys, List.nodup_singleton _, fun other hother last hlast heq =>
      Table.not_mem_keys hnew (List.mem_singleton.mp hlast ▸ heq ▸ hother)⟩
  · rw [hkeys, hsignatures, List.map_append, List.map_append, h.signatures, List.map_singleton,
      harity]
    rfl
  · intro i other found hfound
    rcases h.entry_of_insert hnew hfound with hold | ⟨rfl, rfl, rfl⟩
    · exact (h.routes i other found hold).mono hextends
    · rcases hroute with ⟨rfl, -⟩ | ⟨declaration, colocated, rfl, happend⟩
      · exact ⟨rfl, rfl⟩
      · refine ⟨⟨declaration, s.builder.signatures.size, colocated⟩, ?_, rfl⟩
        rw [happend]
        exact List.getElem?_concat_length
  · intro k e he
    rcases hroute with ⟨rfl, hsame⟩ | ⟨declaration, colocated, rfl, happend⟩
    · rw [hsame] at he
      obtain ⟨other, hother⟩ := h.externals k e he
      exact ⟨other, hkeeps hother⟩
    · rw [happend] at he
      rcases getElem?_append_singleton he with hold | ⟨rfl, rfl⟩
      · obtain ⟨other, hother⟩ := h.externals k e hold
        exact ⟨other, hkeeps hother⟩
      · exact ⟨callee, hlast⟩

end Listed

end LowerState

namespace CompilationUnit

variable {around : Surroundings} {own : Prototype} {u u' : CompilationUnit} {p : Prototype}
  {found : Declared}

/-- A unit may declare one more callee that is known. -/
theorem Declares.declareCallee {binding : Binding} (h : u.Declares around own)
    (hdeclare : u.declareCallee p binding = .ok (found, u'))
    (harity : around.arityOf? own p.callee = some p.arity) : u'.Declares around own := by
  have hfound : found.arity = p.arity := by
    obtain ⟨n, u₁, -, rfl, -⟩ := declareCallee_ok hdeclare
    rfl
  have hdeclared := declared?_declareCallee hdeclare
  refine ⟨?_, ?_, ?_⟩
  · rw [hdeclared]
    split
    · rfl
    · exact h.itself
  · intro callee other hother
    rw [hdeclared] at hother
    split at hother
    · next heq =>
        obtain rfl := Option.some.inj hother
        rw [← heq, hfound, harity]
    · exact h.callees callee other hother
  · intro d hd
    rcases mem_declareCallee hdeclare hd with hold | rfl
    · obtain ⟨callee, other, hother, hsymbol⟩ := h.declarations d hold
      by_cases heq : p.callee = callee
      · exact ⟨callee, found, by rw [hdeclared, if_pos heq], hsymbol⟩
      · exact ⟨callee, other, by rw [hdeclared, if_neg heq, hother], hsymbol⟩
    · exact ⟨p.callee, found, by rw [hdeclared, if_pos rfl], rfl⟩

theorem Declares.refer (h : u.Declares around own) (symbol : String) :
    (u.refer symbol).Declares around own := by
  refine ⟨?_, ?_, ?_⟩
  · rw [declared?_refer]
    exact h.itself
  · intro callee
    rw [declared?_refer]
    exact h.callees callee
  · intro d hd
    rw [refer_declarations] at hd
    simp only [declared?_refer]
    exact h.declarations d hd

/-- A callee that is known and not declared yet can be declared: no other callee has
its symbol. -/
theorem Declares.declare_ne_clash (hsensible : around.Sensible own) (h : u.Declares around own)
    (hnew : u.declared? p.callee = none)
    (hknown : (around.arityOf? own p.callee).isSome) {arity : Nat} {binding : Binding}
    {clash : Clash} : u.declare p.callee.symbol arity binding ≠ .error clash := by
  intro hclash
  unfold declare at hclash
  split at hclash
  · cases hclash
  · next n hn =>
      obtain ⟨hlt, hsymbol, -⟩ := List.findIdx?_eq_some_iff_getElem.mp hn
      obtain ⟨callee, other, hother, hcallee⟩ := h.declarations _ (List.getElem_mem hlt)
      have hsame : callee = p.callee := by
        refine hsensible.symbols callee p.callee ?_ hknown ?_
        · rw [h.callees callee other hother]
          rfl
        · rw [hcallee]
          simpa using hsymbol
      rw [hsame, hnew] at hother
      cases hother

end CompilationUnit

namespace Lower

variable {around : Surroundings} {own : Prototype} {s s' : LowerState} {callee : Callee}
  {route : Route}

/-- Outside the unit a callee is known by the registry. -/
theorem arityOf?_registry {p : Prototype} (h : s.unit.Declares around own)
    (hnew : s.unit.declared? callee = none) (hknown : around.registry.get? callee = some p) :
    around.arityOf? own callee = some p.arity := by
  have hne : own.callee ≠ callee := by
    rintro rfl
    have hitself := h.itself
    simp [hnew] at hitself
  rw [Surroundings.arityOf?, if_neg hne, hknown]
  rfl

/-- A route that is found is listed. -/
theorem Finds.listed (hkeyed : around.registry.Keyed) (h : Finds around callee s route s')
    (hnew : s.routes.find? callee = none) (hlisted : s.Listed around own) :
    LowerState.Listed around own { s' with routes := s'.routes.insert callee route } := by
  cases h with
  | @declared found hfound =>
      refine hlisted.insert hnew hlisted.unit rfl (hlisted.unit.callees callee found hfound) ?_
        (Or.inr ⟨found.declaration, s.unit.isOwn found.declaration, rfl, ?_⟩)
      · simp [LowerState.built, Code.Builder.newExternal, Code.Builder.newSignature]
      · simp [LowerState.built, Code.Builder.newExternal, Code.Builder.newSignature]
  | @imported p address found unit hundeclared hknown haddress himport =>
      obtain ⟨u, hdeclare, rfl⟩ := CompilationUnit.declareImport_ok himport
      have harity := arityOf?_registry hlisted.unit hundeclared hknown
      obtain rfl := hkeyed _ _ hknown
      obtain ⟨n, u₁, -, hfound, -⟩ := CompilationUnit.declareCallee_ok hdeclare
      have hfoundArity : found.arity = p.arity := congrArg Declared.arity hfound
      refine hlisted.insert hnew ((hlisted.unit.declareCallee hdeclare harity).refer _) rfl
        harity ?_
        (Or.inr ⟨found.declaration, (u.refer p.callee.symbol).isOwn found.declaration, rfl, ?_⟩)
      · simp [Code.Builder.newExternal, Code.Builder.newSignature, hfoundArity]
      · simp [Code.Builder.newExternal, Code.Builder.newSignature]
  | @throughCell p hundeclared hknown haddress hcell =>
      refine hlisted.insert hnew (hlisted.unit.refer _) rfl
        (arityOf?_registry hlisted.unit hundeclared hknown) ?_ (Or.inl ⟨rfl, rfl⟩)
      simp [Code.Builder.newSignature]

/-- A callee is met when its route is asked for. -/
theorem route?_meets (hkeyed : around.registry.Keyed) (h : s.Listed around own)
    (hroute : route? around callee s = .ok (some route) s') :
    s'.Listed around own ∧ s'.routes.find? callee = some route ∧
      (∀ other found, s.routes.find? other = some found → s'.routes.find? other = some found) ∧
      (∀ other, other ∈ s'.routes.keys ↔ other ∈ s.routes.keys ∨ other ∈ [callee]) ∧
      s'.builder.instructions = s.builder.instructions := by
  rcases route?_ok hroute with ⟨hkept, rfl⟩ | ⟨hnew, s₁, hfinds, rfl⟩
  · have hmem : callee ∈ s'.routes.keys := Table.mem_keys_of_find? (by simp [hkept])
    exact ⟨h, hkept, fun _ _ => id, fun other => by grind, rfl⟩
  · have hroutes : s₁.routes = s.routes := by cases hfinds <;> rfl
    refine ⟨hfinds.listed hkeyed hnew h, ?_, ?_, ?_, ?_⟩
    · rw [Table.find?_insert, if_pos rfl]
    · intro other found hfound
      have hne : callee ≠ other := by
        rintro rfl
        cases hnew.symm.trans hfound
      rw [Table.find?_insert, if_neg hne, hroutes, hfound]
    · intro other
      rw [hroutes, Table.keys_insert hnew, List.mem_append]
    · cases hfinds <;> rfl

end Lower

end Reckon
