import Reckon.Proofs.Link.Search
import Reckon.Proofs.Session.Tables

/-!
# What the guard of a session searches

The guard goes by what the linker has recorded.  In terms of the source, it starts from
the symbols that a function needs and goes from each symbol to what the last definition
of it needs (`Function.LeadsTo`).  Its search finds nothing exactly if all of them have
addresses (`Session.recalls_searches`), also where functions call each other in circles.
-/

namespace Reckon

/-- The symbols that a function leads to: those that it needs, and with a symbol those
that the last definition of the symbol needs. -/
inductive Function.LeadsTo (defined : List Function) (f : Function) : String → Prop where
  | needs {symbol : String} (needed : symbol ∈ f.needs) : LeadsTo defined f symbol
  | next {symbol other : String} {g : Function} (leads : f.LeadsTo defined symbol)
      (latest : latest? defined symbol = some g) (needed : other ∈ g.needs) :
      LeadsTo defined f other

/-- What the linker has recorded leads to the same symbols as the source. -/
theorem Linker.Tabled.leads_iff {l : Linker} {defined : List Function} (h : l.Tabled defined)
    {f : Function} {references : List String}
    (hneeds : ∀ symbol, symbol ∈ references ↔ symbol ∈ f.needs) (symbol : String) :
    l.LeadsTo references symbol ↔ f.LeadsTo defined symbol := by
  constructor
  · intro hleads
    induction hleads with
    | root mem => exact .needs ((hneeds _).mp mem)
    | @next symbol other _ depended ih =>
        have hrecorded : l.dependencies.contains symbol = true := by
          refine Option.isSome_iff_ne_none.mpr fun hnone => ?_
          rw [Linker.dependenciesOf, hnone] at depended
          cases depended
        rw [h.recorded, ← h.isSome_latest?] at hrecorded
        obtain ⟨g, hlatest⟩ := Option.isSome_iff_exists.mp hrecorded
        exact ih.next hlatest ((h.needs symbol g hlatest other).mp depended)
  · intro hleads
    induction hleads with
    | needs needed => exact .root ((hneeds _).mpr needed)
    | @next symbol other g _ latest needed ih =>
        exact ih.next ((h.needs symbol g latest other).mpr needed)

namespace Session

variable {s : Session} {defined : List Function} {f : Function} {c : Compilation}

/-- What the search of the guard comes to for a function that has been compiled, where
some functions are the definitions that have been accepted. -/
structure Searches (s : Session) (defined : List Function) (f : Function)
    (u : CompilationUnit) : Prop where
  references : ∀ symbol, symbol ∈ u.references ↔ symbol ∈ f.needs
  ends : ∀ n, s.linker.weight [] s.linker.dependencies.keys + u.references.length < n →
    s.linker.searchWithin n [] u.references = some (s.linker.unresolved? u)
  none_iff : s.linker.unresolved? u = none ↔
    ∀ symbol, f.LeadsTo defined symbol → s.linker.isLinked symbol = true
  some : ∀ symbol, s.linker.unresolved? u = some symbol →
    f.LeadsTo defined symbol ∧ s.linker.isLinked symbol = false

/-- **The guard searches what a function leads to.**  The search ends, and it finds a
symbol without an address exactly if the function leads to one. -/
theorem recalls_searches (h : s.Recalls defined) (hok : (s.compile f).2 = .ok c) :
    s.Searches defined f c.unit := by
  rw [compile_snd] at hok
  obtain ⟨hneeds, -⟩ := h.kept.needs hok
  have hleads := h.kept.tables.leads_iff hneeds
  refine ⟨hneeds, fun n hn => Linker.searchWithin_eq hn, ?_, fun symbol hfound => ?_⟩
  · rw [Linker.unresolved?, Linker.search_eq_none_iff]
    simp only [hleads]
  · rw [← hleads]
    exact Linker.search_eq_some (fun _ hleads _ hother => hleads.next hother)
      (fun _ hmem => .root hmem) hfound

/-- An expression that leads to two functions which call each other in a circle: the
search ends, and finds nothing. -/
theorem recalls_searches_evenOdd :
    let prototype (name : String) : Prototype := ⟨name, ["x"], .function⟩
    let even : Function := ⟨prototype "even", .call "odd" [.var "x"]⟩
    let odd : Function := ⟨prototype "odd", .call "even" [.var "x"]⟩
    let f : Function := ⟨.anonymous, .call "even" [.number 1]⟩
    ∃ (s : Session) (c : Compilation), s.Recalls [odd, even] ∧ (s.compile f).2 = .ok c ∧
      s.linker.unresolved? c.unit = none ∧ s.Searches [odd, even] f c.unit := by
  intro prototype even odd f
  have hstart : (start .standard).Recalls [] := .start .standard
  have hdeclared : Recalls _ [] := hstart.handle 0 (.declaration (prototype "odd"))
  have heven : Recalls _ [even] := hdeclared.define (by decide)
  have hodd : Recalls _ [odd, even] := heven.define (by decide)
  obtain ⟨s, hs, hends⟩ : ∃ s : Session, s.Recalls [odd, even] ∧
      ((s.compile f).2.toOption.map fun c =>
        (decide (s.linker.weight [] s.linker.dependencies.keys + c.unit.references.length < 4),
          s.linker.searchWithin 4 [] c.unit.references)) = some (true, some none) :=
    ⟨_, hodd, by decide⟩
  cases hok : (s.compile f).2 with
  | error e =>
      rw [hok] at hends
      cases hends
  | ok c =>
      rw [hok] at hends
      obtain ⟨hbound, hwithin⟩ := Prod.mk.inj (Option.some.inj hends)
      have hsearches := recalls_searches hs hok
      rw [hsearches.ends 4 (of_decide_eq_true hbound)] at hwithin
      exact ⟨s, c, hs, hok, Option.some.inj hwithin, hsearches⟩

end Session

end Reckon
