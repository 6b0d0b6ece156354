import Reckon.Link.Linker

/-!
# The search of the guard

The guard looks for a symbol without an address among everything that a unit leads to.
It visits a symbol once, so its search ends wherever definitions refer to each other in
circles (`Linker.searchWithin_eq`).  It finds nothing exactly if there is nothing to be
found (`Linker.search_eq_none_iff`), and what it finds is what it was looking for
(`Linker.search_eq_some`).
-/

namespace Reckon

namespace Linker

variable {l l' : Linker} {symbol : String}

/-- The symbols that some symbols lead to, by what their newest definitions refer to. -/
inductive LeadsTo (l : Linker) (roots : List String) : String → Prop where
  | root {symbol : String} (mem : symbol ∈ roots) : LeadsTo l roots symbol
  | next {symbol other : String} (leads : l.LeadsTo roots symbol)
      (depended : other ∈ l.dependenciesOf symbol) : LeadsTo l roots other

/-- Symbols that all have an address and lead to no others. -/
def Closed (l : Linker) (symbols : List String) : Prop :=
  ∀ symbol ∈ symbols, l.isLinked symbol = true ∧
    ∀ other ∈ l.dependenciesOf symbol, other ∈ symbols

/-- A search that finds nothing has visited symbols that lead nowhere but to
each other and to what had been seen. -/
theorem search_eq_none {seen pending : List String} (h : l.search seen pending = none) :
    ∃ visited : List String, (∀ symbol ∈ pending, symbol ∈ seen ∨ symbol ∈ visited) ∧
      ∀ symbol ∈ visited, l.isLinked symbol = true ∧
        ∀ other ∈ l.dependenciesOf symbol, other ∈ seen ∨ other ∈ visited := by
  fun_induction l.search seen pending with
  | case1 seen => exact ⟨[], by simp, by simp⟩
  | case2 seen symbol pending hseen ih =>
      obtain ⟨visited, hpending, hvisited⟩ := ih h
      refine ⟨visited, ?_, hvisited⟩
      intro other hother
      rcases List.mem_cons.mp hother with rfl | hmem
      · exact Or.inl (by simpa using hseen)
      · exact hpending other hmem
  | case3 seen symbol pending hseen hlinked ih =>
      obtain ⟨visited, hpending, hvisited⟩ := ih h
      have hmove : ∀ other, other ∈ symbol :: seen ∨ other ∈ visited →
          other ∈ seen ∨ other ∈ symbol :: visited := by
        intro other hother
        rcases hother with hmem | hmem
        · rcases List.mem_cons.mp hmem with rfl | hmem
          · exact Or.inr List.mem_cons_self
          · exact Or.inl hmem
        · exact Or.inr (List.mem_cons_of_mem _ hmem)
      refine ⟨symbol :: visited, ?_, ?_⟩
      · intro other hother
        rcases List.mem_cons.mp hother with rfl | hmem
        · exact Or.inr List.mem_cons_self
        · exact hmove other (hpending other (List.mem_append_right _ hmem))
      · intro found hfound
        rcases List.mem_cons.mp hfound with rfl | hmem
        · exact ⟨hlinked, fun other hother =>
            hmove other (hpending other (List.mem_append_left _ hother))⟩
        · obtain ⟨hlink, hothers⟩ := hvisited found hmem
          exact ⟨hlink, fun other hother => hmove other (hothers other hother)⟩
  | case4 seen symbol pending hseen hunlinked => cases h

/-- If the guard finds nothing, the references of the unit lead to symbols with
addresses only. -/
theorem unresolved?_eq_none {u : CompilationUnit} (h : l.unresolved? u = none) :
    ∃ symbols, l.Closed symbols ∧ ∀ symbol ∈ u.references, symbol ∈ symbols := by
  obtain ⟨visited, hreferences, hvisited⟩ := search_eq_none h
  refine ⟨visited, ?_, fun symbol hmem => by simpa using hreferences symbol hmem⟩
  intro symbol hmem
  obtain ⟨hlinked, hothers⟩ := hvisited symbol hmem
  exact ⟨hlinked, fun other hother => by simpa using hothers other hother⟩

/-- A search that finds a symbol has come to it from the pending ones. -/
theorem search_eq_some {P : String → Prop}
    (hnext : ∀ symbol, P symbol → ∀ other ∈ l.dependenciesOf symbol, P other)
    {seen pending : List String} (hpending : ∀ other ∈ pending, P other)
    (h : l.search seen pending = some symbol) : P symbol ∧ l.isLinked symbol = false := by
  fun_induction l.search seen pending with
  | case1 seen => cases h
  | case2 seen first pending hseen ih =>
      exact ih (fun other hother => hpending other (List.mem_cons_of_mem _ hother)) h
  | case3 seen first pending hseen hlinked ih =>
      obtain ⟨hfirst, hothers⟩ := List.forall_mem_cons.mp hpending
      exact ih (List.forall_mem_append.mpr ⟨hnext first hfirst, hothers⟩) h
  | case4 seen first pending hseen hunlinked =>
      obtain rfl := Option.some.inj h
      exact ⟨hpending first List.mem_cons_self, by simpa using hunlinked⟩

/-- **A search finds nothing** exactly if everything that it could come to has an
address. -/
theorem search_eq_none_iff (l : Linker) (roots : List String) :
    l.search [] roots = none ↔ ∀ symbol, l.LeadsTo roots symbol → l.isLinked symbol = true := by
  constructor
  · intro h symbol hleads
    obtain ⟨visited, hroots, hvisited⟩ := search_eq_none h
    have hmem : symbol ∈ visited := by
      induction hleads with
      | root mem => simpa using hroots _ mem
      | next _ depended ih => simpa using (hvisited _ ih).2 _ depended
    exact (hvisited symbol hmem).1
  · intro h
    cases hsearch : l.search [] roots with
    | none => rfl
    | some symbol =>
        obtain ⟨hleads, hunlinked⟩ := search_eq_some (P := l.LeadsTo roots)
          (fun _ hleads _ hother => hleads.next hother) (fun _ hmem => .root hmem) hsearch
        rw [h symbol hleads] at hunlinked
        cases hunlinked

/-- A search that gives up after a number of turns. -/
def searchWithin (l : Linker) : Nat → List String → List String → Option (Option String)
  | 0, _, _ => none
  | _ + 1, _, [] => some none
  | n + 1, seen, symbol :: pending =>
    if seen.contains symbol then l.searchWithin n seen pending
    else if l.isLinked symbol then
      l.searchWithin n (symbol :: seen) (l.dependenciesOf symbol ++ pending)
    else some (some symbol)

/-- **A search ends** after as many turns as there are symbols pending and references
among what has not been seen. -/
theorem searchWithin_eq {seen pending : List String} {n : Nat}
    (h : l.weight seen l.dependencies.keys + pending.length < n) :
    l.searchWithin n seen pending = some (l.search seen pending) := by
  fun_induction l.search seen pending generalizing n with
  | case1 seen =>
      obtain ⟨m, rfl⟩ : ∃ m, n = m + 1 := ⟨n - 1, by omega⟩
      rfl
  | case2 seen symbol pending hseen ih =>
      obtain ⟨m, rfl⟩ : ∃ m, n = m + 1 := ⟨n - 1, by omega⟩
      rw [searchWithin, if_pos hseen]
      refine ih ?_
      rw [List.length_cons] at h
      omega
  | case3 seen symbol pending hseen hlinked ih =>
      obtain ⟨m, rfl⟩ : ∃ m, n = m + 1 := ⟨n - 1, by omega⟩
      rw [searchWithin, if_neg hseen, if_pos hlinked]
      refine ih ?_
      have hvisit := l.weight_visit_le (Bool.eq_false_iff.mpr hseen)
      rw [List.length_append]
      rw [List.length_cons] at h
      omega
  | case4 seen symbol pending hseen hunlinked =>
      obtain ⟨m, rfl⟩ : ∃ m, n = m + 1 := ⟨n - 1, by omega⟩
      rw [searchWithin, if_neg hseen, if_neg hunlinked]

/-- The guard answers alike where the same symbols have addresses and refer to the same
symbols. -/
theorem search_congr (hlinked : ∀ symbol, l'.isLinked symbol = l.isLinked symbol)
    (hdependencies : ∀ symbol, l.isLinked symbol = true →
      l'.dependenciesOf symbol = l.dependenciesOf symbol) (seen pending : List String) :
    l'.search seen pending = l.search seen pending := by
  fun_induction l.search seen pending with
  | case1 seen => rw [search]
  | case2 seen symbol pending hseen ih => rw [search, dif_pos hseen, ih]
  | case3 seen symbol pending hseen hsymbol ih =>
      rw [search, dif_neg hseen, hlinked, if_pos hsymbol, hdependencies symbol hsymbol, ih]
  | case4 seen symbol pending hseen hsymbol =>
      rw [search, dif_neg hseen, hlinked, if_neg hsymbol]

end Linker

end Reckon
