import Reckon.Proofs.Lowering.Compiling
import Reckon.Proofs.Meaning.Embodied
import Reckon.Proofs.Session.Bonds
import Reckon.Proofs.Session.Tables

/-!
# Functions that are declared before they are defined

Once some functions have been declared, a session waits for their definitions
(`Session.Awaits`).  However many of them have been dealt with, and in whatever order,
the session has gone on from the one that waited in the same way
(`Session.Advances`): a definition is accepted or rejected as it would have been at the
beginning (`Session.Advances.define`), and what has been accepted is linked to code that
embodies it.
-/

namespace Reckon

/-- The error that a response reports, if it reports one. -/
def Response.rejection? (r : Response) : Option FormError :=
  match r.outcome with
  | .error e => some e
  | .ok _ => none

namespace Linker

variable {l l' l'' : Linker} {c : Compilation} {symbol : String}

theorem Extends.refl (l : Linker) : l.Extends l := ⟨fun _ _ => id, fun _ => id, fun _ _ => id⟩

theorem Extends.trans (h : l.Extends l') (h' : l'.Extends l'') : l.Extends l'' where
  units := fun i u hu => h'.units i u (h.units i u hu)
  cells := fun symbol hcell => h'.cells symbol (h.cells symbol hcell)
  addresses := fun symbol address haddress =>
    h'.addresses symbol address (h.addresses symbol address haddress)

/-- Linking a definition concerns no symbol but its own. -/
theorem link_ne (h : c.prototype.callee.symbol ≠ symbol) :
    (l.link c).address? symbol = l.address? symbol ∧
      (l.link c).cells.find? symbol = l.cells.find? symbol ∧
      (l.link c).dependenciesOf symbol = l.dependenciesOf symbol := by
  rw [link_eq]
  split
  · exact ⟨rfl, rfl, rfl⟩
  · rw [address?_publish, find?_publish, dependenciesOf_publish, if_neg h, if_neg h,
      if_neg fun hboth => h hboth.1]
    exact ⟨rfl, rfl, rfl⟩

end Linker

namespace Session

variable {s base : Session} {f : Function} {fs done : List Function}

/-- What a session is after some forms. -/
def feed (s : Session) (limit : Nat) (items : List Item) : Session :=
  items.foldl (fun s item => (s.handle limit item).1) s

/-- A session waits for the definitions of some functions that have been declared.  No
other callee has the symbol of one of them, and no code calls it. -/
structure Awaits (s : Session) (fs : List Function) : Prop where
  reachable : s.Reachable
  plain : ∀ f ∈ fs, f.prototype.kind = .function
  distinct : (fs.map Function.symbol).Nodup
  registered : ∀ f ∈ fs, s.registry.get? f.prototype.callee = some f.prototype
  unlinked : ∀ f ∈ fs, s.linker.isLinked f.symbol = false
  cells : ∀ f ∈ fs, s.linker.hasCell f.symbol = true
  alone : ∀ callee, (s.registry.get? callee).isSome → ∀ f ∈ fs, callee.symbol = f.symbol →
    callee = f.prototype.callee
  unused : ∀ (i : Nat) (u : LinkedUnit) (symbol : String), s.linker.units[i]? = some u →
    Code.NamesCell u.procedure.instructions symbol → ∀ f ∈ fs, f.symbol ≠ symbol

theorem Reachable.awaits (h : s.Reachable) : s.Awaits [] := by
  refine ⟨h, ?_, List.nodup_nil, ?_, ?_, ?_, ?_, ?_⟩
  · exact fun f hf => by cases hf
  · exact fun f hf => by cases hf
  · exact fun f hf => by cases hf
  · exact fun f hf => by cases hf
  · exact fun _ _ f hf => by cases hf
  · exact fun _ _ _ _ _ f hf => by cases hf

/-- A session waits for one more function when that has been declared, if its symbol was
new. -/
theorem Awaits.declare (h : s.Awaits fs) (limit : Nat) (hkind : f.prototype.kind = .function)
    (hunlinked : s.linker.isLinked f.symbol = false) (hcell : s.linker.hasCell f.symbol = false) :
    (s.handle limit (.declaration f.prototype)).1.Awaits (fs ++ [f]) := by
  have hother {g : Function} (hg : g ∈ fs) : f.symbol ≠ g.symbol := by
    intro heq
    simp [heq, h.cells g hg] at hcell
  have hregistry (callee : Callee) :
      (s.handle limit (.declaration f.prototype)).1.registry.get? callee =
        if f.prototype.callee = callee then some f.prototype else s.registry.get? callee :=
    s.registry.get?_insert f.prototype callee
  have hlinker : (s.handle limit (.declaration f.prototype)).1.linker =
      s.linker.reserve f.symbol := rfl
  refine ⟨.handle limit _ h.reachable, ?_, ?_, ?_, ?_, ?_, ?_, ?_⟩
  · exact List.forall_mem_append.mpr ⟨h.plain, by simpa using hkind⟩
  · rw [List.map_append, List.nodup_append]
    refine ⟨h.distinct, List.nodup_singleton _, fun symbol hsymbol other hlast => ?_⟩
    obtain ⟨g, hg, rfl⟩ := List.mem_map.mp hsymbol
    obtain rfl := List.mem_singleton.mp hlast
    exact (hother hg).symm
  · refine List.forall_mem_append.mpr ⟨fun g hg => ?_, by simp [hregistry]⟩
    rw [hregistry, if_neg fun heq => hother hg (congrArg Callee.symbol heq)]
    exact h.registered g hg
  · simp only [hlinker, Linker.isLinked_reserve]
    exact List.forall_mem_append.mpr ⟨h.unlinked, by simpa using hunlinked⟩
  · rw [hlinker]
    refine List.forall_mem_append.mpr ⟨fun g hg => ?_, fun g hg => ?_⟩
    · rw [Linker.hasCell_reserve (hother hg)]
      exact h.cells g hg
    · obtain rfl := List.mem_singleton.mp hg
      have hthere := s.linker.reserve_there g.symbol
      rw [hunlinked] at hthere
      simpa using hthere
  · intro callee hknown g hg hsymbol
    rw [hregistry] at hknown
    rcases List.mem_append.mp hg with hold | hlast
    · split at hknown
      · next heq => exact absurd ((congrArg Callee.symbol heq).trans hsymbol) (hother hold)
      · exact h.alone callee hknown g hold hsymbol
    · obtain rfl := List.mem_singleton.mp hlast
      split at hknown
      · next heq => exact heq.symm
      · have hthere := h.reachable.available hknown
        rw [hsymbol] at hthere
        simp [hunlinked, hcell] at hthere
  · intro i u symbol hu hnames g hg
    rw [hlinker, Linker.reserve_units] at hu
    rcases List.mem_append.mp hg with hold | hlast
    · exact h.unused i u symbol hu hnames g hold
    · obtain rfl := List.mem_singleton.mp hlast
      rintro rfl
      simp [h.reachable.sound.coherent.cells i u _ hu hnames] at hcell

/-- A symbol is that of one of some functions. -/
def Awaited (fs : List Function) (symbol : String) : Prop := ∃ f ∈ fs, f.symbol = symbol

theorem Awaits.eq_of_symbol (h : s.Awaits fs) {f g : Function} (hf : f ∈ fs) (hg : g ∈ fs)
    (hsymbol : f.symbol = g.symbol) : f = g :=
  List.inj_on_of_nodup_map h.distinct hf hg hsymbol

/-- The error that defining a function would be rejected with. -/
def refusal? (s : Session) (f : Function) : Option FormError :=
  match s.surroundings.compile f with
  | .error e => some (.lowerError e)
  | .ok _ => none

/-- What the code refers to that the symbol of a function would refer to if it was
defined.  Nothing is linked under the symbol of a bare expression. -/
def grant? (s : Session) (f : Function) : Option (List String) :=
  if f.prototype.isAnonymous then none
  else
    match s.surroundings.compile f with
    | .error _ => none
    | .ok c => some c.unit.references

/-- A session has gone on from one that waited for some functions, and some of them have
been dealt with.  A function that was rejected has left no trace, and one that was
accepted is linked to code that embodies it. -/
structure Advances (base : Session) (fs done : List Function) (s : Session) : Prop where
  reachable : s.Reachable
  registry : s.registry = base.registry
  keeps : base.linker.Extends s.linker
  addresses : ∀ symbol, ¬Awaited fs symbol →
    s.linker.address? symbol = base.linker.address? symbol
  cells : ∀ symbol, ¬Awaited fs symbol →
    s.linker.cells.find? symbol = base.linker.cells.find? symbol
  dependencies : ∀ symbol, ¬Awaited fs symbol →
    s.linker.dependenciesOf symbol = base.linker.dependenciesOf symbol
  waiting : ∀ f ∈ fs, f ∉ done ∨ base.grant? f = none → s.linker.isLinked f.symbol = false
  linked : ∀ f ∈ done, ∀ references, base.grant? f = some references → ∃ i c u,
    s.linker.address? f.symbol = some (.unit i) ∧ s.linker.Embodies f i c u ∧
      s.linker.dependenciesOf f.symbol = references

theorem Awaits.advances (h : base.Awaits fs) : base.Advances fs [] base := by
  refine ⟨h.reachable, rfl, .refl _, fun _ _ => rfl, fun _ _ => rfl, fun _ _ => rfl,
    fun f hf _ => h.unlinked f hf, fun f hf => ?_⟩
  cases hf

/-- However far a session has gone on, what can be compiled in it is the same. -/
theorem Advances.akin (hbase : base.Awaits fs) (h : base.Advances fs done s) :
    base.surroundings.Akin (Awaited fs) s.surroundings where
  registry := h.registry
  keyed := hbase.reachable.sound.keyed
  address? := h.addresses
  hasCell := by
    intro symbol hsymbol
    change s.linker.hasCell symbol = base.linker.hasCell symbol
    rw [Linker.hasCell, Linker.hasCell, Table.contains, Table.contains, h.cells symbol hsymbol]
  there := by
    rintro symbol ⟨f, hf, rfl⟩
    exact Or.inr (hbase.cells f hf)
  there' := by
    rintro symbol ⟨f, hf, rfl⟩
    exact Or.inr (h.keeps.cells _ (hbase.cells f hf))
  alone := by
    rintro callee hknown ⟨f, hf, hsymbol⟩
    have hcallee := hbase.alone callee hknown f hf hsymbol.symm
    have hkind := hbase.plain f hf
    rw [hcallee, Prototype.callee, hkind]
    rfl

theorem Advances.announce (hbase : base.Awaits fs) (h : base.Advances fs done s) (hf : f ∈ fs) :
    (s.announce f.prototype).1.registry = s.registry := by
  rw [s.announce_registry]
  split
  · rfl
  · have hregistered := hbase.registered f hf
    rw [← h.registry] at hregistered
    exact congrArg Registry.mk (Table.insert_of_find? hregistered)

/-- A function that is not granted its symbol may have been dealt with. -/
theorem Advances.skip (h : base.Advances fs done s) (hgrant : base.grant? f = none) :
    base.Advances fs (done ++ [f]) s := by
  refine ⟨h.reachable, h.registry, h.keeps, h.addresses, h.cells, h.dependencies, ?_, ?_⟩
  · intro g hg hwaiting
    exact h.waiting g hg (hwaiting.imp_left fun hnot hmem => hnot (List.mem_append_left _ hmem))
  · intro g hg references hreferences
    rcases List.mem_append.mp hg with hold | hlast
    · exact h.linked g hold references hreferences
    · obtain rfl := List.mem_singleton.mp hlast
      cases hgrant.symm.trans hreferences

/-- A function that is granted its symbol is linked under it, to code that embodies
it. -/
theorem Advances.granted (h : base.Advances fs done s) {c c₀ : Compilation}
    (hcompile : s.surroundings.compile f = .ok c) (hcompile₀ : base.surroundings.compile f = .ok c₀)
    (hreferences : c.unit.references = c₀.unit.references) {s' : Session} (hs' : s'.Reachable)
    (hlinker : s'.linker = s.linker.link c) (hunlinked : s.linker.isLinked f.symbol = false)
    {references : List String} (hgrant : base.grant? f = some references) :
    ∃ i c u, s'.linker.address? f.symbol = some (.unit i) ∧ s'.linker.Embodies f i c u ∧
      s'.linker.dependenciesOf f.symbol = references := by
  have hprototype : c.prototype = f.prototype := (Surroundings.compile_head hcompile).1
  have hanonymous : f.prototype.isAnonymous = false := by
    by_contra hanonymous
    rw [grant?, if_pos (by simpa using hanonymous)] at hgrant
    cases hgrant
  rw [grant?, hanonymous, hcompile₀] at hgrant
  obtain rfl := Option.some.inj hgrant
  have hnamed : c.prototype.isAnonymous = false := hprototype ▸ hanonymous
  have haddress : s'.linker.address? f.symbol = some (.unit s.linker.units.size) := by
    rw [hlinker, Linker.address?_link hnamed, if_pos (by rw [hprototype])]
  have hunit : s'.linker.units[s.linker.units.size]? = some (s.linker.unitOf c) := by
    rw [hlinker, Linker.link_units]
    exact Array.getElem?_push_size
  have hkeeps : s.linker.Extends s'.linker := by
    rw [hlinker]
    exact Linker.extends_link (hprototype ▸ hunlinked)
  refine ⟨s.linker.units.size, c, s.linker.unitOf c, haddress, ?_, ?_⟩
  · exact .fresh h.reachable.sound.keyed hcompile hs'.sound.coherent hkeeps hunit (Or.inl haddress)
  · rw [hlinker, Linker.link_of_named hnamed, Linker.dependenciesOf_publish,
      if_pos (by rw [hprototype])]
    exact hreferences

/-- A function that compiles is linked. -/
theorem Advances.link (hbase : base.Awaits fs) (h : base.Advances fs done s) (hf : f ∈ fs)
    (hnew : f ∉ done) {c c₀ : Compilation} (hcompile : s.surroundings.compile f = .ok c)
    (hcompile₀ : base.surroundings.compile f = .ok c₀)
    (hreferences : c.unit.references = c₀.unit.references) {s' : Session} (hs' : s'.Reachable)
    (hregistry : s'.registry = s.registry) (hlinker : s'.linker = s.linker.link c) :
    base.Advances fs (done ++ [f]) s' := by
  have hprototype : c.prototype = f.prototype := (Surroundings.compile_head hcompile).1
  have hunlinked := h.waiting f hf (Or.inl hnew)
  have hkeeps : s.linker.Extends s'.linker := by
    rw [hlinker]
    exact Linker.extends_link (hprototype ▸ hunlinked)
  have hother {symbol : String} (hne : f.symbol ≠ symbol) :
      s'.linker.address? symbol = s.linker.address? symbol ∧
        s'.linker.cells.find? symbol = s.linker.cells.find? symbol ∧
        s'.linker.dependenciesOf symbol = s.linker.dependenciesOf symbol := by
    rw [hlinker]
    exact Linker.link_ne (hprototype ▸ hne)
  have hoff {symbol : String} (hsymbol : ¬Awaited fs symbol) : f.symbol ≠ symbol :=
    fun heq => hsymbol ⟨f, hf, heq⟩
  have hcoherent := h.reachable.sound.coherent
  have hcoherent' := hs'.sound.coherent
  refine ⟨hs', hregistry.trans h.registry, h.keeps.trans hkeeps, fun symbol hsymbol => ?_,
    fun symbol hsymbol => ?_, fun symbol hsymbol => ?_, fun g hg hwaiting => ?_,
    fun g hg references hgrant => ?_⟩
  · exact (hother (hoff hsymbol)).1.trans (h.addresses symbol hsymbol)
  · exact (hother (hoff hsymbol)).2.1.trans (h.cells symbol hsymbol)
  · exact (hother (hoff hsymbol)).2.2.trans (h.dependencies symbol hsymbol)
  · by_cases hsymbol : f.symbol = g.symbol
    · obtain rfl := hbase.eq_of_symbol hf hg hsymbol
      have hgrant := hwaiting.resolve_left fun hnot => hnot (by simp)
      by_cases hanonymous : f.prototype.isAnonymous = true
      · rw [hlinker, Linker.link_eq, hprototype, if_pos hanonymous]
        exact hunlinked
      · rw [grant?, if_neg hanonymous, hcompile₀] at hgrant
        cases hgrant
    · have hbefore := h.waiting g hg
        (hwaiting.imp_left fun hnot hmem => hnot (List.mem_append_left _ hmem))
      rwa [Linker.isLinked, (hother hsymbol).1]
  · rcases List.mem_append.mp hg with hold | hlast
    · obtain ⟨i, d, u, haddress, hembodies, hdependencies⟩ := h.linked g hold references hgrant
      have hsymbol : f.symbol ≠ g.symbol := by
        intro heq
        have hlinked := Linker.isLinked_eq_true.mpr ⟨_, haddress⟩
        rw [← heq, hunlinked] at hlinked
        cases hlinked
      obtain ⟨haddress', -, hdependencies'⟩ := hother hsymbol
      exact ⟨i, d, u, haddress'.trans haddress,
        hembodies.persists hcoherent hcoherent' hkeeps, hdependencies'.trans hdependencies⟩
    · obtain rfl := List.mem_singleton.mp hlast
      exact h.granted hcompile hcompile₀ hreferences hs' hlinker hunlinked hgrant

/-- **A definition comes to what it would have come to at the beginning**, and the
session goes on in the same way. -/
theorem Advances.define (hbase : base.Awaits fs) (h : base.Advances fs done s) (hf : f ∈ fs)
    (hnew : f ∉ done) (limit : Nat) :
    base.Advances fs (done ++ [f]) (s.handle limit (.definition f)).1 ∧
      (s.handle limit (.definition f)).2.rejection? = base.refusal? f := by
  have hreachable : (s.define f).1.Reachable := .handle limit (.definition f) h.reachable
  have hregistry := h.announce hbase hf
  have hsurroundings : (s.announce f.prototype).1.surroundings = s.surroundings := by
    rw [surroundings, surroundings, hregistry, announce_linker]
  change base.Advances fs (done ++ [f]) (s.define f).1 ∧
    (s.define f).2.rejection? = base.refusal? f
  rw [define_eq, hsurroundings] at hreachable ⊢
  rcases (h.akin hbase).compile (hbase.plain f hf) with
    ⟨c₀, c, hcompile₀, hcompile, hreferences⟩ | ⟨e, hcompile₀, hcompile⟩
  · rw [hcompile] at hreachable ⊢
    rw [refusal?, hcompile₀]
    exact ⟨h.link hbase hf hnew hcompile hcompile₀ hreferences hreachable hregistry rfl, rfl⟩
  · rw [hcompile, refusal?, hcompile₀]
    refine ⟨h.skip ?_, rfl⟩
    rw [grant?, hcompile₀]
    split <;> rfl

/-- The session goes on in the same way with all of the definitions. -/
theorem Advances.feed (hbase : base.Awaits fs) {ds : List Function} (hds : ds ⊆ fs)
    (hnodup : (done ++ ds).Nodup) (h : base.Advances fs done s) (limit : Nat) :
    base.Advances fs (done ++ ds) (s.feed limit (ds.map .definition)) := by
  induction ds generalizing done s with
  | nil => simpa [Session.feed] using h
  | cons f ds ih =>
      have hnew : f ∉ done := fun hmem =>
        (List.nodup_append.mp hnodup).2.2 f hmem f List.mem_cons_self rfl
      obtain ⟨hnext, -⟩ := h.define hbase (hds List.mem_cons_self) hnew limit
      have hrest := ih (fun g hg => hds (List.mem_cons_of_mem _ hg)) (by simpa using hnodup) hnext
      simpa [Session.feed] using hrest

/-- Declaring functions whose symbols are new leaves a session that waits for them. -/
theorem Awaits.feed {fs' : List Function} (h : s.Awaits fs) (limit : Nat)
    (hplain : ∀ f ∈ fs', f.prototype.kind = .function)
    (hdistinct : (fs'.map Function.symbol).Nodup)
    (hnew : ∀ f ∈ fs', s.linker.isLinked f.symbol = false ∧ s.linker.hasCell f.symbol = false) :
    (s.feed limit (fs'.map fun f => .declaration f.prototype)).Awaits (fs ++ fs') := by
  induction fs' generalizing fs s with
  | nil => simpa [Session.feed] using h
  | cons f fs' ih =>
      obtain ⟨hkind, hplain⟩ := List.forall_mem_cons.mp hplain
      obtain ⟨⟨hunlinked, hcell⟩, hnew⟩ := List.forall_mem_cons.mp hnew
      obtain ⟨hother, hdistinct⟩ := List.nodup_cons.mp hdistinct
      have hnext := h.declare limit hkind hunlinked hcell
      have hrest := ih hnext hplain hdistinct fun g hg => by
        have hne : f.symbol ≠ g.symbol := fun heq => hother (heq ▸ List.mem_map_of_mem hg)
        change (s.linker.reserve f.symbol).isLinked g.symbol = false ∧
          (s.linker.reserve f.symbol).hasCell g.symbol = false
        rw [Linker.isLinked_reserve, Linker.hasCell_reserve hne]
        exact hnew g hg
      simpa [Session.feed] using hrest

end Session

end Reckon
