import Reckon.Proofs.Session.Forward

/-!
# Definitions of declared functions in any order

A definition calls some functions by their addresses and others through their cells,
depending on which of them have been defined before it.  Where all of them have been
declared first this makes no difference (`Session.Reachable.definitions_commute`): the
same definitions are accepted in every order, and every expression comes to the same
afterwards.  The addresses of old code are the same in all orders, and those of new code
are units that embody the same functions (`Linker.Same`).
-/

namespace Reckon

namespace Linker

variable {base l l' : Linker}

/-- Addresses in two linkers that go on from the same one: an address of that one, or
units that embody the same function. -/
inductive Same (base l l' : Linker) : Address → Address → Prop where
  | old {address : Address} (there : ∀ i, address = .unit i → i < base.units.size) :
      Same base l l' address address
  | embodied {f : Function} {i i' : Nat} {c c' : Compilation} {u u' : LinkedUnit}
      (left : l.Embodies f i c u) (right : l'.Embodies f i' c' u') :
      Same base l l' (.unit i) (.unit i')

/-- Old code that runs as before, and symbols that refer to the same, make two linkers
counterparts of each other. -/
theorem counterparts (hold : ∀ i, i < base.units.size → base.Lockstep l i)
    (hold' : ∀ i, i < base.units.size → base.Lockstep l' i)
    (haddresses : ∀ symbol address, l.address? symbol = some address →
      ∃ address', l'.address? symbol = some address' ∧ Same base l l' address address') :
    Counterparts l l' (Same base l l') where
  related := by
    intro address address' hsame
    cases hsame with
    | old there =>
        refine Or.inl fun args value text hreturns => ?_
        obtain ⟨limit, hlimit⟩ := hreturns
        refine ⟨limit, ?_⟩
        cases address with
        | primitive primitive => exact hlimit
        | unit i =>
            have hi := there i rfl
            rw [(hold' i hi).execute hi, ← (hold i hi).execute hi]
            exact hlimit
    | @embodied f i i' c c' u u' left right =>
        refine Or.inr ⟨f, i, i', c, c', u, u', rfl, rfl, left, right,
          fun symbol target htarget => ?_⟩
        unfold Linker.target? at htarget ⊢
        split at htarget
        · next heq =>
            obtain rfl := Option.some.inj htarget
            exact ⟨_, if_pos heq, .embodied left right⟩
        · next hne =>
            rw [if_neg hne]
            exact haddresses symbol target htarget

end Linker

namespace Session

variable {s s' base : Session} {fs done done' : List Function}

/-- Running an expression returns a number exactly if the execution of its unit does. -/
theorem runOnce_evaluated {limit : Nat} {c : Compilation} {value : Float} {text : String} :
    s.runOnce limit c = ⟨.ok (.evaluated value), text⟩ ↔
      (s.linker.load c).1.execute limit (.unit s.linker.units.size) [] = (.value value, text) := by
  unfold runOnce
  rw [Linker.load_eq]
  dsimp only
  split
  · next found output hrun => simp [hrun]
  · next ending output hother hrun =>
      rw [hrun]
      simpa using fun heq => (hother value heq).elim

/-- An expression returns a number if it compiles, passes the guard, and its code
returns it. -/
theorem evaluate_returns {body : Expr} {value : Float} {text : String} :
    (∃ limit, (s.evaluate limit body).2 = ⟨.ok (.evaluated value), text⟩) ↔
      ∃ c, s.surroundings.compile ⟨.anonymous, body⟩ = .ok c ∧
        s.linker.unresolved? c.unit = none ∧
        (s.linker.load c).1.Returns (.unit s.linker.units.size) [] value text := by
  constructor
  · rintro ⟨limit, hlimit⟩
    rcases s.evaluate_cases limit body with ⟨e, herror⟩ | ⟨c, hok, hguard, hran⟩
    · rw [herror] at hlimit
      simp at hlimit
    · rw [hran] at hlimit
      exact ⟨c, hok, hguard, limit, runOnce_evaluated.mp hlimit⟩
  · rintro ⟨c, hok, hguard, limit, hlimit⟩
    refine ⟨limit, ?_⟩
    rw [evaluate_of_guard limit hok hguard]
    exact runOnce_evaluated.mpr hlimit

/-- All of some declared functions have been dealt with. -/
structure Settles (base : Session) (fs done : List Function) (s : Session) : Prop extends
    base.Advances fs done s where
  awaits : base.Awaits fs
  all : fs ⊆ done

namespace Settles

/-- A function is linked exactly if it was granted its symbol. -/
theorem isLinked (h : base.Settles fs done s) {f : Function} (hf : f ∈ fs) :
    s.linker.isLinked f.symbol = (base.grant? f).isSome := by
  cases hgrant : base.grant? f with
  | none => exact h.waiting f hf (Or.inr hgrant)
  | some references =>
      obtain ⟨i, c, u, haddress, -⟩ := h.linked f (h.all hf) references hgrant
      exact Linker.isLinked_eq_true.mpr ⟨_, haddress⟩

/-- The same symbols have addresses in every order. -/
theorem isLinked_congr (h : base.Settles fs done s) (h' : base.Settles fs done' s')
    (symbol : String) : s'.linker.isLinked symbol = s.linker.isLinked symbol := by
  by_cases hsymbol : Awaited fs symbol
  · obtain ⟨f, hf, rfl⟩ := hsymbol
    rw [h.isLinked hf, h'.isLinked hf]
  · rw [Linker.isLinked, Linker.isLinked, h.addresses symbol hsymbol, h'.addresses symbol hsymbol]

/-- What has an address refers to the same symbols in every order. -/
theorem dependencies_congr (h : base.Settles fs done s) (h' : base.Settles fs done' s')
    {symbol : String} (hlinked : s.linker.isLinked symbol = true) :
    s'.linker.dependenciesOf symbol = s.linker.dependenciesOf symbol := by
  by_cases hsymbol : Awaited fs symbol
  · obtain ⟨f, hf, rfl⟩ := hsymbol
    rw [h.isLinked hf] at hlinked
    obtain ⟨references, hgrant⟩ := Option.isSome_iff_exists.mp hlinked
    obtain ⟨-, -, -, -, -, hdependencies⟩ := h.linked f (h.all hf) references hgrant
    obtain ⟨-, -, -, -, -, hdependencies'⟩ := h'.linked f (h'.all hf) references hgrant
    exact hdependencies'.trans hdependencies.symm
  · rw [h.dependencies symbol hsymbol, h'.dependencies symbol hsymbol]

/-- Old code runs as before, also while an expression is run. -/
theorem lockstep (h : base.Settles fs done s) (c : Compilation) (i : Nat) :
    base.linker.Lockstep (s.linker.load c).1 i where
  dated := h.awaits.reachable.dated
  coherent := h.awaits.reachable.sound.coherent
  units := by
    intro j hj
    have hu := Array.getElem?_eq_getElem hj
    rw [hu]
    exact Linker.load_units_lt (h.keeps.units j _ hu)
  cells := by
    intro symbol hreaches
    obtain ⟨j, -, u, hu, instruction, -, hcalls⟩ := hreaches
    have hsymbol : ¬Awaited fs symbol := by
      rintro ⟨f, hf, heq⟩
      cases hcalls with
      | through hload hcell => exact h.awaits.unused j u symbol hu ⟨_, hcell⟩ f hf heq
    change (s.linker.cells.find? symbol).join = _
    rw [h.cells symbol hsymbol]

/-- The linkers that an expression is run in after two orders are counterparts. -/
theorem counterparts (h : base.Settles fs done s) (h' : base.Settles fs done' s')
    {c c' : Compilation} (hc : c.Resolved s.linker) (hc' : c'.Resolved s'.linker) :
    Counterparts (s.linker.load c).1 (s'.linker.load c').1
      (Linker.Same base.linker (s.linker.load c).1 (s'.linker.load c').1) := by
  refine Linker.counterparts (fun i _ => h.lockstep c i) (fun i _ => h'.lockstep c' i) ?_
  intro symbol address haddress
  change s.linker.address? symbol = some address at haddress
  change ∃ address', s'.linker.address? symbol = some address' ∧ _
  by_cases hsymbol : Awaited fs symbol
  · obtain ⟨f, hf, rfl⟩ := hsymbol
    have hlinked := Linker.isLinked_eq_true.mpr ⟨_, haddress⟩
    rw [h.isLinked hf] at hlinked
    obtain ⟨references, hgrant⟩ := Option.isSome_iff_exists.mp hlinked
    obtain ⟨i, d, u, hi, hembodies, -⟩ := h.linked f (h.all hf) references hgrant
    obtain ⟨i', d', u', hi', hembodies', -⟩ := h'.linked f (h'.all hf) references hgrant
    obtain rfl := Option.some.inj (hi.symm.trans haddress)
    have hcoherent := h.reachable.sound.coherent
    have hcoherent' := h'.reachable.sound.coherent
    exact ⟨_, hi', .embodied
      (hembodies.persists hcoherent (hcoherent.load hc) (s.linker.extends_load c))
      (hembodies'.persists hcoherent' (hcoherent'.load hc') (s'.linker.extends_load c'))⟩
  · rw [h.addresses symbol hsymbol] at haddress
    rw [h'.addresses symbol hsymbol]
    refine ⟨address, haddress, .old fun i hi => ?_⟩
    exact h.awaits.reachable.sound.coherent.address?_lt (hi ▸ haddress)

/-- What compiled an expression embodies it while it is run. -/
theorem embodies (h : base.Settles fs done s) {body : Expr} {c : Compilation}
    (hcompile : s.surroundings.compile ⟨.anonymous, body⟩ = .ok c) :
    (s.linker.load c).1.Embodies ⟨.anonymous, body⟩ s.linker.units.size c (s.linker.unitOf c) := by
  have hkeyed := h.reachable.sound.keyed
  have hresolved : c.Resolved s.linker := compile_resolved hkeyed hcompile
  exact .fresh hkeyed hcompile (h.reachable.sound.coherent.load hresolved)
    (s.linker.extends_load c) (s.linker.load_unit c) (Or.inr rfl)

/-- An expression compiles in the same way in every order. -/
theorem compile (h : base.Settles fs done s) (h' : base.Settles fs done' s') (body : Expr) :
    (∃ c c', s.surroundings.compile ⟨.anonymous, body⟩ = .ok c ∧
      s'.surroundings.compile ⟨.anonymous, body⟩ = .ok c' ∧
      s'.linker.unresolved? c'.unit = s.linker.unresolved? c.unit) ∨
      ∃ e, s.surroundings.compile ⟨.anonymous, body⟩ = .error e ∧
        s'.surroundings.compile ⟨.anonymous, body⟩ = .error e := by
  have hkind : (⟨.anonymous, body⟩ : Function).prototype.kind = .function := rfl
  have hleft := (h.akin h.awaits).compile hkind
  have hright := (h'.akin h.awaits).compile hkind
  rcases hleft with ⟨c₀, c, hc₀, hc, hreferences⟩ | ⟨e, he₀, he⟩
  · rcases hright with ⟨c₁, c', hc₁, hc', hreferences'⟩ | ⟨e, he₀, -⟩
    · obtain rfl := Except.ok.inj (hc₀.symm.trans hc₁)
      refine Or.inl ⟨c, c', hc, hc', ?_⟩
      rw [Linker.unresolved?, Linker.unresolved?, hreferences, hreferences']
      exact Linker.search_congr (h.isLinked_congr h')
        (fun symbol => h.dependencies_congr h') [] _
    · cases hc₀.symm.trans he₀
  · rcases hright with ⟨c₁, c', hc₁, -⟩ | ⟨e', he₀', he'⟩
    · cases he₀.symm.trans hc₁
    · obtain rfl := Except.error.inj (he₀.symm.trans he₀')
      exact Or.inr ⟨e, he, he'⟩

/-- An expression is rejected with the same error in every order, or in none. -/
theorem rejection? (h : base.Settles fs done s) (h' : base.Settles fs done' s') (limit : Nat)
    (body : Expr) :
    (s'.evaluate limit body).2.rejection? = (s.evaluate limit body).2.rejection? := by
  have hrun (s : Session) (c : Compilation) : (s.runOnce limit c).rejection? = none := by
    unfold Response.rejection?
    split
    · next e he => exact absurd he (s.runOnce_outcome limit c e)
    · rfl
  rw [evaluate_eq, evaluate_eq]
  rcases h.compile h' body with ⟨c, c', hc, hc', hsame⟩ | ⟨e, he, he'⟩
  · simp only [hc, hc', hsame]
    cases s.linker.unresolved? c.unit with
    | none => exact (hrun s' c').trans (hrun s c).symm
    | some symbol => rfl
  · simp only [he, he']

/-- What an expression returns in one order it returns in every other one. -/
theorem returns (h : base.Settles fs done s) (h' : base.Settles fs done' s') {body : Expr}
    {value : Float} {text : String}
    (hreturns : ∃ limit, (s.evaluate limit body).2 = ⟨.ok (.evaluated value), text⟩) :
    ∃ limit, (s'.evaluate limit body).2 = ⟨.ok (.evaluated value), text⟩ := by
  rw [evaluate_returns] at hreturns ⊢
  obtain ⟨c, hc, hguard, hvalue⟩ := hreturns
  rcases h.compile h' body with ⟨c₁, c', hc₁, hc', hsame⟩ | ⟨e, he, -⟩
  · obtain rfl := Except.ok.inj (hc.symm.trans hc₁)
    have hresolved : c.Resolved s.linker := compile_resolved h.reachable.sound.keyed hc
    have hresolved' : c'.Resolved s'.linker := compile_resolved h'.reachable.sound.keyed hc'
    refine ⟨c', hc', hsame.trans hguard, ?_⟩
    exact (h.counterparts h' hresolved hresolved').returns
      (.embodied (h.embodies hc) (h'.embodies hc')) hvalue
  · cases hc.symm.trans he

end Settles

section Permutations

variable {ds before after : List Function} {f : Function}

theorem Awaits.nodup (h : base.Awaits fs) : fs.Nodup := h.distinct.of_map _

/-- Definitions in any order deal with all of the functions. -/
theorem Awaits.settles (h : base.Awaits fs) (hds : ds.Perm fs) (limit : Nat) :
    base.Settles fs ds (base.feed limit (ds.map .definition)) :=
  ⟨h.advances.feed h hds.subset (by simpa using hds.nodup_iff.mpr h.nodup) limit, h,
    hds.symm.subset⟩

/-- In any order, a definition is rejected as it would have been in the first place. -/
theorem Awaits.rejection? (h : base.Awaits fs) (hds : ds.Perm fs)
    (hsplit : ds = before ++ f :: after) (limit : Nat) :
    ((base.feed limit (before.map .definition)).handle limit (.definition f)).2.rejection? =
      base.refusal? f := by
  have hnodup : (before ++ f :: after).Nodup := hsplit ▸ hds.nodup_iff.mpr h.nodup
  obtain ⟨hbefore, -, hapart⟩ := List.nodup_append.mp hnodup
  have hmem {g : Function} (hg : g ∈ before ++ f :: after) : g ∈ fs :=
    hds.subset (hsplit ▸ hg)
  have hadvances : base.Advances fs before (base.feed limit (before.map .definition)) :=
    h.advances.feed h (fun g hg => hmem (List.mem_append_left _ hg)) (by simpa using hbefore) limit
  refine (hadvances.define h (hmem (by simp)) (fun hearlier => ?_) limit).2
  exact hapart f hearlier f List.mem_cons_self rfl

end Permutations

/-- **Functions that have been declared can be defined in any order.**  None of their
names may be in use before: none is declared, so that it has a cell, and none is defined
or a primitive, so that it has an address.

The same definitions are accepted, and the others are rejected with the same errors.
Afterwards every expression is rejected with the same error or in neither case, and
returns the same value, having written the same text, if it returns one at all. -/
theorem Reachable.definitions_commute (hs : s.Reachable) (limit : Nat)
    {fs ds ds' : List Function} (hplain : ∀ f ∈ fs, f.prototype.kind = .function)
    (hnames : (fs.map fun f => f.prototype.name).Nodup)
    (hnew : ∀ f ∈ fs, s.linker.hasCell f.prototype.name = false ∧
      s.linker.isLinked f.prototype.name = false)
    (hds : ds.Perm fs) (hds' : ds'.Perm fs) :
    let declared := s.feed limit (fs.map fun f => .declaration f.prototype)
    let defined := declared.feed limit (ds.map .definition)
    let defined' := declared.feed limit (ds'.map .definition)
    (∀ before f after before' after', ds = before ++ f :: after → ds' = before' ++ f :: after' →
      ((declared.feed limit (before.map .definition)).handle limit
          (.definition f)).2.rejection? =
        ((declared.feed limit (before'.map .definition)).handle limit
          (.definition f)).2.rejection?) ∧
    ∀ body,
      (∀ steps, (defined.evaluate steps body).2.rejection? =
        (defined'.evaluate steps body).2.rejection?) ∧
      ∀ value text, (∃ steps, (defined.evaluate steps body).2 = ⟨.ok (.evaluated value), text⟩) ↔
        ∃ steps, (defined'.evaluate steps body).2 = ⟨.ok (.evaluated value), text⟩ := by
  intro declared defined defined'
  have hsymbol {f : Function} (hf : f ∈ fs) : f.symbol = f.prototype.name := by
    rw [Function.symbol, Prototype.callee, hplain f hf]
    rfl
  have hdistinct : (fs.map Function.symbol).Nodup := by
    rwa [List.map_congr_left fun f hf => hsymbol hf]
  have hawaits : declared.Awaits fs := by
    refine hs.awaits.feed limit hplain hdistinct fun f hf => ?_
    rw [hsymbol hf]
    exact (hnew f hf).symm
  have hsettles := hawaits.settles hds limit
  have hsettles' := hawaits.settles hds' limit
  refine ⟨fun before f after before' after' hsplit hsplit' => ?_, fun body =>
    ⟨fun steps => (hsettles.rejection? hsettles' steps body).symm,
      fun value text => ⟨hsettles.returns hsettles', hsettles'.returns hsettles⟩⟩⟩
  exact (hawaits.rejection? hds hsplit limit).trans (hawaits.rejection? hds' hsplit' limit).symm

/-- Whether a number is even, by way of whether the number before it is odd. -/
def evenFunction : Function :=
  ⟨⟨"even", ["n"], .function⟩, .cond (.binary '<' (.var "n") (.number 1)) (.number 1)
    (.call "odd" [.binary '-' (.var "n") (.number 1)])⟩

/-- Whether a number is odd, by way of whether the number before it is even. -/
def oddFunction : Function :=
  ⟨⟨"odd", ["n"], .function⟩, .cond (.binary '<' (.var "n") (.number 1)) (.number 0)
    (.call "even" [.binary '-' (.var "n") (.number 1)])⟩

/-- Two functions that call each other come to the same whichever is defined first. -/
theorem definitions_commute_evenOdd :
    let declared := (start .standard).feed 0
      ([evenFunction, oddFunction].map fun f => .declaration f.prototype)
    let evenFirst := declared.feed 0 ([evenFunction, oddFunction].map .definition)
    let oddFirst := declared.feed 0 ([oddFunction, evenFunction].map .definition)
    let body : Expr := .call "even" [.number 2]
    (evenFirst.evaluate 100 body).2 = ⟨.ok (.evaluated 1), ""⟩ ∧
      ∃ steps, (oddFirst.evaluate steps body).2 = ⟨.ok (.evaluated 1), ""⟩ := by
  intro declared evenFirst oddFirst body
  have hreturns : (evenFirst.evaluate 100 body).2.outcome.toOption = some (.evaluated 1) := by
    decide +kernel
  have hsilent : (evenFirst.evaluate 100 body).2.output = "" := by decide +kernel
  have hvalue : (evenFirst.evaluate 100 body).2 = ⟨.ok (.evaluated 1), ""⟩ := by
    generalize (evenFirst.evaluate 100 body).2 = response at hreturns hsilent ⊢
    obtain ⟨outcome, output⟩ := response
    obtain rfl : output = "" := hsilent
    cases outcome with
    | error e => cases hreturns
    | ok found =>
        obtain rfl := Option.some.inj hreturns
        rfl
  have hcommute := @Reachable.definitions_commute _ (.start .standard) 0
    [evenFunction, oddFunction] _ _ (by simp [evenFunction, oddFunction]) (by decide) (by decide)
    (.refl _) (.swap evenFunction oddFunction [])
  exact ⟨hvalue, ((hcommute.2 body).2 1 "").mp ⟨100, hvalue⟩⟩

end Session

end Reckon
