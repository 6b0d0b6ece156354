import Reckon.Proofs.Lowering.Renaming
import Reckon.Proofs.Session.Operators

/-!
# Names of variables in a session

A session announces a function before it compiles it, and what it announces holds the names
of the parameters.  Nothing reads them there, so a function compiles in the same way in a
session when one of its parameters, loops or new names gets another name
(`Session.compile_renamesBinder`).
-/

namespace Reckon

namespace Session

/-- Announcing prototypes with the same head leads to surroundings with the same heads. -/
theorem announce_sameHeads (s : Session) {p q : Prototype} (hhead : q.head = p.head)
    (hanonymous : q.isAnonymous = p.isAnonymous) :
    (s.announce p).1.surroundings.SameHeads (s.announce q).1.surroundings := by
  unfold surroundings
  rw [announce_registry, announce_registry, announce_linker, announce_linker, hanonymous]
  split
  · exact .refl _
  · exact .insert s.registry s.linker hhead.symm

/-- **The names of variables do not matter.**  The name of a parameter, of a loop or of a new
name is changed, together with exactly the occurrences that it binds, to one that no variable
of the function has.  Then the function compiles to the same code in the same unit, so with
the same listing and the same references, or to the same error, in given surroundings as well
as in a session that announces it first. -/
theorem compile_renamesBinder {new : String} {f f' : Function} (h : f.RenamesBinder new f')
    (hfresh : new ∉ f.names) :
    (∀ around : Surroundings, around.compile f' =
      (around.compile f).map fun c => ⟨f'.prototype, c.procedure, c.unit⟩) ∧
    ∀ s : Session, (s.compile f').2 =
      (s.compile f).2.map fun c => ⟨f'.prototype, c.procedure, c.unit⟩ := by
  constructor
  · intro around
    exact (Surroundings.SameHeads.refl around).compile_renamed h hfresh
  · intro s
    have hanonymous : f'.prototype.isAnonymous = f.prototype.isAnonymous := by
      cases h <;> rfl
    rw [compile_snd, compile_snd]
    exact (s.announce_sameHeads h.head hanonymous).compile_renamed h hfresh

/-- In `def f(x) var y = x, x = f(y) in for i = x, i < x, y in f(x + i)` the second `x` becomes
`z` from the loop on, but not in its own initial value. -/
theorem compile_renamesBinder_shadowed :
    let loop (x : String) : Expr := .loop "i" (.var x) (.binary '<' (.var "i") (.var x))
      (some (.var "y")) (.call "f" [.binary '+' (.var x) (.var "i")])
    let f (x : String) : Function := ⟨⟨"f", ["x"], .function⟩,
      .locals [("y", some (.var "x")), (x, some (.call "f" [.var "y"]))] (loop x)⟩
    (f "x").RenamesBinder "z" (f "z") ∧ "z" ∉ (f "x").names ∧
      ((start .standard).compile (f "x")).2.toOption.isSome = true ∧
      ((start .standard).compile (f "z")).2 = ((start .standard).compile (f "x")).2.map fun c =>
        ⟨(f "z").prototype, c.procedure, c.unit⟩ := by
  intro loop f
  have hrenames : (f "x").RenamesBinder "z" (f "z") :=
    .inBody (.ofLocal [("y", some (.var "x"))] "x" (some (.call "f" [.var "y"])) [] (loop "x"))
  have hfresh : "z" ∉ (f "x").names := by decide
  exact ⟨hrenames, hfresh, by decide +kernel, (compile_renamesBinder hrenames hfresh).2 _⟩

end Session

end Reckon
