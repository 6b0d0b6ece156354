import Reckon.Proofs.Lowering.Compiling
import Reckon.Proofs.Lowering.Congruence

/-!
# What lowering reads of prototypes

Of a registered prototype, lowering reads the callee and the number of parameters, which are
its head, and never the names of the parameters.  So in surroundings with the same linker and
the same heads every expression is lowered in the same way (`Surroundings.SameHeads.expr`).
-/

namespace Reckon

/-- What calls read of a prototype. -/
def Prototype.head (p : Prototype) : Callee × Nat := (p.callee, p.arity)

/-- Surroundings have the same linker, and register prototypes with the same heads. -/
structure Surroundings.SameHeads (around around' : Surroundings) : Prop where
  linker : around'.linker = around.linker
  heads : ∀ callee, (around'.registry.get? callee).map Prototype.head =
    (around.registry.get? callee).map Prototype.head

namespace CompilationUnit

variable {p q : Prototype}

theorem declareCallee_head (u : CompilationUnit) (h : p.head = q.head) (binding : Binding) :
    u.declareCallee p binding = u.declareCallee q binding := by
  obtain ⟨hcallee, harity⟩ := Prod.mk.inj h
  unfold declareCallee
  rw [hcallee, harity]

theorem declareDefinition_head (u : CompilationUnit) (h : p.head = q.head) :
    u.declareDefinition p = u.declareDefinition q :=
  u.declareCallee_head h .own

theorem declareImport_head (u : CompilationUnit) (h : p.head = q.head) (address : Address) :
    u.declareImport p address = u.declareImport q address := by
  have hcallee : p.callee = q.callee := congrArg Prod.fst h
  unfold declareImport
  rw [u.declareCallee_head h, hcallee]

end CompilationUnit

namespace Surroundings.SameHeads

variable {around around' : Surroundings}

theorem refl (around : Surroundings) : around.SameHeads around := ⟨rfl, fun _ => rfl⟩

/-- Registering prototypes with the same head keeps the heads the same. -/
theorem insert (registry : Registry) (linker : Linker) {p q : Prototype} (h : p.head = q.head) :
    SameHeads ⟨(registry.insert p).1, linker⟩ ⟨(registry.insert q).1, linker⟩ where
  linker := rfl
  heads callee := by
    have hcallee : p.callee = q.callee := congrArg Prod.fst h
    dsimp only
    rw [registry.get?_insert, registry.get?_insert, hcallee]
    split
    · exact congrArg some h.symm
    · rfl

variable (h : around.SameHeads around')
include h

theorem arity?_eq (callee : Callee) : Lower.arity? around' callee = Lower.arity? around callee := by
  have hheads := congrArg (Option.map Prod.snd) (h.heads callee)
  simp only [Option.map_map, Prototype.head, Function.comp_def] at hheads
  unfold Lower.arity?
  have harity : (around'.registry.get? callee).map Prototype.arity =
      (around.registry.get? callee).map Prototype.arity := hheads
  rw [harity]

theorem findRoute_eq (callee : Callee) :
    Lower.findRoute around' callee = Lower.findRoute around callee := by
  have hheads := h.heads callee
  unfold Lower.findRoute
  rw [h.linker]
  cases hget' : around'.registry.get? callee with
  | none =>
      rw [hget', eq_comm, Option.map_none, Option.map_eq_none_iff] at hheads
      rw [hheads]
  | some q =>
      rw [hget', eq_comm, Option.map_some, Option.map_eq_some_iff] at hheads
      obtain ⟨p, hget, hhead⟩ := hheads
      have harity : p.arity = q.arity := congrArg Prod.snd hhead
      rw [hget]
      simp only [CompilationUnit.declareImport_head _ hhead, harity]

/-- **Expressions are lowered in the same way where the same heads are registered.** -/
theorem expr_eq (e : Expr) : Lower.expr around' e = Lower.expr around e := by
  refine Lower.Congruence.same.expr around around' e fun callee _ => ⟨h.arity?_eq callee, ?_⟩
  unfold Lower.route?
  rw [h.findRoute_eq]

end Surroundings.SameHeads

end Reckon
